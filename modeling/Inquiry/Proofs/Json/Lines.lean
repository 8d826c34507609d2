import Inquiry.Proofs.Json.Reading
set_option autoImplicit false

namespace Inquiry.Json

namespace Scan

theorem run_spaces (out : List Lexeme) {spaces : List Char} (hs : ∀ c ∈ spaces, isSpace c = true)
    (rest : List Char) : run out .between (spaces ++ rest) = run out .between rest := by
  induction spaces with
  | nil => rfl
  | cons c spaces ih =>
    obtain ⟨hc, hspaces⟩ := List.forall_mem_cons.mp hs
    simp only [List.cons_append, run, next, next.begin, hc, if_true]
    exact ih hspaces

end Scan

/-- From these characters the scanner takes in these lexemes, if what comes next ends a word. -/
def Spells (cs : List Char) (lexemes : List Lexeme) : Prop :=
  ∀ (out : List Lexeme) (rest : List Char), Ends rest →
    Scan.run out .between (cs ++ rest) = Scan.run (lexemes.reverse ++ out) .between rest

/-- The value is written, at this level, so that its lexemes are taken in. -/
def Lays (j : Json) (level : Nat) : Prop :=
  ∃ cs, (∀ out, (j.writePretty level out).toList = out.toList ++ cs) ∧ Spells cs j.lexemes

theorem toList_newline (level : Nat) :
    (newline level).toList = '\n' :: List.replicate (2 * level) ' ' := by
  unfold newline
  induction 2 * level with
  | zero => rfl
  | succ n ih =>
    have hpush : ("\n".pushn ' ' (n + 1)).toList = ("\n".pushn ' ' n).toList ++ [' '] :=
      String.toList_push _
    rw [hpush, ih, List.replicate_succ']
    rfl

theorem run_newline (out : List Lexeme) (level : Nat) (rest : List Char) :
    Scan.run out .between ((newline level).toList ++ rest) = Scan.run out .between rest := by
  apply Scan.run_spaces
  intro c hc
  rw [toList_newline, List.mem_cons, List.mem_replicate] at hc
  rcases hc with rfl | ⟨_, rfl⟩ <;> rfl

theorem ends_newline (level : Nat) (rest : List Char) : Ends ((newline level).toList ++ rest) := by
  simp [Ends, toList_newline]
  rfl

theorem ends_comma (rest : List Char) : Ends (',' :: rest) := by
  simp [Ends]
  rfl

theorem run_comma (out : List Lexeme) (rest : List Char) :
    Scan.run out .between (',' :: rest) = Scan.run (.comma :: out) .between rest :=
  @Scan.run_punctuation .comma (by simp) out rest

theorem run_key (name : String) (out : List Lexeme) (rest : List Char) :
    Scan.run out .between ('"' :: ((escape name).toList ++ '"' :: ':' :: ' ' :: rest)) =
      Scan.run (.colon :: .string (escape name) :: out) .between rest := by
  have hkey := Scan.run_string name out (':' :: ' ' :: rest)
  simp only [Lexeme.chars, List.cons_append, List.append_assoc, List.nil_append] at hkey
  rw [hkey]
  rfl

theorem lays_items {items : List Json} (h : ∀ item ∈ items, ∀ level, item.Lays level)
    (level outer : Nat) :
    ∃ cs, (∀ out, (writePrettyItems level out items ++ newline outer ++ "]").toList =
        out.toList ++ cs) ∧ (∀ rest, Ends (cs ++ rest)) ∧ Spells cs (itemLexemes items) := by
  induction items with
  | nil =>
    refine ⟨(newline outer).toList ++ [']'], fun out => ?_, fun rest => ?_, fun out rest _ => ?_⟩
    · simp [writePrettyItems]
    · rw [List.append_assoc]
      exact ends_newline outer _
    · rw [List.append_assoc, run_newline]
      exact @Scan.run_punctuation .closeArray (by simp) out rest
  | cons item items ih =>
    obtain ⟨hitem, hitems⟩ := List.forall_mem_cons.mp h
    obtain ⟨cs, hwrite, hcs⟩ := hitem level
    obtain ⟨tail, htail, hends, hspells⟩ := ih hitems
    refine ⟨',' :: ((newline level).toList ++ (cs ++ tail)), fun out => ?_,
      fun rest => ends_comma _, fun out rest hr => ?_⟩
    · rw [writePrettyItems, htail, hwrite]
      simp
    · simp only [List.cons_append, List.append_assoc]
      rw [run_comma, run_newline, hcs _ _ (hends rest), hspells _ _ hr]
      simp [itemLexemes]

theorem lays_members {members : List (String × Json)}
    (hk : ∀ m ∈ members, ∃ name, m.1 = escape name) (hv : ∀ m ∈ members, ∀ level, m.2.Lays level)
    (level outer : Nat) :
    ∃ cs, (∀ out, (writePrettyMembers level out members ++ newline outer ++ "\x7d").toList =
        out.toList ++ cs) ∧ (∀ rest, Ends (cs ++ rest)) ∧ Spells cs (memberLexemes members) := by
  induction members with
  | nil =>
    refine ⟨(newline outer).toList ++ ['\x7d'], fun out => ?_, fun rest => ?_, fun out rest _ => ?_⟩
    · simp [writePrettyMembers]
    · rw [List.append_assoc]
      exact ends_newline outer _
    · rw [List.append_assoc, run_newline]
      exact @Scan.run_punctuation .closeObject (by simp) out rest
  | cons m members ih =>
    obtain ⟨key, value⟩ := m
    obtain ⟨⟨name, rfl⟩, hkeys⟩ := List.forall_mem_cons.mp hk
    obtain ⟨hvalue, hvalues⟩ := List.forall_mem_cons.mp hv
    obtain ⟨cs, hwrite, hcs⟩ := hvalue level
    obtain ⟨tail, htail, hends, hspells⟩ := ih hkeys hvalues
    refine ⟨',' :: ((newline level).toList ++
      '"' :: ((escape name).toList ++ '"' :: ':' :: ' ' :: (cs ++ tail))), fun out => ?_,
      fun rest => ends_comma _, fun out rest hr => ?_⟩
    · rw [writePrettyMembers, htail, hwrite]
      simp
    · simp only [List.cons_append, List.append_assoc]
      rw [run_comma, run_newline, run_key, hcs _ _ (hends rest), hspells _ _ hr]
      simp [memberLexemes]

theorem Plain.lays_of_write {j : Json} (hj : j.Plain) {level : Nat}
    (hw : ∀ out, j.writePretty level out = j.write out) : j.Lays level :=
  ⟨spell j.lexemes, fun out => (hw out).symm ▸ hj.toList_write out, hj.scans⟩

theorem Plain.lays {j : Json} (hj : j.Plain) (level : Nat) : j.Lays level := by
  induction hj generalizing level with
  | null => exact Plain.null.lays_of_write fun out => by simp only [writePretty, write]
  | bool b =>
    exact (Plain.bool b).lays_of_write fun out => by cases b <;> simp only [writePretty, write]
  | int i => exact (Plain.int i).lays_of_write fun out => by simp only [ofInt, writePretty, write]
  | text s =>
    exact (Plain.text s).lays_of_write fun out => by simp only [ofText, writePretty, write]
  | @array items h ih =>
    cases items with
    | nil =>
      exact (Plain.array h).lays_of_write fun out => by simp only [writePretty, write]
    | cons item items =>
      obtain ⟨hitem, hitems⟩ := List.forall_mem_cons.mp ih
      obtain ⟨cs, hwrite, hcs⟩ := hitem (level + 1)
      obtain ⟨tail, htail, hends, hspells⟩ := lays_items hitems (level + 1) level
      refine ⟨'[' :: ((newline (level + 1)).toList ++ (cs ++ tail)), fun out => ?_,
        fun out rest hr => ?_⟩
      · rw [writePretty, htail, hwrite]
        simp
      · have hopen := @Scan.run_punctuation .openArray (by simp) out
          ((newline (level + 1)).toList ++ (cs ++ (tail ++ rest)))
        simp only [Lexeme.chars, List.cons_append, List.nil_append, List.append_assoc] at hopen ⊢
        rw [hopen, run_newline, hcs _ _ (hends rest), hspells _ _ hr]
        simp [lexemes]
  | @object members hk hv ih =>
    cases members with
    | nil =>
      exact (Plain.object hk hv).lays_of_write fun out => by simp only [writePretty, write]
    | cons m members =>
      obtain ⟨key, value⟩ := m
      obtain ⟨⟨name, rfl⟩, hkeys⟩ := List.forall_mem_cons.mp hk
      obtain ⟨hvalue, hvalues⟩ := List.forall_mem_cons.mp ih
      obtain ⟨cs, hwrite, hcs⟩ := hvalue (level + 1)
      obtain ⟨tail, htail, hends, hspells⟩ := lays_members hkeys hvalues (level + 1) level
      refine ⟨'\x7b' :: ((newline (level + 1)).toList ++
        '"' :: ((escape name).toList ++ '"' :: ':' :: ' ' :: (cs ++ tail))), fun out => ?_,
        fun out rest hr => ?_⟩
      · rw [writePretty, htail, hwrite]
        simp
      · have hopen := @Scan.run_punctuation .openObject (by simp) out
          ((newline (level + 1)).toList ++
            '"' :: ((escape name).toList ++ '"' :: ':' :: ' ' :: (cs ++ (tail ++ rest))))
        simp only [Lexeme.chars, List.cons_append, List.nil_append, List.append_assoc] at hopen ⊢
        rw [hopen, run_newline, run_key, hcs _ _ (hends rest), hspells _ _ hr]
        simp [lexemes]

theorem Plain.lexemes?_pretty {j : Json} (hj : j.Plain) : lexemes? j.pretty = some j.lexemes := by
  obtain ⟨cs, hwrite, hcs⟩ := hj.lays 0
  have htext : j.pretty.toList = cs := hwrite ""
  have hscan := hcs [] [] (by simp [Ends])
  rw [List.append_nil, List.append_nil] at hscan
  rw [lexemes?, htext, hscan, Scan.run, List.reverse_reverse]

/-- What is written line by line is read back. -/
theorem Plain.parse?_pretty {j : Json} (hj : j.Plain) : parse? j.pretty = some j :=
  hj.parse?_of_lexemes? hj.lexemes?_pretty

theorem Plain.eq_of_pretty {j k : Json} (hj : j.Plain) (hk : k.Plain)
    (h : j.pretty = k.pretty) : j = k := by
  have hread := hj.parse?_pretty
  rw [h, hk.parse?_pretty] at hread
  exact (Option.some.inj hread).symm

end Inquiry.Json
