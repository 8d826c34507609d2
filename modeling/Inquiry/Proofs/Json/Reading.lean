import Inquiry.Json.Text
import Inquiry.Proofs.Json.Integers
set_option autoImplicit false

/-!
What is written is read back. The text of a value is a row of lexemes, at which the scanner takes it
apart, and from which the value is put together again.
-/

namespace Inquiry.Json

/-- Whether numbers are integers in plain spelling, and strings and keys are escaped texts. -/
inductive Plain : Json → Prop where
  | null : Plain .null
  | bool (b : Bool) : Plain (.bool b)
  | int (i : Int) : Plain (ofInt i)
  | text (s : String) : Plain (ofText s)
  | array {items : List Json} (h : ∀ item ∈ items, Plain item) : Plain (.array items)
  | object {members : List (String × Json)} (hk : ∀ m ∈ members, ∃ name, m.1 = escape name)
      (hv : ∀ m ∈ members, Plain m.2) : Plain (.object members)

def Lexeme.chars : Lexeme → List Char
  | .openArray => ['[']
  | .closeArray => [']']
  | .openObject => ['\x7b']
  | .closeObject => ['\x7d']
  | .comma => [',']
  | .colon => [':']
  | .null => ['n', 'u', 'l', 'l']
  | .bool true => ['t', 'r', 'u', 'e']
  | .bool false => ['f', 'a', 'l', 's', 'e']
  | .number spelling => spelling.toList
  | .string spelling => '"' :: (spelling.toList ++ ['"'])

mutual

def lexemes : Json → List Lexeme
  | .null => [.null]
  | .bool b => [.bool b]
  | .number spelling => [.number spelling]
  | .string spelling => [.string spelling]
  | .array [] => [.openArray, .closeArray]
  | .array (item :: items) => .openArray :: (item.lexemes ++ itemLexemes items)
  | .object [] => [.openObject, .closeObject]
  | .object ((key, value) :: members) =>
    .openObject :: .string key :: .colon :: (value.lexemes ++ memberLexemes members)
  termination_by structural j => j

def itemLexemes : List Json → List Lexeme
  | [] => [.closeArray]
  | item :: items => .comma :: (item.lexemes ++ itemLexemes items)
  termination_by structural items => items

def memberLexemes : List (String × Json) → List Lexeme
  | [] => [.closeObject]
  | (key, value) :: members =>
    .comma :: .string key :: .colon :: (value.lexemes ++ memberLexemes members)
  termination_by structural members => members

end

def spell (lexemes : List Lexeme) : List Char := lexemes.flatMap Lexeme.chars

@[simp] theorem spell_nil : spell [] = [] := rfl

@[simp] theorem spell_cons (lexeme : Lexeme) (rest : List Lexeme) :
    spell (lexeme :: rest) = lexeme.chars ++ spell rest := List.flatMap_cons

@[simp] theorem spell_append (lexemes rest : List Lexeme) :
    spell (lexemes ++ rest) = spell lexemes ++ spell rest := List.flatMap_append

section Writing

theorem toList_writeItems {items : List Json}
    (h : ∀ item ∈ items, ∀ out, (item.write out).toList = out.toList ++ spell item.lexemes)
    (out : String) :
    (writeItems out items ++ "]").toList = out.toList ++ spell (itemLexemes items) := by
  induction items generalizing out with
  | nil => simp [writeItems, itemLexemes, Lexeme.chars]
  | cons item items ih =>
    obtain ⟨hitem, hitems⟩ := List.forall_mem_cons.mp h
    rw [writeItems, ih hitems, hitem]
    simp [itemLexemes, Lexeme.chars]

theorem toList_writeMembers {members : List (String × Json)}
    (h : ∀ m ∈ members, ∀ out, (m.2.write out).toList = out.toList ++ spell m.2.lexemes)
    (out : String) : (writeMembers out members ++ "\x7d").toList =
      out.toList ++ spell (memberLexemes members) := by
  induction members generalizing out with
  | nil => simp [writeMembers, memberLexemes, Lexeme.chars]
  | cons m members ih =>
    obtain ⟨key, value⟩ := m
    obtain ⟨hvalue, hmembers⟩ := List.forall_mem_cons.mp h
    rw [writeMembers, ih hmembers, hvalue]
    simp [memberLexemes, Lexeme.chars]

theorem Plain.toList_write {j : Json} (hj : j.Plain) (out : String) :
    (j.write out).toList = out.toList ++ spell j.lexemes := by
  induction hj generalizing out with
  | null | int | text => simp [ofInt, ofText, write, lexemes, Lexeme.chars]
  | bool b => cases b <;> simp [write, lexemes, Lexeme.chars]
  | @array items h ih =>
    cases items with
    | nil => simp [write, lexemes, Lexeme.chars]
    | cons item items =>
      obtain ⟨hitem, hitems⟩ := List.forall_mem_cons.mp ih
      rw [write, toList_writeItems hitems, hitem]
      simp [lexemes, Lexeme.chars]
  | @object members hk hv ih =>
    cases members with
    | nil => simp [write, lexemes, Lexeme.chars]
    | cons m members =>
      obtain ⟨key, value⟩ := m
      obtain ⟨hvalue, hmembers⟩ := List.forall_mem_cons.mp ih
      rw [write, toList_writeMembers hmembers, hvalue]
      simp [lexemes, Lexeme.chars]

end Writing

section Scanning

def delimits (c : Char) : Bool := isSpace c || (punctuation? c).isSome || c == '"'

/-- Whether a word in front would end here. -/
def Ends (rest : List Char) : Prop := ∀ c ∈ rest.head?, delimits c = true

theorem ends_spell_itemLexemes (items : List Json) (rest : List Char) :
    Ends (spell (itemLexemes items) ++ rest) := by
  cases items <;> simp [Ends, itemLexemes, Lexeme.chars] <;> rfl

theorem ends_spell_memberLexemes (members : List (String × Json)) (rest : List Char) :
    Ends (spell (memberLexemes members) ++ rest) := by
  cases members <;> simp [Ends, memberLexemes, Lexeme.chars] <;> rfl

theorem delimits_eq_false {c : Char} (hc : Numeral.isDigit c = true ∨ c = '-') :
    delimits c = false := by
  have hmem : delimits c = true →
      c ∈ [' ', '\t', '\n', '\r', '[', ']', '\x7b', '\x7d', ',', ':', '"'] := by
    simp only [List.mem_cons]
    grind [delimits, isSpace, punctuation?]
  have hnone : ∀ other ∈ [' ', '\t', '\n', '\r', '[', ']', '\x7b', '\x7d', ',', ':', '"'],
      ¬(Numeral.isDigit other = true ∨ other = '-') := by
    simp [Numeral.isDigit]
  exact Bool.eq_false_iff.mpr fun hd => hnone c (hmem hd) hc

namespace Scan

theorem run_punctuation {lexeme : Lexeme} (hl : lexeme ∈
      [.openArray, .closeArray, .openObject, .closeObject, .comma, .colon])
    (out : List Lexeme) (rest : List Char) :
    run out .between (lexeme.chars ++ rest) = run (lexeme :: out) .between rest := by
  simp only [List.mem_cons, List.not_mem_nil, or_false] at hl
  rcases hl with rfl | rfl | rfl | rfl | rfl | rfl <;> rfl

theorem run_word_append (out : List Lexeme) {cs : List Char}
    (hc : ∀ c ∈ cs, delimits c = false) (read rest : List Char) :
    run out (.word read) (cs ++ rest) = run out (.word (cs.reverse ++ read)) rest := by
  induction cs generalizing read with
  | nil => rfl
  | cons c cs ih =>
    obtain ⟨hd, hcs⟩ := List.forall_mem_cons.mp hc
    have hnext : Scan.next c out (.word read) = some (.word (c :: read), out) :=
      if_neg (by simpa [delimits] using hd)
    simp only [List.cons_append, run, hnext]
    rw [ih hcs, List.reverse_cons, List.append_assoc]
    rfl

theorem run_word {cs : List Char} {word : Lexeme} (hw : Lexeme.ofWord? cs = some word)
    (hc : ∀ c ∈ cs, delimits c = false) (out : List Lexeme) {rest : List Char} (hr : Ends rest) :
    run out .between (cs ++ rest) = run (word :: out) .between rest := by
  cases cs with
  | nil => contradiction
  | cons c cs =>
    obtain ⟨hd, hcs⟩ := List.forall_mem_cons.mp hc
    have hfirst : Scan.next c out .between = some (.word [c], out) := by
      simp only [delimits, Bool.or_eq_false_iff, Option.isSome_eq_false_iff,
        Option.isNone_iff_eq_none, beq_eq_false_iff_ne] at hd
      simp [next, next.begin, hd]
    simp only [List.cons_append, run, hfirst]
    rw [run_word_append out hcs]
    cases rest with
    | nil => simp [run, hw]
    | cons other rest =>
      have hother : delimits other = true := hr other rfl
      have hnext : Scan.next other out (.word (cs.reverse ++ [c])) =
          Scan.next other (word :: out) .between := by
        simp only [delimits] at hother
        simp [next, hother, hw]
      simp only [run, hnext]

theorem hexDigit?_digitChar {n : Nat} (hn : n < 16) : (hexDigit? n.digitChar).isSome = true := by
  have hall : ∀ n : Fin 16, (hexDigit? n.val.digitChar).isSome = true := by decide
  exact hall ⟨n, hn⟩

theorem run_escapeChar (out : List Lexeme) (read rest : List Char) (c : Char) :
    run out (.string read) (escapeChar c ++ rest) =
      run out (.string ((escapeChar c).reverse ++ read)) rest := by
  by_cases hc : c ∈ ['"', '\\', '\x08', '\t', '\n', '\x0c', '\r']
  · simp only [List.mem_cons, List.not_mem_nil, or_false] at hc
    rcases hc with rfl | rfl | rfl | rfl | rfl | rfl | rfl <;> rfl
  · simp only [List.mem_cons, List.not_mem_nil, or_false, not_or] at hc
    obtain ⟨hq, hb, hbs, ht, hn, hf, hr⟩ := hc
    by_cases h : c.toNat < 0x20
    · have hhigh := hexDigit?_digitChar (n := c.toNat / 16) (by omega)
      have hlow := hexDigit?_digitChar (n := c.toNat % 16) (by omega)
      rw [Option.isSome_iff_ne_none] at hhigh hlow
      have hzero : hexDigit? '0' = some 0 := by decide
      simp [escapeChar, hq, hb, hbs, ht, hn, hf, hr, h, run, next, hzero, hhigh, hlow]
    · simp [escapeChar, hq, hb, hbs, ht, hn, hf, hr, h, run, next]

theorem run_flatMap_escapeChar (out : List Lexeme) (s read rest : List Char) :
    run out (.string read) (s.flatMap escapeChar ++ rest) =
      run out (.string ((s.flatMap escapeChar).reverse ++ read)) rest := by
  induction s generalizing read with
  | nil => rfl
  | cons c s ih => simp [run_escapeChar, ih]

theorem run_string (s : String) (out : List Lexeme) (rest : List Char) :
    run out .between ((Lexeme.string (Json.escape s)).chars ++ rest) =
      run (.string (Json.escape s) :: out) .between rest := by
  have hopen (cs : List Char) : run out .between ('"' :: cs) = run out (.string []) cs := rfl
  have hclose (read : List Char) : run out (.string read) ('"' :: rest) =
      run (.string (String.ofList read.reverse) :: out) .between rest := rfl
  simp only [Lexeme.chars, Json.escape, String.toList_ofList, List.cons_append, List.append_assoc,
    hopen, run_flatMap_escapeChar, List.nil_append, hclose, List.append_nil, List.reverse_reverse]

theorem ofWord?_of_ofChars? {cs : List Char} {numeral : Numeral}
    (hn : Numeral.ofChars? cs = some numeral) :
    Lexeme.ofWord? cs = some (.number (String.ofList cs)) := by
  have hnone : ∀ word ∈ [['n', 'u', 'l', 'l'], ['t', 'r', 'u', 'e'], ['f', 'a', 'l', 's', 'e']],
      Numeral.ofChars? word = none := by decide
  have hne : ∀ word ∈ [['n', 'u', 'l', 'l'], ['t', 'r', 'u', 'e'], ['f', 'a', 'l', 's', 'e']],
      cs ≠ word := by
    rintro _ hword rfl
    cases hn.symm.trans (hnone _ hword)
  simp only [List.forall_mem_cons] at hne
  simp [Lexeme.ofWord?, hne, hn]

theorem run_int (i : Int) (out : List Lexeme) {rest : List Char} (hr : Ends rest) :
    run out .between ((toString i).toList ++ rest) =
      run (.number (toString i) :: out) .between rest := by
  obtain ⟨_, hn, _⟩ := Numeral.ofChars?_toString i
  have hword := ofWord?_of_ofChars? hn
  rw [String.ofList_toList] at hword
  exact run_word hword (fun _ hc => delimits_eq_false (Numeral.isDigit_or_eq_minus hc)) out hr

end Scan

/-- Whether the scanner takes in the lexemes of the value one after the other. -/
def Scans (j : Json) : Prop :=
  ∀ (out : List Lexeme) (rest : List Char), Ends rest →
    Scan.run out .between (spell j.lexemes ++ rest) =
      Scan.run (j.lexemes.reverse ++ out) .between rest

theorem run_itemLexemes {items : List Json} (h : ∀ item ∈ items, item.Scans) (out : List Lexeme)
    (rest : List Char) :
    Scan.run out .between (spell (itemLexemes items) ++ rest) =
      Scan.run ((itemLexemes items).reverse ++ out) .between rest := by
  induction items generalizing out with
  | nil =>
    simp only [itemLexemes, spell_cons, spell_nil, List.append_assoc]
    rw [Scan.run_punctuation (by simp)]
    rfl
  | cons item items ih =>
    obtain ⟨hitem, hitems⟩ := List.forall_mem_cons.mp h
    simp only [itemLexemes, spell_cons, spell_append, List.append_assoc]
    rw [Scan.run_punctuation (by simp), hitem _ _ (ends_spell_itemLexemes items rest), ih hitems]
    simp

theorem run_memberLexemes {members : List (String × Json)}
    (hk : ∀ m ∈ members, ∃ name, m.1 = escape name) (hv : ∀ m ∈ members, m.2.Scans)
    (out : List Lexeme) (rest : List Char) :
    Scan.run out .between (spell (memberLexemes members) ++ rest) =
      Scan.run ((memberLexemes members).reverse ++ out) .between rest := by
  induction members generalizing out with
  | nil =>
    simp only [memberLexemes, spell_cons, spell_nil, List.append_assoc]
    rw [Scan.run_punctuation (by simp)]
    rfl
  | cons m members ih =>
    obtain ⟨key, value⟩ := m
    obtain ⟨⟨name, rfl⟩, hkeys⟩ := List.forall_mem_cons.mp hk
    obtain ⟨hvalue, hvalues⟩ := List.forall_mem_cons.mp hv
    simp only [memberLexemes, spell_cons, spell_append, List.append_assoc]
    rw [Scan.run_punctuation (by simp), Scan.run_string, Scan.run_punctuation (by simp),
      hvalue _ _ (ends_spell_memberLexemes members rest), ih hkeys hvalues]
    simp

theorem Plain.scans {j : Json} (hj : j.Plain) : j.Scans := by
  induction hj with
  | null =>
    intro out rest hr
    have hchars : ∀ c ∈ Lexeme.null.chars, delimits c = false := by
      simp [Lexeme.chars, delimits, isSpace, punctuation?]
    simpa [lexemes] using Scan.run_word rfl hchars out hr
  | bool b =>
    intro out rest hr
    have hword : Lexeme.ofWord? (Lexeme.bool b).chars = some (.bool b) := by cases b <;> rfl
    have hchars : ∀ c ∈ (Lexeme.bool b).chars, delimits c = false := by
      cases b <;> simp [Lexeme.chars, delimits, isSpace, punctuation?]
    simpa [lexemes] using Scan.run_word hword hchars out hr
  | int i =>
    intro out rest hr
    simpa [lexemes, ofInt, Lexeme.chars] using Scan.run_int i out hr
  | text s =>
    intro out rest _
    simpa [lexemes, ofText] using Scan.run_string s out rest
  | @array items h ih =>
    intro out rest hr
    cases items with
    | nil =>
      simp only [lexemes, spell_cons, spell_nil, List.append_assoc]
      rw [Scan.run_punctuation (by simp), Scan.run_punctuation (by simp)]
      rfl
    | cons item items =>
      obtain ⟨hitem, hitems⟩ := List.forall_mem_cons.mp ih
      simp only [lexemes, spell_cons, spell_append, List.append_assoc]
      rw [Scan.run_punctuation (by simp), hitem _ _ (ends_spell_itemLexemes items rest),
        run_itemLexemes hitems]
      simp
  | @object members hk hv ih =>
    intro out rest hr
    cases members with
    | nil =>
      simp only [lexemes, spell_cons, spell_nil, List.append_assoc]
      rw [Scan.run_punctuation (by simp), Scan.run_punctuation (by simp)]
      rfl
    | cons m members =>
      obtain ⟨key, value⟩ := m
      obtain ⟨⟨name, rfl⟩, hkeys⟩ := List.forall_mem_cons.mp hk
      obtain ⟨hvalue, hvalues⟩ := List.forall_mem_cons.mp ih
      simp only [lexemes, spell_cons, spell_append, List.append_assoc]
      rw [Scan.run_punctuation (by simp), Scan.run_string, Scan.run_punctuation (by simp),
        hvalue _ _ (ends_spell_memberLexemes members rest), run_memberLexemes hkeys hvalues]
      simp

theorem Plain.lexemes?_compact {j : Json} (hj : j.Plain) : lexemes? j.compact = some j.lexemes := by
  have hwrite : j.compact.toList = spell j.lexemes := hj.toList_write ""
  have hscan := hj.scans [] [] (by simp [Ends])
  rw [List.append_nil, List.append_nil] at hscan
  rw [lexemes?, hwrite, hscan, Scan.run, List.reverse_reverse]

end Scanning

section Assembling

/-- Whether the value is put together from its lexemes, whatever it is a part of. -/
def Assembles (j : Json) : Prop :=
  ∀ (stack : List Open) (rest : List Lexeme),
    assemble none stack (j.lexemes ++ rest) = assemble (some j) stack rest

theorem assemble_itemLexemes {items : List Json} (h : ∀ item ∈ items, item.Assembles) (j : Json)
    (read : List Json) (stack : List Open) (rest : List Lexeme) :
    assemble (some j) (.array read :: stack) (itemLexemes items ++ rest) =
      assemble (some (.array (read.reverse ++ j :: items))) stack rest := by
  induction items generalizing j read with
  | nil => simp [itemLexemes, assemble]
  | cons item items ih =>
    obtain ⟨hitem, hitems⟩ := List.forall_mem_cons.mp h
    simp only [itemLexemes, List.cons_append, List.append_assoc, assemble]
    rw [hitem, ih hitems]
    simp

theorem assemble_memberLexemes {members : List (String × Json)}
    (h : ∀ m ∈ members, m.2.Assembles) (key : String) (j : Json) (read : List (String × Json))
    (stack : List Open) (rest : List Lexeme) :
    assemble (some j) (.object read key :: stack) (memberLexemes members ++ rest) =
      assemble (some (.object (read.reverse ++ (key, j) :: members))) stack rest := by
  induction members generalizing key j read with
  | nil => simp [memberLexemes, assemble]
  | cons m members ih =>
    obtain ⟨next, value⟩ := m
    obtain ⟨hvalue, hvalues⟩ := List.forall_mem_cons.mp h
    simp only [memberLexemes, List.cons_append, List.append_assoc, assemble]
    rw [hvalue, ih hvalues]
    simp

theorem lexemes_append_ne (j : Json) (rest other : List Lexeme) :
    j.lexemes ++ rest ≠ .closeArray :: other := by
  cases j with
  | array items => cases items <;> simp [lexemes]
  | object members => cases members <;> simp [lexemes]
  | _ => simp [lexemes]

theorem assemble_openArray {lexemes : List Lexeme}
    (h : ∀ other, lexemes ≠ .closeArray :: other) (stack : List Open) :
    assemble none stack (.openArray :: lexemes) = assemble none (.array [] :: stack) lexemes := by
  cases lexemes with
  | nil => rfl
  | cons lexeme rest =>
    cases lexeme with
    | closeArray => exact absurd rfl (h rest)
    | _ => rfl

theorem Plain.assembles {j : Json} (hj : j.Plain) : j.Assembles := by
  induction hj with
  | null | bool | int | text => exact fun _ _ => rfl
  | @array items h ih =>
    intro stack rest
    cases items with
    | nil => rfl
    | cons item items =>
      obtain ⟨hitem, hitems⟩ := List.forall_mem_cons.mp ih
      simp only [lexemes, List.cons_append, List.append_assoc]
      rw [assemble_openArray (item.lexemes_append_ne _), hitem, assemble_itemLexemes hitems]
      rfl
  | @object members hk hv ih =>
    intro stack rest
    cases members with
    | nil => rfl
    | cons m members =>
      obtain ⟨key, value⟩ := m
      obtain ⟨hvalue, hvalues⟩ := List.forall_mem_cons.mp ih
      simp only [lexemes, List.cons_append, List.append_assoc, assemble]
      rw [hvalue, assemble_memberLexemes hvalues]
      rfl

end Assembling

theorem Plain.parse?_of_lexemes? {j : Json} (hj : j.Plain) {text : String}
    (h : lexemes? text = some j.lexemes) : parse? text = some j := by
  have hassemble := hj.assembles [] []
  rw [List.append_nil] at hassemble
  rw [parse?, h, Option.bind_some, hassemble]
  rfl

/-- What is written is read back. -/
theorem Plain.parse?_compact {j : Json} (hj : j.Plain) : parse? j.compact = some j :=
  hj.parse?_of_lexemes? hj.lexemes?_compact

theorem plain_ofMembers {members : List (String × Json)} (h : ∀ m ∈ members, m.2.Plain) :
    (ofMembers members).Plain := by
  refine .object (fun m hm => ?_) fun m hm => ?_
  · obtain ⟨named, _, rfl⟩ := List.mem_map.mp hm
    exact ⟨named.1, rfl⟩
  · obtain ⟨named, hn, rfl⟩ := List.mem_map.mp hm
    exact h named hn

theorem plain_pair {name : String} {content : Json} (h : content.Plain) :
    (ofMembers [("type", .ofText name), ("value", content)]).Plain :=
  plain_ofMembers (by simp [h, Plain.text])

end Inquiry.Json
