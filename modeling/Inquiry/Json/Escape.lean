set_option autoImplicit false

namespace Inquiry.Json

def escapeChar (c : Char) : List Char :=
  if c = '"' then ['\\', '"']
  else if c = '\\' then ['\\', '\\']
  else if c = '\x08' then ['\\', 'b']
  else if c = '\t' then ['\\', 't']
  else if c = '\n' then ['\\', 'n']
  else if c = '\x0c' then ['\\', 'f']
  else if c = '\r' then ['\\', 'r']
  else if c.toNat < 0x20 then
    ['\\', 'u', '0', '0', Nat.digitChar (c.toNat / 16), Nat.digitChar (c.toNat % 16)]
  else [c]

def escape (s : String) : String := String.ofList (s.toList.flatMap escapeChar)

def hexDigit? (c : Char) : Option Nat :=
  if '0' ≤ c ∧ c ≤ '9' then some (c.toNat - '0'.toNat)
  else if 'a' ≤ c ∧ c ≤ 'f' then some (c.toNat - 'a'.toNat + 10)
  else if 'A' ≤ c ∧ c ≤ 'F' then some (c.toNat - 'A'.toNat + 10)
  else none

def codeUnit? (a b c d : Char) : Option Nat := do
  return (((← hexDigit? a) * 16 + (← hexDigit? b)) * 16 + (← hexDigit? c)) * 16 + (← hexDigit? d)

def shortEscape? (c : Char) : Option Char :=
  if c = '"' ∨ c = '\\' ∨ c = '/' then some c
  else if c = 'b' then some '\x08'
  else if c = 'f' then some '\x0c'
  else if c = 'n' then some '\n'
  else if c = 'r' then some '\r'
  else if c = 't' then some '\t'
  else none

/-- The characters a string stands for, after those of `out` (last one first). There are none
if the string holds half of a surrogate pair. -/
def unescapeFrom (out : List Char) : List Char → Option (List Char)
  | '\\' :: 'u' :: a :: b :: c :: d :: rest =>
    match codeUnit? a b c d with
    | none => none
    | some unit =>
      if 0xD800 ≤ unit ∧ unit < 0xDC00 then
        match rest with
        | '\\' :: 'u' :: a' :: b' :: c' :: d' :: rest' =>
          match codeUnit? a' b' c' d' with
          | none => none
          | some low =>
            if 0xDC00 ≤ low ∧ low < 0xE000 then
              unescapeFrom
                (Char.ofNat (0x10000 + (unit - 0xD800) * 0x400 + (low - 0xDC00)) :: out) rest'
            else none
        | _ => none
      else if 0xDC00 ≤ unit ∧ unit < 0xE000 then none
      else unescapeFrom (Char.ofNat unit :: out) rest
  | '\\' :: c :: rest =>
    match shortEscape? c with
    | some e => unescapeFrom (e :: out) rest
    | none => none
  | '\\' :: [] => none
  | c :: rest => unescapeFrom (c :: out) rest
  | [] => some out.reverse

def unescape? (spelling : String) : Option String :=
  (unescapeFrom [] spelling.toList).map String.ofList

theorem codeUnit?_digitChar (n : Nat) (h : n < 0x20) :
    codeUnit? '0' '0' (Nat.digitChar (n / 16)) (Nat.digitChar (n % 16)) = some n := by
  have : ∀ n : Fin 0x20,
      codeUnit? '0' '0' (Nat.digitChar (n.val / 16)) (Nat.digitChar (n.val % 16)) = some n.val := by
    decide
  exact this ⟨n, h⟩

theorem unescapeFrom_cons (out rest : List Char) (c : Char) (h : c ≠ '\\') :
    unescapeFrom out (c :: rest) = unescapeFrom (c :: out) rest := by
  rw [unescapeFrom] <;> simp_all

theorem unescapeFrom_escapeChar (out rest : List Char) (c : Char) :
    unescapeFrom out (escapeChar c ++ rest) = unescapeFrom (c :: out) rest := by
  by_cases hc : c ∈ ['"', '\\', '\x08', '\t', '\n', '\x0c', '\r']
  · simp only [List.mem_cons, List.not_mem_nil, or_false] at hc
    rcases hc with rfl | rfl | rfl | rfl | rfl | rfl | rfl <;> rfl
  · simp only [List.mem_cons, List.not_mem_nil, or_false, not_or] at hc
    obtain ⟨hq, hb, hbs, ht, hn, hf, hr⟩ := hc
    by_cases h : c.toNat < 0x20
    · have hs : ¬ 0xD800 ≤ c.toNat := by omega
      have hl : ¬ 0xDC00 ≤ c.toNat := by omega
      simp [escapeChar, hq, hb, hbs, ht, hn, hf, hr, h, unescapeFrom,
        codeUnit?_digitChar c.toNat h, hs, hl]
    · simp only [escapeChar, hq, hb, hbs, ht, hn, hf, hr, h, if_false]
      exact unescapeFrom_cons out rest c hb

theorem unescapeFrom_flatMap (s out : List Char) :
    unescapeFrom out (s.flatMap escapeChar) = some (out.reverse ++ s) := by
  induction s generalizing out with
  | nil => simp [unescapeFrom]
  | cons c s ih => simp [unescapeFrom_escapeChar, ih]

theorem unescape?_escape (s : String) : unescape? (escape s) = some s := by
  simp [unescape?, escape, unescapeFrom_flatMap]

end Inquiry.Json
