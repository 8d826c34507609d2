import Mathlib.Data.List.TakeWhile
import Inquiry.Json.Reader
set_option autoImplicit false

/-!
Integers in JSON. They are spelled by their digits, with a sign where needed, and are read back as
they were.
-/

namespace Inquiry

open Nat (toDigits)

theorem digitChar_eq_zero {n : Nat} (hn : n < 10) (h : n.digitChar = '0') : n = 0 := by
  have hall : ∀ n : Fin 10, n.val.digitChar = '0' → n.val = 0 := by decide
  exact hall ⟨n, hn⟩ h

theorem toDigits_zero_cons {n : Nat} {rest : List Char} (h : toDigits 10 n = '0' :: rest) :
    n = 0 := by
  induction n using Nat.strongRecOn generalizing rest with
  | ind n ih =>
    rw [Nat.toDigits_eq_if (by omega)] at h
    split at h
    · rename_i hn
      exact digitChar_eq_zero hn (List.cons.inj h).1
    · cases hd : toDigits 10 (n / 10) with
      | nil => exact absurd (hd ▸ Nat.length_toDigits_pos (b := 10) (n := n / 10)) (by simp)
      | cons c cs =>
        rw [hd] at h
        have hzero := ih (n / 10) (by omega) (hd.trans (congrArg (· :: cs) (List.cons.inj h).1))
        omega

namespace Numeral

theorem isDigit_of_mem_toDigits {n : Nat} {c : Char} (h : c ∈ toDigits 10 n) :
    isDigit c = true := by
  have hc := Nat.isDigit_of_mem_toDigits (by omega) (by omega) h
  simpa [isDigit, Char.isDigit, Char.le_def] using hc

theorem value_toDigits (n : Nat) : value (toDigits 10 n) = n :=
  Nat.ofDigitChars_toDigits (by omega) (by omega)

theorem digits?_toDigits (n : Nat) : digits? (toDigits 10 n) = some (toDigits 10 n, []) := by
  have hall : ∀ c ∈ toDigits 10 n, isDigit c = true := fun _ => isDigit_of_mem_toDigits
  have hpos := Nat.length_toDigits_pos (b := 10) (n := n)
  rw [digits?, List.takeWhile_eq_self_iff.mpr hall, List.dropWhile_eq_nil_iff.mpr hall]
  cases hd : toDigits 10 n with
  | nil => simp [hd] at hpos
  | cons c cs => rfl

theorem whole?_toDigits (n : Nat) : whole? (toDigits 10 n) = some (toDigits 10 n, []) := by
  rw [whole?, digits?_toDigits]
  split
  · rename_i c cs rest h
    simp only [Option.some.injEq, Prod.mk.injEq] at h
    have hn := toDigits_zero_cons h.1
    subst hn
    simp at h
  · rfl

theorem ofChars?_toDigits (n : Nat) :
    ofChars? (toDigits 10 n) = some ⟨false, toDigits 10 n, none, none⟩ := by
  have hunsigned : ∀ cs, toDigits 10 n ≠ '-' :: cs := by
    intro cs hd
    have hdigit := isDigit_of_mem_toDigits (hd ▸ List.mem_cons_self : '-' ∈ toDigits 10 n)
    contradiction
  rw [ofChars?]
  · simp [whole?_toDigits, fraction?, exponent?]
  · exact hunsigned

theorem ofChars?_minus_toDigits (n : Nat) :
    ofChars? ('-' :: toDigits 10 n) = some ⟨true, toDigits 10 n, none, none⟩ := by
  simp [ofChars?, whole?_toDigits, fraction?, exponent?]

theorem toList_ofNat (n : Nat) : (toString (Int.ofNat n)).toList = toDigits 10 n := Nat.toList_repr

theorem toList_negSucc (n : Nat) :
    (toString (Int.negSucc n)).toList = '-' :: toDigits 10 (n + 1) := by
  have hneg : toString (Int.negSucc n) = "-" ++ (n + 1).repr := rfl
  rw [hneg, String.toList_append, Nat.toList_repr]
  rfl

/-- An integer is spelled by a numeral, from which it is read back. -/
theorem ofChars?_toString (i : Int) :
    ∃ numeral, ofChars? (toString i).toList = some numeral ∧ numeral.int? = some i := by
  cases i with
  | ofNat n =>
    rw [toList_ofNat, ofChars?_toDigits]
    refine ⟨_, rfl, ?_⟩
    rw [int?, value_toDigits]
    rfl
  | negSucc n =>
    rw [toList_negSucc, ofChars?_minus_toDigits]
    refine ⟨_, rfl, ?_⟩
    rw [int?, value_toDigits]
    rfl

theorem isDigit_or_eq_minus {i : Int} {c : Char} (h : c ∈ (toString i).toList) :
    isDigit c = true ∨ c = '-' := by
  cases i with
  | ofNat n =>
    rw [toList_ofNat] at h
    exact .inl (isDigit_of_mem_toDigits h)
  | negSucc n =>
    rw [toList_negSucc] at h
    rcases List.mem_cons.mp h with rfl | h
    · exact .inr rfl
    · exact .inl (isDigit_of_mem_toDigits h)

end Numeral

namespace Json

theorem int?_ofInt (i : Int) : (ofInt i).int? = some i := by
  obtain ⟨numeral, hn, hi⟩ := Numeral.ofChars?_toString i
  rw [ofInt, int?, hn]
  exact hi

theorem int64?_ofInt (n : Int64) : (ofInt n.toInt).int64? = some n := by
  rw [int64?, int?_ofInt]
  simp [Int64.ofInt_toInt]

end Json

end Inquiry
