import Mathlib.Algebra.Order.Floor.Ring
import Mathlib.Algebra.Order.Ring.Rat
import Mathlib.Data.Rat.Floor
import Inquiry.Arithmetic
set_option autoImplicit false

namespace Inquiry

/-- Whether the integer is a number. -/
def Fits (i : Int) : Prop := Int64.minValue.toInt ≤ i ∧ i ≤ Int64.maxValue.toInt

instance (i : Int) : Decidable (Fits i) := inferInstanceAs (Decidable (_ ∧ _))

theorem fits_iff {i : Int} : Fits i ↔ -2 ^ 63 ≤ i ∧ i < 2 ^ 63 := by
  rw [Fits, Int64.toInt_minValue, Int64.toInt_maxValue]
  omega

theorem fits_toInt (n : Int64) : Fits n.toInt := ⟨n.minValue_le_toInt, n.toInt_le⟩

theorem toInt_of_fits {w : Int64} {i : Int} (hw : w.toInt = i.bmod (2 ^ 64)) (hi : Fits i) :
    w.toInt = i := by
  obtain ⟨hlow, hhigh⟩ := fits_iff.mp hi
  rw [hw]
  apply Int.bmod_eq_of_le <;> omega

/-- What an operation comes to whose result on integers is `i`. -/
inductive Exact (symbol : String) (i : Int) : Except EvalError Int64 → Prop where
  | result {n : Int64} (hn : n.toInt = i) : Exact symbol i (.ok n)
  | overflow (hi : ¬Fits i) : Exact symbol i (.error (.overflow symbol))

namespace Exact

variable {symbol other : String} {i : Int} {result : Except EvalError Int64}

theorem ok_of_fits (h : Exact symbol i result) (hi : Fits i) :
    ∃ n : Int64, n.toInt = i ∧ result.map Datum.number = .ok (.number n) := by
  cases h with
  | result hn => exact ⟨_, hn, rfl⟩
  | overflow hfits => exact absurd hi hfits

theorem overflow_iff (h : Exact symbol i result) :
    result.map Datum.number = .error (.overflow other) ↔ other = symbol ∧ ¬Fits i := by
  cases h with
  | result hn => exact ⟨nofun, fun ⟨_, hi⟩ => absurd (hn ▸ fits_toInt _) hi⟩
  | overflow hi => simp [Except.map, hi, eq_comm]

theorem ne_divisionByZero (h : Exact symbol i result) :
    result.map Datum.number ≠ .error .divisionByZero := by
  cases h <;> simp [Except.map]

end Exact

theorem exact_exactly {symbol : String} {w : Int64} {i : Int}
    (hw : w.toInt = i.bmod (2 ^ 64)) : Exact symbol i (exactly symbol w i) := by
  unfold exactly
  split
  · rename_i hi
    exact .result hi
  · rename_i hi
    exact .overflow fun hfits => hi (toInt_of_fits hw hfits)

theorem exact_checkedAdd (a b : Int64) : Exact "+" (a.toInt + b.toInt) (checkedAdd a b) :=
  exact_exactly (Int64.toInt_add a b)

theorem exact_checkedSub (a b : Int64) : Exact "-" (a.toInt - b.toInt) (checkedSub a b) :=
  exact_exactly (Int64.toInt_sub a b)

theorem exact_checkedMul (a b : Int64) : Exact "*" (a.toInt * b.toInt) (checkedMul a b) :=
  exact_exactly (Int64.toInt_mul a b)

theorem exact_checkedNeg (a : Int64) : Exact "-" (-a.toInt) (checkedNeg a) :=
  exact_exactly (Int64.toInt_neg a)

/-- Quotient and remainder of a division that rounds down. -/
structure FloorDivision (a b q r : Int) : Prop where
  reconstruct : q * b + r = a
  bound : (0 ≤ r ∧ r < b) ∨ (b < r ∧ r ≤ 0)

namespace FloorDivision

variable {a b q r : Int}

theorem fdiv_fmod (h : FloorDivision a b q r) : a.fdiv b = q ∧ a.fmod b = r := by
  have hsum : r + b * q = a := by
    rw [Int.mul_comm, Int.add_comm]
    exact h.reconstruct
  rcases h.bound with ⟨hlow, hhigh⟩ | ⟨hlow, hhigh⟩
  · exact (Int.fdiv_fmod_unique (by omega)).mpr ⟨hsum, hlow, hhigh⟩
  · exact (Int.fdiv_fmod_unique' (by omega)).mpr ⟨hsum, hlow, hhigh⟩

theorem sign_eq (h : FloorDivision a b q r) : r = 0 ∨ r.sign = b.sign := by
  rcases h.bound with ⟨hlow, hhigh⟩ | ⟨hlow, hhigh⟩
  · rcases Int.lt_or_eq_of_le hlow with hpos | rfl
    · rw [Int.sign_eq_one_of_pos hpos, Int.sign_eq_one_of_pos (Int.lt_trans hpos hhigh)]
      exact .inr rfl
    · exact .inl rfl
  · rcases Int.lt_or_eq_of_le hhigh with hneg | rfl
    · rw [Int.sign_eq_neg_one_of_neg hneg, Int.sign_eq_neg_one_of_neg (Int.lt_trans hlow hneg)]
      exact .inr rfl
    · exact .inl rfl

theorem abs_lt (h : FloorDivision a b q r) : |r| < |b| := by
  rw [Int.abs_eq_natAbs, Int.abs_eq_natAbs]
  have hbound := h.bound
  omega

theorem floor (h : FloorDivision a b q r) : ⌊(a : ℚ) / b⌋ = q := by
  have hsum : (a : ℚ) = q * b + r := by exact_mod_cast h.reconstruct.symm
  rw [Int.floor_eq_iff, hsum]
  rcases h.bound with ⟨hlow, hhigh⟩ | ⟨hlow, hhigh⟩
  · have hb : (0 : ℚ) < b := by exact_mod_cast Int.lt_of_le_of_lt hlow hhigh
    have hlow' : (0 : ℚ) ≤ r := by exact_mod_cast hlow
    have hhigh' : (r : ℚ) < b := by exact_mod_cast hhigh
    rw [le_div_iff₀ hb, div_lt_iff₀ hb]
    constructor <;> linarith
  · have hb : (b : ℚ) < 0 := by exact_mod_cast Int.lt_of_lt_of_le hlow hhigh
    have hlow' : (b : ℚ) < r := by exact_mod_cast hlow
    have hhigh' : (r : ℚ) ≤ 0 := by exact_mod_cast hhigh
    rw [le_div_iff_of_neg hb, div_lt_iff_of_neg hb]
    constructor <;> linarith

theorem of_tmod (hb : b ≠ 0) (hs : a.tmod b = 0 ∨ (a.tmod b < 0 ↔ b < 0)) :
    FloorDivision a b (a.tdiv b) (a.tmod b) := by
  have hlt : (a.tmod b).natAbs < b.natAbs := by
    rw [Int.natAbs_tmod]
    exact Nat.mod_lt _ (by omega)
  exact ⟨Int.tdiv_mul_add_tmod a b, by omega⟩

theorem of_tmod_corrected (hb : b ≠ 0) (hr : a.tmod b ≠ 0) (hs : ¬(a.tmod b < 0 ↔ b < 0)) :
    FloorDivision a b (a.tdiv b - 1) (a.tmod b + b) := by
  have hlt : (a.tmod b).natAbs < b.natAbs := by
    rw [Int.natAbs_tmod]
    exact Nat.mod_lt _ (by omega)
  have hsum := Int.tdiv_mul_add_tmod a b
  refine ⟨?_, by omega⟩
  rw [Int.sub_mul, Int.one_mul]
  omega

end FloorDivision

section

variable {a b : Int64}

theorem needsCorrection_iff {r : Int64} :
    needsCorrection r b = true ↔ r.toInt ≠ 0 ∧ ¬(r.toInt < 0 ↔ b.toInt < 0) := by
  have hzero : r = 0 ↔ r.toInt = 0 := by rw [← Int64.toInt_inj, Int64.toInt_zero]
  simp [needsCorrection, Int64.lt_iff_toInt_lt, hzero]

theorem toInt_ne_zero (hb : b ≠ 0) : b.toInt ≠ 0 := by
  rwa [← Int64.toInt_zero, Ne, Int64.toInt_inj]

theorem fits_tdiv_sub_one {i k : Int} (hi : Fits i) (hr : i.tmod k ≠ 0) : Fits (i.tdiv k - 1) := by
  have hpos : 0 < i.natAbs := by
    apply Int.natAbs_pos.mpr
    rintro rfl
    exact hr (Int.zero_tmod k)
  have hk : k.natAbs ≠ 1 := by
    intro hone
    apply hr
    rw [← Int.natAbs_eq_zero, Int.natAbs_tmod, hone, Nat.mod_one]
  -- The quotient is nearer to zero than the dividend, so there is room for a step down.
  have hlt : (i.tdiv k).natAbs < i.natAbs := by
    rw [Int.natAbs_tdiv]
    rcases Nat.lt_or_ge 1 k.natAbs with htwo | hone
    · exact Nat.div_lt_self hpos htwo
    · rw [show k.natAbs = 0 by omega]
      exact Nat.lt_of_le_of_lt (Nat.le_of_eq (Nat.div_zero i.natAbs)) hpos
  rw [fits_iff] at hi ⊢
  omega

theorem fits_corrections (hb : b ≠ 0) (hc : needsCorrection (a % b) b = true) :
    Fits ((a / b).toInt - 1) ∧ Fits ((a % b).toInt + b.toInt) := by
  obtain ⟨hr, hs⟩ := needsCorrection_iff.mp hc
  rw [Int64.toInt_mod] at hr hs ⊢
  have hne : b ≠ -1 := by
    rintro rfl
    rw [show (-1 : Int64).toInt = -1 from rfl, Int.tmod_neg, Int.tmod_one] at hr
    exact hr rfl
  constructor
  · rw [Int64.toInt_div_of_ne_right a b hne]
    exact fits_tdiv_sub_one (fits_toInt a) hr
  · have hlt : (a.toInt.tmod b.toInt).natAbs < b.toInt.natAbs := by
      rw [Int.natAbs_tmod]
      have hb' := toInt_ne_zero hb
      exact Nat.mod_lt _ (by omega)
    have hfits := fits_toInt b
    rw [fits_iff] at hfits ⊢
    omega

theorem exists_floorDivision (hb : b ≠ 0) (hs : ¬(a = Int64.minValue ∧ b = -1)) :
    ∃ q r : Int64, floorDiv a b = .ok q ∧ floorMod a b = .ok r ∧
      FloorDivision a.toInt b.toInt q.toInt r.toInt := by
  have hb' := toInt_ne_zero hb
  have hq : (a / b).toInt = a.toInt.tdiv b.toInt := by
    by_cases ha : a = Int64.minValue
    · exact Int64.toInt_div_of_ne_right a b fun he => hs ⟨ha, he⟩
    · exact Int64.toInt_div_of_ne_left a b ha
  have hr : (a % b).toInt = a.toInt.tmod b.toInt := Int64.toInt_mod a b
  unfold floorDiv floorMod
  simp only [if_neg hb, if_neg hs]
  by_cases hc : needsCorrection (a % b) b = true
  · simp only [if_pos hc]
    refine ⟨_, _, rfl, rfl, ?_⟩
    obtain ⟨hdown, hup⟩ := fits_corrections hb hc
    rw [toInt_of_fits (Int64.toInt_sub (a / b) 1) hdown,
      toInt_of_fits (Int64.toInt_add (a % b) b) hup, hq, hr]
    obtain ⟨hne, hsign⟩ := needsCorrection_iff.mp hc
    rw [hr] at hne hsign
    exact .of_tmod_corrected hb' hne hsign
  · simp only [if_neg hc]
    refine ⟨_, _, rfl, rfl, ?_⟩
    rw [hq, hr]
    rw [needsCorrection_iff, hr] at hc
    exact .of_tmod hb' (by tauto)

theorem exact_floorDiv (hb : b ≠ 0) : Exact "/" (a.toInt.fdiv b.toInt) (floorDiv a b) := by
  by_cases hs : a = Int64.minValue ∧ b = -1
  · obtain ⟨rfl, rfl⟩ := hs
    exact .overflow (by decide)
  · obtain ⟨q, r, hq, _, h⟩ := exists_floorDivision hb hs
    rw [hq]
    exact .result h.fdiv_fmod.1.symm

theorem exact_floorMod (hb : b ≠ 0) (hs : ¬(a = Int64.minValue ∧ b = -1)) :
    Exact "%" (a.toInt.fmod b.toInt) (floorMod a b) := by
  obtain ⟨q, r, _, hr, h⟩ := exists_floorDivision hb hs
  rw [hr]
  exact .result h.fdiv_fmod.2.symm

/-- Where both have results, quotient and remainder are those of a division that rounds down: they
give the dividend back, the remainder is smaller than the divisor and has its sign if it is not
zero, and the quotient is the floor of the exact one. The steps that correct a division toward zero
never leave the numbers. -/
theorem floor_division_law {q r : Int64} (hq : floorDiv a b = .ok q) (hr : floorMod a b = .ok r) :
    q.toInt * b.toInt + r.toInt = a.toInt ∧
    (r.toInt = 0 ∨ r.toInt.sign = b.toInt.sign) ∧
    |r.toInt| < |b.toInt| ∧
    ⌊(a.toInt : ℚ) / b.toInt⌋ = q.toInt ∧
    (needsCorrection (a % b) b = true →
      Fits ((a / b).toInt - 1) ∧ Fits ((a % b).toInt + b.toInt)) := by
  have hb : b ≠ 0 := by
    rintro rfl
    cases hq
  have hs : ¬(a = Int64.minValue ∧ b = -1) := by
    rintro ⟨rfl, rfl⟩
    cases hq
  obtain ⟨_, _, hq', hr', h⟩ := exists_floorDivision hb hs
  cases hq.symm.trans hq'
  cases hr.symm.trans hr'
  exact ⟨h.reconstruct, h.sign_eq, h.abs_lt, h.floor, fits_corrections hb⟩

theorem floor_division_law_lowest :
    let a := Int64.minValue
    let q : Int64 := -3074457345618258603
    floorDiv a 3 = .ok q ∧ floorMod a 3 = .ok 1 ∧ needsCorrection (a % 3) 3 = true ∧
      q.toInt * 3 + 1 = a.toInt ∧ ⌊(a.toInt : ℚ) / (3 : Int64).toInt⌋ = q.toInt ∧
      Fits ((a / 3).toInt - 1) ∧ Fits ((a % 3).toInt + (3 : Int64).toInt) := by
  intro a q
  have hq : floorDiv a 3 = .ok q := by decide
  have hr : floorMod a 3 = .ok 1 := by decide
  have hc : needsCorrection (a % 3) 3 = true := by decide
  obtain ⟨hsum, _, _, hfloor, hfits⟩ := floor_division_law hq hr
  exact ⟨hq, hr, hc, hsum, hfloor, hfits hc⟩

end

namespace BinOp

def arithmetic : List BinOp := [.add, .sub, .mul, .div, .mod]

def onIntegers? (a b : Int) : BinOp → Option Int
  | .add => some (a + b)
  | .sub => some (a - b)
  | .mul => some (a * b)
  | .div => if b = 0 then none else some (a.fdiv b)
  | .mod => if b = 0 then none else some (a.fmod b)
  | _ => none

variable {op : BinOp} {a b : Int64}

theorem exact_apply (ho : op ∈ arithmetic) (hs : ¬(op = .mod ∧ a = Int64.minValue ∧ b = -1)) :
    (∃ i result, op.onIntegers? a.toInt b.toInt = some i ∧ Exact op.symbol i result ∧
      op.apply (.number a) (.number b) = result.map .number) ∨
    ((op = .div ∨ op = .mod) ∧ b = 0 ∧ op.onIntegers? a.toInt b.toInt = none ∧
      op.apply (.number a) (.number b) = .error .divisionByZero) := by
  by_cases hb : b = 0
  · subst hb
    cases op with
    | add => exact .inl ⟨_, _, rfl, exact_checkedAdd a 0, rfl⟩
    | sub => exact .inl ⟨_, _, rfl, exact_checkedSub a 0, rfl⟩
    | mul => exact .inl ⟨_, _, rfl, exact_checkedMul a 0, rfl⟩
    | div => exact .inr ⟨.inl rfl, rfl, rfl, rfl⟩
    | mod => exact .inr ⟨.inr rfl, rfl, rfl, rfl⟩
    | _ => simp [arithmetic] at ho
  · have hb' := toInt_ne_zero hb
    cases op with
    | add => exact .inl ⟨_, _, rfl, exact_checkedAdd a b, rfl⟩
    | sub => exact .inl ⟨_, _, rfl, exact_checkedSub a b, rfl⟩
    | mul => exact .inl ⟨_, _, rfl, exact_checkedMul a b, rfl⟩
    | div => exact .inl ⟨_, _, if_neg hb', exact_floorDiv hb, rfl⟩
    | mod => exact .inl ⟨_, _, if_neg hb', exact_floorMod hb fun h => hs ⟨rfl, h⟩, rfl⟩
    | _ => simp [arithmetic] at ho

/-- Arithmetic is exact, and overflow is reported just where the exact result is no number, with the
symbol of the operator; a division by zero is reported by the two divisions, just where the divisor
is zero. The one exception is the remainder of the lowest number by minus one. -/
theorem exact_or_overflow (a b : Int64) :
    (∀ op ∈ arithmetic, ¬(op = .mod ∧ a = Int64.minValue ∧ b = -1) →
      (∀ i, op.onIntegers? a.toInt b.toInt = some i → Fits i →
        ∃ n : Int64, n.toInt = i ∧ op.apply (.number a) (.number b) = .ok (.number n)) ∧
      (∀ symbol, op.apply (.number a) (.number b) = .error (.overflow symbol) ↔
        symbol = op.symbol ∧ ∃ i, op.onIntegers? a.toInt b.toInt = some i ∧ ¬Fits i) ∧
      (op.apply (.number a) (.number b) = .error .divisionByZero ↔
        (op = .div ∨ op = .mod) ∧ b = 0)) ∧
    (Fits (-a.toInt) →
      ∃ n : Int64, n.toInt = -a.toInt ∧ UnaryOp.neg.apply (.number a) = .ok (.number n)) ∧
    ∀ symbol, UnaryOp.neg.apply (.number a) = .error (.overflow symbol) ↔
      symbol = UnaryOp.neg.symbol ∧ ¬Fits (-a.toInt) := by
  refine ⟨fun op ho hs => ?_, ?_⟩
  · rcases exact_apply ho hs with ⟨i, result, hi, hexact, happly⟩ | ⟨hop, hb, hnone, happly⟩
    · have hdefined : ¬((op = .div ∨ op = .mod) ∧ b = 0) := by
        rintro ⟨rfl | rfl, rfl⟩ <;> cases hi
      simp only [hi, happly, Option.some.injEq, exists_eq_left', hdefined, iff_false]
      exact ⟨fun _ he => he ▸ hexact.ok_of_fits, fun _ => hexact.overflow_iff,
        hexact.ne_divisionByZero⟩
    · rw [hnone, happly]
      exact ⟨nofun, fun symbol => ⟨nofun, nofun⟩, fun _ => ⟨hop, hb⟩, fun _ => rfl⟩
  · have hexact := exact_checkedNeg a
    exact ⟨hexact.ok_of_fits, fun _ => hexact.overflow_iff⟩

theorem exact_or_overflow_lowest :
    let a := Int64.minValue
    BinOp.div ∈ arithmetic ∧ ¬(BinOp.div = .mod ∧ a = Int64.minValue ∧ (-1 : Int64) = -1) ∧
      BinOp.onIntegers? a.toInt (-1 : Int64).toInt .div = some (2 ^ 63) ∧ ¬Fits (2 ^ 63) ∧
      BinOp.div.apply (.number a) (.number (-1)) = .error (.overflow "/") ∧
      BinOp.mod.apply (.number a) (.number 0) = .error .divisionByZero ∧
      UnaryOp.neg.apply (.number a) = .error (.overflow "-") := by
  intro a
  have hdiv : BinOp.div ∈ arithmetic := by decide
  have hmod : BinOp.mod ∈ arithmetic := by decide
  have hs : ¬(BinOp.div = .mod ∧ a = Int64.minValue ∧ (-1 : Int64) = -1) := by decide
  have hexact : BinOp.onIntegers? a.toInt (-1 : Int64).toInt .div = some (2 ^ 63) := by decide
  have hfits : ¬Fits (2 ^ 63) := by decide
  obtain ⟨hops, _, hneg⟩ := exact_or_overflow a (-1)
  obtain ⟨_, hoverflow, _⟩ := hops .div hdiv hs
  obtain ⟨_, _, hzero⟩ := (exact_or_overflow a 0).1 .mod hmod (by decide)
  exact ⟨hdiv, hs, hexact, hfits, (hoverflow "/").mpr ⟨rfl, _, hexact, hfits⟩,
    hzero.mpr ⟨.inr rfl, rfl⟩, (hneg "-").mpr ⟨rfl, by decide⟩⟩

/-- There is no remainder, but it is refused as if it were no number. -/
theorem overflow_of_fits :
    let a := Int64.minValue
    BinOp.mod ∈ arithmetic ∧ BinOp.onIntegers? a.toInt (-1 : Int64).toInt .mod = some 0 ∧ Fits 0 ∧
      BinOp.mod.apply (.number a) (.number (-1)) = .error (.overflow "%") := by decide

end BinOp

end Inquiry
