import LuaMachine.Number.Basic
import Mathlib.Data.Nat.Bitwise
import LuaMachine.Proofs.Semantics.Evaluation

/-!
# Undefined numbers, and the order of the others

Which bit patterns stand for an undefined number. Packing a double whose unpacked form is a number
gives none of them, and so the number of a natural is always defined (`isNaN_ofNat`).

Numbers are ordered unless one of them is undefined; nothing is below an undefined number, above it or
equal to it (`not_lt_eq_le`). So to be over and not to go on are the same for a numeric loop only while
all its numbers are defined (`not_beyond`).
-/

namespace LuaMachine.Number

open Float.Model

/-- A double is undefined when its exponent is the greatest there is and its fraction is not zero. -/
theorem isNaN_iff (b : BitVec 64) : (Number.mk ⟨b⟩).isNaN ↔
    b.toNat / 0x10000000000000 % 0x800 = 0x7ff ∧ b.toNat % 0x10000000000000 ≠ 0 := by
  have hmask : ((⟨b⟩ : UInt64) &&& 0x7fffffffffffffff).toNat = b.toNat % 0x8000000000000000 := by
    rw [UInt64.toNat_and]
    exact Nat.and_two_pow_sub_one_eq_mod _ 63
  have hbound : (0x7ff0000000000000 : UInt64).toNat = 0x7ff * 0x10000000000000 := rfl
  unfold isNaN magnitude
  rw [decide_eq_true_iff, gt_iff_lt, UInt64.lt_iff_toNat_lt, hmask, hbound]
  omega

/-! ## Packed doubles -/

theorem toNat_packComponents (s : UnpackedFloat.Sign) (e : BitVec 11) (m : BitVec 52) :
    (UnpackedFloat.packComponents Format.binary64 s e m).toNat =
      (s.toBitVec.toNat * 0x800 + e.toNat) * 0x10000000000000 + m.toNat := by
  unfold UnpackedFloat.packComponents
  rw [BitVec.toNat_append, BitVec.toNat_append, ← Nat.shiftLeft_add_eq_or_of_lt m.isLt,
    ← Nat.shiftLeft_add_eq_or_of_lt e.isLt, Nat.shiftLeft_eq, Nat.shiftLeft_eq]

theorem isNaN_packComponents (s : UnpackedFloat.Sign) (e : BitVec 11) (m : BitVec 52) :
    (Number.mk ⟨UnpackedFloat.packComponents Format.binary64 s e m⟩).isNaN ↔
      e.toNat = 0x7ff ∧ m.toNat ≠ 0 := by
  have he := e.isLt
  have hm := m.isLt
  rw [isNaN_iff, toNat_packComponents]
  omega

theorem isNaN_pack {u : UnpackedFloat} (hu : u ≠ .notANumber) :
    (Number.mk ⟨UnpackedFloat.pack Format.binary64 u⟩).isNaN = false := by
  rw [Bool.eq_false_iff, Ne]
  cases u with
  | notANumber => exact absurd rfl hu
  | infinity s =>
    unfold UnpackedFloat.pack UnpackedFloat.packedInfinity
    rw [isNaN_packComponents]
    simp
  | zero s =>
    unfold UnpackedFloat.pack UnpackedFloat.packedZero
    rw [isNaN_packComponents]
    simp
  | finite s m e hpos =>
    unfold UnpackedFloat.pack UnpackedFloat.packedInfinity
    dsimp only
    split
    · rw [isNaN_packComponents]
      simp
    · -- the exponent is not too large for its field, and less than the greatest
      next hsmall =>
      split
      · have hsmall : ¬2 ^ 11 ≤ _ + 1 := hsmall
        rw [isNaN_packComponents, BitVec.toNat_ofNat]
        rintro ⟨hexponent, -⟩
        rw [Nat.mod_eq_of_lt (by omega)] at hexponent
        omega
      · rw [isNaN_packComponents]
        simp

/-! ## Rounding -/

theorem roundWithAccuracy_ne (s : UnpackedFloat.Sign) (m : Nat) (e : Int)
    (a : UnpackedFloat.Accuracy) :
    UnpackedFloat.roundWithAccuracy Format.binary64 s m e a ≠ .notANumber := by
  have hboth : ∀ (c : Prop) [Decidable c] (u : ¬c → UnpackedFloat), (∀ h, u h ≠ .notANumber) →
      (if h : c then .zero s else u h) ≠ UnpackedFloat.notANumber := by
    intro c _ u hu
    by_cases h : c
    · rw [dif_pos h]
      exact UnpackedFloat.noConfusion
    · rw [dif_neg h]
      exact hu h
  exact hboth _ _ fun h => UnpackedFloat.noConfusion

theorem round_ne (s : UnpackedFloat.Sign) (m : Nat) (e : Int) :
    UnpackedFloat.round Format.binary64 s m e ≠ .notANumber :=
  roundWithAccuracy_ne _ _ _ _

theorem mul_ne {m m' : Nat} (s : UnpackedFloat.Sign) (e e' : Int) (hm : 0 < m) (hm' : 0 < m') :
    UnpackedFloat.mul Format.binary64 (.finite s m e hm) (.finite s m' e' hm') ≠ .notANumber :=
  roundWithAccuracy_ne _ _ _ _

/-- The number of a natural is not undefined. -/
theorem isNaN_ofNat (n : Nat) : (ofNat n).isNaN = false := by
  unfold ofNat
  split
  · refine isNaN_pack (u := UnpackedFloat.ofUInt64 Format.binary64 n.toUInt64) ?_
    unfold UnpackedFloat.ofUInt64 UnpackedFloat.ofNat UnpackedFloat.ofInt UnpackedFloat.normalize
    split
    · exact round_ne _ _ _
    · simp
    · exact round_ne _ _ _
  · next hlarge =>
    have hpositive : n ≠ 0 := by omega
    have hbound : (0 : Int) ≤ 2 ^ Format.binary64.exponentBits := by decide
    -- what does not fit into 64 bits is read like a decimal without a fraction
    have hread : Float.ofNat n = ⟨Float.Model.ofScientific n 0⟩ := by
      unfold Float.ofNat
      change Float.ofScientific n false 0 = _
      unfold Float.ofScientific
      rw [dif_neg (by omega)]
      rfl
    rw [hread]
    refine isNaN_pack (u := UnpackedFloat.ofScientific Format.binary64 n 0) ?_
    unfold UnpackedFloat.ofScientific
    rw [dif_neg hpositive, if_neg (Int.not_lt.2 hbound), if_neg (by omega), if_pos (Int.le_refl 0)]
    exact mul_ne _ _ _ _ _

/-! ## Fields -/

variable {x y : Number}

theorem toNat_magnitude (x : Number) : x.magnitude.toNat = x.bits.toNat % 0x8000000000000000 := by
  rw [magnitude, UInt64.toNat_and]
  exact Nat.and_two_pow_sub_one_eq_mod _ 63

theorem isZero_iff (x : Number) : x.isZero = true ↔ x.bits.toNat % 0x8000000000000000 = 0 := by
  rw [isZero, beq_iff_eq, ← UInt64.toNat_inj, toNat_magnitude]
  rfl

theorem isNegative_iff (x : Number) : x.isNegative = true ↔ 0x8000000000000000 ≤ x.bits.toNat := by
  have hbound := x.bits.toNat_lt
  have hsign : (0x8000000000000000 : UInt64).toNat = 2 ^ 63 := rfl
  rw [isNegative, bne_iff_ne, ne_eq, ← UInt64.toNat_inj, UInt64.toNat_and, hsign, Nat.and_two_pow,
    Nat.testBit_eq_decide_div_mod_eq]
  by_cases hbit : x.bits.toNat / 2 ^ 63 % 2 = 1 <;> simp <;> omega

/-! ## The order -/

theorem lt_iff (hx : x.isNaN = false) (hy : y.isNaN = false) : x.lt y = true ↔
    if x.isNegative then
      if y.isNegative then y.bits.toNat < x.bits.toNat else ¬(x.isZero = true ∧ y.isZero = true)
    else
      if y.isNegative then False else x.bits.toNat < y.bits.toNat := by
  unfold lt
  rw [hx, hy]
  simp only [Bool.or_self, Bool.false_eq_true, if_false]
  split <;> split <;> simp [UInt64.lt_iff_toNat_lt, ← Bool.not_eq_true, ← not_and_or]

theorem equals_iff (hx : x.isNaN = false) (hy : y.isNaN = false) :
    x.equals y = true ↔ x.bits.toNat = y.bits.toNat ∨ (x.isZero = true ∧ y.isZero = true) := by
  simp [equals, hx, hy, ← UInt64.toNat_inj]

/-- Defined numbers are ordered. -/
theorem le_eq_not_lt (hx : x.isNaN = false) (hy : y.isNaN = false) : x.le y = !y.lt x := by
  have hlt := lt_iff hx hy
  have hgt := lt_iff hy hx
  have heq := equals_iff hx hy
  have hsx := isNegative_iff x
  have hsy := isNegative_iff y
  have hzx := isZero_iff x
  have hzy := isZero_iff y
  have hbx := x.bits.toNat_lt
  have hby := y.bits.toNat_lt
  rw [Bool.eq_iff_iff, le, Bool.or_eq_true, Bool.not_eq_true', ← Bool.not_eq_true]
  by_cases hnx : 0x8000000000000000 ≤ x.bits.toNat <;>
  by_cases hny : 0x8000000000000000 ≤ y.bits.toNat <;>
  simp only [hlt, heq, hgt, hsx, hsy, hzx, hzy, hnx, hny, if_true, if_false,
    not_false_eq_true, iff_true, false_or] <;> omega

theorem lt_of_isNaN_left (hx : x.isNaN = true) : x.lt y = false := by simp [lt, hx]

theorem lt_of_isNaN_right (hy : y.isNaN = true) : x.lt y = false := by simp [lt, hy]

theorem le_of_isNaN_left (hx : x.isNaN = true) : x.le y = false := by simp [le, lt, equals, hx]

theorem le_of_isNaN_right (hy : y.isNaN = true) : x.le y = false := by simp [le, lt, equals, hy]

/-! ## Sums -/

theorem isNaN_add_left (hx : x.isNaN = true) : (x.add y).isNaN = true := by
  simp [add, lift, hx]

/-! ## Numeric loops -/

/-- A numeric loop goes on: its value has not passed the limit, in the direction of the step. -/
def goesOn (value limit step : Number) : Bool :=
  (Number.zero.lt step && value.le limit) || (step.le .zero && limit.le value)

/-- One of the numbers of a loop is undefined. -/
def anyUndefined (value limit step : Number) : Bool := value.isNaN || limit.isNaN || step.isNaN

variable {value limit step : Number}

/-- A loop does not go on with an undefined number, -/
theorem goesOn_of_undefined (h : value.anyUndefined limit step = true) :
    value.goesOn limit step = false := by
  simp only [anyUndefined, Bool.or_eq_true] at h
  rcases h with (h | h) | h
  · simp [goesOn, le_of_isNaN_left h, le_of_isNaN_right h]
  · simp [goesOn, le_of_isNaN_left h, le_of_isNaN_right h]
  · simp [goesOn, lt_of_isNaN_right h, le_of_isNaN_left h]

/-- and is not over either. -/
theorem beyond_of_undefined (h : value.anyUndefined limit step = true) :
    value.beyond limit step = false := by
  simp only [anyUndefined, Bool.or_eq_true] at h
  rcases h with (h | h) | h
  · simp [beyond, lt_of_isNaN_left h, lt_of_isNaN_right h]
  · simp [beyond, lt_of_isNaN_left h, lt_of_isNaN_right h]
  · simp [beyond, lt_of_isNaN_right h, le_of_isNaN_left h]

/-- With defined numbers a loop is over if and only if it does not go on. -/
theorem beyond_of_defined (h : value.anyUndefined limit step = false) :
    value.beyond limit step = !value.goesOn limit step := by
  simp only [anyUndefined, Bool.or_eq_false_iff] at h
  obtain ⟨⟨hvalue, hlimit⟩, hstep⟩ := h
  have hzero : Number.zero.isNaN = false := rfl
  rw [beyond, goesOn, le_eq_not_lt hvalue hlimit, le_eq_not_lt hlimit hvalue, le_eq_not_lt hstep hzero]
  cases Number.zero.lt step <;> simp

theorem not_beyond (value limit step : Number) : (!value.beyond limit step) =
    (value.goesOn limit step || value.anyUndefined limit step) := by
  cases h : value.anyUndefined limit step with
  | true => rw [beyond_of_undefined h, goesOn_of_undefined h]; rfl
  | false => rw [beyond_of_defined h, Bool.not_not, Bool.or_false]

/-- The next value is undefined if one of the numbers is. -/
theorem anyUndefined_add (h : value.anyUndefined limit step = true) :
    (value.add step).anyUndefined limit step = true := by
  simp only [anyUndefined, Bool.or_eq_true] at h ⊢
  rcases h with (h | h) | h
  · exact .inl (.inl (isNaN_add_left h))
  · exact .inl (.inr h)
  · exact .inr h

/-- So are all later values. -/
theorem anyUndefined_iterate (h : value.anyUndefined limit step = true) (i : Nat) :
    ((·.add step)^[i] value).anyUndefined limit step = true := by
  induction i with
  | zero => exact h
  | succ i ih =>
    rw [Function.iterate_succ_apply']
    exact anyUndefined_add ih

end LuaMachine.Number
