import LuaMachine.Proofs.Table.Entries
import LuaMachine.Library.Base
import Mathlib.Data.Nat.Digits.Defs
import Mathlib.Data.List.Forall2

/-!
# Integers of 64 bits

The integer that a number is rounded to has 64 bits: numbers beyond are clamped to the least or the
greatest of them (`Number.inRange_toInteger`). This file is about the functions of the library that count
with such integers.

What `tonumber` reads of a text when it is given a base: the text without the blanks around it has to
be digits of the base, with a sign in front or without one, and their value has to fit into 64 bits
(`Library.InBase`). A minus sign is taken off before the rest is read as an integer with a sign of its
own: so a second sign is accepted behind a minus sign, and the least integer is not.

What `select`, the iterator of `ipairs` and `unpack` do with any integers. `unpack` never leaves the 64
bits. The other two do, at one integer each: the negation of the least integer and the successor of the
greatest one are both the least integer again.

Main statements:
* `Library.tonumber_inBase`: the numbers that are read in a base;
* `Library.sequences_of_integers`: what the functions of sequences give for integers.
-/

namespace LuaMachine

namespace Number

/-- An integer of 64 bits. -/
def InRange (n : Int) : Prop := minInteger ≤ n ∧ n ≤ maxInteger

instance (n : Int) : Decidable (InRange n) := inferInstanceAs (Decidable (_ ∧ _))

theorem inRange_iff {n : Int} : InRange n ↔ -9223372036854775808 ≤ n ∧ n ≤ 9223372036854775807 := Iff.rfl

theorem inRange_zero : InRange 0 := by decide

theorem inRange_minInteger : InRange minInteger := by decide

theorem inRange_maxInteger : InRange maxInteger := by decide

theorem inRange_of_lt {n : Nat} (h : n < 2 ^ 63) : InRange n ∧ InRange (-n) := by
  rw [inRange_iff, inRange_iff]
  omega

variable (x : Number)

theorem toNat_significand_lt : x.significand.toNat < 2 ^ 53 := by
  have hmask : (0x000fffffffffffff : UInt64).toNat = 2 ^ 52 - 1 := rfl
  have hone : (0x0010000000000000 : UInt64).toNat = 2 ^ 52 := rfl
  have hfraction : x.fraction.toNat < 2 ^ 53 := by
    unfold fraction
    rw [UInt64.toNat_and, hmask, Nat.and_two_pow_sub_one_eq_mod]
    omega
  unfold significand
  split
  · exact hfraction
  · rw [UInt64.toNat_or, hone]
    exact Nat.or_lt_two_pow hfraction (by decide)

/-- The integer part of a number whose exponent is not too large. -/
theorem wholePart_lt (h : x.exponentField < 1086) : x.wholePart < 2 ^ 63 := by
  have hsignificand := x.toNat_significand_lt
  have hexponent : x.exponentField.toNat < 1086 := UInt64.lt_iff_toNat_lt.1 h
  unfold wholePart
  split
  · decide
  · split
    · rw [UInt64.toNat_shiftRight]
      have hle := Nat.shiftRight_le x.significand.toNat ((1075 - x.exponentField).toNat % 64)
      omega
    · split
      · rw [Nat.shiftLeft_eq]
        have hpower : 2 ^ (x.exponentField.toNat - 1075) ≤ 2 ^ 10 :=
          Nat.pow_le_pow_right (by decide) (by omega)
        calc x.significand.toNat * 2 ^ (x.exponentField.toNat - 1075)
            ≤ x.significand.toNat * 2 ^ 10 := Nat.mul_le_mul_left _ hpower
          _ < 2 ^ 63 := by omega
      · decide

theorem inRange_toInteger : InRange x.toInteger := by
  unfold toInteger
  split
  · exact inRange_zero
  · split
    · split
      · exact inRange_minInteger
      · exact inRange_maxInteger
    · next hexponent =>
      have hwhole := x.wholePart_lt (by
        rw [UInt64.lt_iff_toNat_lt]
        rw [ge_iff_le, UInt64.le_iff_toNat_le] at hexponent
        omega)
      split
      · exact (inRange_of_lt hwhole).2
      · exact (inRange_of_lt hwhole).1

end Number

namespace Value

theorem inRange_of_toInteger? {v : Value} {n : Int} (h : v.toInteger? = some n) : Number.InRange n := by
  unfold Value.toInteger? at h
  split at h
  · next x _ =>
    split at h
    · cases h
      exact Number.inRange_toInteger x
    · cases h
  · cases h

end Value

namespace Arguments

variable {a : Arguments} {i : Nat} {function : String}

theorem any_of_get {v : Value} (h : a.get i = v) (hv : v ≠ .nil) : a.any i function = .ok v := by
  unfold Arguments.get at h
  unfold any
  cases hget : a.get? i with
  | some v' =>
    rw [hget] at h
    exact congrArg Except.ok h
  | none =>
    rw [hget] at h
    exact absurd h.symm hv

/-- What is read as an integer is not `nil`. -/
theorem isNil_of_integer {n : Int} (h : a.integer i function = .ok n) : (a.get i).isNil = false := by
  refine Bool.eq_false_iff.2 fun hnil => ?_
  have hnone : (a.get i).toNumber? = none := by
    rw [Value.toNumber?, Value.isNil_iff.1 hnil]
  rw [integer, number, hnone] at h
  cases h

theorem integer_of_isIntegral {x : Number} (hx : (a.get i).toNumber? = some x)
    (hintegral : x.isIntegral = true) : a.integer i function = .ok x.toInteger := by
  rw [integer, number, hx]
  exact if_pos hintegral

theorem inRange_of_integer {n : Int} (h : a.integer i function = .ok n) : Number.InRange n := by
  unfold integer at h
  cases hx : a.number i function with
  | error e =>
    rw [hx] at h
    cases h
  | ok x =>
    rw [hx] at h
    change (if _ then _ else _ : Except Fault Int) = _ at h
    split at h
    · cases h
      exact Number.inRange_toInteger x
    · cases h

end Arguments

namespace Library

/-! ## Digits -/

/-- What a digit stands for. The letters of either case follow the nine. -/
inductive IsDigit : Char → Nat → Prop
  | decimal {d : Nat} (h : d < 10) : IsDigit (Char.ofNat ('0'.toNat + d)) d
  | lower {d : Nat} (h : d < 26) : IsDigit (Char.ofNat ('a'.toNat + d)) (d + 10)
  | upper {d : Nat} (h : d < 26) : IsDigit (Char.ofNat ('A'.toNat + d)) (d + 10)

/-- Digits that are all below a base, with the value that their positions give them. -/
structure Digits (base : Nat) (cs : List Char) (n : Nat) : Prop where
  nonempty : cs ≠ []
  spelled : ∃ ds, List.Forall₂ IsDigit cs ds ∧ (∀ d ∈ ds, d < base) ∧ n = Nat.ofDigits base ds.reverse

variable {base d n : Nat} {c : Char} {cs : List Char} {ds : List Nat}

/-- A character between two others is so many places behind the first one. -/
theorem exists_of_le {a b : Char} (h : (a ≤ c && c ≤ b) = true) :
    ∃ d, d ≤ b.toNat - a.toNat ∧ c = Char.ofNat (a.toNat + d) ∧ c.toNat - a.toNat = d := by
  obtain ⟨hlow, hhigh⟩ : a.toNat ≤ c.toNat ∧ c.toNat ≤ b.toNat := by
    simpa [Char.le_def, UInt32.le_iff_toNat_le] using h
  refine ⟨c.toNat - a.toNat, by omega, ?_, rfl⟩
  rw [Nat.add_sub_cancel' hlow, Char.ofNat_toNat]

theorem digitIn?_eq_some_iff : digitIn? base c = some d ↔ IsDigit c d ∧ d < base := by
  unfold digitIn?
  constructor
  · intro h
    obtain ⟨hvalue, hbase⟩ := Option.filter_eq_some_iff.1 h
    refine ⟨?_, by simpa using hbase⟩
    split at hvalue
    · next hc =>
      obtain ⟨d', hd', hc', hvalue'⟩ := exists_of_le hc
      cases hvalue.symm.trans (congrArg some hvalue')
      rw [hc']
      exact .decimal (Nat.lt_succ_of_le hd')
    · split at hvalue
      · next hc =>
        obtain ⟨d', hd', hc', hvalue'⟩ := exists_of_le hc
        cases hvalue.symm.trans (congrArg (some <| · + 10) hvalue')
        rw [hc']
        exact .lower (Nat.lt_succ_of_le hd')
      · split at hvalue
        · next hc =>
          obtain ⟨d', hd', hc', hvalue'⟩ := exists_of_le hc
          cases hvalue.symm.trans (congrArg (some <| · + 10) hvalue')
          rw [hc']
          exact .upper (Nat.lt_succ_of_le hd')
        · cases hvalue
  · rintro ⟨hd, hbase⟩
    refine Option.filter_eq_some_iff.2 ⟨?_, by simpa using hbase⟩
    clear hbase
    cases hd with
    | decimal h =>
      revert d
      decide
    | @lower d h =>
      revert d
      decide
    | @upper d h =>
      revert d
      decide

/-- Digits are read from the left, behind what has been read. -/
theorem foldlM_digitIn? {acc : Nat} :
    cs.foldlM (fun n c => (digitIn? base c).map (n * base + ·)) acc = some n ↔
      ∃ ds, List.Forall₂ IsDigit cs ds ∧ (∀ d ∈ ds, d < base) ∧
        n = acc * base ^ ds.length + Nat.ofDigits base ds.reverse := by
  induction cs generalizing acc with
  | nil => simp [eq_comm]
  | cons c cs ih =>
    have hvalue : ∀ (d : Nat) (ds : List Nat),
        acc * base ^ (d :: ds).length + Nat.ofDigits base (d :: ds).reverse =
          (acc * base + d) * base ^ ds.length + Nat.ofDigits base ds.reverse := by
      intro d ds
      rw [List.length_cons, List.reverse_cons, Nat.ofDigits_append, Nat.ofDigits_singleton,
        List.length_reverse]
      ring
    rw [List.foldlM_cons, Option.bind_eq_bind, Option.bind_eq_some_iff]
    constructor
    · rintro ⟨m, hm, hrest⟩
      obtain ⟨d, hd, rfl⟩ := Option.map_eq_some_iff.1 hm
      obtain ⟨hdigit, hbase⟩ := digitIn?_eq_some_iff.1 hd
      obtain ⟨ds, hds, hall, rfl⟩ := ih.1 hrest
      exact ⟨d :: ds, .cons hdigit hds, List.forall_mem_cons.2 ⟨hbase, hall⟩, (hvalue d ds).symm⟩
    · rintro ⟨_, hds, hall, rfl⟩
      cases hds with
      | @cons _ d _ ds hdigit hds =>
        obtain ⟨hbase, hall⟩ := List.forall_mem_cons.1 hall
        refine ⟨acc * base + d, ?_, ih.2 ⟨ds, hds, hall, hvalue d ds⟩⟩
        rw [digitIn?_eq_some_iff.2 ⟨hdigit, hbase⟩, Option.map_some]

theorem digitsIn?_eq_some_iff : digitsIn? base cs = some n ↔ Digits base cs n := by
  cases cs with
  | nil => exact ⟨nofun, fun h => absurd rfl h.nonempty⟩
  | cons c cs =>
    rw [digitsIn?.eq_2 base (c :: cs) (List.cons_ne_nil c cs), foldlM_digitIn?]
    constructor
    · rintro ⟨ds, hds, hall, rfl⟩
      exact ⟨List.cons_ne_nil c cs, ds, hds, hall, by simp⟩
    · rintro ⟨-, ds, hds, hall, rfl⟩
      exact ⟨ds, hds, hall, by simp⟩

/-- Digits are no signs. -/
theorem Digits.not_sign (h : Digits base (c :: cs) n) : c ≠ '-' ∧ c ≠ '+' := by
  obtain ⟨-, _, hds, hall, -⟩ := h
  cases hds with
  | cons hdigit _ =>
    have hread := digitIn?_eq_some_iff.2 ⟨hdigit, (List.forall_mem_cons.1 hall).1⟩
    constructor
    · rintro rfl
      cases hread
    · rintro rfl
      cases hread

/-! ## Signs -/

/-- A numeral with a sign or without one, and the integer that it stands for. -/
inductive Signed (base : Nat) : List Char → Int → Prop
  | plain {ds : List Char} {n : Nat} (h : Digits base ds n) : Signed base ds n
  | plus {ds : List Char} {n : Nat} (h : Digits base ds n) : Signed base ('+' :: ds) n
  | minus {ds : List Char} {n : Nat} (h : Digits base ds n) : Signed base ('-' :: ds) (-n)

theorem integerIn?_eq_some_iff {n : Int} :
    integerIn? base cs = some n ↔ Signed base cs n ∧ Number.InRange n := by
  unfold integerIn?
  dsimp only
  rw [Option.filter_eq_some_iff, Bool.and_eq_true, decide_eq_true_iff, decide_eq_true_iff]
  refine and_congr_left fun _ => ?_
  split
  · next ds =>
    rw [Option.map_eq_some_iff]
    constructor
    · rintro ⟨_, hn, rfl⟩
      obtain ⟨n, hdigits, hn⟩ := Option.bind_eq_some_iff.1 hn
      cases hn
      exact .minus (digitsIn?_eq_some_iff.1 hdigits)
    · intro h
      cases h with
      | plain h => exact absurd rfl h.not_sign.1
      | minus h => exact ⟨_, Option.bind_eq_some_iff.2 ⟨_, digitsIn?_eq_some_iff.2 h, rfl⟩, rfl⟩
  · next ds =>
    rw [Option.map_eq_some_iff]
    constructor
    · rintro ⟨n, hn, rfl⟩
      exact .plus (digitsIn?_eq_some_iff.1 hn)
    · intro h
      cases h with
      | plain h => exact absurd rfl h.not_sign.2
      | plus h => exact ⟨_, digitsIn?_eq_some_iff.2 h, rfl⟩
  · next hminus hplus =>
    rw [Option.map_eq_some_iff]
    constructor
    · rintro ⟨n, hn, rfl⟩
      exact .plain (digitsIn?_eq_some_iff.1 hn)
    · intro h
      cases h with
      | plain h => exact ⟨_, digitsIn?_eq_some_iff.2 h, rfl⟩
      | plus h => exact absurd rfl (hplus _)
      | minus h => exact absurd rfl (hminus _)

/-- What is read as a number in a base. The last two forms have a second sign behind a minus sign. -/
inductive InBase (base : Nat) : List Char → Number → Prop
  | plain {ds : List Char} {n : Nat} (h : Digits base ds n) (hn : Number.InRange n) :
      InBase base ds (.ofNat n)
  | plus {ds : List Char} {n : Nat} (h : Digits base ds n) (hn : Number.InRange n) :
      InBase base ('+' :: ds) (.ofNat n)
  | minus {ds : List Char} {n : Nat} (h : Digits base ds n) (hn : Number.InRange n) :
      InBase base ('-' :: ds) (.neg (.ofNat n))
  | minusPlus {ds : List Char} {n : Nat} (h : Digits base ds n) (hn : Number.InRange n) :
      InBase base ('-' :: '+' :: ds) (.neg (.ofNat n))
  | minusMinus {ds : List Char} {n : Nat} (h : Digits base ds n) (hn : Number.InRange (-n)) :
      InBase base ('-' :: '-' :: ds) (.neg (.ofInt (-n)))

theorem numberIn?_eq_some_iff {s : String} {x : Number} :
    numberIn? base s = some x ↔ InBase base (Text.trimBlanks s.toList) x := by
  unfold numberIn?
  split
  · next ds htext =>
    rw [htext, Option.map_eq_some_iff]
    constructor
    · rintro ⟨n, hn, rfl⟩
      obtain ⟨hsigned, hfits⟩ := integerIn?_eq_some_iff.1 hn
      cases hsigned with
      | plain h => exact .minus h hfits
      | plus h => exact .minusPlus h hfits
      | minus h => exact .minusMinus h hfits
    · intro h
      cases h with
      | plain h => exact absurd rfl h.not_sign.1
      | minus h hn => exact ⟨_, integerIn?_eq_some_iff.2 ⟨.plain h, hn⟩, rfl⟩
      | minusPlus h hn => exact ⟨_, integerIn?_eq_some_iff.2 ⟨.plus h, hn⟩, rfl⟩
      | minusMinus h hn => exact ⟨_, integerIn?_eq_some_iff.2 ⟨.minus h, hn⟩, rfl⟩
  · next hminus =>
    rw [Option.map_eq_some_iff]
    constructor
    · rintro ⟨n, hn, rfl⟩
      obtain ⟨hsigned, hfits⟩ := integerIn?_eq_some_iff.1 hn
      generalize Text.trimBlanks s.toList = text at hminus hsigned
      cases hsigned with
      | plain h => exact .plain h hfits
      | plus h => exact .plus h hfits
      | minus h => exact absurd rfl (hminus _)
    · intro h
      generalize Text.trimBlanks s.toList = text at hminus h
      cases h with
      | plain h hn => exact ⟨_, integerIn?_eq_some_iff.2 ⟨.plain h, hn⟩, rfl⟩
      | plus h hn => exact ⟨_, integerIn?_eq_some_iff.2 ⟨.plus h, hn⟩, rfl⟩
      | minus | minusPlus | minusMinus => exact absurd rfl (hminus _)

/-! ## The function -/

variable {args : Arguments} {s : String} {w : World}

theorem tonumber_eq (hs : args.get 0 = .string s) (hbase : args.integer 1 "tonumber" = .ok (base : Int))
    (hlow : 2 ≤ base) (hhigh : base ≤ 36) :
    tonumber args w = .ok (((numberIn? base s).map Value.number).getD .nil) w := by
  have hany : args.any 0 "tonumber" = .ok (.string s) := Arguments.any_of_get hs nofun
  have hgiven : (args.get 1).isNil = false := Arguments.isNil_of_integer hbase
  have hstring : args.string 0 "tonumber" = .ok s := by
    unfold Arguments.string
    rw [hs]
    rfl
  have hrange : ((base : Int) < 2 || (base : Int) > 36 : Bool) = false := by
    simp
    omega
  unfold tonumber
  rw [hany, hbase, hstring, hgiven]
  change (if ((base : Int) < 2 || (base : Int) > 36 : Bool) = true then _ else _ : Exec Value) w = _
  rw [hrange]
  rfl

/-- A text is read as a number in a base from two to thirty-six. -/
theorem tonumber_inBase (hs : args.get 0 = .string s)
    (hbase : args.integer 1 "tonumber" = .ok (base : Int)) (hlow : 2 ≤ base) (hhigh : base ≤ 36)
    (w : World) :
    (∀ x, InBase base (Text.trimBlanks s.toList) x → tonumber args w = .ok (.number x) w) ∧
      ((∀ x, ¬InBase base (Text.trimBlanks s.toList) x) → tonumber args w = .ok .nil w) := by
  rw [tonumber_eq hs hbase hlow hhigh]
  refine ⟨fun x hx => ?_, fun hnone => ?_⟩
  · rw [numberIn?_eq_some_iff.2 hx]
    rfl
  · cases hread : numberIn? base s with
    | none => rfl
    | some x => exact absurd (numberIn?_eq_some_iff.1 hread) (hnone x)

/-- Two minus signs make a number, and the least integer of 64 bits makes none. -/
theorem tonumber_inBase_signs :
    tonumber ⟨[.string "--5", .ofNat 10]⟩ {} = .ok (.ofNat 5) {} ∧
      tonumber ⟨[.string "-9223372036854775808", .ofNat 10]⟩ {} = .ok .nil {} := by
  have hbase : ∀ s : String,
      Arguments.integer ⟨[.string s, .ofNat 10]⟩ 1 "tonumber" = .ok ((10 : Nat) : Int) := by
    intro s
    have hvalue : (Number.ofNat 10).toInteger = (10 : Nat) := by decide +kernel
    rw [← hvalue]
    exact Arguments.integer_of_isIntegral rfl (by decide +kernel)
  constructor
  · refine (tonumber_inBase rfl (hbase _) (by decide) (by decide) {}).1 (Number.ofNat 5) ?_
    exact numberIn?_eq_some_iff.1 (by decide +kernel)
  · refine (tonumber_inBase rfl (hbase _) (by decide) (by decide) {}).2 fun x hx => ?_
    have hnone : numberIn? 10 "-9223372036854775808" = none := by decide +kernel
    cases hnone.symm.trans (numberIn?_eq_some_iff.2 hx)

open Number Exec

/-! ## Arithmetic of 64 bits -/

section

variable {n : Int}

theorem wrapInteger_of_inRange (h : InRange n) : wrapInteger n = n := by
  rw [inRange_iff] at h
  rw [wrapInteger, Int.bmod_eq_emod]
  split <;> omega

theorem wrapInteger_neg_minInteger : wrapInteger (-minInteger) = minInteger := by decide

theorem wrapInteger_maxInteger_add_one : wrapInteger (maxInteger + 1) = minInteger := by decide

end

/-! ## Lists of values -/

section

variable {selector : Value} {rest : List Value} {n : Int}

/-- A text that stands for an integer is not the one that asks for the number of the arguments. -/
theorem not_sharp (h : selector.toInteger? = some n) : (selector.asString? == some "#") = false := by
  refine beq_eq_false_iff_ne.2 fun hsharp => ?_
  cases selector with
  | string s =>
    cases hsharp
    have hnone : (Value.string "#").toInteger? = none := by decide +kernel
    cases hnone.symm.trans h
  | _ => cases hsharp

theorem select_eq (h : selector.toInteger? = some n) (w : World) :
    select ⟨selector :: rest⟩ w =
      (if n > 0 then return .ofList (rest.drop (n - 1).toNat)
        else if n < 0 && wrapInteger (-n) ≤ rest.length then
          return .ofList (rest.drop ((rest.length + n) % 0x10000000000000000).toNat)
        else fail (.argumentOf 1 "select" "index out of range") : Exec Value) w := by
  have hany : Arguments.any ⟨selector :: rest⟩ 0 "select" = .ok selector := rfl
  unfold select
  rw [hany]
  change (if (selector.asString? == some "#") = true then _ else _ : Exec Value) w = _
  rw [not_sharp h]
  rw [if_neg Bool.false_ne_true, h]
  rfl

/-- What `select` gives for an integer. -/
inductive Selected (rest : List Value) : Int → Except Fault Value → Prop
  | fromFront {front back : List Value} (h : rest = front ++ back) :
      Selected rest (front.length + 1) (.ok (.ofList back))
  | beyond {n : Int} (h : rest.length < n) : Selected rest n (.ok .void)
  | fromBack {front back : List Value} (h : rest = front ++ back) (hback : back ≠ []) :
      Selected rest (-back.length) (.ok (.ofList back))
  /-- The negation of the least integer is the least integer, which is no more than any length. -/
  | overflow : Selected rest minInteger (.ok .void)
  | outOfRange {n : Int} (h : n = 0 ∨ n < -rest.length) (hn : n ≠ minInteger) :
      Selected rest n (.error (.argumentOf 1 "select" "index out of range"))

theorem select_selected (h : selector.toInteger? = some n) (hrest : InRange rest.length)
    {r : Except Fault Value} (hr : Selected rest n r) (w : World) :
    select ⟨selector :: rest⟩ w = (liftM r : Exec Value) w := by
  have hn := Value.inRange_of_toInteger? h
  rw [select_eq h]
  rw [inRange_iff] at hn hrest
  have hmin : minInteger = -9223372036854775808 := rfl
  cases hr with
  | @fromFront front back hsplit =>
    have hindex : ((front.length : Int) + 1 - 1).toNat = front.length := by omega
    rw [if_pos (by omega), hindex, hsplit, List.drop_left]
    rfl
  | beyond hlt =>
    rw [if_pos (by omega), List.drop_of_length_le (by omega)]
    rfl
  | @fromBack front back hsplit hback =>
    have hpos := List.length_pos_iff.2 hback
    have hlen : rest.length = front.length + back.length := hsplit ▸ List.length_append
    have hindex : (((rest.length : Int) + -back.length) % 0x10000000000000000).toNat = front.length := by
      omega
    have hwrap : wrapInteger (-(-(back.length : Int))) = back.length := by
      rw [Int.neg_neg]
      exact wrapInteger_of_inRange (inRange_iff.2 (by omega))
    rw [if_neg (by omega), if_pos (by rw [hwrap]; simp; omega), hindex, hsplit, List.drop_left]
    rfl
  | overflow =>
    have hindex : rest.length ≤ (((rest.length : Int) + minInteger) % 0x10000000000000000).toNat := by omega
    rw [if_neg (by decide), if_pos (by rw [wrapInteger_neg_minInteger]; simp; omega),
      List.drop_of_length_le hindex]
    rfl
  | outOfRange hout hne =>
    have hwrap : n ≠ 0 → wrapInteger (-n) = -n := fun _ => wrapInteger_of_inRange (inRange_iff.2 (by omega))
    rw [if_neg (by omega), if_neg (by
      rw [Bool.and_eq_true, decide_eq_true_iff, decide_eq_true_iff]
      rintro ⟨hneg, hle⟩
      rw [hwrap (by omega)] at hle
      omega)]
    rfl

/-- Every integer selects something or is refused. -/
theorem exists_selected (rest : List Value) (n : Int) : ∃ r, Selected rest n r := by
  by_cases hmin : n = minInteger
  · subst hmin
    exact ⟨_, .overflow⟩
  by_cases hout : n = 0 ∨ n < -rest.length
  · exact ⟨_, .outOfRange hout hmin⟩
  by_cases hbeyond : (rest.length : Int) < n
  · exact ⟨_, .beyond hbeyond⟩
  rw [not_or] at hout
  by_cases hpos : 0 < n
  · refine ⟨.ok (.ofList (rest.drop (n - 1).toNat)), ?_⟩
    have hselected := Selected.fromFront (List.take_append_drop (n - 1).toNat rest).symm
    rwa [List.length_take, Nat.min_eq_left (by omega), show ((n - 1).toNat : Int) + 1 = n by omega]
      at hselected
  · refine ⟨.ok (.ofList (rest.drop (rest.length + n).toNat)), ?_⟩
    have hselected := Selected.fromBack (List.take_append_drop (rest.length + n).toNat rest).symm
      (List.ne_nil_of_length_pos (by rw [List.length_drop]; omega))
    rwa [List.length_drop, show -((rest.length - (rest.length + n).toNat : Nat) : Int) = n by omega]
      at hselected

end

section

variable {args : Arguments} {id : TableId} {w : World}

/-- The position after another one. After the greatest comes the least. -/
def after (i : Int) : Int := if i = maxInteger then minInteger else i + 1

theorem wrapInteger_add_one {i : Int} (h : InRange i) : wrapInteger (i + 1) = after i := by
  unfold after
  split
  · next hmax =>
    rw [hmax]
    exact wrapInteger_maxInteger_add_one
  · next hmax =>
    have hne : i ≠ 9223372036854775807 := hmax
    rw [inRange_iff] at h
    exact wrapInteger_of_inRange (inRange_iff.2 (by omega))

theorem ipairsStep_eq {i : Int} (hid : args.table 0 "ipairs" = .ok id)
    (hi : args.integer 1 "ipairs" = .ok i) :
    ipairsStep args w = .ok (if (w.heap.getIndex id (.ofInt (after i))).isNil then .nil
      else .ofList [.ofInt (after i), w.heap.getIndex id (.ofInt (after i))]) w := by
  unfold ipairsStep
  rw [hid, hi, ← wrapInteger_add_one (Arguments.inRange_of_integer hi)]
  change (if (w.heap.getIndex id _).isNil = true then _ else _ : Exec Value) w = _
  split <;> rfl

/-- The positions between which `unpack` reads a table. -/
structure Bounds (args : Arguments) (t : Table) (first last : Int) : Prop where
  first_eq : ∃ x, args.numberD 1 "unpack" .one = .ok x ∧ x.toInteger = first
  last_eq : args.get 2 = .nil ∧ last = t.length ∨
    args.get 2 ≠ .nil ∧ args.integer 2 "unpack" = .ok last

/-- What `unpack` gives between two positions. -/
inductive Unpacked (t : Table) (first last : Int) : Except Fault Value → Prop
  | empty (h : last < first) : Unpacked t first last (.ok .void)
  | values {vs : List Value} (hlen : first + vs.length = last + 1) (hmost : vs.length ≤ maxUnpacked)
      (h : ∀ (i : Nat) (hi : i < vs.length), vs[i] = t.get (.ofInt (first + i))) :
      Unpacked t first last (.ok (.ofList vs))
  | tooMany (h : first + maxUnpacked ≤ last) : Unpacked t first last (.error .tooManyResults)

theorem unpack_eq {first last : Int} (hid : args.table 0 "unpack" = .ok id)
    (hbounds : Bounds args (w.heap.table id) first last) :
    unpack args w = (if first > last then return .void
      else if last - first + 1 > maxUnpacked then fail .tooManyResults
      else return .ofList ((List.range (last - first + 1).toNat).map fun (i : Nat) =>
        (w.heap.table id).get (.ofInt (first + i))) : Exec Value) w := by
  obtain ⟨⟨x, hx, rfl⟩, hlast⟩ := hbounds
  unfold unpack
  rw [hid, hx]
  rcases hlast with ⟨hnil, rfl⟩ | ⟨hnil, hlast⟩
  · rw [hnil]
    change (if _ > _ then _ else _ : Exec Value) w = _
    split
    · rfl
    · split <;> rfl
  · rw [hlast]
    cases hread : args.get 2 with
    | nil => exact absurd hread hnil
    | _ =>
      change (if _ > _ then _ else _ : Exec Value) w = _
      split
      · rfl
      · split <;> rfl

theorem unpack_unpacked {first last : Int} (hid : args.table 0 "unpack" = .ok id)
    (hbounds : Bounds args (w.heap.table id) first last) {r : Except Fault Value}
    (hr : Unpacked (w.heap.table id) first last r) : unpack args w = (liftM r : Exec Value) w := by
  have hmaxUnpacked : maxUnpacked = 1000000 := rfl
  rw [unpack_eq hid hbounds]
  cases hr with
  | empty h =>
    rw [if_pos h]
    rfl
  | @values vs hlen hmost h =>
    have hvs :
        (List.range vs.length).map (fun (i : Nat) => (w.heap.table id).get (.ofInt (first + i))) = vs := by
      refine List.ext_getElem (by simp) fun i _ hi => ?_
      rw [List.getElem_map, List.getElem_range, h i hi]
    by_cases hempty : first > last
    · have hnil : vs = [] := List.eq_nil_of_length_eq_zero (by omega)
      rw [if_pos hempty, hnil]
      rfl
    · rw [if_neg hempty, if_neg (by omega), show (last - first + 1).toNat = vs.length by omega, hvs]
      rfl
  | tooMany h =>
    rw [if_neg (by omega), if_pos (by omega)]
    rfl

theorem exists_unpacked (t : Table) (first last : Int) : ∃ r, Unpacked t first last r := by
  by_cases hempty : last < first
  · exact ⟨_, .empty hempty⟩
  by_cases hmany : first + maxUnpacked ≤ last
  · exact ⟨_, .tooMany hmany⟩
  have hlen : (List.range (last - first + 1).toNat).length = (last - first + 1).toNat := List.length_range
  refine ⟨.ok (.ofList ((List.range (last - first + 1).toNat).map fun (i : Nat) =>
    t.get (.ofInt (first + i)))), .values ?_ ?_ fun i hi => ?_⟩
  · rw [List.length_map, hlen]
    omega
  · rw [List.length_map, hlen]
    omega
  · rw [List.getElem_map, List.getElem_range]

theorem Bounds.inRange {t : Table} {first last : Int} (h : Bounds args t first last) (ht : InRange t.length) :
    InRange first ∧ InRange last := by
  obtain ⟨⟨x, -, rfl⟩, hlast⟩ := h
  refine ⟨inRange_toInteger x, ?_⟩
  rcases hlast with ⟨-, rfl⟩ | ⟨-, hlast⟩
  · exact ht
  · exact Arguments.inRange_of_integer hlast

/-- What the functions of sequences give for any integers. -/
theorem sequences_of_integers (w : World) :
    (∀ (selector : Value) (rest : List Value) (n : Int), selector.toInteger? = some n → InRange rest.length →
      (∃ r, Selected rest n r) ∧
        ∀ r, Selected rest n r → select ⟨selector :: rest⟩ w = (liftM r : Exec Value) w) ∧
    (∀ (args : Arguments) (id : TableId) (i : Int), args.table 0 "ipairs" = .ok id →
      args.integer 1 "ipairs" = .ok i →
        ipairsStep args w = .ok (if (w.heap.getIndex id (.ofInt (after i))).isNil then .nil
          else .ofList [.ofInt (after i), w.heap.getIndex id (.ofInt (after i))]) w) ∧
    (∀ (args : Arguments) (id : TableId) (first last : Int), args.table 0 "unpack" = .ok id →
      Bounds args (w.heap.table id) first last → InRange (w.heap.table id).length →
        InRange first ∧ InRange last ∧ (∃ r, Unpacked (w.heap.table id) first last r) ∧
          ∀ r, Unpacked (w.heap.table id) first last r → unpack args w = (liftM r : Exec Value) w) := by
  refine ⟨fun selector rest n hn hrest => ?_, fun args id i hid hi => ipairsStep_eq hid hi,
    fun args id first last hid hbounds ht => ?_⟩
  · exact ⟨exists_selected rest n, fun r hr => select_selected hn hrest hr w⟩
  · obtain ⟨hfirst, hlast⟩ := hbounds.inRange ht
    exact ⟨hfirst, hlast, exists_unpacked _ first last, fun r hr => unpack_unpacked hid hbounds hr⟩

/-- The least integer selects nothing and is not refused, and the position after the greatest integer is
the least one. -/
theorem sequences_of_extremes :
    select ⟨[.number ⟨0xc3e0000000000000⟩, .nil]⟩ {} = .ok .void {} ∧
      ipairsStep ⟨[.table ⟨0⟩, .number ⟨0x43e0000000000000⟩]⟩ {} = .ok .nil {} ∧
      unpack ⟨[.table ⟨0⟩, .number ⟨0xc3e0000000000000⟩, .number ⟨0x43e0000000000000⟩]⟩ {} =
        (fail .tooManyResults : Exec Value) {} := by
  obtain ⟨hselect, hstep, hunpack⟩ := sequences_of_integers {}
  refine ⟨?_, ?_, ?_⟩
  · exact (hselect _ _ minInteger (by decide +kernel) (by decide)).2 _ .overflow
  · have hi : Arguments.integer ⟨[.table ⟨0⟩, .number ⟨0x43e0000000000000⟩]⟩ 1 "ipairs" = .ok maxInteger :=
      Arguments.integer_of_isIntegral (x := ⟨0x43e0000000000000⟩) rfl (by decide +kernel)
    have hempty : ({} : World).heap.getIndex ⟨0⟩ (.ofInt (after maxInteger)) = .nil := Table.get_empty _
    refine (hstep _ ⟨0⟩ maxInteger rfl hi).trans ?_
    rw [hempty]
    rfl
  · have hlast : Arguments.integer
        ⟨[.table ⟨0⟩, .number ⟨0xc3e0000000000000⟩, .number ⟨0x43e0000000000000⟩]⟩ 2 "unpack" =
          .ok maxInteger :=
      Arguments.integer_of_isIntegral (x := ⟨0x43e0000000000000⟩) rfl (by decide +kernel)
    have hbounds : Bounds ⟨[.table ⟨0⟩, .number ⟨0xc3e0000000000000⟩, .number ⟨0x43e0000000000000⟩]⟩
        (({} : World).heap.table ⟨0⟩) minInteger maxInteger :=
      ⟨⟨⟨0xc3e0000000000000⟩, rfl, by decide +kernel⟩, .inr ⟨nofun, hlast⟩⟩
    have hfits : InRange (({} : World).heap.table ⟨0⟩).length := by
      change InRange Table.empty.length
      rw [Table.length_empty]
      exact inRange_zero
    exact (hunpack _ ⟨0⟩ _ _ rfl hbounds hfits).2.2.2 _ (.tooMany (by decide))

end

end Library
end LuaMachine
