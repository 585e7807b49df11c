import LuaMachine.Number.Basic

/-!
# The shortest decimal of a number

A finite number other than zero is `m · 2 ^ q`, and the reals that round to it form an interval
around it, whose ends belong to it when `m` is even. `Number.shortest` finds the fewest decimal
digits that name a point of that interval: for one digit, two digits and so on up to seventeen it
tests the two neighbours of the number on that decimal grid, in exact arithmetic. `Number.format`
lays the digits out as text.
-/

namespace LuaMachine

/-- A decimal `0.d₁…dₙ · 10 ^ point`, where `digits` is the integer `d₁…dₙ`. -/
structure Decimal where
  digits : Nat
  point : Int
deriving DecidableEq, Repr

namespace Decimal

/-- Drop the zeros at the end of an integer's decimal digits, at most `fuel` of them. -/
def stripZeros : Nat → Nat → Nat
  | 0, n => n
  | fuel + 1, n => if n % 10 == 0 then stripZeros fuel (n / 10) else n

/-- The interval of reals that round to a number, with the number itself, all as numerators over
one denominator. -/
structure Interval where
  low : Nat
  value : Nat
  high : Nat
  den : Nat
  closed : Bool

/-- Whether the integer `c` lies in the interval. -/
def Interval.contains (i : Interval) (c : Nat) : Bool :=
  let p := c * i.den
  if i.closed then i.low ≤ p && p ≤ i.high else i.low < p && p < i.high

/-- Scale the interval by `10 ^ e`. -/
def Interval.scaleTen (i : Interval) (e : Int) : Interval :=
  if e ≥ 0 then
    let p := Nat.pow 10 e.toNat
    { i with low := i.low * p, value := i.value * p, high := i.high * p }
  else
    { i with den := i.den * Nat.pow 10 (-e).toNat }

/-- The integer of the interval nearest to its value, an even one when two are equally near. -/
def Interval.nearest? (i : Interval) : Option Nat :=
  let c := i.value / i.den
  let below := i.value - c * i.den
  let above := (c + 1) * i.den - i.value
  match i.contains c, i.contains (c + 1) with
  | true, true =>
    if below < above || (below == above && c % 2 == 0) then some c else some (c + 1)
  | true, false => some c
  | false, true => some (c + 1)
  | false, false => none

/-- The interval of the reals that round to a finite number other than zero. Below a power of two
the neighbouring number is half as far away as above it. -/
def Interval.ofNumber (x : Number) : Interval :=
  let m := x.significand.toNat
  let gap := if x.fraction == 0 && x.exponentField > 1 then 1 else 2
  let e := x.scale - 2
  let (f, den) := if e ≥ 0 then (Nat.pow 2 e.toNat, 1) else (1, Nat.pow 2 (-e).toNat)
  { low := (4 * m - gap) * f, value := 4 * m * f, high := (4 * m + 2) * f, den, closed := m % 2 == 0 }

/-- The least `k` with `value < 10 ^ k`, counted up from `k` in at most `fuel` steps. -/
def Interval.pointFrom (i : Interval) : Nat → Int → Int
  | 0, k => k
  | fuel + 1, k =>
    let below :=
      if k ≥ 0 then i.value < i.den * Nat.pow 10 k.toNat
      else i.value * Nat.pow 10 (-k).toNat < i.den
    if below then k else i.pointFrom fuel (k + 1)

/-- The least `k` with `value < 10 ^ k`, found near the estimate that the binary exponent gives. -/
def Interval.point (i : Interval) (x : Number) : Int :=
  let log := x.scale + (Nat.log2 x.significand.toNat : Int)
  i.pointFrom 4 ((log * 30103).fdiv 100000 - 1)

/-- Search the grids of `n`, `n + 1`, … digits, at most `fuel` of them. -/
def Interval.search (i : Interval) (k : Int) : Nat → Nat → Nat × Nat
  | 0, n => (i.value / i.den, n)
  | fuel + 1, n =>
    match (i.scaleTen (n - k)).nearest? with
    | some c => (c, n)
    | none => i.search k fuel (n + 1)

/-- The shortest decimal that reads back as the finite number `x`, which is not zero; of several,
the nearest. The sign is left out. -/
def ofNumber (x : Number) : Decimal :=
  let i := Interval.ofNumber x
  let k := i.point x
  let (c, n) := i.search k 17 1
  if c == Nat.pow 10 n then ⟨1, k + 1⟩ else ⟨stripZeros n c, k⟩

/-- Positional where the point falls in or near the digits, scientific elsewhere. -/
def toText (d : Decimal) : String :=
  let ds := (Nat.toDigits 10 d.digits)
  let n : Int := ds.length
  if -5 < d.point && d.point ≤ 16 then
    if d.point ≤ 0 then
      String.ofList ('0' :: '.' :: List.replicate (-d.point).toNat '0' ++ ds)
    else if n ≤ d.point then
      String.ofList (ds ++ List.replicate (d.point - n).toNat '0' ++ ['.', '0'])
    else
      String.ofList (ds.take d.point.toNat ++ '.' :: ds.drop d.point.toNat)
  else
    let mark := 'e' :: (toString (d.point - 1)).toList
    match ds with
    | [] => ""
    | [c] => String.ofList (c :: mark)
    | c :: rest => String.ofList (c :: '.' :: rest ++ mark)

end Decimal

/-- The text of a number: an integral number below `10 ^ 15` as an integer, any other finite number
as its shortest decimal. -/
def Number.format (x : Number) : String :=
  if x.isNaN then (if x.isNegative then "-nan" else "nan")
  else if x.isInfinite then (if x.isNegative then "-inf" else "inf")
  else if x.isIntegral && x.wholePart < 1000000000000000 then toString x.toInteger
  else
    let digits := (Decimal.ofNumber x).toText
    if x.isNegative then "-" ++ digits else digits

end LuaMachine
