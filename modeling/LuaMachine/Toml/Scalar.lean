import LuaMachine.Number.Numeral
import LuaMachine.Toml.Document

/-!
# Plain values of a document

Numbers, truth values, dates and times, each a run of characters without blanks.
-/

namespace LuaMachine.Toml.Scalar

/-! ## Numbers -/

/-- Digits of a kind, one underscore at most between two of them; gives the digits alone. -/
def grouped? (isDigit : Char → Bool) : List Char → Option (List Char)
  | [] => none
  | [c] => if isDigit c then some [c] else none
  | c :: '_' :: rest => if isDigit c then (grouped? isDigit rest).map (c :: ·) else none
  | c :: rest => if isDigit c then (grouped? isDigit rest).map (c :: ·) else none

/-- The digits of a decimal integer, which has no leading zero. -/
def wholePart? (cs : List Char) : Option (List Char) :=
  match grouped? Char.isDigit cs with
  | some ('0' :: _ :: _) => none
  | ds => ds

/-- Whether a text has a minus sign, and the text without its sign. -/
def splitSign : List Char → Bool × List Char
  | '-' :: rest => (true, rest)
  | '+' :: rest => (false, rest)
  | cs => (false, cs)

def signed (negative : Bool) (n : Nat) : Int := if negative then -n else n

/-- The value of digits in a base. -/
def digitsIn (base : Nat) (ds : List Char) : Nat :=
  ds.foldl (fun n c => base * n + Numeral.digitValue c) 0

/-- An integer of 64 bits; only a decimal one may have a sign. -/
def integer? (cs : List Char) : Option Int := do
  let inBase (base : Nat) (ds : List Char) : Option Int :=
    (grouped? (Numeral.digitValue · < base) ds).map fun ds => (digitsIn base ds : Int)
  let n ← match cs with
    | '0' :: 'x' :: ds => inBase 16 ds
    | '0' :: 'o' :: ds => inBase 8 ds
    | '0' :: 'b' :: ds => inBase 2 ds
    | cs =>
      let (negative, ds) := splitSign cs
      (wholePart? ds).map fun ds => signed negative (Numeral.digitsValue ds)
  if Number.minInteger ≤ n && n ≤ Number.maxInteger then some n else none

/-- A number with a fraction, an exponent or both, or one of the words for the infinities and for
the number that is none. A plain number too large for a double is refused. -/
def float? (cs : List Char) : Option Number := do
  let (negative, body) := splitSign cs
  let sign (x : Number) : Number := if negative then x.neg else x
  if body == "inf".toList then return sign .infinity
  if body == "nan".toList then return sign .nan
  let isMark (c : Char) : Bool := c == 'e' || c == 'E'
  let mantissa := body.takeWhile (!isMark ·)
  let mark := (body.dropWhile (!isMark ·)).drop 1
  let hasExponent := body.any isMark
  let (exponentNegative, exponent) := splitSign mark
  let exponent ← if hasExponent then grouped? Char.isDigit exponent else some ['0']
  let whole ← wholePart? (mantissa.takeWhile (· != '.'))
  let hasFraction := mantissa.contains '.'
  let fraction ←
    if hasFraction then grouped? Char.isDigit ((mantissa.dropWhile (· != '.')).drop 1) else some []
  if !hasExponent && !hasFraction then none
  let e := signed exponentNegative (Numeral.digitsValue exponent)
  let x := sign (Numeral.scaled (Numeral.digitsValue (whole ++ fraction)) (e - fraction.length))
  if x == .infinity then none else some x

/-! ## Dates and times -/

/-- The value of exactly so many digits. -/
def digits? (count : Nat) (cs : List Char) : Option Nat :=
  if cs.length == count && cs.all Char.isDigit then some (Numeral.digitsValue cs) else none

def daysInMonth (year month : Nat) : Nat :=
  if month == 2 then
    if year % 4 == 0 && (year % 100 != 0 || year % 400 == 0) then 29 else 28
  else if month == 4 || month == 6 || month == 9 || month == 11 then 30
  else 31

/-- A day of the calendar, as in `1979-05-27`. -/
def isDate (cs : List Char) : Bool :=
  match cs with
  | [a, b, c, d, '-', e, f, '-', g, h] =>
    match digits? 4 [a, b, c, d], digits? 2 [e, f], digits? 2 [g, h] with
    | some year, some month, some day =>
      1 ≤ month && month ≤ 12 && 1 ≤ day && day ≤ daysInMonth year month
    | _, _, _ => false
  | _ => false

/-- An hour and a minute, as in `07:32`. -/
def isHourMinute (cs : List Char) : Bool :=
  match cs with
  | [a, b, ':', c, d] =>
    match digits? 2 [a, b], digits? 2 [c, d] with
    | some hour, some minute => hour < 24 && minute < 60
    | _, _ => false
  | _ => false

/-- A time of day to the second or a fraction of one, as in `07:32:00.5`. A minute may have a
sixty-first second. -/
def isTime (cs : List Char) : Bool :=
  isHourMinute (cs.take 5) &&
    match cs.drop 5 with
    | ':' :: a :: b :: fraction =>
      (match digits? 2 [a, b] with
        | some second => second ≤ 60
        | none => false) &&
      match fraction with
      | [] => true
      | '.' :: ds => !ds.isEmpty && ds.all Char.isDigit
      | _ => false
    | _ => false

/-- A time of day that may tell its distance from universal time. -/
def isTimeWithOffset (cs : List Char) : Bool :=
  let ofTime (c : Char) : Bool := c.isDigit || c == ':' || c == '.'
  isTime (cs.takeWhile ofTime) &&
    match cs.dropWhile ofTime with
    | [] | ['Z'] | ['z'] => true
    | '+' :: offset | '-' :: offset => isHourMinute offset
    | _ => false

/-- A date, a time, or a date and a time. -/
def isDateTime (cs : List Char) : Bool :=
  isTime cs || isDate cs ||
    (isDate (cs.take 10) &&
      match cs.drop 10 with
      | mark :: time => (mark == 'T' || mark == 't' || mark == ' ') && isTimeWithOffset time
      | [] => false)

/-- The value that a run of characters spells. -/
def read? (cs : List Char) : Option Item :=
  if cs == "true".toList then some (.boolean true)
  else if cs == "false".toList then some (.boolean false)
  else if isDateTime cs then some (.dateTime (String.ofList cs))
  else match integer? cs with
    | some n => some (.integer n)
    | none => (float? cs).map .float

end LuaMachine.Toml.Scalar
