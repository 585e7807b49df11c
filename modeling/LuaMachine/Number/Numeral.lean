import LuaMachine.Number.Basic
import LuaMachine.Text.Layout

/-!
# Numerals

Reading numbers from text. `Numeral.decimal?` reads a decimal numeral with an optional fraction and
exponent, `Numeral.hex` the digits of a hexadecimal integer, and `Number.ofText?` a whole text as
scripts coerce strings: blanks around it, one sign, then either of the two.
-/

namespace LuaMachine

namespace Numeral

def isHexDigit (c : Char) : Bool :=
  c.isDigit || ('a' ≤ c && c ≤ 'f') || ('A' ≤ c && c ≤ 'F')

/-- The value of a digit in a base up to thirty-six; letters of either case follow the nine. -/
def digitValue (c : Char) : Nat :=
  if c.isDigit then c.toNat - 48
  else if 'a' ≤ c && c ≤ 'z' then c.toNat - 87
  else if 'A' ≤ c && c ≤ 'Z' then c.toNat - 55
  else 36

/-- The integer that decimal digits spell. -/
def digitsValue (cs : List Char) : Nat := cs.foldl (fun n c => 10 * n + digitValue c) 0

/-- The double nearest to `m · 10 ^ e`. -/
def scaled (m : Nat) (e : Int) : Number :=
  if m == 0 then .zero
  else
    let size : Int := (Nat.toDigits 10 m).length
    if size + e > 310 then .infinity
    else if size + e < -330 then .zero
    else ⟨(Float.ofScientific m (e < 0) e.natAbs).toBits⟩

/-- An exponent that makes up the whole of the text: empty, or a mark, a sign and digits. -/
def exponent? : List Char → Option Int
  | [] => some 0
  | c :: rest =>
    if c == 'e' || c == 'E' then
      let (negative, ds) := match rest with
        | '-' :: ds => (true, ds)
        | '+' :: ds => (false, ds)
        | ds => (false, ds)
      if ds.isEmpty || !ds.all Char.isDigit then none
      else
        let n : Int := digitsValue ds
        some (if negative then -n else n)
    else none

/-- A decimal numeral without sign: digits with at most one point and at least one digit, then an
optional exponent. -/
def decimal? (cs : List Char) : Option Number :=
  let whole := cs.takeWhile Char.isDigit
  let (part, rest) := match cs.dropWhile Char.isDigit with
    | '.' :: r => (r.takeWhile Char.isDigit, r.dropWhile Char.isDigit)
    | r => ([], r)
  if whole.isEmpty && part.isEmpty then none
  else (exponent? rest).map fun e => scaled (digitsValue (whole ++ part)) (e - part.length)

/-- The number of hexadecimal digits, rounded after each digit. -/
def hex (cs : List Char) : Number :=
  cs.foldl (fun acc c => .add (.mul acc (.ofNat 16)) (.ofNat (digitValue c))) .zero

/-- Two to the power `e`: infinite from 1024 on, and below -1023 the reciprocal of that. -/
def powerOfTwo (e : Int) : Number :=
  let power : Number := if e.natAbs < 1024 then .ofNat (Nat.pow 2 e.natAbs) else .infinity
  if e < 0 then .div .one power else power

/-- An integer of 32 bits with an optional sign. -/
def exponent32? (cs : List Char) : Option Int :=
  let (negative, ds) := match cs with
    | '-' :: ds => (true, ds)
    | '+' :: ds => (false, ds)
    | ds => (false, ds)
  if ds.isEmpty || !ds.all Char.isDigit then none
  else
    let n : Int := if negative then -(digitsValue ds : Int) else digitsValue ds
    if -2147483648 ≤ n && n ≤ 2147483647 then some n else none

/-- A hexadecimal numeral behind its `0x`: digits with at most one point, and an optional binary
exponent after `p`. Digits behind the point are added one by one. -/
def hexWithPoint? (cs : List Char) : Option Number :=
  let mark (c : Char) : Bool := c == 'p' || c == 'P'
  let mantissa := cs.takeWhile (!mark ·)
  let whole := mantissa.takeWhile (· != '.')
  let part := (mantissa.dropWhile (· != '.')).drop 1
  if (whole.isEmpty && part.isEmpty) || !whole.all isHexDigit || !part.all isHexDigit then none
  else
    let sixteen := Number.ofNat 16
    let (value, _) := part.foldl
      (fun (acc, scale) c =>
        (Number.add acc (.mul (.ofNat (digitValue c)) scale), Number.div scale sixteen))
      (hex whole, Number.div .one sixteen)
    match cs.dropWhile (!mark ·) with
    | [] => some value
    | _ :: e => (exponent32? e).map fun e => .mul value (powerOfTwo e)

/-- The characters a decimal numeral consists of, exponent signs included. -/
def isDecimalChar (c : Char) : Bool :=
  c.isDigit || c == '.' || c == 'e' || c == 'E' || c == '+' || c == '-'

/-- A numeral without sign: `0x` and hexadecimal digits, or a decimal that starts with a digit or a
point. -/
def unsigned? : List Char → Option Number
  | '0' :: 'x' :: ds | '0' :: 'X' :: ds =>
    if ds.isEmpty || !ds.all isHexDigit then none else some (hex ds)
  | [] => none
  | c :: rest =>
    if (c.isDigit || c == '.') && (c :: rest).all isDecimalChar then decimal? (c :: rest) else none

end Numeral

/-- The number that a text spells, blanks around it aside. -/
def Number.ofText? (s : String) : Option Number :=
  match Text.trimBlanks s.toList with
  | '-' :: body => (Numeral.unsigned? body).map .neg
  | '+' :: body => Numeral.unsigned? body
  | body => Numeral.unsigned? body

end LuaMachine
