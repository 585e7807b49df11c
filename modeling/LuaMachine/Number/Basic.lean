/-!
# Double-precision numbers

A script has one kind of number, the IEEE 754 double. A `Number` is kept by its bit pattern, so
that two numbers are equal as data exactly when they are the same double, the sign of a zero and of
an undefined result included. The classes (`isNaN`, `isZero`, `isIntegral`), the order and the
roundings to integers are computed on the bits; the four operations are those of `Float`.
-/

namespace LuaMachine

/-- A double, by its bit pattern. -/
structure Number where
  bits : UInt64
deriving DecidableEq, Hashable, Repr, Inhabited

namespace Number

/-! ## Fields of the bit pattern -/

/-- The bits below the sign: exponent and fraction. -/
def magnitude (x : Number) : UInt64 := x.bits &&& 0x7fffffffffffffff

/-- True when the sign bit is set; also of `-0` and of an undefined number. -/
def isNegative (x : Number) : Bool := x.bits &&& 0x8000000000000000 != 0

/-- The eleven exponent bits. -/
def exponentField (x : Number) : UInt64 := x.magnitude >>> 52

/-- The fifty-two fraction bits. -/
def fraction (x : Number) : UInt64 := x.bits &&& 0x000fffffffffffff

/-- The integer significand, with the leading one of a normal number. -/
def significand (x : Number) : UInt64 :=
  if x.exponentField == 0 then x.fraction else x.fraction ||| 0x0010000000000000

/-- The exponent of two that scales `significand`. -/
def scale (x : Number) : Int :=
  if x.exponentField == 0 then -1074 else x.exponentField.toNat - 1075

/-! ## Classes -/

def isNaN (x : Number) : Bool := x.magnitude > 0x7ff0000000000000

def isInfinite (x : Number) : Bool := x.magnitude == 0x7ff0000000000000

def isFinite (x : Number) : Bool := x.magnitude < 0x7ff0000000000000

def isZero (x : Number) : Bool := x.magnitude == 0

/-- The mask of the fraction bits that stand for a part smaller than one, for a number whose
absolute value is at least one and below `2 ^ 52`. -/
def partMask (x : Number) : UInt64 := 0x000fffffffffffff >>> (x.exponentField - 1023)

/-- True of a finite number without a fractional part. -/
def isIntegral (x : Number) : Bool :=
  if x.isZero then true
  else if x.exponentField < 1023 then false
  else if x.exponentField < 1075 then x.bits &&& x.partMask == 0
  else x.isFinite

/-! ## Constants and conversions -/

def zero : Number := ⟨0⟩

def one : Number := ⟨0x3ff0000000000000⟩

def infinity : Number := ⟨0x7ff0000000000000⟩

/-- The undefined number that text spells `nan`. -/
def nan : Number := ⟨0x7ff8000000000000⟩

/-- What an operation without a defined result gives, for instance `0 / 0`: its sign bit is set. -/
def undefined : Number := ⟨0xfff8000000000000⟩

def toFloat (x : Number) : Float := Float.ofBits x.bits

/-- The number of a computed float; an undefined result is `undefined`. -/
def ofFloat (x : Float) : Number :=
  let n : Number := ⟨x.toBits⟩
  if n.isNaN then undefined else n

def ofNat (n : Nat) : Number :=
  if n < 0x8000000000000000 then ⟨n.toUInt64.toFloat.toBits⟩ else ⟨(Float.ofNat n).toBits⟩

def neg (x : Number) : Number := ⟨x.bits ^^^ 0x8000000000000000⟩

def ofInt : Int → Number
  | .ofNat n => ofNat n
  | .negSucc n => neg (ofNat (n + 1))

/-! ## Arithmetic -/

/-- Lift an operation on floats: an undefined operand is the result, the left one first. -/
@[inline] def lift (op : Float → Float → Float) (x y : Number) : Number :=
  if x.isNaN then x
  else if y.isNaN then y
  else ofFloat (op x.toFloat y.toFloat)

def add : Number → Number → Number := lift (· + ·)

def sub : Number → Number → Number := lift (· - ·)

def mul : Number → Number → Number := lift (· * ·)

def div : Number → Number → Number := lift (· / ·)

/-- The largest integer that is not above `x`; infinite and undefined numbers stay. -/
def floor (x : Number) : Number :=
  if x.isZero then x
  else if x.exponentField < 1023 then (if x.isNegative then one.neg else zero)
  else if x.exponentField < 1075 then
    let mask := x.partMask
    if x.bits &&& mask == 0 then x
    else if x.isNegative then ⟨(x.bits + mask) &&& ~~~mask⟩
    else ⟨x.bits &&& ~~~mask⟩
  else x

/-- The remainder of the division rounded down: it has the sign of the divisor. -/
def mod (x y : Number) : Number := sub x (mul (floor (div x y)) y)

/-- `x` to the power `y`. A base of one and an exponent of zero give one, whatever the other
operand; otherwise an undefined operand is the result. -/
def pow (x y : Number) : Number :=
  if y.isZero || x == one then one
  else lift Float.pow x y

/-! ## Order -/

/-- Numeric equality: the two zeros are equal and an undefined number equals nothing. -/
def equals (x y : Number) : Bool :=
  !x.isNaN && !y.isNaN && (x.bits == y.bits || (x.isZero && y.isZero))

/-- Strictly below, for numbers that are not undefined. -/
def lt (x y : Number) : Bool :=
  if x.isNaN || y.isNaN then false
  else if x.isNegative then
    if y.isNegative then y.bits < x.bits else !(x.isZero && y.isZero)
  else
    if y.isNegative then false else x.bits < y.bits

def le (x y : Number) : Bool := x.lt y || x.equals y

/-! ## Rounding to an integer -/

/-- The integer part of the absolute value; zero for infinite and undefined numbers. -/
def wholePart (x : Number) : Nat :=
  if x.exponentField < 1023 then 0
  else if x.exponentField < 1075 then
    (x.significand >>> (1075 - x.exponentField)).toNat
  else if x.isFinite then x.significand.toNat <<< (x.exponentField.toNat - 1075)
  else 0

/-- The least and the greatest integer of 64 bits. -/
def minInteger : Int := -0x8000000000000000

@[inherit_doc minInteger] def maxInteger : Int := 0x7fffffffffffffff

/-- Drop the fraction and clamp to 64 bits with sign; an undefined number gives zero. -/
def toInteger (x : Number) : Int :=
  if x.isNaN then 0
  else if x.exponentField ≥ 1086 then (if x.isNegative then minInteger else maxInteger)
  else if x.isNegative then -(x.wholePart : Int) else x.wholePart

end Number

end LuaMachine
