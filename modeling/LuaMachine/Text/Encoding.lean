/-!
# Bytes as text

Two digits for each byte, in base sixteen, where reading gives back what was written
(`Hex.decode_encode`); and base 64 with the standard alphabet and padding. Base 64 is read strictly:
the padding must be there, and the bits that a shortened group leaves over must be zero.
-/

namespace LuaMachine.Text.Hex

/-- The digit of a value below sixteen, in lower case. -/
def digit (n : Nat) : Char := Nat.digitChar n

/-- The value of a digit of either case. -/
def value (c : Char) : Nat :=
  if c.isDigit then c.toNat - 48
  else if 'a' ≤ c then c.toNat - 87
  else c.toNat - 55

def encodeByte (b : UInt8) : List Char := [digit (b.toNat / 16), digit (b.toNat % 16)]

def encode (bytes : List UInt8) : String := String.ofList (bytes.flatMap encodeByte)

/-- The bytes that pairs of digits spell; a digit without a partner does not count. -/
def decodeChars : List Char → List UInt8
  | a :: b :: rest => (value a * 16 + value b).toUInt8 :: decodeChars rest
  | _ => []

def decode (s : String) : List UInt8 := decodeChars s.toList

theorem value_digit : ∀ n < 16, value (digit n) = n := by decide

theorem decodeChars_encode (bytes : List UInt8) :
    decodeChars (bytes.flatMap encodeByte) = bytes := by
  induction bytes with
  | nil => rfl
  | cons b rest ih =>
    have low : b.toNat % 16 < 16 := Nat.mod_lt _ (by decide)
    have high : b.toNat / 16 < 16 := by have := b.toNat_lt; omega
    have whole : b.toNat / 16 * 16 + b.toNat % 16 = b.toNat := by omega
    simp [encodeByte, decodeChars, value_digit _ low, value_digit _ high, whole, ih]

theorem decode_encode (bytes : List UInt8) : decode (encode bytes) = bytes := by
  simp [decode, encode, decodeChars_encode]

end LuaMachine.Text.Hex

namespace LuaMachine.Text.Base64

/-- The character of six bits. -/
def encodeSextet (n : Nat) : Char :=
  if n < 26 then Char.ofNat (65 + n)
  else if n < 52 then Char.ofNat (71 + n)
  else if n < 62 then Char.ofNat (n - 4)
  else if n == 62 then '+'
  else '/'

/-- The six bits of a character. -/
def decodeSextet? (c : Char) : Option Nat :=
  if 'A' ≤ c && c ≤ 'Z' then some (c.toNat - 65)
  else if 'a' ≤ c && c ≤ 'z' then some (c.toNat - 71)
  else if '0' ≤ c && c ≤ '9' then some (c.toNat + 4)
  else if c == '+' then some 62
  else if c == '/' then some 63
  else none

/-- Three bytes as four characters; one or two bytes at the end are padded. -/
def encode : List UInt8 → List Char
  | a :: b :: c :: rest =>
    let n := a.toNat * 65536 + b.toNat * 256 + c.toNat
    encodeSextet (n / 262144) :: encodeSextet (n / 4096 % 64) :: encodeSextet (n / 64 % 64) ::
      encodeSextet (n % 64) :: encode rest
  | [a, b] =>
    let n := a.toNat * 256 + b.toNat
    [encodeSextet (n / 1024), encodeSextet (n / 16 % 64), encodeSextet (n % 16 * 4), '=']
  | [a] => [encodeSextet (a.toNat / 4), encodeSextet (a.toNat % 4 * 16), '=', '=']
  | [] => []

/-- The bytes that a text encodes, if it is well formed. -/
def decode? : List Char → Option (List UInt8)
  | [] => some []
  | [a, b, '=', '='] => do
    let n := (← decodeSextet? a) * 64 + (← decodeSextet? b)
    if n % 16 == 0 then some [(n / 16).toUInt8] else none
  | [a, b, c, '='] => do
    let n := (← decodeSextet? a) * 4096 + (← decodeSextet? b) * 64 + (← decodeSextet? c)
    if n % 4 == 0 then some [(n / 1024).toUInt8, (n / 4).toUInt8] else none
  | a :: b :: c :: d :: rest => do
    let n := (← decodeSextet? a) * 262144 + (← decodeSextet? b) * 4096 +
      (← decodeSextet? c) * 64 + (← decodeSextet? d)
    let more ← decode? rest
    some ((n / 65536).toUInt8 :: (n / 256).toUInt8 :: n.toUInt8 :: more)
  | _ => none

end LuaMachine.Text.Base64
