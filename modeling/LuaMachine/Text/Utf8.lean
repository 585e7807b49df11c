/-!
# UTF-8

Bytes as characters. `Utf8.scan` reads a list of bytes from the left; where the bytes are no UTF-8
it gives `none` for the longest start of a character that stands there, or for one byte. Strict and
lenient decoding are two views of that scan.
-/

namespace LuaMachine.Text.Utf8

def encodeChar (c : Char) : List UInt8 := String.utf8EncodeChar c

def encode (s : String) : List UInt8 := s.toUTF8.toList

/-- A byte that continues a character, with bounds that depend on the byte before it. -/
def continues (low high : UInt8) (b : UInt8) : Bool := low ≤ b && b ≤ high

/-- The bounds of the second byte after a first byte that starts a character of two, three or four
bytes, and the number of bytes that follow the first. -/
def lead? (b : UInt8) : Option (UInt8 × UInt8 × Nat) :=
  if 0xC2 ≤ b && b ≤ 0xDF then some (0x80, 0xBF, 1)
  else if b == 0xE0 then some (0xA0, 0xBF, 2)
  else if b == 0xED then some (0x80, 0x9F, 2)
  else if 0xE1 ≤ b && b ≤ 0xEF then some (0x80, 0xBF, 2)
  else if b == 0xF0 then some (0x90, 0xBF, 3)
  else if 0xF1 ≤ b && b ≤ 0xF3 then some (0x80, 0xBF, 3)
  else if b == 0xF4 then some (0x80, 0x8F, 3)
  else none

/-- The six value bits of a continuing byte, behind the bits read so far. -/
def shift (acc : Nat) (b : UInt8) : Nat := acc * 64 + (b.toNat - 0x80)

/-- The characters that bytes spell, with `none` where they spell none. -/
def scan : List UInt8 → List (Option Char)
  | [] => []
  | b :: rest =>
    if b < 0x80 then some (Char.ofNat b.toNat) :: scan rest
    else match lead? b with
      | none => none :: scan rest
      | some (low, high, n) =>
        match rest with
        | [] => [none]
        | c :: rest₁ =>
          if !continues low high c then none :: scan (c :: rest₁)
          else match n with
            | 1 => some (Char.ofNat (shift (b.toNat - 0xC0) c)) :: scan rest₁
            | 2 => match rest₁ with
              | [] => [none]
              | d :: rest₂ =>
                if continues 0x80 0xBF d then
                  some (Char.ofNat (shift (shift (b.toNat - 0xE0) c) d)) :: scan rest₂
                else none :: scan (d :: rest₂)
            | _ => match rest₁ with
              | [] => [none]
              | d :: rest₂ =>
                if !continues 0x80 0xBF d then none :: scan (d :: rest₂)
                else match rest₂ with
                  | [] => [none]
                  | e :: rest₃ =>
                    if continues 0x80 0xBF e then
                      some (Char.ofNat (shift (shift (shift (b.toNat - 0xF0) c) d) e)) :: scan rest₃
                    else none :: scan (e :: rest₃)

/-- The text that bytes spell, if they are UTF-8 throughout. -/
def decode? (bytes : List UInt8) : Option String :=
  ((scan bytes).mapM id).map String.ofList

/-- The text that bytes spell, with a replacement character for what is no UTF-8. -/
def decodeLossy (bytes : List UInt8) : String :=
  String.ofList ((scan bytes).map (·.getD '\ufffd'))

end LuaMachine.Text.Utf8
