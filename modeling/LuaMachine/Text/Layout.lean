/-!
# Blanks and lines

The characters with the Unicode property White_Space, the removal of blanks around a text, and a text
as lines: a line feed ends a line, together with a carriage return right before it.
-/

namespace LuaMachine.Text

/-- The Unicode property White_Space: twenty-five characters. -/
def isBlank (c : Char) : Bool :=
  let n := c.toNat
  (9 ≤ n && n ≤ 13) || n == 0x20 || n == 0x85 || n == 0xA0 || n == 0x1680 ||
    (0x2000 ≤ n && n ≤ 0x200A) || n == 0x2028 || n == 0x2029 || n == 0x202F || n == 0x205F ||
    n == 0x3000

/-- Drop the blanks at both ends. -/
def trimBlanks (cs : List Char) : List Char :=
  ((cs.dropWhile isBlank).reverse.dropWhile isBlank).reverse

/-- Cut after every line feed; the line feeds stay. -/
def chunksByLineFeed : List Char → List (List Char)
  | [] => []
  | c :: rest =>
    if c == '\n' then [c] :: chunksByLineFeed rest
    else match chunksByLineFeed rest with
      | [] => [[c]]
      | line :: lines => (c :: line) :: lines

/-- Drop a line's end. -/
def dropLineEnd (line : List Char) : List Char :=
  match line.reverse with
  | '\n' :: '\r' :: rest => rest.reverse
  | '\n' :: rest => rest.reverse
  | _ => line

/-- The lines of a text without their ends; a text that ends with a line feed has no empty line
after it. -/
def lines (s : String) : List String :=
  (chunksByLineFeed s.toList).map fun line => String.ofList (dropLineEnd line)

end LuaMachine.Text
