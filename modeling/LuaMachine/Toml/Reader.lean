import LuaMachine.Toml.Scalar

/-!
# Reading configuration documents

`Document.ofText?` reads a document line by line. Lines end with a line feed, which a carriage
return may precede; comments start with a number sign.
-/

namespace LuaMachine.Toml

/-- A reader of the start of a text; it leaves the rest. -/
abbrev Reader := StateT (List Char) Option

namespace Reader

def peek? : Reader (Option Char) := do return (← get).head?

def atEnd : Reader Bool := do return (← get).isEmpty

/-- A character of a kind. -/
def one (p : Char → Bool) : Reader Char := do
  match ← get with
  | c :: rest =>
    if p c then
      set rest
      return c
    else failure
  | [] => failure

/-- A given word. -/
def word (w : String) : Reader Unit := do
  let cs ← get
  if w.toList.isPrefixOf cs then set (cs.drop w.length) else failure

/-- All characters of a kind that follow. -/
def takeWhile (p : Char → Bool) : Reader (List Char) := do
  let cs ← get
  set (cs.dropWhile p)
  return cs.takeWhile p

/-- Exactly so many characters of a kind. -/
def exactly (count : Nat) (p : Char → Bool) : Reader (List Char) := do
  let cs ← get
  let taken := cs.take count
  if taken.length == count && taken.all p then
    set (cs.drop count)
    return taken
  else failure

/-- As often as possible, but at most `fuel` times. -/
def upTo (x : Reader α) : Nat → Reader (List α)
  | 0 => pure []
  | fuel + 1 => (do
    let a ← x
    return a :: (← upTo x fuel)) <|> pure []

/-- As often as possible; each time takes something of the text. -/
def many (x : Reader α) : Reader (List α) := do
  upTo x (← get).length

/-- One or more, with a separator between two of them. -/
def separated (x : Reader α) (separator : Reader Unit) : Reader (List α) := do
  let a ← x
  return a :: (← many (do separator; x))

/-! ## Blanks, comments and line ends -/

def isBlank (c : Char) : Bool := c == ' ' || c == '\t'

/-- The characters that stand for themselves: all but the control characters, of which only the tab
remains. -/
def isPlain (c : Char) : Bool := c == '\t' || (' ' ≤ c && c != '\x7f')

def blanks : Reader Unit := do
  let _ ← takeWhile isBlank

def newline : Reader Unit := word "\n" <|> word "\r\n"

def comment : Reader Unit := do
  word "#"
  let _ ← takeWhile isPlain

/-- The end of a line, with what may precede it. -/
def lineEnd : Reader Unit := do
  blanks
  comment <|> pure ()
  if !(← atEnd) then newline

/-- Blanks, comments and line ends. -/
def gap : Reader Unit := do
  let _ ← many ((do let _ ← one isBlank) <|> newline <|> comment)

/-! ## Strings -/

/-- What follows a backslash. -/
def escape : Reader Char := do
  match ← one fun _ => true with
  | 'b' => return '\x08'
  | 't' => return '\t'
  | 'n' => return '\n'
  | 'f' => return '\x0c'
  | 'r' => return '\r'
  | '"' => return '"'
  | '\\' => return '\\'
  | 'u' => code 4
  | 'U' => code 8
  | _ => failure
where
  /-- A character by its number in hexadecimal digits. -/
  code (count : Nat) : Reader Char := do
    let n := Scalar.digitsIn 16 (← exactly count Numeral.isHexDigit)
    if n.isValidChar then return Char.ofNat n else failure

/-- A character of a string with escapes. -/
def basicChar : Reader Char :=
  one (fun c => isPlain c && c != '"' && c != '\\') <|> (do word "\\"; escape)

/-- A string with escapes. -/
def basicString : Reader String := do
  word "\""
  let cs ← many basicChar
  word "\""
  return String.ofList cs

/-- A string without escapes. -/
def literalString : Reader String := do
  word "'"
  let cs ← takeWhile fun c => isPlain c && c != '\''
  word "'"
  return String.ofList cs

/-- A piece of a string of several lines: a character or a line end, or quotes too few to end it. -/
def piece (quote : Char) : Reader (List Char) := do
  match ← peek? with
  | some c =>
    if c == quote then
      let quotes ← takeWhile (· == quote)
      if quotes.length < 3 then return quotes else failure
    else (do return [← one isPlain]) <|> (do newline; return ['\n'])
  | none => failure

/-- A line end that a backslash hides, with the blanks and line ends around it. -/
def hiddenLineEnd : Reader (List Char) := do
  word "\\"
  blanks
  newline
  let _ ← many ((do let _ ← one isBlank) <|> newline)
  return []

/-- A piece of a string of several lines with escapes. -/
def basicPiece : Reader (List Char) := do
  if (← peek?) == some '\\' then hiddenLineEnd <|> (do word "\\"; return [← escape])
  else piece '"'

/-- A string of several lines. A line end right behind the opening quotes does not count, and up to
two quotes may precede the closing ones. -/
def multiline (quote : Char) (element : Reader (List Char)) : Reader String := do
  let _ ← exactly 3 (· == quote)
  newline <|> pure ()
  let pieces ← many element
  let closing ← takeWhile (· == quote)
  if closing.length < 3 || 5 < closing.length then failure
  return String.ofList (pieces.flatten ++ closing.drop 3)

def string : Reader String := do
  if (← peek?) == some '"' then multiline '"' basicPiece <|> basicString
  else multiline '\'' (piece '\'') <|> literalString

/-! ## Keys -/

def isKeyChar (c : Char) : Bool := c.isAlphanum || c == '-' || c == '_'

def simpleKey : Reader String := do
  match ← peek? with
  | some '"' => basicString
  | some '\'' => literalString
  | _ =>
    let cs ← takeWhile isKeyChar
    if cs.isEmpty then failure else return String.ofList cs

/-- How deep values and keys may nest. -/
def depthLimit : Nat := 80

/-- A key with its path: keys with dots between them. -/
def key : Reader (List String × String) := do
  let keys ← separated (do blanks; let k ← simpleKey; blanks; return k) (word ".")
  if depthLimit ≤ keys.length then failure
  return (keys.dropLast, keys.getLastD "")

/-! ## Values -/

/-- The characters of numbers, dates and the words of a document. -/
def isScalarChar (c : Char) : Bool :=
  c.isAlphanum || c == '+' || c == '-' || c == '.' || c == '_' || c == ':'

/-- A value without brackets and quotes. A blank may stand between a date and a time. -/
def scalar : Reader Item := do
  let cs ← takeWhile isScalarChar
  let time ← match Scalar.isDate cs, ← get with
    | true, ' ' :: c :: _ =>
      if c.isDigit then do
        word " "
        pure (' ' :: (← takeWhile isScalarChar))
      else pure []
    | _, _ => pure []
  match Scalar.read? (cs ++ time) with
  | some item => return item
  | none => failure

/-- Values between brackets; a comma may follow the last. -/
def array (element : Reader Item) : Reader Item := do
  word "["
  let items ← separated (do gap; let v ← element; gap; return v) (word ",") <|> pure []
  if !items.isEmpty then word "," <|> pure ()
  gap
  word "]"
  return .array items

/-- Keys with values between braces, on one line. -/
def inlineTable (element : Reader Item) : Reader Item := do
  word "\x7b"
  let row : Reader ((List String × String) × Item) := do
    let k ← key
    word "="
    blanks
    let v ← element
    blanks
    return (k, v)
  let rows ← separated row (word ",") <|> pure []
  blanks
  word "\x7d"
  match rows.foldlM (fun (acc : Rows) (k, v) => acc.put .defined k.1 k.2 v) [] with
  | some rows => return .inline rows
  | none => failure

/-- A value, given the reader of the values inside brackets and braces if these are allowed. -/
def valueWith (nested : Option (Reader Item)) : Reader Item := do
  match ← peek?, nested with
  | some '"', _ | some '\'', _ => return .string (← string)
  | some '[', some element => array element
  | some '\x7b', some element => inlineTable element
  | _, _ => scalar

/-- A value; brackets and braces nest as deep as the argument says. -/
def value : Nat → Reader Item
  | 0 => valueWith none
  | depth + 1 => valueWith (some (value depth))

/-! ## Lines -/

/-- A header line. -/
def header (d : Document) : Reader Document := do
  let repeated ← (do word "[["; return true) <|> (do word "["; return false)
  let (path, k) ← key
  word (if repeated then "]]" else "]")
  lineEnd
  match if repeated then d.openElement path k else d.openTable path k with
  | some d => return d
  | none => failure

/-- A line that sets a key. -/
def assignment (d : Document) : Reader Document := do
  let (path, k) ← key
  word "="
  blanks
  let v ← value (depthLimit - 1)
  lineEnd
  match d.put path k v with
  | some d => return d
  | none => failure

/-- The lines of a document, at most `fuel` of them. -/
def lines : Nat → Document → Reader Document
  | 0, d => return d
  | fuel + 1, d => do
    blanks
    match ← peek? with
    | none => return d
    | some '[' => lines fuel (← header d)
    | some '#' | some '\n' | some '\r' =>
      lineEnd
      lines fuel d
    | some _ => lines fuel (← assignment d)

end Reader

/-- The table that a document describes; none if it breaks a rule. A mark of byte order at its start
does not count. -/
def Document.ofText? (text : String) : Option Rows :=
  let cs := match text.toList with
    | '\uFEFF' :: rest => rest
    | cs => cs
  match (Reader.lines (cs.length + 1) {}).run cs with
  | some (d, []) => some d.rows
  | _ => none

end LuaMachine.Toml
