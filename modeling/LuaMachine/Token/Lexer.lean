import LuaMachine.Token.Scanner

/-!
# Reading tokens by position

The scanner reads a list of characters; a lexer reads an array of them at a position. What it reads there
without having looked whether the text goes on is an access that has to lie within the text, and a loop that
goes on has to have passed some of it: a lexer that leaves the text, or goes round without end, gives `none`.
-/

namespace LuaMachine

/-- A text, and the place up to which it has been read. -/
structure Lexer where
  chars : Array Char
  position : Nat := 0
  line : Nat := 1
  column : Nat := 1

/-- Some of the text is passed between two places. -/
def Lexer.Passes (s s' : Lexer) : Prop :=
  s.position < s'.position ∧ s'.position ≤ s.chars.size ∧ s'.chars.size = s.chars.size

instance (s s' : Lexer) : Decidable (s.Passes s') := inferInstanceAs (Decidable (_ ∧ _))

/-- A step of a lexer. It gives `none` if it reads outside of the text or does not end. -/
abbrev Lexing := StateT Lexer (ExceptT SyntaxFault Option)

namespace Lexing

open Token

/-! ## Loops -/

/-- How a round of a loop ends: the loop goes on, or is done. -/
inductive Round (α β : Type) where
  | again (a : α)
  | done (b : β)

/-- The rounds of a loop up to the last one. If a round passes none of the text and the loop goes on all the
same, it does not end. -/
def loop {α β : Type} (round : α → Lexing (Round α β)) (a : α) : Lexing β := fun s =>
  match round a s with
  | some (.ok (.again a, s')) => if _h : s.Passes s' then loop round a s' else none
  | some (.ok (.done b, s')) => some (.ok (b, s'))
  | some (.error e) => some (.error e)
  | none => none
termination_by s => s.chars.size - s.position
decreasing_by
  obtain ⟨hlt, hle, hsize⟩ := _h
  omega

/-! ## Characters -/

/-- The character at the position, which lies within the text. -/
def access : Lexing Char := fun s =>
  match s.chars[s.position]? with
  | some c => some (.ok (c, s))
  | none => none

/-- The text from an earlier position on. -/
def slice (start : Nat) : Lexing (List Char) := fun s =>
  if start ≤ s.position ∧ s.position ≤ s.chars.size then
    some (.ok ((s.chars.toList.drop start).take (s.position - start), s))
  else none

/-- A text without its first characters, which are there. -/
def without (n : Nat) (cs : List Char) : Lexing (List Char) := fun s =>
  if n ≤ cs.length then some (.ok (cs.drop n, s)) else none

def atEnd : Lexing Bool := do
  let s ← get
  return s.chars.size ≤ s.position

def peek : Lexing Char := do
  if ← atEnd then return '\x00' else access

def peekNext : Lexing (Option Char) := do
  let s ← get
  return s.chars[s.position + 1]?

def advance : Lexing Char := do
  let c ← access
  modify fun s => { s with position := s.position + 1, column := s.column + 1 }
  return c

def advanceTimes : Nat → Lexing Unit
  | 0 => return
  | n + 1 => do
    let _ ← advance
    advanceTimes n

def accept (expected : Char) : Lexing Bool := do
  if ← atEnd then return false
  else if (← access) == expected then
    let _ ← advance
    return true
  else return false

def consumeNewline : Lexing Unit := do
  let first ← access
  modify fun s => { s with position := s.position + 1, line := s.line + 1, column := 1 }
  match (← get).chars[(← get).position]? with
  | some second =>
    if isLineEnd second && second != first then
      modify fun s => { s with position := s.position + 1 }
  | none => return

def advanceWhile (p : Char → Bool) : Lexing Unit :=
  loop (fun _ => do
    if ← atEnd then return .done ()
    else if p (← peek) then
      let _ ← advance
      return .again ()
    else return .done ()) ()

def passIf (p : Char → Bool) : Lexing Unit := do
  if p (← peek) then
    let _ ← advance

/-- A fault at the position. -/
def faultHere (cause : SyntaxCause) : Lexing α := do
  let s ← get
  throw ⟨s.line, s.column, cause, false⟩

/-! ## Words and numerals -/

def word : Lexing Token := do
  let start := (← get).position
  advanceWhile isWordChar
  return ofWord (String.ofList (← slice start))

def numeralEnd (hex : Bool) : Lexing Unit :=
  loop (fun _ => do
    if ← atEnd then return .done ()
    else
      let c ← peek
      if (if hex then c == 'p' || c == 'P' else c == 'e' || c == 'E') then
        let _ ← advance
        passIf fun d => d == '+' || d == '-'
        return .again ()
      else if c.isAlphanum || c == '.' then
        let _ ← advance
        return .again ()
      else return .done ()) ()

def numeralValue (hex : Bool) (text : List Char) : Lexing (Option Number) := do
  if hex then return Numeral.hexWithPoint? (← without 2 text)
  else return Numeral.decimal? text

def numeral : Lexing Token := do
  let start ← get
  let next ← peekNext
  let hex := (← peek) == '0' && (next == some 'x' || next == some 'X')
  numeralEnd hex
  let text ← slice start.position
  match ← numeralValue hex text with
  | some n => return .number n
  | none => throw ⟨start.line, start.column, .malformedNumber (String.ofList text), false⟩

/-! ## Quoted strings -/

def hexDigit : Lexing Nat := do
  let c ← peek
  if Numeral.isHexDigit c && !(← atEnd) then
    let _ ← advance
    return Numeral.digitValue c
  else faultHere .hexDigitExpected

/-- Decimal digits, so many at most, behind those that were read. -/
def decimalDigits : Nat → Nat → Lexing Nat
  | 0, n => return n
  | k + 1, n => do
    if ← atEnd then return n
    else
      let c ← peek
      if c.isDigit then
        let _ ← advance
        decimalDigits k (n * 10 + Numeral.digitValue c)
      else return n

def gap : Lexing Unit :=
  loop (fun _ => do
    if ← atEnd then return .done ()
    else
      let c ← peek
      if Text.isBlank c then
        if isLineEnd c then
          consumeNewline
          return .again ()
        else
          let _ ← advance
          return .again ()
      else return .done ()) ()

/-- The bytes of an escape that is not one letter. -/
def longEscape (c : Char) : Lexing (List UInt8) := do
  if isLineEnd c then
    consumeNewline
    return [10]
  else if c == 'z' then
    let _ ← advance
    gap
    return []
  else if c == 'x' then
    let _ ← advance
    let high ← hexDigit
    let low ← hexDigit
    return [(high * 16 + low).toUInt8]
  else if c.isDigit then
    let n ← decimalDigits 3 0
    if n > 255 then faultHere .decimalEscapeTooLarge
    else return [n.toUInt8]
  else faultHere .invalidEscape

/-- The bytes of an escape in a string that starts at a place. -/
def escape (line column : Nat) : Lexing (List UInt8) := do
  if ← atEnd then throw ⟨line, column, .openString, true⟩
  else
    let c ← peek
    match namedEscape? c with
    | some b =>
      let _ ← advance
      return [b]
    | none => longEscape c

def quotedRest (quote : Char) (line column : Nat) (bytes : List UInt8) : Lexing (List UInt8) :=
  loop (fun bytes => do
    if ← atEnd then throw ⟨line, column, .openString, true⟩
    else
      let c ← peek
      if c == quote then
        let _ ← advance
        return .done bytes
      else if isLineEnd c then
        throw ⟨line, column, .brokenString (quote.toString ++ Text.Utf8.decodeLossy bytes), false⟩
      else if c == '\\' then
        let _ ← advance
        let more ← escape line column
        return .again (bytes ++ more)
      else
        let _ ← advance
        return .again (bytes ++ Text.Utf8.encodeChar c)) bytes

def quoted : Lexing Token := do
  let start ← get
  let quote ← advance
  return .string (Text.Utf8.decodeLossy (← quotedRest quote start.line start.column []))

/-! ## Long brackets -/

/-- The level of a long bracket that starts at the position. -/
def longLevel? : Lexing (Option Nat) := do
  if (← peek) == '[' && !(← atEnd) then
    let s ← get
    return Token.longLevel? (s.chars.toList.drop (s.position + 1))
  else return none

def closesLong (level : Nat) : Lexing Bool := do
  let s ← get
  return Token.closesLong level (s.chars.toList.drop (s.position + 1))

def longRest (level : Nat) (what : String) (line column : Nat) (text : List Char) : Lexing (List Char) :=
  loop (fun text => do
    if ← atEnd then throw ⟨line, column, .openBracket what, true⟩
    else
      let c ← peek
      let closes ← closesLong level
      if c == ']' && closes then
        advanceTimes (level + 2)
        return .done text
      else if isLineEnd c then
        consumeNewline
        return .again (text ++ ['\n'])
      else
        let d ← advance
        return .again (text ++ [d])) text

def firstLineEnd : Lexing Unit := do
  if isLineEnd (← peek) && !(← atEnd) then consumeNewline

def longBracket (level : Nat) (what : String) : Lexing (List Char) := do
  let start ← get
  advanceTimes (level + 2)
  firstLineEnd
  longRest level what start.line start.column []

/-! ## Blanks and comments -/

/-- A comment behind its two hyphens. -/
def comment : Lexing Unit := do
  match ← longLevel? with
  | some level =>
    let _ ← longBracket level "comment"
  | none => advanceWhile (!isLineEnd ·)

/-- One blank, or one comment. -/
def blank : Lexing (Round Unit Unit) := do
  if ← atEnd then return .done ()
  else
    let c ← peek
    let next ← peekNext
    if isLineEnd c then
      consumeNewline
      return .again ()
    else if Text.isBlank c then
      let _ ← advance
      return .again ()
    else if c == '-' && next == some '-' then
      let _ ← advance
      let _ ← advance
      comment
      return .again ()
    else return .done ()

def blanks : Lexing Unit := loop (fun _ => blank) ()

/-! ## Tokens -/

/-- An operator that goes on with a character, or the one that does not. -/
def either (next : Char) (long short : Punctuator) : Lexing Punctuator := do
  if ← accept next then return long else return short

/-- Operators and punctuation: one character, and more of them if they follow. -/
def punctuator : Lexing Punctuator := do
  let start ← get
  match ← advance with
  | '+' => return .plus
  | '-' => return .minus
  | '*' => return .star
  | '/' => return .slash
  | '%' => return .percent
  | '^' => return .caret
  | '#' => return .hash
  | '(' => return .leftParen
  | ')' => return .rightParen
  | '\x7b' => return .leftBrace
  | '\x7d' => return .rightBrace
  | '[' => return .leftBracket
  | ']' => return .rightBracket
  | ';' => return .semicolon
  | ',' => return .comma
  | '=' => either '=' .equal .assign
  | '<' => either '=' .lessEqual .less
  | '>' => either '=' .greaterEqual .greater
  | ':' => either ':' .doubleColon .colon
  | '.' =>
    if ← accept '.' then either '.' .ellipsis .concat
    else return .dot
  | '~' =>
    if ← accept '=' then return .notEqual
    else throw ⟨start.line, start.column, .unexpectedSymbol '~'.toString, false⟩
  | c => throw ⟨start.line, start.column, .unexpectedSymbol c.toString, false⟩

def token : Lexing Token := do
  if ← atEnd then return .endOfInput
  else
    let c ← peek
    let next ← peekNext
    let level? ← longLevel?
    if isWordStart c then word
    else if c.isDigit || (c == '.' && (next.map Char.isDigit).getD false) then numeral
    else if c == '"' || c == '\'' then quoted
    else match level? with
      | some level => return .string (String.ofList (← longBracket level "string"))
      | none => return .punctuator (← punctuator)

def lexeme : Lexing Lexeme := do
  blanks
  let start ← get
  let token ← token
  let after ← get
  let extent : Extent :=
    if token = .endOfInput then ⟨start.line, start.column, start.line, start.column⟩
    else ⟨start.line, start.column, after.line, max (after.column - 1) 1⟩
  return ⟨token, extent⟩

def shebang : Lexing Unit := do
  if (← peek) == '#' then advanceWhile (· != '\n')

end Lexing

namespace Lexer

/-- The lexemes up to the end of the input, or up to a fault. -/
def lexemes (s : Lexer) : Option TokenStream :=
  match Lexing.lexeme s with
  | some (.ok (l, after)) =>
    if l.token = .endOfInput then some ⟨[], .ok l⟩
    else if _h : s.Passes after then (lexemes after).map (·.cons l)
    else none
  | some (.error e) => some ⟨[], .error e⟩
  | none => none
termination_by s.chars.size - s.position
decreasing_by
  obtain ⟨hlt, hle, hsize⟩ := _h
  omega

/-- The lexemes of a text, behind a first line that starts with `#`. -/
def scan (source : String) : Option TokenStream := do
  match ← Lexing.shebang { chars := source.toList.toArray } with
  | .error e => return ⟨[], .error e⟩
  | .ok ((), s) => s.lexemes

end Lexer

end LuaMachine
