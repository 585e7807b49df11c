import LuaMachine.Token.Basic
import LuaMachine.SyntaxError
import LuaMachine.Number.Numeral
import LuaMachine.Text.Utf8

/-!
# Reading tokens

`Token.scan` cuts a source text into lexemes. Blanks and comments between tokens are skipped, and so
is a first line that starts with `#`. A line ends at a line feed, a carriage return or the two
together in either order; lines and columns count from one. The scan stops at the end of the text
or at the first fault.
-/

namespace LuaMachine

/-- The text that is still to be read, and the place where it starts. -/
structure Cursor where
  rest : List Char
  line : Nat := 1
  column : Nat := 1
deriving DecidableEq, Repr

namespace Cursor

def ofString (s : String) : Cursor := { rest := s.toList }

/-- Pass `n` characters of the current line. -/
def skip (c : Cursor) (n : Nat) : Cursor := { c with rest := c.rest.drop n, column := c.column + n }

/-- A fault at this place. -/
def fault (c : Cursor) (cause : SyntaxCause) (premature : Bool := false) : SyntaxFault :=
  { line := c.line, column := c.column, cause, premature }

end Cursor

namespace Token

def isLineEnd (c : Char) : Bool := c == '\n' || c == '\r'

/-- The text after a line end whose first character was `c`: the other character of a pair goes
with it. -/
def afterLineEnd (c : Char) : List Char → List Char
  | [] => []
  | d :: rest => if isLineEnd d && d != c then rest else d :: rest

theorem length_afterLineEnd (c : Char) (cs : List Char) :
    (afterLineEnd c cs).length ≤ cs.length := by
  cases cs with
  | nil => simp [afterLineEnd]
  | cons d rest => simp only [afterLineEnd]; split <;> simp

/-! ## Long brackets -/

/-- The level of a long bracket whose first bracket stands before this text. -/
def longLevel? (cs : List Char) : Option Nat :=
  let level := (cs.takeWhile (· == '=')).length
  if (cs.drop level).head? == some '[' then some level else none

/-- Whether a closing bracket of this level ends in this text, which follows its first bracket. -/
def closesLong (level : Nat) (cs : List Char) : Bool :=
  (List.replicate level '=' ++ [']']).isPrefixOf cs

/-- The text up to the closing bracket of a level, line ends read as line feeds, and the cursor after
it; `none` when the bracket is not closed. -/
def longBody? (level : Nat) :
    List Char → (line column : Nat) → (done : List Char) → Option (List Char × Cursor)
  | [], _, _, _ => none
  | c :: rest, line, column, done =>
    if c == ']' && closesLong level rest then
      some (done.reverse, ⟨rest.drop (level + 1), line, column + level + 2⟩)
    else if isLineEnd c then
      match rest with
      | [] => none
      | d :: rest₁ =>
        if isLineEnd d && d != c then longBody? level rest₁ (line + 1) 1 ('\n' :: done)
        else longBody? level (d :: rest₁) (line + 1) 1 ('\n' :: done)
    else longBody? level rest line (column + 1) (c :: done)

/-- Read a long bracket that starts at the cursor; a line end right after its opening is dropped. -/
def longBracket (start : Cursor) (level : Nat) (what : String) :
    Except SyntaxFault (List Char × Cursor) :=
  let inside := start.skip (level + 2)
  let result := match inside.rest with
    | c :: rest =>
      if isLineEnd c then longBody? level (afterLineEnd c rest) (inside.line + 1) 1 []
      else longBody? level (c :: rest) inside.line inside.column []
    | [] => none
  match result with
  | some r => .ok r
  | none => .error (start.fault (.openBracket what) true)

/-! ## Blanks and comments -/

/-- The cursor after the blanks and comments that start here. Each step passes at least one
character, so the length of the text is `fuel` enough. -/
def skipBlanks : Nat → Cursor → Except SyntaxFault Cursor
  | 0, c => .ok c
  | fuel + 1, c =>
    match c.rest with
    | [] => .ok c
    | '-' :: '-' :: rest =>
      let open? := match rest with
        | '[' :: r => longLevel? r
        | _ => none
      match open? with
      | some level =>
        match longBracket (c.skip 2) level "comment" with
        | .error e => .error e
        | .ok (_, c) => skipBlanks fuel c
      | none =>
        skipBlanks fuel (c.skip (2 + (rest.takeWhile (!isLineEnd ·)).length))
    | d :: rest =>
      if isLineEnd d then skipBlanks fuel ⟨afterLineEnd d rest, c.line + 1, 1⟩
      else if Text.isBlank d then skipBlanks fuel (c.skip 1)
      else .ok c

/-! ## Quoted strings -/

/-- The byte that an escape of one letter stands for. -/
def namedEscape? : Char → Option UInt8
  | 'n' => some 10
  | 't' => some 9
  | 'r' => some 13
  | 'a' => some 7
  | 'b' => some 8
  | 'f' => some 12
  | 'v' => some 11
  | '\\' => some 92
  | '"' => some 34
  | '\'' => some 39
  | _ => none

/-- The bytes of a quoted string up to its closing quote, latest first in `done`, and the cursor
after it. With `skipping`, blanks are passed over until another character comes. -/
def quotedBody (start : Cursor) (quote : Char) :
    (skipping : Bool) → List Char → (line column : Nat) → (done : List UInt8) →
      Except SyntaxFault (List UInt8 × Cursor)
  | _, [], _, _, _ => .error (start.fault .openString true)
  | skipping, c :: rest, line, column, done =>
    if skipping && Text.isBlank c then
      if isLineEnd c then
        match rest with
        | [] => .error (start.fault .openString true)
        | d :: rest₁ =>
          if isLineEnd d && d != c then quotedBody start quote true rest₁ (line + 1) 1 done
          else quotedBody start quote true (d :: rest₁) (line + 1) 1 done
      else quotedBody start quote true rest line (column + 1) done
    else if c == quote then .ok (done.reverse, ⟨rest, line, column + 1⟩)
    else if isLineEnd c then
      .error (start.fault (.brokenString (quote.toString ++ Text.Utf8.decodeLossy done.reverse)))
    else if c == '\\' then
      match rest with
      | [] => .error (start.fault .openString true)
      | e :: rest₁ =>
        match namedEscape? e with
        | some b => quotedBody start quote false rest₁ line (column + 2) (b :: done)
        | none =>
          if isLineEnd e then
            match rest₁ with
            | [] => .error (start.fault .openString true)
            | d :: rest₂ =>
              if isLineEnd d && d != e then
                quotedBody start quote false rest₂ (line + 1) 1 (10 :: done)
              else quotedBody start quote false (d :: rest₂) (line + 1) 1 (10 :: done)
          else if e == 'z' then quotedBody start quote true rest₁ line (column + 2) done
          else if e == 'x' then
            match rest₁ with
            | [] => .error ⟨line, column + 2, .hexDigitExpected, false⟩
            | h :: rest₂ =>
              if !Numeral.isHexDigit h then .error ⟨line, column + 2, .hexDigitExpected, false⟩
              else match rest₂ with
                | [] => .error ⟨line, column + 3, .hexDigitExpected, false⟩
                | k :: rest₃ =>
                  if !Numeral.isHexDigit k then .error ⟨line, column + 3, .hexDigitExpected, false⟩
                  else
                    let b := Numeral.digitValue h * 16 + Numeral.digitValue k
                    quotedBody start quote false rest₃ line (column + 4) (b.toUInt8 :: done)
          else if e.isDigit then
            match rest₁ with
            | [] => .error (start.fault .openString true)
            | f :: rest₂ =>
              let n := Numeral.digitValue e
              if !f.isDigit then
                quotedBody start quote false (f :: rest₂) line (column + 2) (n.toUInt8 :: done)
              else
                let n := n * 10 + Numeral.digitValue f
                match rest₂ with
                | [] => .error (start.fault .openString true)
                | g :: rest₃ =>
                  if !g.isDigit then
                    quotedBody start quote false (g :: rest₃) line (column + 3) (n.toUInt8 :: done)
                  else
                    let n := n * 10 + Numeral.digitValue g
                    if n > 255 then .error ⟨line, column + 4, .decimalEscapeTooLarge, false⟩
                    else quotedBody start quote false rest₃ line (column + 4) (n.toUInt8 :: done)
          else .error ⟨line, column + 1, .invalidEscape, false⟩
    else quotedBody start quote false rest line (column + 1)
      ((Text.Utf8.encodeChar c).reverse ++ done)

/-! ## Words and numerals -/

def isWordStart (c : Char) : Bool := c.isAlpha || c == '_'

def isWordChar (c : Char) : Bool := c.isAlphanum || c == '_'

/-- The characters that a numeral takes in: letters, digits and points, and a sign after the mark of
an exponent. -/
def numeralChars (hex : Bool) : List Char → List Char
  | [] => []
  | c :: rest =>
    if (if hex then c == 'p' || c == 'P' else c == 'e' || c == 'E') then
      match rest with
      | [] => [c]
      | d :: rest₁ =>
        if d == '+' || d == '-' then c :: d :: numeralChars hex rest₁
        else c :: numeralChars hex (d :: rest₁)
    else if c.isAlphanum || c == '.' then c :: numeralChars hex rest
    else []

/-! ## One token -/

/-- The operator or punctuation that starts a text, and its length. -/
def punctuator? : List Char → Option (Punctuator × Nat)
  | '.' :: '.' :: '.' :: _ => some (.ellipsis, 3)
  | '.' :: '.' :: _ => some (.concat, 2)
  | '.' :: _ => some (.dot, 1)
  | '=' :: '=' :: _ => some (.equal, 2)
  | '=' :: _ => some (.assign, 1)
  | '<' :: '=' :: _ => some (.lessEqual, 2)
  | '<' :: _ => some (.less, 1)
  | '>' :: '=' :: _ => some (.greaterEqual, 2)
  | '>' :: _ => some (.greater, 1)
  | ':' :: ':' :: _ => some (.doubleColon, 2)
  | ':' :: _ => some (.colon, 1)
  | '~' :: '=' :: _ => some (.notEqual, 2)
  | '+' :: _ => some (.plus, 1)
  | '-' :: _ => some (.minus, 1)
  | '*' :: _ => some (.star, 1)
  | '/' :: _ => some (.slash, 1)
  | '%' :: _ => some (.percent, 1)
  | '^' :: _ => some (.caret, 1)
  | '#' :: _ => some (.hash, 1)
  | '(' :: _ => some (.leftParen, 1)
  | ')' :: _ => some (.rightParen, 1)
  | '\x7b' :: _ => some (.leftBrace, 1)
  | '\x7d' :: _ => some (.rightBrace, 1)
  | '[' :: _ => some (.leftBracket, 1)
  | ']' :: _ => some (.rightBracket, 1)
  | ';' :: _ => some (.semicolon, 1)
  | ',' :: _ => some (.comma, 1)
  | _ => none

/-- The token that starts at the cursor, where neither blank nor comment stands, and the cursor
after it. -/
def scanAt (c : Cursor) : Except SyntaxFault (Token × Cursor) :=
  match c.rest with
  | [] => .ok (.endOfInput, c)
  | d :: rest =>
    if isWordStart d then
      let word := c.rest.takeWhile isWordChar
      let text := String.ofList word
      let token := match Keyword.ofWord? text with
        | some k => Token.keyword k
        | none => .identifier text
      .ok (token, c.skip word.length)
    else if d.isDigit || (d == '.' && (rest.head?.map Char.isDigit).getD false) then
      let hex := d == '0' && (rest.head? == some 'x' || rest.head? == some 'X')
      let cs := numeralChars hex c.rest
      match (if hex then Numeral.hexWithPoint? (cs.drop 2) else Numeral.decimal? cs) with
      | some n => .ok (.number n, c.skip cs.length)
      | none => .error (c.fault (.malformedNumber (String.ofList cs)))
    else if d == '"' || d == '\'' then
      match quotedBody c d false rest c.line (c.column + 1) [] with
      | .ok (bytes, after) => .ok (.string (Text.Utf8.decodeLossy bytes), after)
      | .error e => .error e
    else
      let long? := if d == '[' then longLevel? rest else none
      match long? with
      | some level =>
        match longBracket c level "string" with
        | .ok (cs, after) => .ok (.string (String.ofList cs), after)
        | .error e => .error e
      | none =>
        match punctuator? c.rest with
        | some (p, n) => .ok (.punctuator p, c.skip n)
        | none => .error (c.fault (.unexpectedSymbol d.toString))

/-- The next lexeme and the cursor after it. -/
def scanNext (c : Cursor) : Except SyntaxFault (Lexeme × Cursor) := do
  let c ← skipBlanks (c.rest.length + 1) c
  let (token, after) ← scanAt c
  let extent : Extent :=
    if token = .endOfInput then ⟨c.line, c.column, c.line, c.column⟩
    else ⟨c.line, c.column, after.line, max (after.column - 1) 1⟩
  return (⟨token, extent⟩, after)

end Token

/-- The lexemes of a text, and how it ends: with the lexeme that marks the end, or with a fault. -/
structure TokenStream where
  lexemes : List Lexeme
  ending : Except SyntaxFault Lexeme

namespace TokenStream

def cons (l : Lexeme) (s : TokenStream) : TokenStream := { s with lexemes := l :: s.lexemes }

/-- Read from a cursor on. Each lexeme takes at least one character, so the length of the text and
one more is `fuel` enough. -/
def scanFrom : Nat → Cursor → TokenStream
  | 0, c => ⟨[], .ok ⟨.endOfInput, ⟨c.line, c.column, c.line, c.column⟩⟩⟩
  | fuel + 1, c =>
    match Token.scanNext c with
    | .error e => ⟨[], .error e⟩
    | .ok (l, after) =>
      if l.token = .endOfInput then ⟨[], .ok l⟩ else (scanFrom fuel after).cons l

end TokenStream

/-- Pass over a first line that starts with `#`. -/
def Cursor.skipShebang (c : Cursor) : Cursor :=
  if c.rest.head? == some '#' then c.skip (c.rest.takeWhile (· != '\n')).length else c

/-- Cut a source text into lexemes. -/
def Token.scan (source : String) : TokenStream :=
  let c := (Cursor.ofString source).skipShebang
  TokenStream.scanFrom (c.rest.length + 1) c

end LuaMachine
