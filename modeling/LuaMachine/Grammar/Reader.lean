import LuaMachine.Token.Scanner
import LuaMachine.Grammar.Tree

/-!
# Parsing

A recursive descent over the lexemes of a text, with one lexeme of lookahead. A fault found at the
end of the input is marked as premature: more text might mend it.

Each parsing function has a bound on the nesting of its calls. Calls that pass no lexeme nest only a
few deep, so the bound that `Block.parse` gives, a multiple of the number of lexemes, is never
reached.
-/

namespace LuaMachine

/-- The state of a parse: the lexemes still to be read, what stands after them, and the extent of
the lexeme read last. -/
structure Reader where
  lexemes : List Lexeme
  ending : Except SyntaxFault Lexeme
  last : Extent := ⟨1, 1, 1, 1⟩

/-- A parsing step. -/
abbrev Parse := StateT Reader (Except SyntaxFault)

namespace Parse

/-! ## Lexemes -/

/-- The next lexeme, without passing it. -/
def peek : Parse Lexeme := fun r =>
  match r.lexemes with
  | l :: _ => .ok (l, r)
  | [] => match r.ending with
    | .ok l => .ok (l, r)
    | .error e => .error e

/-- Pass the next lexeme. -/
def advance : Parse Lexeme := fun r =>
  match r.lexemes with
  | l :: rest => .ok (l, { r with lexemes := rest, last := l.extent })
  | [] => match r.ending with
    | .ok l => .ok (l, { r with last := l.extent })
    | .error e => .error e

def lastExtent : Parse Extent := do return (← get).last

/-- Refuse the text at a lexeme. -/
def failAt (l : Lexeme) (cause : SyntaxCause) : Parse α :=
  throw { line := l.extent.line, column := l.extent.column, cause
          premature := l.token = .endOfInput }

/-- Refuse the text at the next lexeme. -/
def failNear (cause : String → SyntaxCause) : Parse α := do
  let l ← peek
  failAt l (cause l.token.describe)

def tooDeep : Parse α := failNear fun _ => .tooDeep

/-- Whether the next lexeme is this token. -/
def check (t : Token) : Parse Bool := do return (← peek).token = t

/-- Pass the next lexeme if it is this token. -/
def accept (t : Token) : Parse Bool := do
  if ← check t then
    let _ ← advance
    return true
  else return false

/-- Quote a token for a message. -/
def quoted (text : String) : String := s!"'{text}'"

/-- Pass this token, or refuse the text. -/
def expect (t : Token) : Parse Extent := do
  if ← check t then return (← advance).extent
  else failNear (.expected (quoted t.describe))

/-- Pass the token that closes a construct. If it is missing and the construct was opened on another
line, the message says where. -/
def expectClosing (t : Token) (opener : String) (openLine : Nat) : Parse Extent := do
  if ← check t then return (← advance).extent
  else
    let l ← peek
    if l.line = openLine then failAt l (.expected (quoted t.describe) l.token.describe)
    else failAt l (.expectedToClose (quoted t.describe) opener openLine l.token.describe)

def expectName : Parse String := do
  match (← peek).token with
  | .identifier name =>
    let _ ← advance
    return name
  | _ => failNear (.expected "<name>")

/-- Whether the next lexeme ends a block. -/
def blockFollows : Parse Bool := do
  match (← peek).token with
  | .endOfInput | .keyword .end | .keyword .else | .keyword .elseif | .keyword .until => return true
  | _ => return false

/-- The names after the first of a list, each behind a comma. -/
def moreNames : Nat → Parse (List String)
  | 0 => tooDeep
  | n + 1 => do
    if ← accept (.punctuator .comma) then
      let name ← expectName
      return name :: (← moreNames n)
    else return []

/-- The names of a local declaration. An attribute in angle brackets is read and has no meaning. -/
def localNames : Nat → Parse (List String)
  | 0 => tooDeep
  | n + 1 => do
    let name ← expectName
    if ← accept (.punctuator .less) then
      let _ ← expectName
      let _ ← expect (.punctuator .greater)
    if ← accept (.punctuator .comma) then return name :: (← localNames n)
    else return [name]

/-- The parameters up to the closing parenthesis, and whether they end with an ellipsis. -/
def params : Nat → Parse (List String × Bool)
  | 0 => tooDeep
  | n + 1 => do
    if ← accept (.punctuator .ellipsis) then return ([], true)
    else
      let name ← expectName
      if ← accept (.punctuator .comma) then
        let (names, isVararg) ← params n
        return (name :: names, isVararg)
      else return ([name], false)

/-- The keys after the name of a function statement, each behind a dot. -/
def dottedKeys : Nat → Parse (List String)
  | 0 => tooDeep
  | n + 1 => do
    if ← accept (.punctuator .dot) then
      let key ← expectName
      return key :: (← dottedKeys n)
    else return []

/-! ## Expressions and statements -/

mutual

/-- Statements up to a token that ends a block. -/
def block : Nat → Parse Block
  | 0 => tooDeep
  | n + 1 => do
    if ← blockFollows then return []
    else if ← check (.keyword .return) then return [← returnStat n]
    else if ← accept (.punctuator .semicolon) then block n
    else
      let s ← statement n
      return s :: (← block n)

def returnStat : Nat → Parse Stat
  | 0 => tooDeep
  | n + 1 => do
    let start ← expect (.keyword .return)
    let bare ← if ← blockFollows then pure true else check (.punctuator .semicolon)
    let values ← if bare then pure [] else exprList n
    let _ ← accept (.punctuator .semicolon)
    return .return values (start.through (← lastExtent))

def statement : Nat → Parse Stat
  | 0 => tooDeep
  | n + 1 => do
    let first ← peek
    let start := first.extent
    match first.token with
    | .keyword .if =>
      let _ ← advance
      let branches ← clauses n start start.line
      let extent := match branches with
        | .clause _ _ header _ => header
        | _ => start
      return .if branches extent
    | .keyword .while =>
      let _ ← advance
      let condition ← expr n
      let _ ← expect (.keyword .do)
      let extent := start.through (← lastExtent)
      let body ← block n
      let closing ← expectClosing (.keyword .end) Keyword.while.text start.line
      return .while condition body extent closing
    | .keyword .do =>
      let _ ← advance
      let body ← block n
      let _ ← expectClosing (.keyword .end) Keyword.do.text start.line
      return .do body start
    | .keyword .for =>
      let _ ← advance
      forStat n start
    | .keyword .repeat =>
      let _ ← advance
      let body ← block n
      let closing ← expectClosing (.keyword .until) Keyword.repeat.text start.line
      let condition ← expr n
      return .repeat body condition (closing.through (← lastExtent))
    | .keyword .function =>
      let _ ← advance
      let target ← expectName
      let path ← dottedKeys n
      let method? ← if ← accept (.punctuator .colon) then some <$> expectName else pure none
      let dotted := ".".intercalate (target :: path)
      match method? with
      | some m =>
        let body ← functionBody n start s!"{dotted}:{m}" true
        return .function target (path ++ [m]) body body.extent
      | none =>
        let body ← functionBody n start dotted false
        return .function target path body body.extent
    | .keyword .local =>
      let _ ← advance
      if ← accept (.keyword .function) then
        let name ← expectName
        let body ← functionBody n start name false
        return .localFunction name body body.extent
      else
        let names ← localNames n
        let values ← if ← accept (.punctuator .assign) then exprList n else pure []
        return .local names values (start.through (← lastExtent))
    | .keyword .break =>
      let _ ← advance
      return .break start
    | .keyword .goto | .punctuator .doubleColon => failAt first .labelsNotSupported
    | _ => exprStat n start

/-- A condition, its block and what follows them, behind `if` or `elseif`. -/
def clauses : Nat → Extent → Nat → Parse Branches
  | 0, _, _ => tooDeep
  | n + 1, start, openLine => do
    let condition ← expr n
    let _ ← expect (.keyword .then)
    let header := start.through (← lastExtent)
    let body ← block n
    if ← check (.keyword .elseif) then
      let next ← advance
      return .clause condition body header (← clauses n next.extent openLine)
    else if ← accept (.keyword .else) then
      let other ← block n
      let _ ← expectClosing (.keyword .end) Keyword.if.text openLine
      return .clause condition body header (.otherwise other)
    else
      let _ ← expectClosing (.keyword .end) Keyword.if.text openLine
      return .clause condition body header .done

def forStat : Nat → Extent → Parse Stat
  | 0, _ => tooDeep
  | n + 1, start => do
    let first ← expectName
    if ← accept (.punctuator .assign) then
      let initial ← expr n
      let _ ← expect (.punctuator .comma)
      let limit ← expr n
      let step ← if ← accept (.punctuator .comma) then expr n else pure (.number .one)
      let _ ← expect (.keyword .do)
      let extent := start.through (← lastExtent)
      let body ← block n
      let closing ← expectClosing (.keyword .end) Keyword.for.text start.line
      return .numericFor first initial limit step body extent closing
    else
      let names ← moreNames n
      if !(← check (.keyword .in)) then failNear (.expected "'=' or 'in'")
      let _ ← advance
      let values ← exprList n
      let _ ← expect (.keyword .do)
      let extent := start.through (← lastExtent)
      let body ← block n
      let closing ← expectClosing (.keyword .end) Keyword.for.text start.line
      return .genericFor (first :: names) values body extent closing

/-- A call or an assignment. -/
def exprStat : Nat → Extent → Parse Stat
  | 0, _ => tooDeep
  | n + 1, start => do
    let first ← suffixedExpr n
    let several ← if ← check (.punctuator .assign) then pure true else check (.punctuator .comma)
    if several then
      let targets := first :: (← moreTargets n)
      if targets.any (!·.isAssignable) then failNear .notAStatement
      let _ ← expect (.punctuator .assign)
      let values ← exprList n
      return .assign targets values (start.through (← lastExtent))
    else if first.isCall then return .call first (start.through (← lastExtent))
    else failNear .notAStatement

/-- The targets after the first of an assignment, each behind a comma. -/
def moreTargets : Nat → Parse (List Expr)
  | 0 => tooDeep
  | n + 1 => do
    if ← accept (.punctuator .comma) then
      let target ← suffixedExpr n
      return target :: (← moreTargets n)
    else return []

/-- A function from its parameters on. -/
def functionBody : Nat → Extent → String → Bool → Parse FunctionBody
  | 0, _, _, _ => tooDeep
  | n + 1, start, name, isMethod => do
    let _ ← expect (.punctuator .leftParen)
    let (names, isVararg) ←
      if ← check (.punctuator .rightParen) then pure ([], false) else params n
    let _ ← expect (.punctuator .rightParen)
    let extent := start.through (← lastExtent)
    let body ← block n
    let closing ← expectClosing (.keyword .end) Keyword.function.text start.line
    let names := if isMethod then "self" :: names else names
    return .mk name names isVararg body extent closing

/-- One expression or more, with commas between them. -/
def exprList : Nat → Parse (List Expr)
  | 0 => tooDeep
  | n + 1 => do
    let e ← expr n
    if ← accept (.punctuator .comma) then return e :: (← exprList n) else return [e]

def expr : Nat → Parse Expr
  | 0 => tooDeep
  | n + 1 => subExpr n 0

/-- An operand and the operators behind it whose priority is above a limit. -/
def subExpr : Nat → Nat → Parse Expr
  | 0, _ => tooDeep
  | n + 1, limit => do
    match UnaryOp.ofToken? (← peek).token with
    | some op =>
      let _ ← advance
      let operand ← subExpr n UnaryOp.priority
      infixTail n limit (.ofUnary op operand)
    | none =>
      let left ← simpleExpr n
      infixTail n limit left

/-- The operators behind an operand whose priority is above a limit. -/
def infixTail : Nat → Nat → Expr → Parse Expr
  | 0, _, _ => tooDeep
  | n + 1, limit, left => do
    match InfixOp.ofToken? (← peek).token with
    | none => return left
    | some op =>
      if op.priority.1 ≤ limit then return left
      else
        let _ ← advance
        let right ← subExpr n op.priority.2
        infixTail n limit (.ofInfix op left right)

/-- All the operators behind an operand, whatever their priorities. -/
def infixRest : Nat → Expr → Parse Expr
  | 0, _ => tooDeep
  | n + 1, left => do
    match InfixOp.ofToken? (← peek).token with
    | none => return left
    | some op =>
      let _ ← advance
      let right ← subExpr n op.priority.2
      infixRest n (.ofInfix op left right)

def simpleExpr : Nat → Parse Expr
  | 0 => tooDeep
  | n + 1 => do
    match (← peek).token with
    | .number x => let _ ← advance; return .number x
    | .string s => let _ ← advance; return .string s
    | .keyword .nil => let _ ← advance; return .nil
    | .keyword .true => let _ ← advance; return .boolean true
    | .keyword .false => let _ ← advance; return .boolean false
    | .punctuator .ellipsis => let _ ← advance; return .varargs
    | .punctuator .leftBrace => tableExpr n
    | .keyword .function =>
      let start := (← advance).extent
      return .function (← functionBody n start s!"function@{start.line}" false)
    | _ => suffixedExpr n

/-- A name or an expression in parentheses, and the calls and indices behind it. -/
def suffixedExpr : Nat → Parse Expr
  | 0 => tooDeep
  | n + 1 => do
    match (← peek).token with
    | .identifier name =>
      let _ ← advance
      suffixes n (.name name)
    | .punctuator .leftParen =>
      let start := (← advance).extent
      let inner ← expr n
      let _ ← expectClosing (.punctuator .rightParen) Punctuator.leftParen.text start.line
      suffixes n (.paren inner)
    | _ => failNear .unexpectedSymbol

/-- The calls and indices behind an expression. -/
def suffixes : Nat → Expr → Parse Expr
  | 0, _ => tooDeep
  | n + 1, e => do
    match (← peek).token with
    | .punctuator .dot =>
      let _ ← advance
      let key ← expectName
      suffixes n (.index e (.string key))
    | .punctuator .leftBracket =>
      let _ ← advance
      let key ← expr n
      let _ ← expect (.punctuator .rightBracket)
      suffixes n (.index e key)
    | .punctuator .colon =>
      let _ ← advance
      let method ← expectName
      let args ← callArgs n
      suffixes n (.methodCall e method args)
    | .punctuator .leftParen | .punctuator .leftBrace | .string _ =>
      let args ← callArgs n
      suffixes n (.call e args)
    | _ => return e

/-- The arguments of a call: a string, a table or a list in parentheses. -/
def callArgs : Nat → Parse (List Expr)
  | 0 => tooDeep
  | n + 1 => do
    match (← peek).token with
    | .string s => let _ ← advance; return [.string s]
    | .punctuator .leftBrace => return [← tableExpr n]
    | .punctuator .leftParen =>
      let _ ← advance
      let args ← if ← check (.punctuator .rightParen) then pure [] else exprList n
      let _ ← expect (.punctuator .rightParen)
      return args
    | _ => failNear (.expected "function arguments")

def tableExpr : Nat → Parse Expr
  | 0 => tooDeep
  | n + 1 => do
    let start ← expect (.punctuator .leftBrace)
    let fields ← tableFields n
    let _ ← expectClosing (.punctuator .rightBrace) Punctuator.leftBrace.text start.line
    return .table fields

/-- The fields of a table, each but the last followed by a comma or a semicolon. -/
def tableFields : Nat → Parse (List Field)
  | 0 => tooDeep
  | n + 1 => do
    if ← check (.punctuator .rightBrace) then return []
    else
      let field ← tableField n
      let more ← if ← accept (.punctuator .comma) then pure true
        else accept (.punctuator .semicolon)
      if more then return field :: (← tableFields n) else return [field]

/-- A field of a table. A name that no `=` follows starts a positional expression. -/
def tableField : Nat → Parse Field
  | 0 => tooDeep
  | n + 1 => do
    if ← accept (.punctuator .leftBracket) then
      let key ← expr n
      let _ ← expect (.punctuator .rightBracket)
      let _ ← expect (.punctuator .assign)
      return .keyed key (← expr n)
    else match (← peek).token with
      | .identifier name =>
        let _ ← advance
        if ← accept (.punctuator .assign) then return .named name (← expr n)
        else
          let left ← suffixes n (.name name)
          return .positional (← infixRest n left)
      | _ => return .positional (← expr n)

end

/-- A block and the end of the input behind it. -/
def chunk (n : Nat) : Parse Block := do
  let body ← block n
  let l ← peek
  if l.token = .endOfInput then return body
  else failAt l (.expected (quoted Token.endOfInput.describe) l.token.describe)

end Parse

/-- Parse the lexemes of a whole chunk. -/
def Block.ofTokens (s : TokenStream) : Except SyntaxFault Block :=
  let bound := 16 * (s.lexemes.length + 2)
  match (Parse.chunk bound).run { lexemes := s.lexemes, ending := s.ending } with
  | .ok (body, _) => .ok body
  | .error e => .error e

/-- Parse a source text under the name that its errors carry. -/
def Block.parse (chunk source : String) : Except SyntaxError Block :=
  match Block.ofTokens (Token.scan source) with
  | .ok body => .ok body
  | .error e => .error { e with chunk }

end LuaMachine
