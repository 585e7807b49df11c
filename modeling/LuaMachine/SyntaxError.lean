/-!
# Syntax errors

Why a source text is refused, and where. The wording of every cause is in `SyntaxCause.message`.
-/

namespace LuaMachine

/-- Why a source text is refused. -/
inductive SyntaxCause where
  /-- a numeral that spells no number -/
  | malformedNumber (text : String)
  /-- a quoted string that the end of the text cuts off -/
  | openString
  /-- a quoted string that a line end cuts off, with its start -/
  | brokenString (start : String)
  /-- a long string or a long comment that is not closed -/
  | openBracket (what : String)
  | hexDigitExpected
  | decimalEscapeTooLarge
  | invalidEscape
  /-- a character that starts no token, or a token that starts no construct -/
  | unexpectedSymbol (near : String)
  /-- another token was wanted -/
  | expected (what near : String)
  /-- the closing token of a construct that was opened on another line was wanted -/
  | expectedToClose (what opener : String) (line : Nat) (near : String)
  /-- neither a call nor an assignment -/
  | notAStatement (near : String)
  | labelsNotSupported
  | breakOutsideLoop (line : Nat)
  | varargOutsideFunction
  | notAssignable
  /-- the nesting of a text is deeper than its reader follows -/
  | tooDeep
deriving DecidableEq, Repr

def SyntaxCause.message : SyntaxCause → String
  | malformedNumber text => s!"malformed number near '{text}'"
  | openString => "unfinished string near <eof>"
  | brokenString start => s!"unfinished string near '{start}'"
  | openBracket what => s!"unfinished long {what} near <eof>"
  | hexDigitExpected => "hexadecimal digit expected"
  | decimalEscapeTooLarge => "decimal escape too large"
  | invalidEscape => "invalid escape sequence"
  | unexpectedSymbol near => s!"unexpected symbol near '{near}'"
  | expected what near => s!"{what} expected near '{near}'"
  | expectedToClose what opener line near =>
    s!"{what} expected (to close '{opener}' at line {line}) near '{near}'"
  | notAStatement near => s!"syntax error near '{near}'"
  | labelsNotSupported => "goto and labels are not supported"
  | breakOutsideLoop line => s!"<break> at line {line} not inside a loop"
  | varargOutsideFunction => "cannot use '...' outside a vararg function"
  | notAssignable => "cannot assign to this expression"
  | tooDeep => "chunk is nested too deeply"

/-- A cause at a place of a source text. -/
structure SyntaxFault where
  line : Nat
  column : Nat
  cause : SyntaxCause
  /-- more text might mend it -/
  premature : Bool := false
deriving DecidableEq, Repr

/-- A fault in a named chunk. -/
structure SyntaxError extends SyntaxFault where
  chunk : String
deriving DecidableEq, Repr

namespace SyntaxError

def text (e : SyntaxError) : String := e.cause.message

/-- The whole message, with chunk and place. -/
def display (e : SyntaxError) : String := s!"{e.chunk}:({e.line},{e.column}): {e.text}"

end SyntaxError

end LuaMachine
