import LuaMachine.Number.Shortest

/-!
# Tokens

The words of the script language. A `Lexeme` is a token with the place it was read from.
-/

namespace LuaMachine

/-- The reserved words. -/
inductive Keyword where
  | and | break | do | else | elseif | end | false | for | function | goto | if | in | local
  | nil | not | or | repeat | return | then | true | until | while
deriving DecidableEq, Repr

namespace Keyword

def text : Keyword → String
  | .and => "and"
  | .break => "break"
  | .do => "do"
  | .else => "else"
  | .elseif => "elseif"
  | .end => "end"
  | .false => "false"
  | .for => "for"
  | .function => "function"
  | .goto => "goto"
  | .if => "if"
  | .in => "in"
  | .local => "local"
  | .nil => "nil"
  | .not => "not"
  | .or => "or"
  | .repeat => "repeat"
  | .return => "return"
  | .then => "then"
  | .true => "true"
  | .until => "until"
  | .while => "while"

def all : List Keyword :=
  [.and, .break, .do, .else, .elseif, .end, .false, .for, .function, .goto, .if, .in, .local, .nil,
    .not, .or, .repeat, .return, .then, .true, .until, .while]

/-- The keyword that a word is. -/
def ofWord? (word : String) : Option Keyword := all.find? (·.text == word)

end Keyword

/-- Operators and punctuation. -/
inductive Punctuator where
  | plus | minus | star | slash | percent | caret | hash
  | equal | notEqual | lessEqual | greaterEqual | less | greater | assign
  | leftParen | rightParen | leftBrace | rightBrace | leftBracket | rightBracket
  | semicolon | colon | doubleColon | comma | dot | concat | ellipsis
deriving DecidableEq, Repr

def Punctuator.text : Punctuator → String
  | plus => "+"
  | minus => "-"
  | star => "*"
  | slash => "/"
  | percent => "%"
  | caret => "^"
  | hash => "#"
  | equal => "=="
  | notEqual => "~="
  | lessEqual => "<="
  | greaterEqual => ">="
  | less => "<"
  | greater => ">"
  | assign => "="
  | leftParen => "("
  | rightParen => ")"
  | leftBrace => "\x7b"
  | rightBrace => "\x7d"
  | leftBracket => "["
  | rightBracket => "]"
  | semicolon => ";"
  | colon => ":"
  | doubleColon => "::"
  | comma => ","
  | dot => "."
  | concat => ".."
  | ellipsis => "..."

/-- A token; `endOfInput` stands after the last one. -/
inductive Token where
  | identifier (name : String)
  | number (n : Number)
  | string (s : String)
  | keyword (k : Keyword)
  | punctuator (p : Punctuator)
  | endOfInput
deriving DecidableEq, Repr

/-- A token as messages name it. -/
def Token.describe : Token → String
  | identifier name => name
  | number n => n.format
  | string s => s
  | keyword k => k.text
  | punctuator p => p.text
  | endOfInput => "<eof>"

/-- The token of a word. -/
def Token.ofWord (text : String) : Token :=
  match Keyword.ofWord? text with
  | some k => .keyword k
  | none => .identifier text

/-- The place of a construct, from its first to its last character. -/
structure Extent where
  line : Nat
  column : Nat
  endLine : Nat
  endColumn : Nat
deriving DecidableEq, Repr, Inhabited

/-- From the start of one construct to the end of another. -/
def Extent.through (a b : Extent) : Extent := { a with endLine := b.endLine, endColumn := b.endColumn }

/-- A token and its place. -/
structure Lexeme where
  token : Token
  extent : Extent
deriving DecidableEq, Repr

def Lexeme.line (l : Lexeme) : Nat := l.extent.line

end LuaMachine
