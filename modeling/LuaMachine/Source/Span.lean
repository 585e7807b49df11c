/-!
# Spans of source text

A `Span` is the part of a source that an instruction comes from. Lines and columns count from one.
Error messages print it (`Span.format`) and breakpoints are placed by it (`Span.includes`,
`Span.distance`).
-/

namespace LuaMachine

/-- What a span belongs to: a source by its number, or the host. -/
inductive Origin where
  | host
  | source (index : Nat)
deriving DecidableEq, Hashable, Repr, Inhabited

/-- A stretch of source text, from its first to its last character. -/
structure Span where
  origin : Origin
  fromLine : Nat
  fromColumn : Nat
  toLine : Nat
  toColumn : Nat
  /-- a source-level step may end here -/
  isStepStop : Bool := true
  /-- no breakpoint may be placed here -/
  noBreakpoint : Bool := false
deriving DecidableEq, Hashable, Repr, Inhabited

namespace Span

def ofSource (source fromLine fromColumn toLine toColumn : Nat) : Span :=
  { origin := .source source, fromLine, fromColumn, toLine, toColumn }

/-- The span of code that has no source. -/
def host : Span :=
  { origin := .host, fromLine := 0, fromColumn := 0, toLine := 0, toColumn := 0
    isStepStop := false, noBreakpoint := true }

def isHost (s : Span) : Bool := s.origin == .host

/-- The same span for code that the compiler adds: neither steps nor breakpoints stop there. -/
def nonBreakable (s : Span) : Span := { s with noBreakpoint := true, isStepStop := false }

/-- Whether a place lies in the span. -/
def includes (s : Span) (source line column : Nat) : Bool :=
  if s.origin != .source source || line < s.fromLine || line > s.toLine then false
  else if s.fromLine == s.toLine then s.fromColumn ≤ column && column ≤ s.toColumn
  else if line == s.fromLine then s.fromColumn ≤ column
  else if line == s.toLine then column ≤ s.toColumn
  else true

/-- How many columns a step of one line counts for. -/
def columnsPerLine : Nat := 1600

/-- How far a place is from the span; `none` when it is in another source. -/
def distance? (s : Span) (source line column : Nat) : Option Nat :=
  if s.origin != .source source then none
  else some <|
    if s.fromLine == s.toLine then
      if line == s.fromLine then
        if column < s.fromColumn then s.fromColumn - column
        else if column > s.toColumn then column - s.toColumn
        else 0
      else (max line s.fromLine - min line s.fromLine) * columnsPerLine
    else if line == s.fromLine then s.fromColumn - column
    else if line == s.toLine then column - s.toColumn
    else if line > s.fromLine && line < s.toLine then 0
    else if line < s.fromLine then (s.fromLine - line) * columnsPerLine
    else (max line s.toLine - min line s.toLine) * columnsPerLine

/-- The span as error messages name it, with the whole position or, in the classic style, only the
line. -/
def format (s : Span) (sourceName : String) (classic : Bool) : String :=
  if s.isHost then "[host]"
  else if classic then s!"{sourceName}:{s.fromLine}"
  else if s.fromLine == s.toLine then
    if s.fromColumn == s.toColumn then
      s!"{sourceName}:(Line {s.fromLine}, Position {s.fromColumn})"
    else
      s!"{sourceName}:(Line {s.fromLine}, Position {s.fromColumn}-{s.toColumn})"
  else
    s!"{sourceName}:(Line {s.fromLine}, Position {s.fromColumn}-{s.toLine},{s.toColumn})"

end Span

end LuaMachine
