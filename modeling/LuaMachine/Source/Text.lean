import LuaMachine.Source.Span
import LuaMachine.Text.Layout
import LuaMachine.Value.Identity

/-!
# Source texts

A source that a script has loaded, with the spans that its code is attributed to.
-/

namespace LuaMachine

/-- A loaded source. -/
structure SourceText where
  id : Nat
  name : String
  code : String
  owner : ScriptId
  spans : List Span
deriving Repr, Inhabited

namespace SourceText

def lines (s : SourceText) : List String := Text.lines s.code

/-- A line by its number from one on. -/
def line? (s : SourceText) (n : Nat) : Option String :=
  if n == 0 then none else s.lines[n - 1]?

/-- The spans where a breakpoint may be placed. -/
def breakable (s : SourceText) : List Span := s.spans.filter (!·.noBreakpoint)

/-- Those that touch a line. -/
def breakableOnLine (s : SourceText) (line : Nat) : List Span :=
  s.breakable.filter fun r => r.fromLine ≤ line && line ≤ r.toLine

end SourceText

end LuaMachine
