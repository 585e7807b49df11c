import LuaMachine.Code.Compile

/-!
# Reasoning about the generator

`Gen.Ensures x s Q` says that whenever the compilation step `x` succeeds from the site `s`, what it
gives and the site it leaves satisfy `Q`. Every primitive of the generator has one rule here, so that
a statement about a construct is reduced, by rewriting with these rules, to statements about its
parts. The rules are equivalences: nothing is lost on the way.

A generated piece of code depends on the site only through the next address, the scopes and the
open loops; `Site.marked` hides the book-keeping of spans.
-/

namespace LuaMachine

/-- The site after code was attributed to a span. -/
def Site.marked (s : Site) (span : Span) : Site :=
  { s with
    spans := if s.spans.head? == some span then s.spans else span :: s.spans
    span := some span }

namespace Site

@[simp] theorem marked_address (s : Site) (span : Span) : (s.marked span).address = s.address := rfl

@[simp] theorem marked_scopes (s : Site) (span : Span) : (s.marked span).scopes = s.scopes := rfl

@[simp] theorem marked_loops (s : Site) (span : Span) : (s.marked span).loops = s.loops := rfl

@[simp] theorem marked_source (s : Site) (span : Span) : (s.marked span).source = s.source := rfl

/-- The span of an extent in the source that is compiled at a site. -/
def spanOf (s : Site) (e : Extent) : Span := .ofSource s.source e.line e.column e.endLine e.endColumn

end Site

namespace Gen

/-- Whenever a step succeeds from a site, what it gives and the site it leaves satisfy `Q`. -/
def Ensures (x : Gen α) (s : Site) (Q : α → Site → Prop) : Prop :=
  ∀ a s', x s = .ok (a, s') → Q a s'

theorem Ensures.mono {x : Gen α} {s : Site} {P Q : α → Site → Prop} (h : Ensures x s P)
    (hPQ : ∀ a s', P a s' → Q a s') : Ensures x s Q :=
  fun a s' hx => hPQ a s' (h a s' hx)

/-! ## Control -/

@[simp] theorem ensures_pure (a : α) (s : Site) (Q : α → Site → Prop) :
    Ensures (pure a) s Q ↔ Q a s := by
  constructor
  · intro h
    exact h a s rfl
  · intro h b s' hb
    cases hb
    exact h

@[simp] theorem ensures_bind (x : Gen α) (f : α → Gen β) (s : Site) (Q : β → Site → Prop) :
    Ensures (x >>= f) s Q ↔ Ensures x s fun a s' => Ensures (f a) s' Q := by
  constructor
  · intro h a s' hx b s'' hf
    refine h b s'' ?_
    show (x s >>= fun p => f p.1 p.2) = _
    rw [hx]
    exact hf
  · intro h b s'' hb
    change (x s >>= fun p => f p.1 p.2) = _ at hb
    cases hx : x s with
    | error e =>
      rw [hx] at hb
      cases hb
    | ok p =>
      rw [hx] at hb
      exact h p.1 p.2 hx b s'' hb

@[simp] theorem ensures_map (f : α → β) (x : Gen α) (s : Site) (Q : β → Site → Prop) :
    Ensures (f <$> x) s Q ↔ Ensures x s fun a s' => Q (f a) s' := by
  rw [← bind_pure_comp]
  simp only [ensures_bind, ensures_pure]

@[simp] theorem ensures_throw (e : SyntaxFault) (s : Site) (Q : α → Site → Prop) :
    Ensures (throw e : Gen α) s Q ↔ True := by
  refine iff_true_intro ?_
  intro a s' h
  cases h

/-! ## The site -/

@[simp] theorem ensures_get (s : Site) (Q : Site → Site → Prop) :
    Ensures (get : Gen Site) s Q ↔ Q s s := by
  constructor
  · intro h
    exact h s s rfl
  · intro h a s' ha
    cases ha
    exact h

@[simp] theorem ensures_set (t s : Site) (Q : PUnit → Site → Prop) :
    Ensures (set t : Gen PUnit) s Q ↔ Q ⟨⟩ t := by
  constructor
  · intro h
    exact h ⟨⟩ t rfl
  · intro h a s' ha
    cases ha
    exact h

@[simp] theorem ensures_modify (f : Site → Site) (s : Site) (Q : PUnit → Site → Prop) :
    Ensures (modify f : Gen PUnit) s Q ↔ Q ⟨⟩ (f s) := by
  constructor
  · intro h
    exact h ⟨⟩ (f s) rfl
  · intro h a s' ha
    cases ha
    exact h

@[simp] theorem ensures_emit (op : OpCode) (s : Site) (Q : Code → Site → Prop) :
    Ensures (emit op) s Q ↔ Q [⟨op, s.span⟩] { s with address := s.address + 1 } := by
  constructor
  · intro h
    exact h _ _ rfl
  · intro h a s' ha
    cases ha
    exact h

@[simp] theorem ensures_reserve (s : Site) (Q : Nat × Option Span → Site → Prop) :
    Ensures reserve s Q ↔ Q (s.address, s.span) { s with address := s.address + 1 } := by
  constructor
  · intro h
    exact h _ _ rfl
  · intro h a s' ha
    cases ha
    exact h

@[simp] theorem ensures_here (s : Site) (Q : Nat → Site → Prop) :
    Ensures here s Q ↔ Q s.address s := by
  simp [here]

@[simp] theorem ensures_currentSpan (s : Site) (Q : Option Span → Site → Prop) :
    Ensures currentSpan s Q ↔ Q s.span s := by
  simp [currentSpan]

@[simp] theorem ensures_setSpan (span : Option Span) (s : Site) (Q : Unit → Site → Prop) :
    Ensures (setSpan span) s Q ↔ Q () { s with span } := by
  simp [setSpan]

@[simp] theorem ensures_markSpan (span : Span) (s : Site) (Q : Unit → Site → Prop) :
    Ensures (markSpan span) s Q ↔ Q () (s.marked span) := by
  simp [markSpan, Site.marked]

@[simp] theorem ensures_spanOf (e : Extent) (s : Site) (Q : Span → Site → Prop) :
    Ensures (spanOf e) s Q ↔ Q (s.spanOf e) s := by
  simp [spanOf, Site.spanOf]

@[simp] theorem ensures_markExtent (e : Extent) (s : Site) (Q : Unit → Site → Prop) :
    Ensures (markExtent e) s Q ↔ Q () (s.marked (s.spanOf e)) := by
  simp [markExtent]

@[simp] theorem ensures_failHere (cause : SyntaxCause) (s : Site) (Q : α → Site → Prop) :
    Ensures (failHere cause : Gen α) s Q ↔ True := by
  cases h : s.spans <;> simp [failHere, h]

/-! ## Scopes and loops -/

@[simp] theorem ensures_modifyScopes (f : ScopeStack → ScopeStack) (s : Site)
    (Q : Unit → Site → Prop) :
    Ensures (modifyScopes f) s Q ↔ Q () { s with scopes := f s.scopes } := by
  simp [modifyScopes]

@[simp] theorem ensures_resolve (name : String) (s : Site) (Q : Symbol → Site → Prop) :
    Ensures (resolve name) s Q ↔
      Q (s.scopes.resolve name).1 { s with scopes := (s.scopes.resolve name).2 } := by
  constructor
  · intro h
    exact h _ _ rfl
  · intro h a s' ha
    cases ha
    exact h

@[simp] theorem ensures_declare (name : String) (s : Site) (Q : Nat → Site → Prop) :
    Ensures (declare name) s Q ↔
      Q s.scopes.nextSlot { s with scopes := s.scopes.declare name } := by
  constructor
  · intro h
    exact h _ _ rfl
  · intro h a s' ha
    cases ha
    exact h

@[simp] theorem ensures_pushLoop (s : Site) (Q : Unit → Site → Prop) :
    Ensures pushLoop s Q ↔ Q () { s with loops := [] :: s.loops } := by
  simp [pushLoop]

@[simp] theorem ensures_popLoop (s : Site) (Q : List Nat → Site → Prop) :
    Ensures popLoop s Q ↔ Q (s.loops.headD []) { s with loops := s.loops.tail } := by
  constructor
  · intro h
    exact h _ _ rfl
  · intro h a s' ha
    cases ha
    exact h

/-- Declaring the parameters of a function one after the other. -/
@[simp] theorem ensures_forIn_declare (params : List String) (s : Site) (Q : PUnit → Site → Prop) :
    Ensures (forIn params PUnit.unit fun param _ => do
      modifyScopes (·.declare param)
      pure (ForInStep.yield PUnit.unit)) s Q ↔
      Q ⟨⟩ { s with scopes := params.foldl ScopeStack.declare s.scopes } := by
  induction params generalizing s with
  | nil =>
    rw [List.forIn_nil, ensures_pure]
    rfl
  | cons param params ih =>
    rw [List.forIn_cons]
    simp only [bind_assoc, pure_bind, ensures_bind, ensures_modifyScopes]
    exact ih _

section Equations

-- The lemmas about single constructs unfold the generator at that construct. Its equations are made
-- here, once and for all of them.
attribute [local simp] block stat clauses assignTo function exprs expr fields bindNames assignField

end Equations

end Gen

end LuaMachine
