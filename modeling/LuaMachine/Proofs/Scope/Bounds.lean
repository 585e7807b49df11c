import LuaMachine.Scope
import Mathlib.Data.List.Forall2

/-!
# Scopes stay within their bounds

While a chunk is compiled, its scopes only grow: slots and captures are added and never taken away
(`ScopeStack.Extends`). Every visible declaration has a slot of its function, and every capture is a
slot or a capture of the enclosing function (`ScopeStack.Bounded`). Both facts are kept by every
operation on scopes, so what a name resolves to is within the bounds of the function that names it
(`resolve_bounded`), and stays so.
-/

namespace LuaMachine

/-- A symbol names a slot below `locals` or a capture below `upvalues`; the field of an environment
is as good as that environment. -/
def Symbol.Within (locals upvalues : Nat) : Symbol → Prop
  | .local _ slot => slot < locals
  | .upvalue _ i => i < upvalues
  | .global _ env => env.Within locals upvalues
  | .defaultEnv => True

theorem Symbol.Within.mono {l u l' u' : Nat} (hl : l ≤ l') (hu : u ≤ u') :
    ∀ {s : Symbol}, s.Within l u → s.Within l' u'
  | .local .., h => Nat.lt_of_lt_of_le h hl
  | .upvalue .., h => Nat.lt_of_lt_of_le h hu
  | .global _ env, h => Symbol.Within.mono hl hu (s := env) h
  | .defaultEnv, _ => trivial

namespace FunctionScope

/-- A symbol is within the bounds of a function. -/
def Covers (f : FunctionScope) (s : Symbol) : Prop :=
  s.Within f.locals.length f.upvalues.length

/-- A function has all slots and captures of another, in the same places. -/
def Extends (f g : FunctionScope) : Prop := f.locals <+: g.locals ∧ f.upvalues <+: g.upvalues

theorem Extends.refl (f : FunctionScope) : f.Extends f := ⟨List.prefix_rfl, List.prefix_rfl⟩

theorem Extends.trans {f g h : FunctionScope} (h₁ : f.Extends g) (h₂ : g.Extends h) :
    f.Extends h :=
  ⟨h₁.1.trans h₂.1, h₁.2.trans h₂.2⟩

theorem Extends.covers {f g : FunctionScope} (h : f.Extends g) {s : Symbol} (hs : f.Covers s) :
    g.Covers s :=
  hs.mono h.1.length_le h.2.length_le

theorem extends_addUpvalue (f : FunctionScope) (name : String) (capture : Symbol) :
    f.Extends (f.addUpvalue name capture) :=
  ⟨List.prefix_rfl, List.prefix_append _ _⟩

theorem extends_declare (f : FunctionScope) (name : String) : f.Extends (f.declare name) :=
  ⟨List.prefix_append _ _, List.prefix_rfl⟩

theorem extends_pushBlock (f : FunctionScope) : f.Extends f.pushBlock := .refl _

theorem extends_popBlock (f : FunctionScope) : f.Extends f.popBlock := .refl _

/-- Every visible declaration of a function has one of its slots. -/
def SlotsBounded (f : FunctionScope) : Prop := ∀ d ∈ f.blocks.flatten, d.2 < f.locals.length

theorem SlotsBounded.declare {f : FunctionScope} (h : f.SlotsBounded) (name : String) :
    (f.declare name).SlotsBounded := by
  intro d hd
  have hlen : (f.declare name).locals.length = f.locals.length + 1 := by simp [FunctionScope.declare]
  rw [hlen]
  cases hb : f.blocks with
  | nil => simp [FunctionScope.declare, hb] at hd
  | cons block outer =>
    simp only [FunctionScope.declare, hb, List.flatten_cons, List.mem_append, List.mem_cons] at hd
    have hold : d ∈ block ∨ d ∈ outer.flatten → d.2 < f.locals.length := by
      intro hmem
      exact h d (by simpa [hb, List.flatten_cons, List.mem_append] using hmem)
    rcases hd with (rfl | hd) | hd
    · exact Nat.lt_succ_self _
    · exact Nat.lt_succ_of_lt (hold (.inl hd))
    · exact Nat.lt_succ_of_lt (hold (.inr hd))

theorem SlotsBounded.pushBlock {f : FunctionScope} (h : f.SlotsBounded) :
    f.pushBlock.SlotsBounded := by
  intro d hd
  exact h d (by simpa [FunctionScope.pushBlock] using hd)

theorem SlotsBounded.popBlock {f : FunctionScope} (h : f.SlotsBounded) :
    f.popBlock.SlotsBounded := by
  intro d hd
  refine h d ?_
  cases hb : f.blocks with
  | nil => simp [FunctionScope.popBlock, hb] at hd
  | cons block outer =>
    have hd' : d ∈ outer.flatten := by simpa [FunctionScope.popBlock, hb] using hd
    simp only [List.flatten_cons, List.mem_append]
    exact .inr hd'

theorem SlotsBounded.start (isVararg : Bool) : (FunctionScope.start isVararg).SlotsBounded := by
  intro d hd
  simp [FunctionScope.start] at hd

theorem SlotsBounded.covers_findLocal {f : FunctionScope} (h : f.SlotsBounded) {name : String}
    {slot : Nat} (hf : f.findLocal? name = some slot) : f.Covers (.local name slot) := by
  obtain ⟨d, hd, rfl⟩ := Option.map_eq_some_iff.1 hf
  exact h d (List.mem_of_find?_eq_some hd)

theorem covers_findUpvalue {f : FunctionScope} {name : String} {i : Nat}
    (hf : f.findUpvalue? name = some i) : f.Covers (.upvalue name i) :=
  (List.findIdx?_eq_some_iff_getElem.1 hf).1

end FunctionScope

namespace ScopeStack

open FunctionScope

/-- The captures of a function, if it is not the outermost one, are within the bounds of the function
around it. -/
def CapturesBounded (f : FunctionScope) : List FunctionScope → Prop
  | [] => True
  | g :: _ => ∀ u ∈ f.upvalues, g.Covers u.2

/-- Functions, innermost first, whose declarations and captures are within bounds. -/
def AllBounded : List FunctionScope → Prop
  | [] => True
  | f :: outer => f.SlotsBounded ∧ CapturesBounded f outer ∧ AllBounded outer

/-- Scopes with a function in which every declaration and every capture is within bounds. -/
def Bounded (s : ScopeStack) : Prop := s.functions ≠ [] ∧ AllBounded s.functions

/-- What the outermost function captures. -/
def outermostCaptures : List FunctionScope → List (String × Symbol)
  | [] => []
  | [f] => f.upvalues
  | _ :: g :: rest => outermostCaptures (g :: rest)

theorem outermostCaptures_cons {f : FunctionScope} {fs : List FunctionScope} (h : fs ≠ []) :
    outermostCaptures (f :: fs) = outermostCaptures fs := by
  cases fs with
  | nil => exact absurd rfl h
  | cons g rest => rfl

/-- The scopes of one moment, seen from a later one: functions that are still open have kept their
slots and captures, and the outermost one, which has nothing around it, captures nothing new. -/
structure Extends (s t : ScopeStack) : Prop where
  functions : List.Forall₂ FunctionScope.Extends s.functions t.functions
  outermost : outermostCaptures t.functions = outermostCaptures s.functions

theorem Extends.refl (s : ScopeStack) : s.Extends s :=
  ⟨List.forall₂_same.2 fun f _ => FunctionScope.Extends.refl f, rfl⟩

theorem forall₂_extends_trans : ∀ {fs gs hs : List FunctionScope},
    List.Forall₂ FunctionScope.Extends fs gs → List.Forall₂ FunctionScope.Extends gs hs →
      List.Forall₂ FunctionScope.Extends fs hs
  | _, _, _, .nil, .nil => .nil
  | _, _, _, .cons h₁ t₁, .cons h₂ t₂ => .cons (h₁.trans h₂) (forall₂_extends_trans t₁ t₂)

theorem Extends.trans {s t u : ScopeStack} (h₁ : s.Extends t) (h₂ : t.Extends u) : s.Extends u :=
  ⟨forall₂_extends_trans h₁.functions h₂.functions, h₂.outermost.trans h₁.outermost⟩

theorem Extends.current {s t : ScopeStack} (h : s.Extends t) : s.current.Extends t.current := by
  obtain ⟨fs⟩ := s
  obtain ⟨gs⟩ := t
  cases h.functions with
  | nil => exact .refl _
  | cons hf _ => exact hf

theorem ne_nil_of_forall₂ {fs gs : List FunctionScope}
    (h : List.Forall₂ FunctionScope.Extends fs gs) (hs : fs ≠ []) : gs ≠ [] := by
  cases h with
  | nil => exact absurd rfl hs
  | cons => simp

/-! ## Changing the innermost function -/

theorem extends_modifyCurrent {s : ScopeStack} {f : FunctionScope → FunctionScope}
    (hf : ∀ g : FunctionScope, g.Extends (f g))
    (hups : ∀ g : FunctionScope, (f g).upvalues = g.upvalues) : s.Extends (s.modifyCurrent f) := by
  obtain ⟨fs⟩ := s
  cases fs with
  | nil => exact Extends.refl _
  | cons g outer =>
    refine ⟨.cons (hf g) (List.forall₂_same.2 fun h _ => .refl h), ?_⟩
    cases outer with
    | nil => exact hups g
    | cons => rfl

/-- A change of the innermost function that leaves its captures alone keeps the bounds. -/
theorem Bounded.modifyCurrent {s : ScopeStack} {f : FunctionScope → FunctionScope}
    (hs : s.Bounded) (hslots : ∀ g : FunctionScope, g.SlotsBounded → (f g).SlotsBounded)
    (hups : ∀ g : FunctionScope, (f g).upvalues = g.upvalues) : (s.modifyCurrent f).Bounded := by
  obtain ⟨fs⟩ := s
  cases fs with
  | nil => exact hs
  | cons g outer =>
    refine ⟨by simp [ScopeStack.modifyCurrent], hslots g hs.2.1, ?_, hs.2.2.2⟩
    have hcap := hs.2.2.1
    cases outer with
    | nil => trivial
    | cons h rest =>
      intro u hu
      rw [hups] at hu
      exact hcap u hu

theorem extends_declare (s : ScopeStack) (name : String) : s.Extends (s.declare name) :=
  extends_modifyCurrent (fun g => FunctionScope.extends_declare g name) fun _ => rfl

theorem extends_pushBlock (s : ScopeStack) : s.Extends s.pushBlock :=
  extends_modifyCurrent FunctionScope.extends_pushBlock fun _ => rfl

theorem extends_popBlock (s : ScopeStack) : s.Extends s.popBlock :=
  extends_modifyCurrent FunctionScope.extends_popBlock fun _ => rfl

theorem Bounded.declare {s : ScopeStack} (hs : s.Bounded) (name : String) :
    (s.declare name).Bounded :=
  hs.modifyCurrent (fun _ h => h.declare name) fun _ => rfl

theorem Bounded.pushBlock {s : ScopeStack} (hs : s.Bounded) : s.pushBlock.Bounded :=
  hs.modifyCurrent (fun _ h => h.pushBlock) fun _ => rfl

theorem Bounded.popBlock {s : ScopeStack} (hs : s.Bounded) : s.popBlock.Bounded :=
  hs.modifyCurrent (fun _ h => h.popBlock) fun _ => rfl

/-- A declaration makes one more slot, the one that was announced. -/
theorem length_locals_declare {s : ScopeStack} (hs : s.functions ≠ []) (name : String) :
    (s.declare name).current.locals.length = s.nextSlot + 1 := by
  obtain ⟨fs⟩ := s
  cases fs with
  | nil => exact absurd rfl hs
  | cons g outer => simp [declare, modifyCurrent, current, nextSlot, FunctionScope.declare]

theorem length_locals_foldl_declare {s : ScopeStack} (hs : s.functions ≠ []) (names : List String) :
    (names.foldl ScopeStack.declare s).current.locals.length =
      s.current.locals.length + names.length := by
  induction names generalizing s with
  | nil => rfl
  | cons name names ih =>
    have hne : (s.declare name).functions ≠ [] :=
      ne_nil_of_forall₂ (extends_declare s name).functions hs
    rw [List.foldl_cons, ih hne, length_locals_declare hs, nextSlot, List.length_cons]
    omega

theorem extends_foldl_declare (s : ScopeStack) (names : List String) :
    s.Extends (names.foldl ScopeStack.declare s) := by
  induction names generalizing s with
  | nil => exact .refl s
  | cons name names ih => exact (extends_declare s name).trans (ih _)

theorem Bounded.foldl_declare {s : ScopeStack} (hs : s.Bounded) (names : List String) :
    (names.foldl ScopeStack.declare s).Bounded := by
  induction names generalizing s with
  | nil => exact hs
  | cons name names ih => exact ih (hs.declare name)

/-! ## Entering and leaving functions -/

theorem Bounded.pushFunction {s : ScopeStack} (hs : s.Bounded) (isVararg : Bool) :
    (s.pushFunction isVararg).Bounded := by
  refine ⟨by simp [ScopeStack.pushFunction], .start isVararg, ?_, hs.2⟩
  cases s.functions with
  | nil => trivial
  | cons g outer =>
    intro u hu
    simp [FunctionScope.start] at hu

/-- Leaving a function that was entered from `s` comes back to `s`, grown. -/
theorem Extends.popFunction {s t : ScopeStack} {isVararg : Bool} (hs : s.functions ≠ [])
    (h : (s.pushFunction isVararg).Extends t) : s.Extends t.popFunction := by
  obtain ⟨gs⟩ := t
  have hout := h.outermost
  cases h.functions with
  | cons _ hfs =>
    refine ⟨hfs, ?_⟩
    rw [pushFunction, outermostCaptures_cons hs,
      outermostCaptures_cons (ne_nil_of_forall₂ hfs hs)] at hout
    exact hout

theorem Bounded.popFunction {s t : ScopeStack} {isVararg : Bool} (ht : t.Bounded)
    (hs : s.functions ≠ []) (h : (s.pushFunction isVararg).Extends t) : t.popFunction.Bounded := by
  refine ⟨ne_nil_of_forall₂ (h.popFunction hs).functions hs, ?_⟩
  obtain ⟨gs⟩ := t
  cases h.functions with
  | cons _ _ => exact ht.2.2.2

/-- What a function captures is within the bounds of the function that it was entered from. -/
theorem covers_captures {s t : ScopeStack} {isVararg : Bool} (ht : t.Bounded)
    (hs : s.functions ≠ []) (h : (s.pushFunction isVararg).Extends t) :
    ∀ c ∈ t.current.captures, t.popFunction.current.Covers c := by
  intro c hc
  have hne := ne_nil_of_forall₂ (h.popFunction hs).functions hs
  obtain ⟨gs⟩ := t
  cases gs with
  | nil => exact absurd rfl ht.1
  | cons g outer =>
    cases outer with
    | nil => exact absurd rfl hne
    | cons g' rest =>
      obtain ⟨u, hu, rfl⟩ := List.mem_map.1 hc
      exact ht.2.2.1 u hu

/-! ## Resolution -/

/-- Captures stay within bounds when the enclosing functions grow. -/
theorem captures_of_extends {f : FunctionScope} {outer outer' : List FunctionScope}
    (h : CapturesBounded f outer) (he : List.Forall₂ FunctionScope.Extends outer outer') :
    CapturesBounded f outer' := by
  cases he with
  | nil => trivial
  | cons hg _ => exact fun u hu => hg.covers (h u hu)

/-- What resolution does to the functions: each keeps its slots and blocks and may capture more, and
the answer is within the bounds of the innermost one. -/
theorem resolveIn_bounded (name : String) : ∀ fs : List FunctionScope, AllBounded fs →
    AllBounded (resolveIn name fs).2 ∧
      List.Forall₂ FunctionScope.Extends fs (resolveIn name fs).2 ∧
      ∀ sym, (resolveIn name fs).1 = some sym →
        ∃ f outer, (resolveIn name fs).2 = f :: outer ∧ f.Covers sym
  | [], _ => ⟨trivial, .nil, by simp [resolveIn]⟩
  | f :: outer, h => by
    have hrefl : List.Forall₂ FunctionScope.Extends (f :: outer) (f :: outer) :=
      List.forall₂_same.2 fun g _ => .refl g
    obtain ⟨ihb, ihe, ihc⟩ := resolveIn_bounded name outer h.2.2
    cases hl : f.findLocal? name with
    | some slot =>
      refine ⟨by simpa [resolveIn, hl] using h, by simpa [resolveIn, hl] using hrefl, ?_⟩
      intro sym hsym
      have hs : sym = .local name slot := by simpa [resolveIn, hl] using hsym.symm
      exact ⟨f, outer, by simp [resolveIn, hl], hs ▸ h.1.covers_findLocal hl⟩
    | none =>
      cases hu : f.findUpvalue? name with
      | some i =>
        refine ⟨by simpa [resolveIn, hl, hu] using h, by simpa [resolveIn, hl, hu] using hrefl, ?_⟩
        intro sym hsym
        have hs : sym = .upvalue name i := by simpa [resolveIn, hl, hu] using hsym.symm
        exact ⟨f, outer, by simp [resolveIn, hl, hu], hs ▸ covers_findUpvalue hu⟩
      | none =>
        -- the name is looked up further out; a find is captured here as well
        rcases hr : resolveIn name outer with ⟨_ | capture, outer'⟩
        · rw [hr] at ihb ihe
          have heq : resolveIn name (f :: outer) = (none, f :: outer') := by
            simp [resolveIn, hl, hu, hr]
          rw [heq]
          refine ⟨⟨h.1, ?_, ihb⟩, .cons (.refl f) ihe, by simp⟩
          exact captures_of_extends h.2.1 ihe
        · rw [hr] at ihb ihe ihc
          have heq : resolveIn name (f :: outer) =
              (some (.upvalue name f.upvalues.length), f.addUpvalue name capture :: outer') := by
            simp [resolveIn, hl, hu, hr]
          rw [heq]
          obtain ⟨g, rest, hg, hcov⟩ := ihc capture rfl
          have hcap := captures_of_extends h.2.1 ihe
          simp only at hg
          subst hg
          refine ⟨⟨h.1, ?_, ihb⟩, .cons (extends_addUpvalue f name capture) ihe, ?_⟩
          · intro u hu'
            rcases List.mem_append.1 hu' with hu' | hu'
            · exact hcap u hu'
            · rw [List.mem_singleton.1 hu']
              exact hcov
          · rintro sym ⟨⟩
            exact ⟨_, _, rfl, by simp [Covers, Symbol.Within, addUpvalue]⟩

/-- The outermost function finds a name in itself or not at all, so it captures nothing new. -/
theorem outermostCaptures_resolveIn (name : String) : ∀ fs : List FunctionScope,
    outermostCaptures (resolveIn name fs).2 = outermostCaptures fs ∧
      (fs ≠ [] → (resolveIn name fs).2 ≠ [])
  | [] => ⟨rfl, fun h => absurd rfl h⟩
  | f :: outer => by
    obtain ⟨ih, ihne⟩ := outermostCaptures_resolveIn name outer
    cases hl : f.findLocal? name with
    | some slot => simp [resolveIn, hl]
    | none =>
      cases hu : f.findUpvalue? name with
      | some i => simp [resolveIn, hl, hu]
      | none =>
        cases outer with
        | nil => simp [resolveIn, hl, hu]
        | cons g rest =>
          have hne := ihne (by simp)
          rcases hr : resolveIn name (g :: rest) with ⟨_ | capture, outer'⟩
          · rw [hr] at ih hne
            rw [resolveIn, hl, hu, hr]
            exact ⟨(outermostCaptures_cons hne).trans ih, by simp⟩
          · rw [hr] at ih hne
            rw [resolveIn, hl, hu, hr]
            exact ⟨(outermostCaptures_cons hne).trans ih, by simp⟩

theorem extends_resolveIn {fs : List FunctionScope} (h : AllBounded fs) (name : String) :
    Extends ⟨fs⟩ ⟨(resolveIn name fs).2⟩ :=
  ⟨(resolveIn_bounded name fs h).2.1, (outermostCaptures_resolveIn name fs).1⟩

/-- Resolution keeps the bounds, only adds captures, and answers within the bounds of the function
that asks. -/
theorem resolve_bounded {s : ScopeStack} (hs : s.Bounded) (name : String) :
    (s.resolve name).2.Bounded ∧ s.Extends (s.resolve name).2 ∧
      (s.resolve name).2.current.Covers (s.resolve name).1 := by
  obtain ⟨hb₁, -, hc₁⟩ := resolveIn_bounded name s.functions hs.2
  have he₁ := extends_resolveIn hs.2 name
  rcases hr : resolveIn name s.functions with ⟨_ | sym, fs⟩
  · rw [hr] at hb₁ he₁
    have hne : fs ≠ [] := ne_nil_of_forall₂ he₁.functions hs.1
    by_cases henv : name = envName
    · have heq : s.resolve name = (.global name .defaultEnv, ⟨fs⟩) := by
        subst henv
        simp [resolve, hr]
      rw [heq]
      exact ⟨⟨hne, hb₁⟩, he₁, trivial⟩
    · -- a global variable: its environment is resolved in turn
      obtain ⟨hb₂, -, hc₂⟩ := resolveIn_bounded envName fs hb₁
      have he₂ := extends_resolveIn hb₁ envName
      rcases hr₂ : resolveIn envName fs with ⟨_ | env, fs₂⟩
      · rw [hr₂] at hb₂ he₂
        have heq : s.resolve name = (.global name .defaultEnv, ⟨fs₂⟩) := by
          simp [resolve, hr, henv, hr₂]
        rw [heq]
        exact ⟨⟨ne_nil_of_forall₂ he₂.functions hne, hb₂⟩, he₁.trans he₂, trivial⟩
      · rw [hr₂] at hb₂ he₂ hc₂
        have heq : s.resolve name = (.global name env, ⟨fs₂⟩) := by
          simp [resolve, hr, henv, hr₂]
        obtain ⟨f, outer, hf, hcov⟩ := hc₂ env rfl
        simp only at hf
        subst hf
        rw [heq]
        exact ⟨⟨by simp, hb₂⟩, he₁.trans he₂, hcov⟩
  · rw [hr] at hb₁ he₁ hc₁
    have heq : s.resolve name = (sym, ⟨fs⟩) := by simp [resolve, hr]
    obtain ⟨f, outer, hf, hcov⟩ := hc₁ sym rfl
    simp only at hf
    subst hf
    rw [heq]
    exact ⟨⟨by simp, hb₁⟩, he₁, hcov⟩

theorem Bounded.start (env : Bool) : (ScopeStack.start env).Bounded := by
  refine ⟨by simp [ScopeStack.start], ?_, trivial, trivial⟩
  cases env
  · exact SlotsBounded.start true
  · exact SlotsBounded.start true

end ScopeStack

end LuaMachine
