import LuaMachine.Proofs.Scope.Bounds
import Mathlib.Data.List.Nodup

/-!
# Resolution is lexical scoping

What a name should stand for is a matter of the declarations alone: `Lexical` keeps, for each open
function, the declarations that are still visible, and `Lexical.lookup` takes the latest one of the
nearest function that has one. Nothing is said there about captures.

The scopes of the compiler find a variable of an outer function through captures, which are made when
a name is first used and then found again by name. `Denotes` follows them outwards. The invariant
(`Sound`) is that every capture of an open function leads to what its name stands for just outside of
that function; it is kept by every operation because the declarations of an outer function do not
change while an inner one is open.

Main statement: after every well-nested sequence of operations, a name resolves to what it lexically
stands for, no function captures a name twice, and captures keep their meaning (`resolve_lexical`).
-/

namespace LuaMachine

/-- An operation on scopes. -/
inductive ScopeOp where
  | pushFunction (isVararg : Bool)
  | popFunction
  | pushBlock
  | popBlock
  | declare (name : String)
  | resolve (name : String)
deriving DecidableEq, Repr

/-- What a name may stand for: a slot of the function that `depth` functions lie around, or the
environment that the outermost function captures. -/
inductive Target where
  | variable (depth slot : Nat)
  | environment
deriving DecidableEq, Repr

/-! ## Visible declarations -/

/-- A declaration: its name, the number of declarations of its function before it, and the number of
blocks of that function that were open, its own included. -/
structure Declaration where
  name : String
  slot : Nat
  block : Nat
deriving DecidableEq, Repr

/-- An open function: how many declarations it has made, how many blocks are open in it, and the
declarations that are still visible, latest first. -/
structure OpenFunction where
  declared : Nat := 0
  block : Nat := 1
  visible : List Declaration := []
deriving DecidableEq, Repr

/-- The open functions, innermost first. -/
abbrev Lexical := List OpenFunction

namespace OpenFunction

def declare (f : OpenFunction) (name : String) : OpenFunction :=
  { f with declared := f.declared + 1, visible := ⟨name, f.declared, f.block⟩ :: f.visible }

/-- The end of a block hides what was declared in it. -/
def popBlock (f : OpenFunction) : OpenFunction :=
  { f with block := f.block - 1, visible := f.visible.filter (·.block < f.block) }

/-- The slot of the latest visible declaration of a name. -/
def find? (f : OpenFunction) (name : String) : Option Nat :=
  (f.visible.find? (·.name == name)).map (·.slot)

end OpenFunction

namespace Lexical

/-- One operation; `none` if it closes what is not open. -/
def step : Lexical → ScopeOp → Option Lexical
  | fs, .pushFunction _ => some ({} :: fs)
  | _ :: f :: fs, .popFunction => some (f :: fs)
  | f :: fs, .pushBlock => some ({ f with block := f.block + 1 } :: fs)
  | f :: fs, .popBlock => if f.block ≤ 1 then none else some (f.popBlock :: fs)
  | f :: fs, .declare name => some (f.declare name :: fs)
  | fs, .resolve _ => some fs
  | _, _ => none

/-- The open functions after a well-nested sequence of operations. -/
def run (ops : List ScopeOp) : Option Lexical := ops.foldlM step [{}]

/-- What a name stands for: the latest visible declaration in the nearest function that has one, or
else the environment, if the chunk has one and that is its name. -/
def lookup (env : Bool) (name : String) : Lexical → Option Target
  | [] => if env && name == envName then some .environment else none
  | f :: outer => match f.find? name with
    | some slot => some (.variable outer.length slot)
    | none => lookup env name outer

end Lexical

/-! ## Captures -/

/-- Following the captures from a symbol of the innermost function outwards. -/
inductive Denotes : List FunctionScope → Symbol → Target → Prop where
  | slot {f : FunctionScope} {outer : List FunctionScope} {name : String} {i : Nat} :
      Denotes (f :: outer) (.local name i) (.variable outer.length i)
  | capture {f : FunctionScope} {outer : List FunctionScope} {name : String} {i : Nat}
      {c : Symbol} {t : Target} : f.upvalues[i]? = some (name, c) → Denotes outer c t →
      Denotes (f :: outer) (.upvalue name i) t
  | environment {f : FunctionScope} {i : Nat} :
      f.upvalues[i]? = some (envName, .defaultEnv) → Denotes [f] (.upvalue envName i) .environment

/-- A symbol of the innermost function that names a target: its slot if it is the function's own, and
else a capture that leads to it. -/
def Means (fs : List FunctionScope) (name : String) (t : Target) (symbol : Symbol) : Prop :=
  Denotes fs symbol t ∧
    ((∃ slot, t = .variable (fs.length - 1) slot ∧ symbol = .local name slot) ∨
      (∀ slot, t ≠ .variable (fs.length - 1) slot) ∧ ∃ i, symbol = .upvalue name i)

namespace ScopeStack

/-- One operation on the scopes of the compiler. -/
def apply (s : ScopeStack) : ScopeOp → ScopeStack
  | .pushFunction isVararg => s.pushFunction isVararg
  | .popFunction => s.popFunction
  | .pushBlock => s.pushBlock
  | .popBlock => s.popBlock
  | .declare name => s.declare name
  | .resolve name => (s.resolve name).2

/-- The scopes of a chunk after some operations. -/
def after (env : Bool) (ops : List ScopeOp) : ScopeStack := ops.foldl apply (.start env)

/-- The function that `depth` functions lie around, and those functions. -/
def around (s : ScopeStack) (depth : Nat) : List FunctionScope :=
  s.functions.drop (s.functions.length - (depth + 1))

end ScopeStack

/-! ## The declarations in the scopes -/

/-- The declarations of open blocks, each with the number of blocks up to its own. -/
def declarations : List (List (String × Nat)) → List Declaration
  | [] => []
  | block :: outer => block.map (fun d => ⟨d.1, d.2, outer.length + 1⟩) ++ declarations outer

theorem block_le_of_mem_declarations {blocks : List (List (String × Nat))} {d : Declaration}
    (h : d ∈ declarations blocks) : d.block ≤ blocks.length := by
  induction blocks with
  | nil => cases h
  | cons block outer ih =>
    rcases List.mem_append.1 h with h | h
    · obtain ⟨p, -, rfl⟩ := List.mem_map.1 h
      exact Nat.le_refl _
    · exact Nat.le_succ_of_le (ih h)

theorem find?_declarations (name : String) (blocks : List (List (String × Nat))) :
    ((declarations blocks).find? (·.name == name)).map (·.slot) =
      (blocks.flatten.find? (·.1 == name)).map (·.2) := by
  induction blocks with
  | nil => rfl
  | cons block outer ih =>
    rw [declarations, List.flatten_cons, List.find?_append, List.find?_append, List.find?_map]
    have hcomp : (fun d : Declaration => d.name == name) ∘
        (fun d : String × Nat => (⟨d.1, d.2, outer.length + 1⟩ : Declaration)) =
          fun d => d.1 == name := rfl
    rw [hcomp]
    cases block.find? (·.1 == name) with
    | none => simpa using ih
    | some d => rfl

namespace FunctionScope

/-- What a function has declared. -/
def view (f : FunctionScope) : OpenFunction :=
  { declared := f.locals.length, block := f.blocks.length, visible := declarations f.blocks }

theorem find?_view (f : FunctionScope) (name : String) : f.view.find? name = f.findLocal? name :=
  find?_declarations name f.blocks

theorem view_addUpvalue (f : FunctionScope) (name : String) (capture : Symbol) :
    (f.addUpvalue name capture).view = f.view := rfl

theorem view_declare {f : FunctionScope} (hf : 0 < f.view.block) (name : String) :
    (f.declare name).view = f.view.declare name := by
  cases hb : f.blocks with
  | nil => simp [view, hb] at hf
  | cons block outer =>
    simp [view, FunctionScope.declare, OpenFunction.declare, hb, declarations]

theorem view_pushBlock (f : FunctionScope) :
    f.pushBlock.view = { f.view with block := f.view.block + 1 } := by
  simp [view, FunctionScope.pushBlock, declarations]

theorem view_popBlock {f : FunctionScope} (hf : 0 < f.view.block) :
    f.popBlock.view = f.view.popBlock := by
  cases hb : f.blocks with
  | nil => simp [view, hb] at hf
  | cons block outer =>
    have hhidden : (block.map fun d => (⟨d.1, d.2, outer.length + 1⟩ : Declaration)).filter
        (·.block < outer.length + 1) = [] := by
      refine List.filter_eq_nil_iff.2 ?_
      intro d hd
      obtain ⟨p, -, rfl⟩ := List.mem_map.1 hd
      simp
    have hkept : (declarations outer).filter (·.block < outer.length + 1) = declarations outer := by
      refine List.filter_eq_self.2 ?_
      intro d hd
      have hle := block_le_of_mem_declarations hd
      simp only [decide_eq_true_eq]
      omega
    simp only [view, FunctionScope.popBlock, OpenFunction.popBlock, hb, declarations, List.tail_cons,
      List.length_cons, Nat.add_sub_cancel, List.filter_append, hhidden, hkept, List.nil_append]

end FunctionScope

/-! ## What captures lead to -/

/-- Captures keep their places. -/
theorem FunctionScope.Extends.upvalue {f g : FunctionScope} (h : f.Extends g) {i : Nat}
    {u : String × Symbol} (hi : f.upvalues[i]? = some u) : g.upvalues[i]? = some u := by
  obtain ⟨hlt, rfl⟩ := List.getElem?_eq_some_iff.1 hi
  exact List.prefix_iff_getElem?.1 h.2 i hlt

/-- Captures that are added later do not change where the earlier ones lead. -/
theorem Denotes.mono {fs gs : List FunctionScope} {symbol : Symbol} {t : Target}
    (h : Denotes fs symbol t) (hg : List.Forall₂ FunctionScope.Extends fs gs) :
    Denotes gs symbol t := by
  induction h generalizing gs with
  | slot =>
    cases hg with
    | cons _ hrest =>
      rw [hrest.length_eq]
      exact .slot
  | capture hi _ ih =>
    cases hg with
    | cons hf hrest => exact .capture (hf.upvalue hi) (ih hrest)
  | environment hi =>
    cases hg with
    | cons hf hrest =>
      cases hrest
      exact .environment (hf.upvalue hi)

theorem lookup_depth_lt {env : Bool} {name : String} {lex : Lexical} {depth slot : Nat}
    (h : lex.lookup env name = some (.variable depth slot)) : depth < lex.length := by
  induction lex with
  | nil =>
    rw [Lexical.lookup] at h
    split at h <;> cases h
  | cons f outer ih =>
    rw [Lexical.lookup] at h
    split at h
    · cases h
      exact Nat.lt_succ_self _
    · exact Nat.lt_succ_of_lt (ih h)

/-- The captures of a function lead to what their names stand for outside of it; the outermost one
captures the environment, if there is one. -/
def SoundCaptures (env : Bool) (f : FunctionScope) : List FunctionScope → Prop
  | [] => f.upvalues = if env then [(envName, .defaultEnv)] else []
  | g :: rest => ∀ u ∈ f.upvalues, ∃ t,
      Lexical.lookup env u.1 ((g :: rest).map FunctionScope.view) = some t ∧
        Denotes (g :: rest) u.2 t

/-- Functions, innermost first, with sound captures, none of which is made twice. -/
def Sound (env : Bool) : List FunctionScope → Prop
  | [] => True
  | f :: outer => (f.upvalues.map (·.1)).Nodup ∧ SoundCaptures env f outer ∧ Sound env outer

/-- Sound captures stay so when the outer functions capture more. -/
theorem SoundCaptures.mono {env : Bool} {f : FunctionScope} {outer outer' : List FunctionScope}
    (h : SoundCaptures env f outer) (hg : List.Forall₂ FunctionScope.Extends outer outer')
    (hview : outer'.map FunctionScope.view = outer.map FunctionScope.view) :
    SoundCaptures env f outer' := by
  cases hg with
  | nil => exact h
  | cons hg hrest =>
    intro u hu
    obtain ⟨t, ht, hd⟩ := h u hu
    rw [SoundCaptures.eq_def] at *
    exact ⟨t, hview ▸ ht, hd.mono (.cons hg hrest)⟩

theorem Sound.nodup {env : Bool} {fs : List FunctionScope} (h : Sound env fs) :
    ∀ f ∈ fs, (f.upvalues.map (·.1)).Nodup := by
  induction fs with
  | nil => simp
  | cons f outer ih =>
    intro g hg
    rcases List.mem_cons.1 hg with rfl | hg
    · exact h.1
    · exact ih h.2.2 g hg

namespace ScopeStack

/-- What resolution in the functions does: the declarations stay, captures are added soundly, and the
answer is what the name lexically stands for, or there is none and nothing changes. -/
structure Resolved (env : Bool) (name : String) (fs : List FunctionScope)
    (answer : Option Symbol × List FunctionScope) : Prop where
  view : answer.2.map FunctionScope.view = fs.map FunctionScope.view
  grows : List.Forall₂ FunctionScope.Extends fs answer.2
  sound : Sound env answer.2
  found : ∀ t, Lexical.lookup env name (fs.map FunctionScope.view) = some t →
    ∃ symbol, answer.1 = some symbol ∧ Means answer.2 name t symbol
  missing : Lexical.lookup env name (fs.map FunctionScope.view) = none →
    answer = (none, fs)

theorem means_local {f : FunctionScope} {outer : List FunctionScope} (name : String) (slot : Nat) :
    Means (f :: outer) name (.variable outer.length slot) (.local name slot) :=
  ⟨.slot, .inl ⟨slot, rfl, rfl⟩⟩

/-- A capture of the innermost function leads to a target that is not in that function. -/
theorem means_upvalue {env : Bool} {f : FunctionScope} {outer : List FunctionScope} {name : String}
    {i : Nat} {c : Symbol} {t : Target} (hi : f.upvalues[i]? = some (name, c))
    (ht : Lexical.lookup env name (outer.map FunctionScope.view) = some t) (hd : Denotes outer c t) :
    Means (f :: outer) name t (.upvalue name i) := by
  refine ⟨.capture hi hd, .inr ⟨?_, i, rfl⟩⟩
  rintro slot rfl
  have hlt := lookup_depth_lt ht
  simp at hlt

theorem getElem?_of_findUpvalue? {f : FunctionScope} {name : String} {i : Nat}
    (h : f.findUpvalue? name = some i) : ∃ c, f.upvalues[i]? = some (name, c) := by
  obtain ⟨hlt, hname, -⟩ := List.findIdx?_eq_some_iff_getElem.1 h
  refine ⟨f.upvalues[i].2, ?_⟩
  rw [List.getElem?_eq_getElem hlt]
  have heq : f.upvalues[i].1 = name := by simpa using hname
  rw [← heq]

theorem not_mem_of_findUpvalue? {f : FunctionScope} {name : String}
    (h : f.findUpvalue? name = none) : name ∉ f.upvalues.map (·.1) := by
  intro hmem
  obtain ⟨u, hu, rfl⟩ := List.mem_map.1 hmem
  have := List.findIdx?_eq_none_iff.1 h u hu
  simp at this

/-- A name that stands for something is found. -/
theorem Resolved.of_found {env : Bool} {name : String} {fs gs : List FunctionScope} {t : Target}
    {symbol : Symbol} (hlook : Lexical.lookup env name (fs.map FunctionScope.view) = some t)
    (hview : gs.map FunctionScope.view = fs.map FunctionScope.view)
    (hgrows : List.Forall₂ FunctionScope.Extends fs gs) (hsound : Sound env gs)
    (hmeans : Means gs name t symbol) : Resolved env name fs (some symbol, gs) := by
  refine ⟨hview, hgrows, hsound, ?_, ?_⟩
  · intro t' ht'
    rw [hlook] at ht'
    cases ht'
    exact ⟨symbol, rfl, hmeans⟩
  · intro hnone
    rw [hlook] at hnone
    cases hnone

theorem forall₂_extends_refl (fs : List FunctionScope) :
    List.Forall₂ FunctionScope.Extends fs fs :=
  List.forall₂_same.2 fun f _ => .refl f

/-- A name that stands for nothing is not found. -/
theorem Resolved.of_missing {env : Bool} {name : String} {fs : List FunctionScope}
    (hlook : Lexical.lookup env name (fs.map FunctionScope.view) = none) (hsound : Sound env fs) :
    Resolved env name fs (none, fs) := by
  refine ⟨rfl, forall₂_extends_refl fs, hsound, ?_, fun _ => rfl⟩
  intro t ht
  rw [hlook] at ht
  cases ht

/-- A local of the innermost function comes before everything else. -/
theorem resolved_local {env : Bool} {f : FunctionScope} {outer : List FunctionScope}
    (hf : Sound env (f :: outer)) {name : String} {slot : Nat}
    (hl : f.findLocal? name = some slot) :
    Resolved env name (f :: outer) (resolveIn name (f :: outer)) := by
  have hlook : Lexical.lookup env name ((f :: outer).map FunctionScope.view) =
      some (.variable outer.length slot) := by
    simp [Lexical.lookup, FunctionScope.find?_view, hl]
  rw [resolveIn, hl]
  exact .of_found hlook rfl (forall₂_extends_refl _) hf (means_local name slot)

theorem lookup_view_cons (env : Bool) {f : FunctionScope} {name : String}
    (hl : f.findLocal? name = none) (outer : List FunctionScope) :
    Lexical.lookup env name ((f :: outer).map FunctionScope.view) =
      Lexical.lookup env name (outer.map FunctionScope.view) := by
  simp [Lexical.lookup, FunctionScope.find?_view, hl]

/-- The outermost function finds its locals, and the environment if it captures it. -/
theorem resolved_outermost {env : Bool} {f : FunctionScope} (hf : Sound env [f]) (name : String) :
    Resolved env name [f] (resolveIn name [f]) := by
  have hups : f.upvalues = if env then [(envName, .defaultEnv)] else [] := hf.2.1
  cases hl : f.findLocal? name with
  | some slot => exact resolved_local hf hl
  | none =>
    have hlook := lookup_view_cons env hl []
    by_cases hcond : env = true ∧ name = envName
    · obtain ⟨rfl, rfl⟩ := hcond
      have hu : f.findUpvalue? envName = some 0 := by simp [FunctionScope.findUpvalue?, hups]
      rw [resolveIn, hl, hu]
      refine .of_found hlook rfl (forall₂_extends_refl _) hf ?_
      exact ⟨.environment (by simp [hups]), .inr ⟨by simp, 0, rfl⟩⟩
    · have hu : f.findUpvalue? name = none := by
        cases env with
        | false => simp [FunctionScope.findUpvalue?, hups]
        | true =>
          have hne : envName ≠ name := fun h => hcond ⟨rfl, h.symm⟩
          simp [FunctionScope.findUpvalue?, hups, hne]
      have hnone : Lexical.lookup env name ([f].map FunctionScope.view) = none := by
        rw [hlook]
        simpa [Lexical.lookup] using hcond
      rw [resolveIn, hl, hu]
      exact .of_missing hnone hf

/-- An inner function, whose captures are threaded through the functions around it. -/
theorem resolved_inner {env : Bool} {f g : FunctionScope} {rest : List FunctionScope}
    (hf : Sound env (f :: g :: rest)) {name : String}
    (ih : Resolved env name (g :: rest) (resolveIn name (g :: rest))) :
    Resolved env name (f :: g :: rest) (resolveIn name (f :: g :: rest)) := by
  cases hl : f.findLocal? name with
  | some slot => exact resolved_local hf hl
  | none =>
    have hlook := lookup_view_cons env hl (g :: rest)
    cases hu : f.findUpvalue? name with
    | some i =>
      -- the name was captured before, and still leads where it led then
      obtain ⟨c, hc⟩ := getElem?_of_findUpvalue? hu
      obtain ⟨t, ht, hd⟩ := hf.2.1 (name, c) (List.mem_of_getElem? hc)
      rw [resolveIn, hl, hu]
      exact .of_found (hlook.trans ht) rfl (forall₂_extends_refl _) hf (means_upvalue hc ht hd)
    | none =>
      rcases hr : resolveIn name (g :: rest) with ⟨answer, outer'⟩
      rw [hr] at ih
      cases hout : Lexical.lookup env name ((g :: rest).map FunctionScope.view) with
      | none =>
        cases ih.missing hout
        rw [resolveIn, hl, hu, hr]
        exact .of_missing (hlook.trans hout) hf
      | some t =>
        obtain ⟨c, hc, hmeans⟩ := ih.found t hout
        cases hc
        have hview : outer'.map FunctionScope.view = (g :: rest).map FunctionScope.view := ih.view
        have hgrows : List.Forall₂ FunctionScope.Extends (g :: rest) outer' := ih.grows
        have ht : Lexical.lookup env name (outer'.map FunctionScope.view) = some t := hview ▸ hout
        rw [resolveIn, hl, hu, hr]
        refine .of_found (hlook.trans hout) ?_
          (.cons (FunctionScope.extends_addUpvalue f name c) hgrows) ⟨?_, ?_, ih.sound⟩
          (means_upvalue (by simp [FunctionScope.addUpvalue]) ht hmeans.1)
        · rw [List.map_cons, List.map_cons, hview, FunctionScope.view_addUpvalue]
        · -- the name was not captured before
          have hnot := not_mem_of_findUpvalue? hu
          simp only [FunctionScope.addUpvalue, List.map_append, List.map_cons, List.map_nil]
          refine List.nodup_append.2 ⟨hf.1, by simp, ?_⟩
          rintro a ha b hb rfl
          exact hnot (List.mem_singleton.1 hb ▸ ha)
        · have hold := hf.2.1.mono hgrows hview
          cases outer' with
          | nil => cases hgrows
          | cons g' rest' =>
            intro u hu'
            rcases List.mem_append.1 hu' with hu' | hu'
            · exact hold u hu'
            · rw [List.mem_singleton.1 hu']
              exact ⟨t, ht, hmeans.1⟩

theorem resolved {env : Bool} (name : String) : ∀ fs : List FunctionScope, fs ≠ [] →
    Sound env fs → Resolved env name fs (resolveIn name fs)
  | [], h, _ => absurd rfl h
  | [_], _, hf => resolved_outermost hf name
  | _ :: g :: rest, _, hf => resolved_inner hf (resolved name (g :: rest) (by simp) hf.2.2)

/-- A name resolves to a field of whatever the name of the environment resolves to, or of the global
table when that stands for nothing. -/
def ResolvesGlobally (env : Bool) (lex : Lexical) (s : ScopeStack) (name : String) : Prop :=
  ∃ e, (s.resolve name).1 = .global name e ∧
    ((∃ t, lex.lookup env envName = some t ∧ e = (s.resolve envName).1 ∧
        Means (s.resolve name).2.functions envName t e) ∨
      lex.lookup env envName = none ∧ e = .defaultEnv)

/-- A name resolves to what it lexically stands for, and the captures that this makes are sound. -/
theorem resolve_spec {env : Bool} {s : ScopeStack} (hne : s.functions ≠ [])
    (hs : Sound env s.functions) (name : String) :
    (s.resolve name).2.functions.map FunctionScope.view = s.functions.map FunctionScope.view ∧
      List.Forall₂ FunctionScope.Extends s.functions (s.resolve name).2.functions ∧
      Sound env (s.resolve name).2.functions ∧
      match Lexical.lookup env name (s.functions.map FunctionScope.view) with
      | some t => Means (s.resolve name).2.functions name t (s.resolve name).1
      | none => ResolvesGlobally env (s.functions.map FunctionScope.view) s name := by
  have h₁ := resolved name s.functions hne hs
  cases hlook : Lexical.lookup env name (s.functions.map FunctionScope.view) with
  | some t =>
    obtain ⟨symbol, hsym, hmeans⟩ := h₁.found t hlook
    rcases hr : resolveIn name s.functions with ⟨answer, fs⟩
    rw [hr] at h₁ hsym hmeans
    cases hsym
    have heq : s.resolve name = (symbol, ⟨fs⟩) := by simp [resolve, hr]
    rw [heq]
    exact ⟨h₁.view, h₁.grows, h₁.sound, hmeans⟩
  | none =>
    have hr := h₁.missing hlook
    have h₂ := resolved envName s.functions hne hs
    rcases hr₂ : resolveIn envName s.functions with ⟨answer, fs⟩
    rw [hr₂] at h₂
    by_cases hname : name = envName
    · -- the environment itself is not to be found
      subst hname
      have heq : s.resolve envName = (.global envName .defaultEnv, s) := by simp [resolve, hr]
      unfold ResolvesGlobally
      rw [heq]
      exact ⟨rfl, forall₂_extends_refl _, hs, .defaultEnv, rfl, .inr ⟨hlook, rfl⟩⟩
    · cases hlook₂ : Lexical.lookup env envName (s.functions.map FunctionScope.view) with
      | some t =>
        obtain ⟨e, he, hmeans⟩ := h₂.found t hlook₂
        cases he
        have heq : s.resolve name = (.global name e, ⟨fs⟩) := by simp [resolve, hr, hname, hr₂]
        have henv : s.resolve envName = (e, ⟨fs⟩) := by simp [resolve, hr₂]
        unfold ResolvesGlobally
        rw [heq, henv]
        exact ⟨h₂.view, h₂.grows, h₂.sound, e, rfl, .inl ⟨t, hlook₂, rfl, hmeans⟩⟩
      | none =>
        cases h₂.missing hlook₂
        have heq : s.resolve name = (.global name .defaultEnv, s) := by
          simp [resolve, hr, hname, hr₂]
        unfold ResolvesGlobally
        rw [heq]
        exact ⟨rfl, forall₂_extends_refl _, hs, .defaultEnv, rfl, .inr ⟨hlook₂, rfl⟩⟩

/-! ## Runs -/

/-- The scopes have the declarations that they should have, and sound captures. -/
structure Agrees (env : Bool) (lex : Lexical) (s : ScopeStack) : Prop where
  view : s.functions.map FunctionScope.view = lex
  nonempty : s.functions ≠ []
  blocks : ∀ f ∈ lex, 0 < f.block
  sound : Sound env s.functions

theorem Agrees.start (env : Bool) : Agrees env [{}] (.start env) := by
  cases env with
  | false =>
    refine ⟨rfl, by simp [ScopeStack.start], by simp, ?_, rfl, trivial⟩
    simp [FunctionScope.start]
  | true =>
    refine ⟨rfl, by simp [ScopeStack.start], by simp, ?_, rfl, trivial⟩
    simp [FunctionScope.start, FunctionScope.addUpvalue]

/-- A change of the declarations of the innermost function. -/
theorem Agrees.modifyCurrent {env : Bool} {l : OpenFunction} {lex : Lexical} {s : ScopeStack}
    (h : Agrees env (l :: lex) s) {change : FunctionScope → FunctionScope} {l' : OpenFunction}
    (hview : ∀ f, f.view = l → (change f).view = l')
    (hups : ∀ f, (change f).upvalues = f.upvalues) (hl' : 0 < l'.block) :
    Agrees env (l' :: lex) (s.modifyCurrent change) := by
  obtain ⟨fs⟩ := s
  cases fs with
  | nil => exact absurd rfl h.nonempty
  | cons f outer =>
    have hv := h.view
    simp only [List.map_cons, List.cons.injEq] at hv
    obtain ⟨hnodup, hcaps, hout⟩ := h.sound
    refine ⟨?_, by simp [ScopeStack.modifyCurrent], ?_, ?_⟩
    · simp only [ScopeStack.modifyCurrent, List.map_cons, List.cons.injEq]
      exact ⟨hview f hv.1, hv.2⟩
    · intro g hg
      rcases List.mem_cons.1 hg with rfl | hg
      · exact hl'
      · exact h.blocks g (List.mem_cons_of_mem _ hg)
    · refine ⟨by rw [hups]; exact hnodup, ?_, hout⟩
      cases outer with
      | nil => exact (hups f).trans hcaps
      | cons g rest =>
        intro u hu
        rw [hups] at hu
        exact hcaps u hu

/-- Every operation keeps the agreement. -/
theorem Agrees.step {env : Bool} {lex lex' : Lexical} {s : ScopeStack} (h : Agrees env lex s)
    {op : ScopeOp} (hop : lex.step op = some lex') : Agrees env lex' (s.apply op) := by
  cases op with
  | pushFunction isVararg =>
    simp only [Lexical.step, Option.some.injEq] at hop
    subst hop
    refine ⟨?_, by simp [apply, pushFunction], ?_, ?_⟩
    · simp only [apply, pushFunction, List.map_cons, h.view, List.cons.injEq]
      exact ⟨rfl, trivial⟩
    · intro g hg
      rcases List.mem_cons.1 hg with rfl | hg
      · exact Nat.zero_lt_one
      · exact h.blocks g hg
    · refine ⟨by simp [FunctionScope.start], ?_, h.sound⟩
      have hne := h.nonempty
      cases hfs : s.functions with
      | nil => exact absurd hfs hne
      | cons g rest =>
        intro u hu
        simp [FunctionScope.start] at hu
  | popFunction =>
    rcases lex with _ | ⟨l, _ | ⟨f, fs⟩⟩
    · cases hop
    · cases hop
    · simp only [Lexical.step, Option.some.injEq] at hop
      subst hop
      obtain ⟨gs⟩ := s
      have hv := h.view
      rcases gs with _ | ⟨g, _ | ⟨g', rest⟩⟩
      · cases hv
      · simp at hv
      · simp only [List.map_cons, List.cons.injEq] at hv
        refine ⟨?_, by simp [apply, popFunction], ?_, h.sound.2.2⟩
        · simp only [apply, popFunction, List.tail_cons, List.map_cons, List.cons.injEq]
          exact hv.2
        · exact fun k hk => h.blocks k (List.mem_cons_of_mem _ hk)
  | pushBlock =>
    cases lex with
    | nil => cases hop
    | cons l lex =>
      simp only [Lexical.step, Option.some.injEq] at hop
      subst hop
      refine h.modifyCurrent ?_ (fun _ => rfl) (Nat.succ_pos _)
      intro f hf
      rw [FunctionScope.view_pushBlock, hf]
  | popBlock =>
    cases lex with
    | nil => cases hop
    | cons l lex =>
      simp only [Lexical.step] at hop
      split at hop
      · cases hop
      · next hgt =>
        cases hop
        have hpos : 0 < l.popBlock.block := by
          simp only [OpenFunction.popBlock]
          omega
        refine h.modifyCurrent ?_ (fun _ => rfl) hpos
        intro f hf
        rw [FunctionScope.view_popBlock (by rw [hf]; omega), hf]
  | declare name =>
    cases lex with
    | nil => cases hop
    | cons l lex =>
      simp only [Lexical.step, Option.some.injEq] at hop
      subst hop
      have hpos : 0 < l.block := h.blocks l List.mem_cons_self
      refine h.modifyCurrent ?_ (fun _ => rfl) hpos
      intro f hf
      rw [FunctionScope.view_declare (by rw [hf]; exact hpos), hf]
  | resolve name =>
    simp only [Lexical.step, Option.some.injEq] at hop
    subst hop
    obtain ⟨hview, hgrows, hsound, -⟩ := resolve_spec h.nonempty h.sound name
    exact ⟨hview.trans h.view, ne_nil_of_forall₂ hgrows h.nonempty, h.blocks, hsound⟩

theorem Agrees.run {env : Bool} {lex lex' : Lexical} {s : ScopeStack} (h : Agrees env lex s)
    {ops : List ScopeOp} (hops : ops.foldlM Lexical.step lex = some lex') :
    Agrees env lex' (ops.foldl apply s) := by
  induction ops generalizing lex s with
  | nil =>
    cases hops
    exact h
  | cons op ops ih =>
    rw [List.foldlM_cons] at hops
    obtain ⟨mid, hop, hrest⟩ := Option.bind_eq_some_iff.1 hops
    exact ih (h.step hop) hrest

theorem Agrees.length_eq {env : Bool} {lex : Lexical} {s : ScopeStack} (h : Agrees env lex s) :
    s.functions.length = lex.length := by
  rw [← h.view, List.length_map]

theorem forall₂_modifyCurrent {s : ScopeStack} {change : FunctionScope → FunctionScope}
    (hc : ∀ f : FunctionScope, f.Extends (change f)) :
    List.Forall₂ FunctionScope.Extends s.functions (s.modifyCurrent change).functions := by
  obtain ⟨fs⟩ := s
  cases fs with
  | nil => exact .nil
  | cons f outer => exact .cons (hc f) (forall₂_extends_refl outer)

theorem forall₂_around {s s' : ScopeStack}
    (h : List.Forall₂ FunctionScope.Extends s.functions s'.functions) (depth : Nat) :
    List.Forall₂ FunctionScope.Extends (s.around depth) (s'.around depth) := by
  unfold around
  rw [← h.length_eq]
  exact List.forall₂_drop _ h

/-- An operation that leaves a function open keeps its captures and those of the functions around
it. -/
theorem Agrees.around_apply {env : Bool} {lex lex' : Lexical} {s : ScopeStack}
    (h : Agrees env lex s) {op : ScopeOp} (hop : lex.step op = some lex') {depth : Nat}
    (hd : depth < lex.length) (hd' : depth < lex'.length) :
    List.Forall₂ FunctionScope.Extends (s.around depth) ((s.apply op).around depth) := by
  have hlen := h.length_eq
  have hlen' := (h.step hop).length_eq
  cases op with
  | pushFunction isVararg =>
    have hsame : (s.apply (.pushFunction isVararg)).around depth = s.around depth := by
      have hsucc : s.functions.length + 1 - (depth + 1) = s.functions.length - (depth + 1) + 1 := by
        omega
      simp only [around, apply, pushFunction, List.length_cons, hsucc, List.drop_succ_cons]
    rw [hsame]
    exact forall₂_extends_refl _
  | popFunction =>
    have hsame : (s.apply .popFunction).around depth = s.around depth := by
      have htail : s.functions.tail.length = s.functions.length - 1 := List.length_tail
      simp only [apply, popFunction] at hlen'
      have hpred : s.functions.length - (depth + 1) = s.functions.tail.length - (depth + 1) + 1 := by
        omega
      simp only [around, apply, popFunction, hpred, List.drop_tail]
    rw [hsame]
    exact forall₂_extends_refl _
  | pushBlock => exact forall₂_around (forall₂_modifyCurrent FunctionScope.extends_pushBlock) depth
  | popBlock => exact forall₂_around (forall₂_modifyCurrent FunctionScope.extends_popBlock) depth
  | declare name =>
    exact forall₂_around (forall₂_modifyCurrent fun f => FunctionScope.extends_declare f name) depth
  | resolve name => exact forall₂_around (resolve_spec h.nonempty h.sound name).2.1 depth

end ScopeStack

/-- After some operations, further ones leave the function open that `depth` functions lie around. -/
def Lexical.KeepsOpen (ops later : List ScopeOp) (depth : Nat) : Prop :=
  ∀ first, first <+: later → ∃ lex, Lexical.run (ops ++ first) = some lex ∧ depth < lex.length

namespace ScopeStack

theorem Agrees.after (env : Bool) {ops : List ScopeOp} {lex : Lexical}
    (h : Lexical.run ops = some lex) : Agrees env lex (after env ops) :=
  (Agrees.start env).run h

/-- Captures keep their meaning until their function is left. -/
theorem denotes_later {env : Bool} {ops later : List ScopeOp} {depth : Nat}
    (hopen : Lexical.KeepsOpen ops later depth) {symbol : Symbol} {t : Target}
    (h : Denotes ((after env ops).around depth) symbol t) :
    Denotes ((after env (ops ++ later)).around depth) symbol t := by
  induction later generalizing ops with
  | nil =>
    rw [List.append_nil]
    exact h
  | cons op later ih =>
    obtain ⟨lex, hlex, hd⟩ := hopen [] (List.nil_prefix)
    obtain ⟨lex', hlex', hd'⟩ := hopen [op] (by simp)
    rw [List.append_nil] at hlex
    have hop : lex.step op = some lex' := by
      simp only [Lexical.run, List.foldlM_append] at hlex hlex'
      rw [hlex] at hlex'
      simpa using hlex'
    have hstep := (Agrees.after env hlex).around_apply hop hd hd'
    have hcons : ops ++ op :: later = (ops ++ [op]) ++ later := by simp
    rw [hcons]
    refine ih ?_ ?_
    · intro first hfirst
      obtain ⟨lex₂, hlex₂, hd₂⟩ := hopen (op :: first) (by simpa using hfirst)
      exact ⟨lex₂, by simpa using hlex₂, hd₂⟩
    · have hone : ScopeStack.after env (ops ++ [op]) = (ScopeStack.after env ops).apply op := by
        simp [ScopeStack.after, List.foldl_append]
      rw [hone]
      exact h.mono hstep

/-- Resolution is lexical scoping. After every well-nested sequence of operations a name resolves to
what it stands for: the slot of the latest visible declaration, directly or through captures, the
environment of the chunk, or a field of what the name of the environment resolves to. No function
captures a name twice, and captures keep their meaning for as long as their function is open. -/
theorem resolve_lexical (env : Bool) {ops : List ScopeOp} {lex : Lexical}
    (h : Lexical.run ops = some lex) (name : String) :
    (match lex.lookup env name with
      | some t => Means ((after env ops).resolve name).2.functions name t
          ((after env ops).resolve name).1
      | none => ResolvesGlobally env lex (after env ops) name) ∧
      (∀ f ∈ ((after env ops).resolve name).2.functions, (f.upvalues.map (·.1)).Nodup) ∧
      ∀ later depth, Lexical.KeepsOpen ops later depth → ∀ captured i t,
        Denotes ((after env ops).around depth) (.upvalue captured i) t →
          Denotes ((after env (ops ++ later)).around depth) (.upvalue captured i) t := by
  have ha := Agrees.after env h
  obtain ⟨-, -, hsound, hmeans⟩ := resolve_spec ha.nonempty ha.sound name
  rw [ha.view] at hmeans
  refine ⟨hmeans, hsound.nodup, ?_⟩
  intro later depth hopen captured i t hd
  exact denotes_later hopen hd

theorem resolve_lexical_through_function :
    Lexical.run [.declare "x", .pushFunction false, .pushFunction false] =
        some [{}, {}, { declared := 1, visible := [⟨"x", 0, 1⟩] }] ∧
      let s := after true [.declare "x", .pushFunction false, .pushFunction false]
      (s.resolve "x").1 = .upvalue "x" 0 ∧
        Means (s.resolve "x").2.functions "x" (.variable 0 0) (s.resolve "x").1 := by
  have hrun : Lexical.run [.declare "x", .pushFunction false, .pushFunction false] =
      some [{}, {}, { declared := 1, visible := [⟨"x", 0, 1⟩] }] := rfl
  have hmeans := (resolve_lexical true hrun "x").1
  exact ⟨hrun, rfl, hmeans⟩

end ScopeStack

end LuaMachine
