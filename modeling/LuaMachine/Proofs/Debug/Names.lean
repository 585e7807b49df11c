import LuaMachine.Proofs.Capture.Variables
import Mathlib.Order.Bounds.Basic

/-!
# The names that a debugger asks for

A debugger asks what a name stands for where a script is stopped. At run time only the names of slots
are known, and whether a slot has a cell, and a slot keeps its cell when its block is left. So
declarations whose blocks were left may be found (`ScriptFrame.Stale`).

Wherever a request comes to, the frame on top fits the scopes that the compiler had when it made the next
instruction (`ScriptFrame.Fits`). From that it follows what a debugger is told: the latest slot of the name,
of those that are stale and the one that the compiler means. Where none of the name is stale, and none of
the environment's, it is told what the compiler means, as far as the function has captured it
(`World.Hosted.symbolNamed_resolves`).
-/

namespace LuaMachine

open Exec

/-! ## Resolved names -/

/-- Visible declarations of a name, of which later ones have higher slots: it stands for the highest. -/
theorem FunctionScope.Named.slot?_eq_some_iff {f : FunctionScope} (hf : f.Named) {name : String}
    {slot : Nat} : f.visible.slot? name = some slot ↔ IsGreatest {s | (name, s) ∈ f.visible} slot := by
  have hall : ∀ vis : Visible, vis.Pairwise (fun d e => e.2 < d.2) →
      (vis.slot? name = some slot ↔ IsGreatest {s | (name, s) ∈ vis} slot) := by
    intro vis
    induction vis with
    | nil => exact fun _ => ⟨nofun, fun h => absurd h.1 List.not_mem_nil⟩
    | cons d vis ih =>
      intro hordered
      obtain ⟨hd, hvis⟩ := List.pairwise_cons.1 hordered
      by_cases hname : d.1 = name
      · subst hname
        have hfound : Visible.slot? (d :: vis) d.1 = some d.2 := by simp [Visible.slot?]
        have hgreatest : IsGreatest {s | (d.1, s) ∈ d :: vis} d.2 := by
          refine ⟨List.mem_cons_self, fun s hs => ?_⟩
          rcases List.mem_cons.1 hs with heq | hs
          · exact Nat.le_of_eq (congrArg Prod.snd heq)
          · exact Nat.le_of_lt (hd _ hs)
        rw [hfound, Option.some_inj]
        exact ⟨fun heq => heq ▸ hgreatest, fun h => hgreatest.unique h⟩
      · have hskipped : Visible.slot? (d :: vis) name = Visible.slot? vis name := by
          simp [Visible.slot?, hname]
        have hset : {s | (name, s) ∈ d :: vis} = {s | (name, s) ∈ vis} := by
          ext s
          refine ⟨fun hs => (List.mem_cons.1 hs).resolve_left ?_, List.mem_cons_of_mem _⟩
          rintro rfl
          exact hname rfl
        rw [hskipped, hset]
        exact ih hvis
  exact hall f.visible hf.ordered

namespace ScopeStack

variable {s : ScopeStack} {name : String} {slot : Nat}

/-- A chunk captures its environment. -/
theorem isSome_lookup_envName (fs : Lexical) : (Lexical.lookup true envName fs).isSome = true := by
  induction fs with
  | nil => rfl
  | cons f outer ih =>
    rw [Lexical.lookup]
    split
    · rfl
    · exact ih

/-- What a name resolves to: the latest visible declaration, without one a captured variable, and else a
field of the environment. -/
inductive Resolves (s : ScopeStack) (name : String) : Symbol → Prop where
  | local {slot : Nat} (h : s.current.visible.slot? name = some slot) : Resolves s name (.local name slot)
  | upvalue (i : Nat) (h : s.current.visible.slot? name = none) : Resolves s name (.upvalue name i)
  | global (h : s.current.visible.slot? name = none) (hne : name ≠ envName)
    (hmissing : Lexical.lookup true name (s.functions.tail.map FunctionScope.view) = none) :
    Resolves s name (.global name (s.resolve envName).1)

theorem Orderly.resolves (h : s.Orderly) (name : String) :
    s.Resolves name (s.resolve name).1 := by
  obtain ⟨-, -, -, hmeans⟩ := resolve_spec h.bounded.1 h.sound name
  have hfound : s.current.view.find? name = s.current.visible.slot? name :=
    FunctionScope.find?_view s.current name
  have hlength : (s.resolve name).2.functions.length = s.functions.tail.length + 1 := by
    obtain ⟨hviews, -⟩ := resolve_spec h.bounded.1 h.sound name
    have hlength := congrArg List.length hviews
    rw [List.length_map, List.length_map, h.functions_eq] at hlength
    exact hlength
  rw [h.functions_eq, List.map_cons, Lexical.lookup, hfound] at hmeans
  cases hslot : s.current.visible.slot? name with
  | some slot =>
    simp only [hslot] at hmeans
    obtain ⟨-, ⟨slot', ht, hsymbol⟩ | ⟨hother, -⟩⟩ := hmeans
    · rw [hsymbol, ← (Target.variable.inj ht).2]
      exact .local hslot
    · rw [hlength] at hother
      exact absurd (congrArg (Target.variable · slot) (List.length_map ..)) (hother slot)
  | none =>
    simp only [hslot] at hmeans
    cases hlookup : Lexical.lookup true name (s.functions.tail.map FunctionScope.view) with
    | some t =>
      simp only [hlookup] at hmeans
      obtain ⟨-, ⟨slot', rfl, -⟩ | ⟨-, i, hsymbol⟩⟩ := hmeans
      · have hlt := lookup_depth_lt hlookup
        rw [hlength, List.length_map] at hlt
        omega
      · exact hsymbol ▸ .upvalue i hslot
    | none =>
      simp only [hlookup] at hmeans
      obtain ⟨e, hsymbol, ⟨-, -, rfl, -⟩ | ⟨hmissing, -⟩⟩ := hmeans
      · rw [hsymbol]
        refine .global hslot ?_ hlookup
        rintro rfl
        have hsome := isSome_lookup_envName (s.functions.tail.map FunctionScope.view)
        rw [hlookup] at hsome
        cases hsome
      · have hsome := isSome_lookup_envName (s.functions.map FunctionScope.view)
        rw [h.functions_eq, List.map_cons, hmissing] at hsome
        cases hsome

/-- A name resolves to a local variable if one of that name is visible. -/
theorem Orderly.resolve_eq_local_iff (h : s.Orderly) :
    (s.resolve name).1 = .local name slot ↔ s.current.visible.slot? name = some slot := by
  have hresolves := h.resolves name
  generalize (s.resolve name).1 = c at hresolves ⊢
  cases hresolves with
  | «local» hslot => rw [hslot, Symbol.local.injEq, Option.some_inj, eq_self, true_and]
  | upvalue i hnone => simp [hnone]
  | global hnone => simp [hnone]

end ScopeStack

/-! ## Slots that are found -/

/-- The highest number below a bound that passes a test is found from the top. -/
theorem find?_reverse_range_eq_some_iff {p : Nat → Bool} {n i : Nat} :
    (List.range n).reverse.find? p = some i ↔ IsGreatest {j | j < n ∧ p j = true} i := by
  induction n with
  | zero => exact ⟨nofun, fun h => absurd h.1.1 (Nat.not_lt_zero i)⟩
  | succ n ih =>
    rw [List.range_succ, List.reverse_append, List.reverse_singleton, List.singleton_append,
      List.find?_cons]
    cases hn : p n with
    | true =>
      have hgreatest : IsGreatest {j | j < n + 1 ∧ p j = true} n :=
        ⟨⟨Nat.lt_succ_self n, hn⟩, fun j hj => Nat.le_of_lt_succ hj.1⟩
      exact ⟨fun heq => Option.some.inj heq ▸ hgreatest, fun h => congrArg some (hgreatest.unique h)⟩
    | false =>
      have hset : {j | j < n + 1 ∧ p j = true} = {j | j < n ∧ p j = true} := by
        ext j
        refine ⟨fun hj => ⟨Nat.lt_of_le_of_ne (Nat.le_of_lt_succ hj.1) ?_, hj.2⟩,
          fun hj => ⟨Nat.lt_succ_of_lt hj.1, hj.2⟩⟩
        rintro rfl
        exact Bool.noConfusion (hn.symm.trans hj.2)
      rw [hset]
      exact ih

namespace ScriptFrame

variable {f : ScriptFrame} {s : ScopeStack} {name : String} {slot : Nat}

/-- A slot has a name and has been declared. -/
def Declared (f : ScriptFrame) (name : String) (slot : Nat) : Prop :=
  f.symbols[slot]? = some name ∧ (f.cell? slot).isSome = true

/-- A slot was declared, and the declaration is not visible where the compiler has some scopes: its block
was left, or it is yet to be declared in another round of a loop. -/
def Stale (f : ScriptFrame) (s : ScopeStack) (name : String) (slot : Nat) : Prop :=
  f.Declared name slot ∧ (name, slot) ∉ s.current.visible

/-- A debugger finds the highest slot of a name that was declared. -/
theorem slotNamed?_eq_some_iff :
    World.slotNamed? f name = some slot ↔ IsGreatest {i | f.Declared name i} slot := by
  have hset : {i | f.Declared name i} = {i | i < f.symbols.length ∧
      (f.symbols[i]? == some name && (f.locals[i]?.join).isSome) = true} := by
    ext i
    simp only [Set.mem_ofPred_eq, Bool.and_eq_true, beq_iff_eq]
    exact ⟨fun h => ⟨(List.getElem?_eq_some_iff.1 h.1).1, h⟩, And.right⟩
  rw [hset]
  exact find?_reverse_range_eq_some_iff

/-- A frame fits the scopes that the compiler has in the code of its function: visible declarations have
slots of their names, with cells, and what the function has captured stands for something outside of it
and has the place that it had, if the compiler knew of it. -/
structure Fits (f : ScriptFrame) (s : ScopeStack) : Prop where
  orderly : s.Orderly
  declared : ∀ d ∈ s.current.visible, f.Declared d.1 d.2
  bound : ∀ name ∈ f.closure.upvalueNames,
    (Lexical.lookup true name (s.functions.tail.map FunctionScope.view)).isSome = true
  places : ∀ {i j : Nat} {name : String}, s.current.captured[i]? = some name →
    f.closure.upvalueNames[j]? = some name → i = j

end ScriptFrame

/-- What a debugger is told of a name agrees with what the compiler has resolved it to. Captured variables
are found by their names, and a name that the function has not captured is taken for a global one. -/
inductive Symbol.Agrees (captured names : List String) : Symbol → Symbol → Prop where
  | local (name : String) (slot : Nat) : Agrees captured names (.local name slot) (.local name slot)
  | upvalue {name : String} {i j : Nat} (hj : names[j]? = some name)
    (hi : captured[i]? = some name → i = j) : Agrees captured names (.upvalue name i) (.upvalue name j)
  | uncaptured {name : String} (i : Nat) (env : Symbol) (h : name ∉ names) (hne : name ≠ envName) :
    Agrees captured names (.upvalue name i) (.global name env)
  | environment (i : Nat) (h : envName ∉ names) :
    Agrees captured names (.upvalue envName i) .defaultEnv
  | global {name : String} {env env' : Symbol} (h : name ∉ names) (henv : Agrees captured names env env') :
    Agrees captured names (.global name env) (.global name env')

namespace ScriptFrame.Fits

variable {f : ScriptFrame} {s : ScopeStack} {name : String} {slot : Nat}

theorem named (h : f.Fits s) : s.current.Named :=
  h.orderly.named _ (h.orderly.functions_eq ▸ List.mem_cons_self)

/-- What the compiler means has been declared. -/
theorem declared_of_resolve (h : f.Fits s) (hslot : (s.resolve name).1 = .local name slot) :
    f.Declared name slot := by
  have hvisible := h.named.slot?_eq_some_iff.1 (h.orderly.resolve_eq_local_iff.1 hslot)
  exact h.declared (name, slot) hvisible.1

/-- A slot that was declared is stale, or the compiler means no lower one. -/
theorem le_of_declared (h : f.Fits s) (hslot : f.Declared name slot) :
    ∃ i, ((s.resolve name).1 = .local name i ∨ f.Stale s name i) ∧ slot ≤ i := by
  by_cases hvisible : (name, slot) ∈ s.current.visible
  · cases hfound : s.current.visible.slot? name with
    | some i =>
      refine ⟨i, .inl (h.orderly.resolve_eq_local_iff.2 hfound), ?_⟩
      exact (h.named.slot?_eq_some_iff.1 hfound).2 hvisible
    | none =>
      have hnone := List.find?_eq_none.1 (Option.map_eq_none_iff.1 hfound) _ hvisible
      exact absurd (beq_self_eq_true name) hnone
  · exact ⟨slot, .inr ⟨hslot, hvisible⟩, Nat.le_refl slot⟩

/-- A debugger finds the highest of the slots that are stale and the one that the compiler means. -/
theorem slotNamed?_eq_some_iff (h : f.Fits s) : World.slotNamed? f name = some slot ↔
    IsGreatest {i | (s.resolve name).1 = .local name i ∨ f.Stale s name i} slot := by
  have hdeclared : ∀ i, (s.resolve name).1 = .local name i ∨ f.Stale s name i → f.Declared name i :=
    fun i hi => hi.elim h.declared_of_resolve And.left
  rw [ScriptFrame.slotNamed?_eq_some_iff]
  constructor
  · rintro ⟨hslot, hupper⟩
    obtain ⟨i, hi, hle⟩ := h.le_of_declared hslot
    obtain rfl : slot = i := Nat.le_antisymm hle (hupper (hdeclared i hi))
    exact ⟨hi, fun j hj => hupper (hdeclared j hj)⟩
  · rintro ⟨hslot, hupper⟩
    refine ⟨hdeclared slot hslot, fun j hj => ?_⟩
    obtain ⟨i, hi, hle⟩ := h.le_of_declared hj
    exact Nat.le_trans hle (hupper hi)

/-- Without stale slots a debugger finds the slot that the compiler means, if there is one. -/
theorem slotNamed?_eq (h : f.Fits s) (hname : ∀ slot, ¬ f.Stale s name slot) :
    World.slotNamed? f name = s.current.visible.slot? name := by
  ext slot
  rw [h.slotNamed?_eq_some_iff, ← h.orderly.resolve_eq_local_iff]
  constructor
  · rintro ⟨hlocal | hstale, -⟩
    · exact hlocal
    · exact absurd hstale (hname slot)
  · intro hlocal
    refine ⟨.inl hlocal, fun i hi => ?_⟩
    rcases hi with hi | hstale
    · exact Nat.le_of_eq (Symbol.local.inj (hi.symm.trans hlocal)).2
    · exact absurd hstale (hname i)

end ScriptFrame.Fits

namespace World

variable {v : World} {f : ScriptFrame} {s : ScopeStack} {name : String} {slot : Nat}

theorem boundSymbol?_eq (hf : v.processor.scriptFrame? = some f) (name : String) :
    v.boundSymbol? name = match slotNamed? f name with
      | some slot => some (.local name slot)
      | none => (f.closure.upvalueNames.findIdx? (· == name)).map (.upvalue name ·) := by
  unfold boundSymbol?
  generalize v.processor.scriptFrame? = frame at hf ⊢
  subst hf
  rfl

theorem symbolNamed_eq_global {name : String} (hnone : v.boundSymbol? name = none)
    (hne : name ≠ envName) : v.symbolNamed name = .global name (v.symbolNamed envName) := by
  have henv : v.symbolNamed envName = (v.boundSymbol? envName).getD .defaultEnv := by
    unfold symbolNamed
    cases v.boundSymbol? envName <;> rfl
  rw [henv, symbolNamed, hnone]
  exact if_neg (by simpa using hne)

/-- A debugger is told of a local variable if it finds a slot. -/
theorem symbolNamed_eq_local_iff (hf : v.processor.scriptFrame? = some f) :
    v.symbolNamed name = .local name slot ↔ slotNamed? f name = some slot := by
  have hbound := v.boundSymbol?_eq hf name
  cases hslot : slotNamed? f name with
  | some i =>
    rw [hslot] at hbound
    rw [symbolNamed, hbound]
    simp
  | none =>
    rw [hslot] at hbound
    refine ⟨fun h => ?_, nofun⟩
    rw [symbolNamed, hbound] at h
    split at h
    · next heq =>
      obtain ⟨i, -, rfl⟩ := Option.map_eq_some_iff.1 heq
      cases h
    · split at h <;> cases h

/-- A debugger that finds no slot is told of a captured variable, if the function has captured one. -/
theorem symbolNamed_of_slotNamed?_eq_none (hf : v.processor.scriptFrame? = some f)
    (hslot : slotNamed? f name = none) :
    (∃ i, f.closure.upvalueNames[i]? = some name ∧ v.symbolNamed name = .upvalue name i) ∨
      name ∉ f.closure.upvalueNames ∧ v.boundSymbol? name = none := by
  have hbound := v.boundSymbol?_eq hf name
  rw [hslot] at hbound
  dsimp only at hbound
  cases hfind : f.closure.upvalueNames.findIdx? (· == name) with
  | some i =>
    obtain ⟨hlt, hname, -⟩ := List.findIdx?_eq_some_iff_getElem.1 hfind
    rw [hfind] at hbound
    refine .inl ⟨i, ?_, ?_⟩
    · rw [List.getElem?_eq_getElem hlt, beq_iff_eq.1 hname]
    · rw [symbolNamed, hbound]
      rfl
  | none =>
    rw [hfind] at hbound
    refine .inr ⟨fun hmem => ?_, hbound⟩
    have hne := List.findIdx?_eq_none_iff.1 hfind name hmem
    rw [beq_self_eq_true] at hne
    cases hne

/-- Without stale slots of a name a debugger is told what the compiler means by it, if that is so for the
environment when the name is another one. -/
theorem agrees_symbolNamed_of_env (h : f.Fits s) (hf : v.processor.scriptFrame? = some f)
    (hname : ∀ slot, ¬ f.Stale s name slot)
    (henv : name ≠ envName → Symbol.Agrees s.current.captured f.closure.upvalueNames
      (s.resolve envName).1 (v.symbolNamed envName)) :
    Symbol.Agrees s.current.captured f.closure.upvalueNames (s.resolve name).1 (v.symbolNamed name) := by
  have hslot := h.slotNamed?_eq hname
  have hresolves := h.orderly.resolves name
  generalize (s.resolve name).1 = c at hresolves ⊢
  cases hresolves with
  | «local» hfound =>
    rw [(v.symbolNamed_eq_local_iff hf).2 (hslot.trans hfound)]
    exact .local name _
  | upvalue i hnone =>
    rcases v.symbolNamed_of_slotNamed?_eq_none hf (hslot.trans hnone) with ⟨j, hj, heq⟩ | ⟨hmem, hbound⟩
    · rw [heq]
      exact .upvalue hj fun hi => h.places hi hj
    · by_cases hne : name = envName
      · subst hne
        rw [symbolNamed, hbound]
        exact .environment i hmem
      · rw [symbolNamed_eq_global hbound hne]
        exact .uncaptured i _ hmem hne
  | global hnone hne hmissing =>
    -- what stands for nothing outside of the function has not been captured
    have hmem : name ∉ f.closure.upvalueNames := by
      intro hmem
      have hsome := h.bound name hmem
      rw [hmissing] at hsome
      cases hsome
    rcases v.symbolNamed_of_slotNamed?_eq_none hf (hslot.trans hnone) with ⟨j, hj, -⟩ | ⟨-, hbound⟩
    · exact absurd (List.mem_of_getElem? hj) hmem
    · rw [symbolNamed_eq_global hbound hne]
      exact .global hmem (henv hne)

/-- Without stale slots of a name and of the environment's a debugger is told what the compiler means. -/
theorem agrees_symbolNamed (h : f.Fits s) (hf : v.processor.scriptFrame? = some f)
    (hname : ∀ slot, ¬ f.Stale s name slot) (henv : ∀ slot, ¬ f.Stale s envName slot) :
    Symbol.Agrees s.current.captured f.closure.upvalueNames (s.resolve name).1 (v.symbolNamed name) :=
  agrees_symbolNamed_of_env h hf hname fun _ =>
    agrees_symbolNamed_of_env h hf henv fun hne => absurd rfl hne

end World

/-! ## Wherever control comes to -/

section Reached

variable {L : Placing} {H : List Execution} {v : World} {f : ScriptFrame} {height : Nat}

/-- A frame that a history explains fits the scopes of the compiler. -/
theorem ScriptFrame.Explained.fits {s : ScopeStack} {x : Nat} (h : f.Explained L H v height x)
    (hsound : ∀ e ∈ H, e.Sound L) (hmeans : (L v.active x).Means s) : f.Fits s := by
  have hU := hmeans.foretells
  have hnames : f.closure.upvalueNames <+: (L v.active x).captured := by
    rw [h.captured, ← h.owner]
    exact h.told.names hsound
  have hnamed : s.current.Named :=
    hmeans.orderly.named _ (hmeans.orderly.functions_eq ▸ List.mem_cons_self)
  refine ⟨hmeans.orderly, fun d hd => ⟨?_, ?_⟩, fun name hname => ?_, fun hi hj => ?_⟩
  · rw [h.symbols]
    exact getElem?_mono hU.slots (hnamed.names d hd)
  · obtain ⟨cell, hcell, -⟩ := h.locals d (hmeans.visible ▸ hd)
    rw [hcell]
    rfl
  · exact hU.bound name (hnames.subset hname)
  · obtain ⟨hlt, hi⟩ := List.getElem?_eq_some_iff.1 (getElem?_mono hU.captured hi)
    obtain ⟨hlt', hj⟩ := List.getElem?_eq_some_iff.1 (getElem?_mono hnames hj)
    exact (hU.nodup.getElem_inj_iff).1 (hi.trans hj.symm)

end Reached

namespace World.Hosted

variable {S : Noting} {n m depth fuel : Nat} {q : Request} {w v : World} {f : ScriptFrame} {op : OpCode}

/-- Wherever control comes to an instruction of a script function, the frame fits the scopes that the
compiler had when it made the instruction. -/
theorem fits (hw : w.Hosted) (hactive : w.active.index < w.scripts.size)
    (h : Comes n (.request q) w m (.loop depth fuel) v) (hS : v.Noted S)
    (hop : v.ops v.processor.ip = some op) (hf : v.processor.scriptFrame? = some f) :
    f.Fits (S v.active v.processor.ip) := by
  obtain ⟨L, hp, hcharted⟩ := hS.exists_placed
  have hp₀ := h.placed hp
  obtain ⟨H₀, hH₀⟩ := hw.explained hp₀
  obtain ⟨H, hH, hlexical⟩ := h.explained hp (hw.sane hp₀.genuine).closed
    ⟨hw.resting.orderly.1, hactive⟩ hH₀ trivial
  have hlexical : v.Lexical L H depth := hlexical
  have hne : 0 < v.processor.frames.size := by
    refine Nat.pos_of_ne_zero fun hzero => ?_
    unfold Processor.scriptFrame? Processor.scriptFrameIndex? at hf
    rw [hzero] at hf
    cases hf
  obtain ⟨height, f', -, -, -, hback, hexplained⟩ := hlexical.top hne
  obtain rfl := Option.some.inj ((Processor.scriptFrame?_of_back? hback).symm.trans hf)
  exact hexplained.fits hH.recorded.sound (hcharted.means hop)

/-- A debugger is told what the compiler means by a name, but for stale slots. Wherever control comes to an
instruction of a script function while a request of a host is in progress, it is told of a local variable
if a slot of that name is stale there, or the compiler means one, and of the highest of these slots. If no
slot of the name is stale, and none of the environment's, it is told what the compiler means: the same
slot, the captured variable of the name, or a global variable, for which a captured variable is taken as
well that the function has not captured. -/
theorem symbolNamed_resolves (hw : w.Hosted) (hactive : w.active.index < w.scripts.size)
    (h : Comes n (.request q) w m (.loop depth fuel) v) (hS : v.Noted S)
    (hop : v.ops v.processor.ip = some op) (hf : v.processor.scriptFrame? = some f) (name : String) :
    let s := S v.active v.processor.ip
    (∀ slot, v.symbolNamed name = .local name slot ↔
      IsGreatest {i | (s.resolve name).1 = .local name i ∨ f.Stale s name i} slot) ∧
    ((∀ slot, ¬ f.Stale s name slot) → (∀ slot, ¬ f.Stale s envName slot) →
      Symbol.Agrees s.current.captured f.closure.upvalueNames (s.resolve name).1
        (v.symbolNamed name)) := by
  intro s
  have hfits := hw.fits hactive h hS hop hf
  exact ⟨fun slot => (v.symbolNamed_eq_local_iff hf).trans hfits.slotNamed?_eq_some_iff,
    agrees_symbolNamed hfits hf⟩

/-- Behind a block that declared a variable once more, a debugger is told of the inner one. -/
theorem symbolNamed_resolves_left : ∃ (S : Noting) (w v : World) (q : Request) (f : ScriptFrame)
    (fuel : Nat) (op : OpCode), w.Hosted ∧ w.active.index < w.scripts.size ∧
      Comes 1 (.request q) w 1 (.loop 0 fuel) v ∧ v.Noted S ∧ v.ops v.processor.ip = some op ∧
      v.processor.scriptFrame? = some f ∧
      ((S v.active v.processor.ip).resolve "x").1 = .local "x" 0 ∧ v.symbolNamed "x" = .local "x" 1 ∧
      f.Stale (S v.active v.processor.ip) "x" 1 := by
  have hcheck : comesTo "local x do local x end return x" [] 9 (fun body v =>
      (v.ops v.processor.ip).isSome && v.processor.scriptFrame?.isSome &&
        ((((Course.chunk body).notes (.start true)).getD v.processor.ip default).resolve "x").1 ==
          .local "x" 0 &&
        v.symbolNamed "x" == .local "x" 1) = true := by decide +kernel
  obtain ⟨w, v, q, fuel, body, harrives, hcomes, htest⟩ := exists_of_comesTo (by decide) hcheck
  have hw := harrives.hosted
  have hactive := active_of_arrives harrives
  have hnoted := noted_of_arrives harrives
  simp only [Bool.and_eq_true, beq_iff_eq, Option.isSome_iff_exists] at htest
  obtain ⟨⟨⟨⟨op, hop⟩, g, hg⟩, hmeant⟩, htold⟩ := htest
  have hresolves := symbolNamed_resolves hw hactive hcomes hnoted hop hg "x"
  have hgreatest := (hresolves.1 1).1 htold
  refine ⟨_, w, v, q, g, fuel, op, hw, hactive, hcomes, hnoted, hop, hg, hmeant, htold, ?_⟩
  refine hgreatest.1.resolve_left fun hone => ?_
  cases hmeant.symm.trans hone

end World.Hosted

end LuaMachine
