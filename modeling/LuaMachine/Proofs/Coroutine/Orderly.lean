import LuaMachine.Proofs.Machine.Uniform
import Mathlib.Logic.Relation

/-!
# Coroutines in order

The state of a coroutine, its body and the stack of running coroutines of its script are separate
pieces of the world, and a resumption changes them one after the other. `World.Orderly` says how they
belong together whenever code of a script is running or none is: a coroutine is running if and only
if it stands on the stack of its script, no coroutine stands there twice, and a coroutine has a body
if and only if it can be resumed.

Almost everything that happens leaves all three alone (`World.Quiet`); new coroutines, and the changes
of state that a resumption makes, are single steps (`Coroutine.Change`).
-/

namespace LuaMachine

/-- One change among all coroutines: a new one that has not started or that stands for a main
processor, a body given or taken away, or an allowed change of state. -/
inductive Coroutine.Change : Array Coroutine → Array Coroutine → Prop
  | create {cs : Array Coroutine} {c : Coroutine} (hc : c.state = .notStarted ∨ c.state = .main) :
    Change cs (cs.push c)
  | body {cs : Array Coroutine} (i : Nat) (b : Option CoroutineBody) :
    Change cs (cs.modify i fun c => { c with body := b })
  | become {cs : Array Coroutine} {i : Nat} {c : Coroutine} {s : CoroutineState}
    (hc : cs[i]? = some c) (hs : c.state.canBecome s = true) :
    Change cs (cs.modify i fun c => { c with state := s })

namespace World

/-- The running coroutines of a script, innermost first. -/
def stack (w : World) (i : ScriptId) : List CoroutineId :=
  (w.scripts.getD i.index default).running

/-- The states, bodies and stacks of all coroutines belong together. -/
structure Orderly (w : World) : Prop where
  owned : ∀ {id c}, w.heap.coroutine? id = some c → c.owner.index < w.scripts.size
  running : ∀ {id c}, w.heap.coroutine? id = some c →
    (c.state = .running ↔ id ∈ w.stack c.owner)
  stacked : ∀ {i id}, id ∈ w.stack i → ∃ c, w.heap.coroutine? id = some c ∧ c.owner = i
  once : ∀ i, (w.stack i).Nodup
  body : ∀ {id c}, w.heap.coroutine? id = some c →
    (c.body.isSome ↔ c.state = .notStarted ∨ c.state = .suspended)

/-- The coroutines of a world come from those of another one by allowed changes. -/
def Evolves (w w' : World) : Prop :=
  Relation.ReflTransGen Coroutine.Change w.heap.coroutines w'.heap.coroutines

/-- Nothing happened to coroutines, the same script is running, what stands for the shared variables
still does, and debuggers are heeded. -/
structure Quiet (w w' : World) : Prop where
  active : w'.active = w.active
  coroutines : w'.heap.coroutines = w.heap.coroutines
  running : w'.scripts.map (·.running) = w.scripts.map (·.running)
  stores : ∀ {id : ObjectId}, w.heap.object? id = some .store → w'.heap.object? id = some .store
  heeds : w.Heeds w'

/-- What a computation that is over has left of the coroutines: they are in order, and the stacks are
as they were. -/
structure Continues (w w' : World) : Prop where
  orderly : w'.Orderly
  active : w'.active = w.active
  size : w'.scripts.size = w.scripts.size
  stack : ∀ i, w'.stack i = w.stack i
  evolves : w.Evolves w'

/-! ## Stacks -/

variable {w w' w'' : World}

theorem stack_eq (h : w'.scripts.map (·.running) = w.scripts.map (·.running)) (i : ScriptId) :
    w'.stack i = w.stack i := by
  have hget : ∀ v : World, v.stack i = ((v.scripts.map (·.running))[i.index]?).getD [] := by
    intro v
    unfold stack
    rw [Array.getD_eq_getD_getElem?, Array.getElem?_map]
    cases v.scripts[i.index]? with
    | none => rfl
    | some s => rfl
  rw [hget, hget, h]

/-- The stack of a script after a change of one script. -/
theorem stack_modify (w : World) (i j : ScriptId) (hj : j.index < w.scripts.size)
    (f : Script → Script) (h : Heap) (p : Processor) :
    ({ w with scripts := w.scripts.modify j.index f, heap := h, processor := p } : World).stack i =
      if i = j then (f (w.scripts.getD j.index default)).running else w.stack i := by
  unfold stack
  simp only [Array.getD_eq_getD_getElem?, Array.getElem?_modify]
  by_cases hij : i = j
  · subst hij
    simp [hj]
  · have hne : ¬j.index = i.index := by
      intro hindex
      apply hij
      cases i
      cases j
      exact congrArg _ hindex.symm
    simp [hij, hne]

theorem coroutine?_modify (h : Heap) (id id' : CoroutineId) (f : Coroutine → Coroutine) :
    (h.modifyCoroutine id f).coroutine? id' =
      if id' = id then (h.coroutine? id).map f else h.coroutine? id' := by
  unfold Heap.modifyCoroutine Heap.coroutine?
  rw [Array.getElem?_modify]
  by_cases hid : id' = id
  · subst hid
    rw [if_pos rfl, if_pos rfl]
  · have hne : ¬id.index = id'.index := by
      intro h
      apply hid
      cases id
      cases id'
      exact congrArg _ h.symm
    rw [if_neg hid, if_neg hne]

theorem coroutine?_push (h : Heap) (c : Coroutine) (id : CoroutineId) :
    (h.addCoroutine c).coroutine? id =
      if id.index = h.coroutines.size then some c else h.coroutine? id := by
  unfold Heap.addCoroutine Heap.coroutine?
  exact Array.getElem?_push

/-! ## Changes that do not concern coroutines -/

/-- Order is a matter of the coroutines and the stacks of those that are running. -/
theorem Orderly.of_same (hw : w.Orderly) (hcoroutines : w'.heap.coroutines = w.heap.coroutines)
    (hrunning : w'.scripts.map (·.running) = w.scripts.map (·.running)) : w'.Orderly := by
  have hget : ∀ id, w'.heap.coroutine? id = w.heap.coroutine? id := fun id =>
    congrArg (fun cs : Array Coroutine => cs[id.index]?) hcoroutines
  have hsize : w'.scripts.size = w.scripts.size := by simpa using congrArg Array.size hrunning
  have hstack : ∀ i, w'.stack i = w.stack i := stack_eq hrunning
  constructor
  · intro id c hc
    rw [hget] at hc
    exact hsize.symm ▸ hw.owned hc
  · intro id c hc
    rw [hget] at hc
    rw [hstack]
    exact hw.running hc
  · intro i id hid
    rw [hstack] at hid
    rw [hget]
    exact hw.stacked hid
  · intro i
    rw [hstack]
    exact hw.once i
  · intro id c hc
    rw [hget] at hc
    exact hw.body hc

namespace Quiet

theorem refl (w : World) : w.Quiet w := ⟨rfl, rfl, rfl, fun h => h, .refl w⟩

theorem trans (h₁ : w.Quiet w') (h₂ : w'.Quiet w'') : w.Quiet w'' :=
  ⟨h₂.active.trans h₁.active, h₂.coroutines.trans h₁.coroutines, h₂.running.trans h₁.running,
    fun h => h₂.stores (h₁.stores h), h₁.heeds.trans h₂.heeds⟩

theorem coroutine? (h : w.Quiet w') (id : CoroutineId) :
    w'.heap.coroutine? id = w.heap.coroutine? id :=
  congrArg (fun cs : Array Coroutine => cs[id.index]?) h.coroutines

theorem size (h : w.Quiet w') : w'.scripts.size = w.scripts.size := by
  have hsize := congrArg Array.size h.running
  simpa using hsize

theorem stack (h : w.Quiet w') (i : ScriptId) : w'.stack i = w.stack i := stack_eq h.running i

theorem orderly (h : w.Quiet w') (hw : w.Orderly) : w'.Orderly := hw.of_same h.coroutines h.running

theorem continues (h : w.Quiet w') (hw : w.Orderly) : w.Continues w' := by
  refine ⟨h.orderly hw, h.active, h.size, h.stack, ?_⟩
  unfold Evolves
  rw [h.coroutines]

/-- Only one script changes, but not its stack, and its debugger is heeded. -/
theorem modifyScript (w : World) (i : Nat) {f : Script → Script}
    (hf : ∀ s : Script, (f s).running = s.running) (hd : ∀ s : Script, s.debug.Heeds (f s).debug) :
    w.Quiet { w with scripts := w.scripts.modify i f } := by
  refine ⟨rfl, rfl, ?_, fun h => h, .modifyScript w i hd⟩
  refine Array.ext_getElem? fun j => ?_
  rw [Array.getElem?_map, Array.getElem?_map, Array.getElem?_modify]
  split
  · rw [Option.map_map]
    exact congrArg (Option.map · _) (funext hf)
  · rfl

end Quiet

theorem Aside.quiet (h : w.Aside w') : w.Quiet w' := by
  refine ⟨h.active, h.coroutines, ?_, h.stores, h.heeds⟩
  have hscripts := congrArg (Array.map (·.running)) h.scripts
  rw [Array.map_map, Array.map_map] at hscripts
  exact hscripts

namespace Continues

theorem refl (hw : w.Orderly) : w.Continues w := (Quiet.refl w).continues hw

theorem trans (h₁ : w.Continues w') (h₂ : w'.Continues w'') : w.Continues w'' := by
  refine ⟨h₂.orderly, h₂.active.trans h₁.active, h₂.size.trans h₁.size, ?_, ?_⟩
  · exact fun i => (h₂.stack i).trans (h₁.stack i)
  · exact Relation.ReflTransGen.trans h₁.evolves h₂.evolves

theorem quiet (h₁ : w.Continues w') (h₂ : w'.Quiet w'') : w.Continues w'' :=
  h₁.trans (h₂.continues h₁.orderly)

end Continues

/-- Which script is running does not matter. -/
theorem Orderly.withActive (hw : w.Orderly) (id : ScriptId) :
    ({ w with active := id } : World).Orderly :=
  ⟨hw.owned, hw.running, hw.stacked, hw.once, hw.body⟩

/-! ## Changes that concern coroutines -/

/-- A new coroutine of a script. -/
theorem Orderly.create (hw : w.Orderly) {c : Coroutine} (ho : c.owner.index < w.scripts.size)
    (hs : c.state = .notStarted ∧ c.body.isSome ∨ c.state = .main ∧ c.body = none) :
    w.Continues { w with heap := w.heap.addCoroutine c } := by
  have hnew : ∀ {id c'}, (w.heap.addCoroutine c).coroutine? id = some c' →
      id.index = w.heap.coroutines.size ∧ c' = c ∨ w.heap.coroutine? id = some c' := by
    intro id c' hc'
    rw [coroutine?_push] at hc'
    split at hc'
    · next hid => exact .inl ⟨hid, (Option.some.inj hc').symm⟩
    · exact .inr hc'
  have hold : ∀ {id c'}, w.heap.coroutine? id = some c' →
      (w.heap.addCoroutine c).coroutine? id = some c' := by
    intro id c' hc'
    have hlt : id.index < w.heap.coroutines.size := (Array.getElem?_eq_some_iff.1 hc').1
    rw [coroutine?_push, if_neg (Nat.ne_of_lt hlt)]
    exact hc'
  refine ⟨⟨?_, ?_, ?_, hw.once, ?_⟩, rfl, rfl, fun _ => rfl, ?_⟩
  · intro id c' hc'
    rcases hnew hc' with ⟨-, rfl⟩ | hc'
    · exact ho
    · exact hw.owned hc'
  · intro id c' hc'
    rcases hnew hc' with ⟨hid, rfl⟩ | hc'
    · -- the new coroutine is not running, and nothing on a stack is new
      have hstate : c'.state ≠ .running := by
        rcases hs with ⟨h, -⟩ | ⟨h, -⟩ <;> simp [h]
      refine ⟨fun h => absurd h hstate, fun hmem => ?_⟩
      obtain ⟨c₀, hc₀, -⟩ := hw.stacked hmem
      have hlt : id.index < w.heap.coroutines.size := (Array.getElem?_eq_some_iff.1 hc₀).1
      exact absurd hid (Nat.ne_of_lt hlt)
    · exact hw.running hc'
  · intro i id hid
    obtain ⟨c', hc', hown⟩ := hw.stacked hid
    exact ⟨c', hold hc', hown⟩
  · intro id c' hc'
    rcases hnew hc' with ⟨-, rfl⟩ | hc'
    · rcases hs with ⟨h, hb⟩ | ⟨h, hb⟩
      · simp [h, hb]
      · simp [h, hb]
    · exact hw.body hc'
  · refine .single (.create ?_)
    rcases hs with ⟨h, -⟩ | ⟨h, -⟩
    · exact .inl h
    · exact .inr h

/-- The world in which a coroutine of the running script has just been resumed. -/
def resuming (w : World) (id : CoroutineId) (p : Processor) : World :=
  { w with
    heap := w.heap.modifyCoroutine id fun c => { c with state := .running, body := none }
    scripts := w.scripts.modify w.active.index fun s => { s with running := id :: s.running }
    processor := p }

/-- The world in which the innermost running coroutine has been taken off the stack. -/
def popped (w : World) (p : Processor) : World :=
  { w with
    scripts := w.scripts.modify w.active.index fun s => { s with running := s.running.tail }
    processor := p }

/-- The world in which the innermost running coroutine has just stopped. -/
def stopping (w : World) (id : CoroutineId) (state : CoroutineState) (body : Option CoroutineBody)
    (p : Processor) : World :=
  { w.popped p with heap := w.heap.modifyCoroutine id fun c => { c with state, body } }

section Resumption

variable {id : CoroutineId} {c : Coroutine}

theorem stack_resuming (hlt : w.active.index < w.scripts.size) (p : Processor) (i : ScriptId) :
    (w.resuming id p).stack i = if i = w.active then id :: w.stack i else w.stack i := by
  unfold resuming
  rw [stack_modify w i w.active hlt]
  by_cases hi : i = w.active
  · subst hi
    rw [if_pos rfl, if_pos rfl]
    rfl
  · rw [if_neg hi, if_neg hi]

theorem stack_stopping (hlt : w.active.index < w.scripts.size) (s : CoroutineState)
    (b : Option CoroutineBody) (p : Processor) (i : ScriptId) :
    (w.stopping id s b p).stack i = if i = w.active then (w.stack i).tail else w.stack i := by
  unfold stopping popped
  rw [stack_modify w i w.active hlt]
  by_cases hi : i = w.active
  · subst hi
    rw [if_pos rfl, if_pos rfl]
    rfl
  · rw [if_neg hi, if_neg hi]

/-- A coroutine of the running script that can be resumed is not on a stack. -/
theorem Orderly.not_mem (hw : w.Orderly) (hc : w.heap.coroutine? id = some c)
    (hs : c.state ≠ .running) (i : ScriptId) : id ∉ w.stack i := by
  intro hmem
  obtain ⟨c', hc', rfl⟩ := hw.stacked hmem
  rw [hc] at hc'
  cases hc'
  exact hs ((hw.running hc).2 hmem)

/-- A resumption puts the coroutine on the stack, running and without a body. -/
theorem Orderly.resuming (hw : w.Orderly) (hc : w.heap.coroutine? id = some c)
    (ho : c.owner = w.active) (hs : c.state = .notStarted ∨ c.state = .suspended)
    (p : Processor) : (w.resuming id p).Orderly := by
  have hlt : w.active.index < w.scripts.size := ho ▸ hw.owned hc
  have hstopped : c.state ≠ .running := by
    rcases hs with h | h <;> simp [h]
  have hsize : (w.resuming id p).scripts.size = w.scripts.size := Array.size_modify
  have hget : ∀ id', (w.resuming id p).heap.coroutine? id' =
      if id' = id then some { c with state := .running, body := none }
      else w.heap.coroutine? id' := by
    intro id'
    unfold World.resuming
    rw [coroutine?_modify, hc]
    rfl
  constructor
  · intro id' c' hc'
    rw [hget] at hc'
    rw [hsize]
    split at hc'
    · cases hc'
      change c.owner.index < _
      exact hw.owned hc
    · exact hw.owned hc'
  · intro id' c' hc'
    rw [hget] at hc'
    rw [stack_resuming hlt]
    split at hc'
    · next hid =>
      cases hc'
      subst hid
      simp [ho]
    · next hid =>
      rw [hw.running hc']
      split
      · simp [hid]
      · rfl
  · intro i id' hid'
    rw [stack_resuming hlt] at hid'
    rw [hget]
    by_cases hid : id' = id
    · subst hid
      refine ⟨_, if_pos rfl, ?_⟩
      by_cases hi : i = w.active
      · exact ho.trans hi.symm
      · rw [if_neg hi] at hid'
        exact absurd hid' (hw.not_mem hc hstopped i)
    · rw [if_neg hid]
      refine hw.stacked ?_
      split at hid'
      · simpa [hid] using hid'
      · exact hid'
  · intro i
    rw [stack_resuming hlt]
    split
    · exact List.nodup_cons.2 ⟨hw.not_mem hc hstopped i, hw.once i⟩
    · exact hw.once i
  · intro id' c' hc'
    rw [hget] at hc'
    split at hc'
    · cases hc'
      simp
    · exact hw.body hc'

/-- When the innermost running coroutine suspends or dies, it leaves the stack; it has a body again
if it suspends. -/
theorem Orderly.stopping (hw : w.Orderly) (hlt : w.active.index < w.scripts.size)
    {below : List CoroutineId} (hstack : w.stack w.active = id :: below) {s : CoroutineState}
    {b : Option CoroutineBody} (hs : s = .suspended ∧ b.isSome ∨ s = .dead ∧ b = none)
    (p : Processor) : (w.stopping id s b p).Orderly := by
  have hsize : (w.stopping id s b p).scripts.size = w.scripts.size := Array.size_modify
  obtain ⟨c, hc, ho⟩ := hw.stacked (i := w.active) (hstack ▸ List.mem_cons_self)
  have hnodup := hw.once w.active
  rw [hstack, List.nodup_cons] at hnodup
  have hget : ∀ id', (w.stopping id s b p).heap.coroutine? id' =
      if id' = id then some { c with state := s, body := b } else w.heap.coroutine? id' := by
    intro id'
    unfold World.stopping
    rw [coroutine?_modify, hc]
    rfl
  have hstack' : ∀ i, (w.stopping id s b p).stack i = if i = w.active then below else w.stack i := by
    intro i
    rw [stack_stopping hlt]
    split
    · next hi =>
      subst hi
      rw [hstack]
      rfl
    · rfl
  have hstopped : s ≠ .running := by
    rcases hs with ⟨rfl, -⟩ | ⟨rfl, -⟩ <;> simp
  constructor
  · intro id' c' hc'
    rw [hget] at hc'
    rw [hsize]
    split at hc'
    · cases hc'
      change c.owner.index < _
      exact hw.owned hc
    · exact hw.owned hc'
  · intro id' c' hc'
    rw [hget] at hc'
    rw [hstack']
    split at hc'
    · next hid =>
      cases hc'
      subst hid
      simp [ho, hstopped, hnodup.1]
    · next hid =>
      rw [hw.running hc']
      split
      · next hown =>
        rw [hown, hstack]
        simp [hid]
      · rfl
  · intro i id' hid'
    rw [hstack'] at hid'
    rw [hget]
    -- what is still on the stack was there before, and is another coroutine
    have hmem : id' ∈ w.stack i ∧ id' ≠ id := by
      split at hid'
      · next hi =>
        subst hi
        rw [hstack]
        refine ⟨List.mem_cons_of_mem _ hid', ?_⟩
        rintro rfl
        exact hnodup.1 hid'
      · next hi =>
        refine ⟨hid', ?_⟩
        rintro rfl
        obtain ⟨c', hc', ho'⟩ := hw.stacked hid'
        rw [hc] at hc'
        cases hc'
        exact hi (ho'.symm.trans ho)
    rw [if_neg hmem.2]
    exact hw.stacked hmem.1
  · intro i
    rw [hstack']
    split
    · exact hnodup.2
    · exact hw.once i
  · intro id' c' hc'
    rw [hget] at hc'
    split at hc'
    · cases hc'
      rcases hs with ⟨rfl, hb⟩ | ⟨rfl, hb⟩
      · simp [hb]
      · simp [hb]
    · exact hw.body hc'

end Resumption

end World

end LuaMachine
