import LuaMachine.Proofs.Machine.Running

/-!
# Calls are transparent

A call from the host leaves the processor as it was, however it returns: with a value, or with any
error. The machine re-enters itself for operators, native functions, coroutines and scripts, so this
is shown for all the ways into the machine at once, by induction on the depth of re-entry
(`Reentry.calm_atDepth`).

Main statement: `Reentry.call_transparent`.
-/

namespace LuaMachine

open Exec

namespace Reentry

variable {r : Reentry}

/-! ## Calls -/

/-- A reserved level of nesting is given back. -/
theorem keeps_nested {α : Type} {e : Exec α} {p : Processor} {w : World}
    (he : ∀ w₁ : World, w₁.heap = w.heap → w₁.active = w.active →
      e.Keeps w₁ (w₁.processor = p) (fun _ w' => w'.processor = p) (fun w' => w'.processor = p)) :
    (nested e).Keeps w (w.processor = p) (fun _ w' => w'.processor = p)
      (fun w' => w'.processor = p) := by
  have hshift : ∀ (i : Nat) (f : Nat → Nat) (w : World), w.Follows { w with
      scripts := w.scripts.modify i fun s => { s with nesting := f s.nesting } } :=
    fun i f w => World.follows_modifyScript fun s _ => .refl _
  unfold nested
  refine .script_bind ?_
  dsimp only
  split
  · exact .of_error rfl (.refl w) id
  · refine .get_bind (.modify_bind (hshift _ _ w) ?_)
    refine Keeps.andFinally (he _ ?_ ?_) (hshift _ (· - 1)) (fun _ _ h => h) fun _ h => h
    · rfl
    · rfl

theorem calm_nested {α : Type} {e : Exec α} (he : Exec.Calm e) : Exec.Calm (nested e) :=
  fun p _ => keeps_nested fun w₁ _ _ => he p w₁

/-- A function that was entered has left the stacks as they were, or above what they were. -/
theorem keeps_enterFunction (hr : r.Calm) (f : Value) (args : List Value) (p : Processor)
    (w : World) :
    (r.enterFunction p.frames.size f args).Keeps w (w.processor = p)
      (fun exit w' => w'.Stepped p (some exit)) (fun w' => p.Under w'.processor) := by
  have hunder : ∀ {w' : World}, w'.processor = p → p.Under w'.processor := by
    rintro w' rfl
    exact .refl _
  unfold enterFunction
  refine ((calm_resolveCallable f args p w).mono id (fun _ _ _ => id) fun _ _ => hunder).bind
    fun call w₁ hw₁ => ?_
  obtain ⟨f, args⟩ := call
  dsimp only
  split
  · next id =>
    have henter := (keeps_enterClosure (w := w₁) id args none none).frame (w₁.processor = p)
    have hrunning : (enterClosure id args none none).Keeps w₁ (w₁.processor = p)
        (fun _ w₂ => w₂.Running p) (fun w₂ => p.Under w₂.processor) := by
      refine Keeps.closed (henter.mono (fun h => h) ?_ ?_)
      · rintro - - w₂ ⟨⟨c, hruns, hat⟩, rfl⟩
        exact ⟨_, 0, c.entry, .base, hruns, hat⟩
      · rintro - w₂ ⟨hp, rfl⟩
        exact hunder hp
    exact hrunning.bind fun _ w₂ _ => keeps_run hr p stepLimit w₂
  · next c =>
    split
    · exact .of_ok rfl (.refl w₁) .inl
    · refine ((hr.invoke c args none p w₁).mono id (fun _ _ _ => id) fun _ _ => hunder).bind
        fun v w₂ _ => .of_ok rfl (.refl w₂) fun hp => ?_
      change { w₂.processor with ip := p.ip } = p
      rw [hp]
  · exact .of_error rfl (.refl w₁) hunder

/-- A call leaves the processor as it was. -/
theorem calm_callFunction (hr : r.Calm) (f : Value) (args : List Value) :
    Exec.Calm (r.callFunction f args) := by
  refine calm_nested fun p w => .get_bind ?_
  have henter := ((keeps_enterFunction hr f (Value.flatten args) w.processor w).frame
    (w.processor = p)).mono (fun h => ⟨rfl, h⟩) (fun _ _ _ => id) fun _ _ => id
  refine Keeps.andSettle (henter.bind
    (R := fun _ w' => { w'.processor with ip := w.processor.ip } = w.processor ∧ w.processor = p)
    fun exit w' _ => ?_) ?_ ?_ ?_ ?_
  · cases exit with
    | returned v => exact .of_ok rfl (.refl w') id
    | yielded v => exact .of_error rfl (.refl w') fun h => ⟨h.1.under, h.2⟩
  · exact fun _ => World.follows_of_eq rfl
  · exact fun _ => World.follows_of_eq rfl
  · rintro v w' ⟨hw', hp⟩
    exact hw'.trans hp
  · rintro w' ⟨hw', hp⟩
    exact hw'.unwind.trans hp

/-! ## Coroutines -/

/-- A coroutine that goes on on a processor from which it can be resumed suspends so that it can be
resumed again, if it does. -/
theorem keeps_continueBody (hr : r.Calm) (start : Option Value) (args : List Value) {c : Coroutine}
    (w : World) (ho : c.owner = w.active)
    (hb : c.body = some { processor := w.processor, function := start }) :
    (r.continueBody start args).Keeps w (c.Resumable w)
      (fun exit w' => w'.Stepped .ofCoroutine (some exit)) (fun _ => True) := by
  cases start with
  | some f =>
    have henter := keeps_enterFunction hr f (Value.flatten args) .ofCoroutine w
    exact henter.mono (fun hc => hc.fresh _ f hb) (fun _ _ _ => id) fun _ _ _ => trivial
  | none =>
    have hpush : (push (.ofList (Value.flatten args))).Keeps w (c.Resumable w)
        (fun _ w' => w'.Running .ofCoroutine ∨ w'.Adrift) (fun _ => True) := by
      refine .of_ok rfl (World.follows_of_eq rfl) fun hc => ?_
      have hsuspended := hc.suspended w.processor hb
      rw [ho] at hsuspended
      have hfollows : w.Follows { w with processor := { w.processor with
          values := w.processor.values.push (.ofList (Value.flatten args)) } } :=
        World.follows_of_eq rfl
      exact World.Suspended.push hsuspended hfollows.later rfl
    refine hpush.bind fun _ w' _ => ?_
    have hrunning := keeps_run hr .ofCoroutine stepLimit w'
    refine Keeps.or (hrunning.mono id (fun _ _ _ => id) fun _ _ _ => trivial) ?_
    exact (keeps_run_adrift hr .ofCoroutine stepLimit w').mono id (fun _ _ _ => False.elim) fun _ _ => id

/-- The body of a coroutine runs on its own processor, and that of the caller comes back; a body that
suspends can be resumed again. -/
theorem keeps_runBody (hr : r.Calm) (id : CoroutineId) {body : CoroutineBody} (args : List Value)
    {c : Coroutine} (w : World) (ho : c.owner = w.active) (hb : c.body = some body) :
    (r.runBody id body args).Keeps w True
      (fun result w' => w'.processor = w.processor ∧ (c.Resumable w →
        ∀ v, result.1 = .ok (.yielded v) → (w'.on w'.active result.2).Suspended .ofCoroutine))
      (fun w' => w'.processor = w.processor) := by
  -- the world in which the coroutine goes on, and the one after it
  let inside : World := { w with
    processor := body.processor
    scripts := w.scripts.modify w.active.index fun s => { s with running := id :: s.running } }
  let after (w' : World) : World := { w' with
    scripts := w'.scripts.modify w'.active.index fun s => { s with running := s.running.tail } }
  have hinside : w.Follows inside := by
    have hmodify : w.Follows { w with scripts := w.scripts.modify w.active.index fun s =>
        { s with running := id :: s.running } } := World.follows_modifyScript fun _ _ => .refl _
    exact hmodify.trans (World.follows_of_eq rfl)
  have hafter : ∀ w' : World, w'.Follows (after w') :=
    fun _ => World.follows_modifyScript fun _ _ => .refl _
  have hback : ∀ w' : World, w'.Follows { w' with processor := w.processor } :=
    fun _ => World.follows_of_eq rfl
  have hcontinue := keeps_continueBody hr body.function args (c := c) inside ho hb
  have hstarted : (andFinally (r.continueBody body.function args) after).Keeps inside
      (c.Resumable w) (fun exit w' => ∀ v, exit = .yielded v → w'.Suspended .ofCoroutine)
      (fun _ => True) := by
    have hcontinue := hcontinue.mono (fun h : c.Resumable w => h.mono hinside.later)
      (fun _ _ _ h => h) fun _ _ h => h
    refine hcontinue.andFinally hafter ?_ fun _ h => h
    rintro exit w' hstepped v rfl
    exact hstepped.mono (hafter w').later rfl
  constructor
  · intro result w' hok
    unfold runBody at hok
    dsimp only at hok
    split at hok
    · next exit w₁ h =>
      cases hok
      obtain ⟨hw₁, hq⟩ := hstarted.ok h
      refine ⟨(hinside.trans hw₁).trans (hback w₁), fun hc hw _ => ⟨rfl, fun hp v hv => ?_⟩⟩
      exact hq hc (hinside.closed (hw₁.later.genuine hc) hw) hp v (Except.ok.inj hv)
    · next e w₁ h =>
      cases hok
      refine ⟨(hinside.trans (hstarted.error h).1).trans (hback w₁), fun _ _ _ => ⟨rfl, ?_⟩⟩
      rintro - v hv
      cases hv
    · cases hok
  · intro e w' herr
    unfold runBody at herr
    dsimp only at herr
    split at herr
    · cases herr
    · cases herr
    · next hnot _ =>
      cases herr
      exact absurd rfl (hnot e)

theorem calm_takeBody (id : CoroutineId) : Exec.Calm (setBody id none) :=
  calm_modify (fun w => (World.Follows.refl w).modifyCoroutine (fun _ _ => rfl)
    fun _ _ _ _ _ _ => .of_none rfl) fun _ => rfl

theorem calm_transition (id : CoroutineId) (state : CoroutineState) :
    Exec.Calm (transition id state) := by
  intro p w
  unfold transition
  refine .heap_bind ?_
  cases hc : w.heap.coroutine? id with
  | none => exact calm_fail _ p w
  | some c =>
    unfold Coroutine.become
    dsimp only
    split
    · have hsame : ∀ {c'}, w.heap.coroutine? id = some c' → c = c' :=
        fun hc' => Option.some_inj.1 (hc.symm.trans hc')
      refine .of_ok rfl ((World.Follows.refl w).modifyCoroutine ?_ ?_) fun hp => hp
      · rintro c' hc'
        rw [← hsame hc']
      · rintro c' hc' - - - hr
        obtain rfl := hsame hc'
        exact hr.of_eq rfl rfl
    · exact .of_error rfl (.refl w) fun hp => hp

/-- A coroutine of the running script gets a body from which it can be resumed. -/
theorem follows_giveBody {w w' : World} (hw : w.Follows w') {id : CoroutineId} {c : Coroutine}
    (hc : w.heap.coroutine? id = some c) (ho : c.owner = w.active) {p : Processor}
    (hp : w'.Genuine → w.Closed → c.Resumable w → (w'.on w'.active p).Suspended .ofCoroutine) :
    w.Follows { w' with heap := w'.heap.modifyCoroutine id fun c =>
      { c with body := some { processor := p, function := none } } } := by
  refine hw.modifyCoroutine (fun _ _ => rfl) fun c' hc' hg hclosed hr _ => ⟨?_, ?_⟩
  · intro p' f h
    cases h
  · intro p' h
    cases h
    have howner : c'.owner = w'.active := by
      obtain ⟨c'', hc'', ho''⟩ := hw.later.owners hc
      obtain rfl : c' = c'' := Option.some_inj.1 (hc'.symm.trans hc'')
      exact (ho''.trans ho).trans hw.later.active.symm
    exact howner ▸ hp hg hclosed (hr _ c hc)

/-- What becomes of a coroutine that stopped. -/
def finishBody (id : CoroutineId) (result : Except ScriptError Exit × Processor) : Exec Value :=
  match result.1 with
  | .ok (.yielded v) => do
    transition id .suspended
    setBody id (some { processor := result.2, function := none })
    return v
  | .ok (.returned v) => do
    transition id .dead
    return v
  | .error e => do
    transition id .dead
    failWith e

theorem resumeBody_eq (id : CoroutineId) (body : CoroutineBody) (args : List Value) :
    r.resumeBody id body args =
      (do setBody id none; transition id .running; r.runBody id body args) >>= finishBody id := by
  unfold resumeBody
  simp only [bind_assoc]
  rfl

/-- A coroutine of the running script leaves the processor of the caller alone. -/
theorem keeps_resumeBody (hr : r.Calm) {id : CoroutineId} {c : Coroutine} {body : CoroutineBody}
    (args : List Value) {w : World} (hc : w.heap.coroutine? id = some c)
    (ho : c.owner = w.active) (hb : c.body = some body) :
    (r.resumeBody id body args).Keeps w True (fun _ w' => w'.processor = w.processor)
      (fun w' => w'.processor = w.processor) := by
  have hrun : (do setBody id none; transition id .running; r.runBody id body args :
      Exec (Except ScriptError Exit × Processor)).Keeps w True
      (fun result w' => w'.processor = w.processor ∧ (c.Resumable w →
        ∀ v, result.1 = .ok (.yielded v) → (w'.on w'.active result.2).Suspended .ofCoroutine))
      (fun w' => w'.processor = w.processor) := by
    refine (((calm_takeBody id) w.processor w).mono (fun _ => rfl) (fun _ _ _ h => h)
      fun _ _ h => h).bind fun _ w₁ hw₁ => ?_
    refine (calm_transition id .running w.processor w₁).bind fun _ w₂ hw₂ => ?_
    have hw := (hw₁.trans hw₂).later
    refine (keeps_runBody hr id args w₂ (ho.trans hw.active.symm) hb).mono (fun _ => trivial) ?_ ?_
    · rintro hp result w₃ ⟨hp', hs⟩
      exact ⟨hp'.trans hp, fun h => hs (h.mono hw)⟩
    · exact fun hp w₃ hp' => hp'.trans hp
  rw [resumeBody_eq]
  refine hrun.bind_after fun result w₃ hw₃ hq => ?_
  obtain ⟨outcome, p⟩ := result
  have hlast : ∀ {α : Type} {x : Exec α}, Exec.Calm x → Keeps (fun _ => x w₃) w True
      (fun _ w' => w'.processor = w.processor) (fun w' => w'.processor = w.processor) :=
    fun h => (h w.processor w₃).after hw₃ fun hc hw hp => (hq hc hw hp).1
  rcases outcome with e | v | v
  · exact hlast ((calm_transition id .dead).bind fun _ => calm_failWith e)
  · exact hlast ((calm_transition id .dead).bind fun _ => calm_pure v)
  · have hsuspended : Keeps (fun _ => transition id .suspended w₃) w True
        (fun _ w' => w'.processor = w.processor ∧ (c.Resumable w →
          (w'.on w'.active p).Suspended .ofCoroutine))
        (fun w' => w'.processor = w.processor) := by
      have h := ((calm_transition id .suspended w.processor w₃).later.frame (c.Resumable w →
        (w₃.on w₃.active p).Suspended .ofCoroutine)).after hw₃ fun hc hw hp =>
          ⟨(hq hc hw hp).1, fun hcr => (hq hc hw hp).2 hcr v rfl⟩
      refine h.mono (fun h => h) ?_ fun _ _ h => h.1.2
      rintro - - w₄ ⟨⟨hw₄, hp⟩, hs⟩
      exact ⟨hp, fun hcr => hw₄.active ▸ (hs hcr).mono (hw₄.on _ p) rfl⟩
    refine hsuspended.bind_after (f := fun _ => do
      setBody id (some { processor := p, function := none })
      return v) fun _ w₄ hw₄ hq => ?_
    have hgive := follows_giveBody hw₄ hc ho fun hg hw hcr => (hq hg hw trivial).2 hcr
    constructor
    · intro a w' hok
      cases hok
      exact ⟨hgive, fun hg hw _ => (hq hg hw trivial).1⟩
    · intro e w' herr
      cases herr

theorem calm_resumeCoroutine (hr : r.Calm) (id : CoroutineId) (args : List Value) :
    Exec.Calm (r.resumeCoroutine id args) := by
  intro p w
  unfold resumeCoroutine
  refine .get_bind ?_
  cases hc : w.heap.coroutine? id with
  | none => exact calm_fail _ p w
  | some c =>
    dsimp only
    split
    · exact .of_error rfl (.refl w) fun hp => hp
    · next howner =>
      have howner : c.owner = w.active := by simpa using howner
      cases c.state with
      | dead => exact calm_fail _ p w
      | main => exact calm_fail _ p w
      | running => exact calm_fail _ p w
      | notStarted | suspended =>
        refine keeps_nested fun w₁ hheap hactive => ?_
        cases hb : c.body with
        | none => exact calm_fail _ p w₁
        | some body =>
          have hresume := keeps_resumeBody hr args (hheap ▸ hc) (howner.trans hactive.symm) hb
          exact hresume.mono (fun _ => trivial) (fun hp _ _ h => h.trans hp) fun hp _ h => h.trans hp

/-! ## Scripts -/

/-- The main processor of a script, by its place. -/
def mainOf (w : World) (i : Nat) : Option Processor := w.scripts[i]?.map (·.processor)

theorem mainOf_modify (w : World) (i j : Nat) {f : Script → Script}
    (hf : ∀ s : Script, (f s).processor = s.processor) :
    mainOf { w with scripts := w.scripts.modify j f } i = mainOf w i := by
  unfold mainOf
  rw [Array.getElem?_modify]
  split
  · rw [Option.map_map]
    exact congrArg (Option.map · _) (funext hf)
  · rfl

/-- The outer processor and the main processor of the running script are as they were. -/
def Unmoved (w : World) (p : Processor) (w' : World) : Prop :=
  w'.processor = p ∧ mainOf w' w.active.index = mainOf w w.active.index

theorem keeps_acquire (p : Processor) (w : World) :
    acquire.Keeps w (w.processor = p) (fun _ w' => Unmoved w p w') (fun w' => Unmoved w p w') := by
  unfold acquire
  refine .script_bind (.get_bind ?_)
  dsimp only
  split
  · refine .of_ok rfl (World.follows_modifyScript fun _ _ => .refl _) fun hp => ⟨hp, ?_⟩
    exact mainOf_modify w _ _ fun _ => rfl
  · split
    · exact .of_error rfl (.refl w) fun hp => ⟨hp, rfl⟩
    · split
      · exact .of_error rfl (.refl w) fun hp => ⟨hp, rfl⟩
      · constructor
        · intro a w' h
          cases h
        · intro e w' h
          cases h

/-- What runs on the main processor of a script leaves the outer processor alone, and the main one
as well if it is calm. -/
theorem keeps_onMainProcessor {α : Type} (token : Nat) {e : Exec α} (he : Exec.Calm e)
    (p : Processor) (w : World) :
    (onMainProcessor token e).Keeps w (w.processor = p) (fun _ w' => Unmoved w p w')
      (fun w' => Unmoved w p w') := by
  -- the world in which the computation runs, and the one that comes after it
  let inside : World :=
    { w with processor := (w.scripts.getD w.active.index default).processor, token }
  let after (w' : World) : World :=
    { w' with
      scripts := w'.scripts.modify w.active.index fun s =>
        { s with processor := w'.processor, owner := none, counters := s.counters.countExecution }
      processor := w.processor
      token := w.token }
  have hinside : w.Later inside := (World.Later.refl w).elsewhere _ token
  have hafter : ∀ w' : World, w'.Later (after w') := by
    intro w'
    have hscripts : w'.Follows { w' with scripts := w'.scripts.modify w.active.index fun s =>
        { s with processor := w'.processor, owner := none, counters := s.counters.countExecution } } :=
      World.follows_modifyScript fun _ _ => .refl _
    exact hscripts.later.elsewhere w.processor w.token
  have hback : ∀ w' : World, inside.Follows w' → w.Follows (after w') := by
    intro w' hw'
    have hl := hafter w'
    refine ⟨(hinside.trans hw'.later).trans hl, rfl, hw'.cancelled, fun ha ho i c hi => ?_,
      fun hg hc i c hi => ?_, fun hg hc hr i c hi => ?_⟩
    · exact hl.size ▸ hw'.owned ha ho i c hi
    · exact hl.hasHeader (hw'.closed (hl.genuine hg) hc i c hi)
    · have hr' := hw'.resumable (hl.genuine hg) hc fun j c hj => (hr j c hj).mono hinside
      exact (hr' i c hi).mono hl
  have hunmoved : ∀ w' : World, inside.Later w' → w'.processor = inside.processor →
      w.processor = p → Unmoved w p (after w') := by
    intro w' hw' hp' hp
    refine ⟨hp, ?_⟩
    unfold mainOf
    simp only [after, Array.getElem?_modify, if_true, hp', Option.map_map]
    cases hs : w.scripts[w.active.index]? with
    | none =>
      have hs' : w'.scripts[w.active.index]? = none := by
        rw [Array.getElem?_eq_none_iff] at hs ⊢
        exact hw'.size ▸ hs
      rw [hs']
      rfl
    | some s =>
      obtain ⟨s', hs'⟩ := hw'.after hs
      simp [hs', inside, hs]
  have hrun := he inside.processor inside
  constructor
  · intro a w'' hok
    unfold onMainProcessor andFinally at hok
    dsimp only at hok
    split at hok
    · next a' w' h =>
      cases hok
      obtain ⟨hw', hq⟩ := hrun.ok h
      refine ⟨hback w' hw', fun hg hc hp => ?_⟩
      exact hunmoved w' hw'.later (hq ((hafter w').genuine hg) hc rfl) hp
    · cases hok
  · intro err w'' herr
    unfold onMainProcessor andFinally at herr
    dsimp only at herr
    split at herr
    · cases herr
    · next w' h =>
      cases herr
      obtain ⟨hw', hq⟩ := hrun.error h
      refine ⟨hback w' hw', fun hg hc hp => ?_⟩
      exact hunmoved w' hw'.later (hq ((hafter w').genuine hg) hc rfl) hp

/-- A call from the host leaves the script as idle as it was. -/
theorem keeps_callScript (hr : r.Calm) (token : Nat) (f : Value) (args : List Value)
    (p : Processor) (w : World) :
    (r.callScript token f args).Keeps w (w.processor = p) (fun _ w' => Unmoved w p w')
      (fun w' => Unmoved w p w') := by
  have hended : ∀ w' : World, w'.Follows { w' with
      scripts := w'.scripts.modify w'.active.index fun s =>
        { s with debug := s.debug.executionEnded } } :=
    fun w' => World.follows_modifyScript fun _ _ => .refl _
  have hunmoved : ∀ w' : World, Unmoved w p w' → Unmoved w p { w' with
      scripts := w'.scripts.modify w'.active.index fun s =>
        { s with debug := s.debug.executionEnded } } := by
    rintro w' ⟨hp, hmain⟩
    refine ⟨hp, Eq.trans ?_ hmain⟩
    exact mainOf_modify w' _ _ fun _ => rfl
  unfold callScript
  refine (keeps_acquire p w).bind fun _ w₁ hw₁ => ?_
  have hmain := (keeps_onMainProcessor token (calm_callFunction hr f args) p w₁).frame
    (mainOf w₁ w.active.index = mainOf w w.active.index)
  refine Keeps.andSettle (hmain.mono (fun h => h) ?_ ?_) hended hended (fun _ => hunmoved) hunmoved
  · rintro - v w' ⟨⟨hp, h₂⟩, h₁⟩
    rw [hw₁.later.active] at h₂
    exact ⟨hp, h₂.trans h₁⟩
  · rintro - w' ⟨⟨hp, h₂⟩, h₁⟩
    rw [hw₁.later.active] at h₂
    exact ⟨hp, h₂.trans h₁⟩

theorem calm_callScript (hr : r.Calm) (token : Nat) (f : Value) (args : List Value) :
    Exec.Calm (r.callScript token f args) := by
  intro p w
  refine (keeps_callScript hr token f args p w).mono id ?_ ?_
  · exact fun _ _ _ h => h.1
  · exact fun _ _ h => h.1

/-- What is done for another script comes back to the one that is running. -/
theorem keeps_within {α : Type} {e : Exec α} (he : Exec.Calm e) {id : ScriptId} (p : Processor)
    {w : World} (hid : id.index < w.scripts.size) :
    (within id e).Keeps w (w.processor = p) (fun _ w' => w'.processor = p)
      (fun w' => w'.processor = p) := by
  have hback : ∀ w' : World, World.Follows { w with active := id } w' →
      w.Follows { w' with active := w.active } := by
    intro w' hw'
    exact ⟨⟨rfl, hw'.later.size, hw'.later.code, hw'.later.owners⟩, hw'.token, hw'.cancelled,
      fun _ ho => hw'.owned hid ho, fun hc hw => hw'.closed hc hw, fun hc hw hr i c hi =>
        (hw'.resumable hc hw (fun j c hj => (hr j c hj).of_active id) i c hi).of_active w.active⟩
  have hinside := he p { w with active := id }
  constructor
  · intro a w'' hok
    unfold within andFinally at hok
    dsimp only at hok
    split at hok
    · next w' h =>
      cases hok
      obtain ⟨hw', hq⟩ := hinside.ok h
      exact ⟨hback w' hw', fun hc hw hp => hq hc hw hp⟩
    · cases hok
  · intro err w'' herr
    unfold within andFinally at herr
    dsimp only at herr
    split at herr
    · cases herr
    · next w' h =>
      cases herr
      obtain ⟨hw', hq⟩ := hinside.error h
      exact ⟨hback w' hw', fun hc hw hp => hq hc hw hp⟩

theorem calm_enterScript (hr : r.Calm) (id : ScriptId) (code : String) :
    Exec.Calm (r.enterScript id code) := by
  have hinside : Exec.Calm (do
      let f ← loadString code none none
      r.callScript (← newToken) f []) := by
    refine (calm_loadString code none none).bind fun f => aside_newToken.calm.bind fun token => ?_
    exact calm_callScript hr token f []
  intro p w
  unfold enterScript
  refine .get_bind ?_
  dsimp only
  split
  · constructor
    · intro a w' h
      cases h
    · intro e w' h
      cases h
  · next hid => exact keeps_within hinside p (Nat.lt_of_not_le hid)

/-! ## The machine at any depth -/

/-- All the ways into the machine leave the processor as it was. -/
theorem calm_atDepth (n : Nat) : (atDepth n).Calm := by
  induction n with
  | zero =>
    have hstop : Exec.Calm (throw .exhausted : Exec Value) := (aside_throw .exhausted).calm
    exact ⟨fun _ _ => hstop, fun _ _ => hstop, fun _ _ => hstop⟩
  | succ n ih =>
    refine ⟨?_, ?_, ?_⟩
    · exact fun f args => calm_callFunction ih f args
    · exact fun id args => calm_resumeCoroutine ih id args
    · exact fun id code => calm_enterScript ih id code

end Reentry

/-- A computation returns, with a value or with an error, and leaves a world. -/
def Exec.Returns {α : Type} (e : Exec α) (w w' : World) : Prop :=
  (∃ a, e w = .ok a w') ∨ ∃ err, e w = .error (.error err) w'

theorem Exec.Keeps.returns {α : Type} {e : Exec α} {w w' : World} {P Q : World → Prop}
    (h : e.Keeps w (P w) (fun _ => Q) Q) (hr : e.Returns w w') (hc : w'.Genuine) (hw : w.Closed)
    (hp : P w) : Q w' ∧ w'.Closed := by
  rcases hr with ⟨a, ha⟩ | ⟨err, herr⟩
  · obtain ⟨hf, hq⟩ := h.ok ha
    exact ⟨hq hc hw hp, hf.closed hc hw⟩
  · obtain ⟨hf, hq⟩ := h.error herr
    exact ⟨hq hc hw hp, hf.closed hc hw⟩

namespace Reentry

/-- Calls are transparent. However a call returns, the processor is as it was before, if all code,
that loaded on the way included, comes from the compiler. A script that is called from the host has
its main processor as it was before, so one that is idle stays idle. That closures are made of
functions is kept, so it holds for the next call as well. -/
theorem call_transparent (n : Nat) (f : Value) (args : List Value) {w w' : World}
    (hclosed : w.Closed) (hcompiled : w'.Compiled) :
    (((atDepth n).callFunction f args).Returns w w' →
        w'.processor = w.processor ∧ w'.Closed) ∧
      ∀ token, ((atDepth n).callScript token f args).Returns w w' →
        w'.processor = w.processor ∧ w'.Closed ∧
          ∀ s s' : Script, w.scripts[w.active.index]? = some s →
            w'.scripts[w.active.index]? = some s' →
            s'.processor = s.processor ∧ s'.processor.isIdle = s.processor.isIdle := by
  constructor
  · intro hr
    have hcalm := calm_callFunction (calm_atDepth n) f args w.processor w
    exact hcalm.returns (P := fun w₁ => w₁.processor = w.processor) hr hcompiled.genuine hclosed rfl
  · intro token hr
    have hkeeps := keeps_callScript (calm_atDepth n) token f args w.processor w
    obtain ⟨⟨hp, hmain⟩, hclosed'⟩ := hkeeps.returns (P := fun w₁ => w₁.processor = w.processor)
      hr hcompiled.genuine hclosed rfl
    refine ⟨hp, hclosed', fun s s' hs hs' => ?_⟩
    unfold mainOf at hmain
    rw [hs, hs'] at hmain
    have hmain : s'.processor = s.processor := Option.some.inj hmain
    exact ⟨hmain, by rw [hmain]⟩

/-- A script of one function, on a processor that is not idle. -/
def soleFunction (entry : Nat) (code : Segment) : World :=
  { heap := { closures := #[⟨⟨0⟩, entry, #[]⟩] }
    scripts := #[{ options := {}, globals := ⟨0⟩, registry := ⟨1⟩, main := ⟨0⟩, code }]
    processor := { values := #[.boolean true], ip := 7 } }

/-- What is checked of a script of one function by calling it: the call fails, and loads nothing. -/
def failsAlone (source : String) : Bool :=
  match Segment.empty.compile { chunk := "c", source := 0 } source with
  | .ok (chunk, code) =>
    match (atDepth 1).callFunction (.function ⟨0⟩) [] (soleFunction chunk.entry code) with
    | .error (.error _) w => w.scripts[0]?.map (·.code.size) == some code.size
    | _ => false
  | .error _ => false

theorem call_transparent_failing : ∃ w w' : World, w.Closed ∧ w'.Compiled ∧
    ((atDepth 1).callFunction (.function ⟨0⟩) []).Returns w w' ∧
      w.processor.values.size = 1 ∧ w'.processor = w.processor := by
  have hrun : failsAlone "return -nil" = true := by decide +kernel
  unfold failsAlone at hrun
  cases hc : Segment.empty.compile { chunk := "c", source := 0 } "return -nil" with
  | error e =>
    rw [hc] at hrun
    cases hrun
  | ok p =>
    obtain ⟨chunk, code⟩ := p
    simp only [hc] at hrun
    split at hrun
    · next e w' hcall =>
      have hcode : code.Compiled := .compile .empty hc
      have hclosed : (soleFunction chunk.entry code).Closed := by
        intro i c hi s hs
        obtain ⟨hi', rfl⟩ := Array.getElem?_eq_some_iff.1 hi
        obtain rfl : i = 0 := Nat.lt_one_iff.1 hi'
        cases hs
        exact (Segment.hasHeader_compile hc).2
      have hcompiled : w'.Compiled := by
        intro i s' hs'
        have hfollows := (calm_callFunction (calm_atDepth 1) (.function ⟨0⟩) [] default
          (soleFunction chunk.entry code)).error hcall
        obtain ⟨s, hs⟩ := hfollows.1.later.before hs'
        have hgrows := hfollows.1.later.code hs hs'
        obtain ⟨hi, rfl⟩ := Array.getElem?_eq_some_iff.1 hs
        obtain rfl : i = 0 := Nat.lt_one_iff.1 hi
        have hsize : s'.code.size = code.size := by simpa [hs'] using hrun
        rw [hgrows.eq_of_size_le (Nat.le_of_eq hsize)]
        exact hcode
      have hreturns : ((atDepth 1).callFunction (.function ⟨0⟩) []).Returns
          (soleFunction chunk.entry code) w' := .inr ⟨e, hcall⟩
      exact ⟨_, w', hclosed, hcompiled, hreturns, rfl,
        ((call_transparent 1 (.function ⟨0⟩) [] hclosed hcompiled).1 hreturns).1⟩
    · cases hrun

end Reentry

end LuaMachine
