import LuaMachine.Proofs.Cancellation.Propagation

/-!
# Cancelled requests of the host

A request of the host that comes to a safepoint of a cancelled execution, however deep, ends with the
cancellation, and so does everything on the way to the safepoint. Afterwards no coroutine is running:
those that were are dead. Whatever the host does next finds coroutines in order and processors as they
were before.

Main statement: `World.Resting.cancelled_throughout`.
-/

namespace LuaMachine

open Exec

namespace World

variable {w w' u v : World} {q : Request} {n m : Nat} {spot : Spot}
  {chain : List (ScriptId × CoroutineId)}

/-- A safepoint does nothing to coroutines. -/
theorem Continues.of_raises (hv : v.Live) (h : spot.Raises m v u) : v.Continues u := by
  cases h with
  | call hi hheard hraise =>
    have hfirst := Exec.Quiet.continues (Reentry.quiet_hear _ _) hv hheard
    exact hfirst.quiet ((quiet_called _).error hraise)
  | jump hi hheard hjump hraise =>
    have hfirst := Exec.Quiet.continues (Reentry.quiet_hear _ _) hv hheard
    exact hfirst.trans (((Reentry.tidy_atDepth m).step (hfirst.live hv) _ _).error hraise)
  | sleep hraise => exact hv.refl.quiet ((Library.aside_sleep _).error hraise).quiet

/-- The coroutines that run are those whose resumptions are in progress. -/
theorem Reaches.running_iff (h : w.Reaches chain v) (hw : ∀ i, w.stack i = [])
    (hu : v.Continues u) {id : CoroutineId} {c : Coroutine} (hc : u.heap.coroutine? id = some c) :
    c.state = .running ↔ id ∈ chain.map (·.2) := by
  have hstack : ∀ i, u.stack i = chainOf chain i := by
    intro i
    rw [hu.stack, h.stack, hw, List.append_nil]
  constructor
  · intro hrunning
    have hmem := (hu.orderly.running hc).1 hrunning
    rw [hstack] at hmem
    obtain ⟨resumed, hresumed, hid⟩ := List.mem_filterMap.1 hmem
    split at hid
    · cases hid
      exact List.mem_map_of_mem hresumed
    · cases hid
  · intro hmem
    obtain ⟨⟨i, id'⟩, hresumed, rfl⟩ := List.mem_map.1 hmem
    have hmem : id' ∈ u.stack i := by
      rw [hstack]
      exact List.mem_filterMap.2 ⟨(i, id'), hresumed, if_pos rfl⟩
    obtain ⟨c', hc', howner⟩ := hu.orderly.stacked hmem
    obtain rfl : c = c' := Option.some.inj (hc.symm.trans hc')
    exact (hu.orderly.running hc).2 (howner ▸ hmem)

theorem calm_perform (n : Nat) (q : Request) : Exec.Calm ((Reentry.atDepth n).perform q) := by
  have hr := Reentry.calm_atDepth n
  cases q with
  | call f args => exact Reentry.calm_callFunction hr f args
  | resume id args => exact Reentry.calm_resumeCoroutine hr id args
  | enter id code => exact Reentry.calm_enterScript hr id code
  | host token f args => exact Reentry.calm_callScript hr token f args

/-- Cancellation cannot be caught. When a request of the host comes to a safepoint that finds the
execution cancelled, every loop, function, native function and request on the way there ends with the
cancellation, and with nothing done since but giving up. So does the request itself: the coroutines
that were running are dead, the others are as they were, and no coroutine is left on a stack. If all
code comes from the compiler, the outer processor is as it was before, and so is the main processor of
a script that the host called. -/
theorem Resting.cancelled_throughout (hw : w.Resting) (hactive : w.active.index < w.scripts.size)
    (h : Encloses n (.request q) w chain m spot v) (hraise : spot.Raises m v u) :
    (∀ k between w₁ chain₁ chain₂, Encloses n (.request q) w chain₂ k between w₁ →
      Encloses k between w₁ chain₁ m spot v → ∃ w₂, between.Cancelled k w₁ w₂ ∧
        GivesUp (chain₁.map (·.2)) u w₂ ∧ between.Unwound w₁ w₂) ∧
    ∃ w', (Reentry.atDepth n).perform q w = .error (.error .cancelled) w' ∧
      GivesUp (chain.map (·.2)) u w' ∧ Spot.Unwound (.request q) w w' ∧
      (∀ id c, u.heap.coroutine? id = some c → w'.heap.coroutine? id =
        some (if c.state = .running then { c with state := .dead, body := none } else c)) ∧
      w'.Orderly ∧ (∀ i, w'.stack i = []) ∧
      (w.Closed → w'.Compiled → w'.processor = w.processor ∧ ∀ token f args,
        q = .host token f args → Reentry.mainOf w' w.active.index = Reentry.mainOf w w.active.index) := by
  obtain ⟨horderly, hstack⟩ := hw.orderly
  have hlive : w.Live := ⟨horderly, hactive⟩
  constructor
  · intro k between w₁ chain₁ chain₂ hto hfrom
    exact hfrom.cancelled hraise (hto.live hlive)
  · obtain ⟨w', hend, hgives, hunwound⟩ := h.cancelled hraise hlive
    have hend : (Reentry.atDepth n).perform q w = .error (.error .cancelled) w' := hend
    have hreturns : ((Reentry.atDepth n).perform q).Returns w w' := .inr ⟨_, hend⟩
    obtain ⟨horderly', hstack', -⟩ := (hw.coroutines_orderly hactive n q).2.2.1 w' hreturns
    refine ⟨w', hend, hgives, hunwound, ?_, horderly', hstack', ?_⟩
    · intro id c hc
      have hself : Visits m spot v [] v := by
        cases hraise with
        | call => exact .instruction
        | jump => exact .instruction
        | sleep => exact .native
      have hreach := (h.visits hself).reaches hlive
      have hrunning := hreach.running_iff hstack (.of_raises hreach.live hraise) hc
      rw [hgives.coroutines, hc, Option.map_some]
      simp only [hrunning]
    · intro hclosed hcompiled
      constructor
      · exact ((calm_perform n q w.processor w).returns
          (P := fun w₁ => w₁.processor = w.processor) hreturns hcompiled.genuine hclosed rfl).1
      · rintro token f args rfl
        exact ((Reentry.keeps_callScript (Reentry.calm_atDepth n) token f args w.processor w).returns
          (P := fun w₁ => w₁.processor = w.processor) hreturns hcompiled.genuine hclosed rfl).1.2

/-- What is checked of a coroutine that is to protect a call: that it has not started, that its body
is `pcall`, and that there is room for two calls. -/
def startsProtecting (w : World) (id : CoroutineId) : Bool :=
  match w.heap.coroutine? id with
  | some { owner, state := .notStarted
           body := some { processor := p, function := some (.callback ⟨0, .builtin .pcall⟩) } } =>
    let s := w.scripts.getD w.active.index default
    let outer := w.nested.resuming id p
    let s' := outer.scripts.getD outer.active.index default
    let inner := outer.inside ⟨0, .builtin .pcall⟩ none
    let s'' := inner.nested.scripts.getD inner.active.index default
    owner == w.active && s.nesting < s.options.maxNestedCalls && w.active.index < w.scripts.size &&
      p.frames.size < s'.options.callStackLimit && s'.nesting < s'.options.maxNestedCalls &&
      inner.processor.frames.size < s''.options.callStackLimit
  | _ => false

/-- A world whose execution the host has cancelled. -/
def cancelledByHost (w : World) : World := { w with cancelled := #[true], token := 0 }

/-- A script with a coroutine that protects a call, in a cancelled execution. -/
def hasProtector : Bool :=
  match Script.create {} {} with
  | .ok _ w => w.active.index < w.scripts.size &&
    match createCoroutine (.callback ⟨0, .builtin .pcall⟩) w with
    | .ok id w => startsProtecting w.cancelledByHost id
    | .error _ _ => false
  | .error _ _ => false

/-- `sleep` that is called under `pcall` is enclosed by it, and finds the execution cancelled. -/
theorem Live.encloses_protected {w : World} (hw : w.Live)
    (hcancelled : w.cancelled.getD w.token false = true) (hnest : w.MayNest)
    (hdepth : checkDepth w.nested = .ok () w.nested) :
    ∃ v, Encloses 1 (.native (.builtin .pcall) [.callback ⟨1, .builtin .sleep⟩, .ofNat 1] none) w []
        0 (.native (.builtin .sleep) [.ofNat 1] none) v ∧
      Spot.Raises 0 (.native (.builtin .sleep) [.ofNat 1] none) v v := by
  let sleeper : Value := .callback ⟨1, .builtin .sleep⟩
  let v := w.nested.inside ⟨1, .builtin .sleep⟩ none
  have hraise : Spot.Raises 0 (.native (.builtin .sleep) [.ofNat 1] none) v v := by
    have hsafepoint : safepoint v = .error (.error .cancelled) v := if_pos hcancelled
    refine .sleep ?_
    change (safepoint >>= fun _ => pure .void : Exec Value) v = _
    exact bind_error hsafepoint
  have hcall : Encloses 0 (.request (.call sleeper [.ofNat 1])) w ([] ++ [] ++ [])
      0 (.native (.builtin .sleep) [.ofNat 1] none) v :=
    .inward (.call hnest) (.inward (.callback rfl (by simp) hdepth) .here)
  obtain ⟨u, hend, -⟩ := hcall.cancelled hraise hw
  have hend : (Reentry.atDepth 1).call sleeper [.ofNat 1] w = .error (.error .cancelled) u := hend
  have hprotect : ∀ (r : Reentry) (s : Stop) (u : World),
      r.call sleeper [.ofNat 1] w = .error s u → (s = .error .cancelled ∨ s = .exhausted) →
        Native.run r none ⟨[sleeper, .ofNat 1]⟩ (.builtin .pcall) w = .error s u := by
    intro r s u hr hs
    change Exec.protect (r.call sleeper [.ofNat 1]) w = _
    unfold Exec.protect Exec.catchError
    rw [bind_error hr]
    rcases hs with rfl | rfl <;> rfl
  have hasks : Reentry.Asks (Native.run · none ⟨[sleeper, .ofNat 1]⟩ (.builtin .pcall))
      (Reentry.atDepth 1) w (.call sleeper [.ofNat 1]) w := by
    refine ⟨.error .exhausted w, ?_⟩
    have hother := hprotect ((Reentry.atDepth 1).answering (.call sleeper [.ofNat 1]) w
      (.error .exhausted w)) .exhausted w (if_pos ⟨rfl, rfl⟩) (.inr rfl)
    dsimp only
    rw [hother, hprotect _ _ u hend (.inl rfl)]
    simp
  exact ⟨v, .inward (.nativeAsked (f := .builtin .pcall) trivial hasks) hcall, hraise⟩

/-- In a cancelled execution, a coroutine protects a call of `sleep`. -/
theorem Resting.cancelled_throughout_protected : ∃ w w' : World, ∃ id : CoroutineId, w.Resting ∧
    (Reentry.atDepth 1).perform (.resume id [.callback ⟨1, .builtin .sleep⟩, .ofNat 1]) w =
      .error (.error .cancelled) w' ∧
    ∃ c, w'.heap.coroutine? id = some c ∧ c.state = .dead := by
  have hcheck : hasProtector = true := by decide +kernel
  unfold hasProtector at hcheck
  cases hscript : Script.create {} {} with
  | error s w => simp [hscript] at hcheck
  | ok i w₀ =>
    simp only [hscript, Bool.and_eq_true, decide_eq_true_eq] at hcheck
    obtain ⟨hactive₀, hcheck⟩ := hcheck
    have hscripts : w₀.Resting := .script (.empty rfl rfl) hscript
    split at hcheck
    · next id w₁ hcreate =>
      have hw : w₁.cancelledByHost.Resting := .host (.coroutine hscripts hactive₀ hcreate) rfl rfl
      unfold startsProtecting at hcheck
      split at hcheck
      · next owner p hc =>
        simp only [Bool.and_eq_true, decide_eq_true_eq, beq_iff_eq] at hcheck
        obtain ⟨⟨⟨⟨⟨howner, hnest⟩, hactive⟩, hdepth⟩, hnest'⟩, hdepth'⟩ := hcheck
        let w := w₁.cancelledByHost
        let outer := w.nested.resuming id p
        let inner := outer.inside ⟨0, .builtin .pcall⟩ none
        let f : Value := .callback ⟨0, .builtin .pcall⟩
        have hmay : w.MayResume id
            { owner, state := .notStarted, body := some { processor := p, function := some f } } :=
          ⟨hc, howner, .inl rfl, hnest⟩
        have hlive : w.Live := ⟨hw.orderly.1, hactive⟩
        have hstart : Inward 1 (.request (.resume id [.callback ⟨1, .builtin .sleep⟩, .ofNat 1])) w
            [(w.active, id)] 1 (.function 0 f [.callback ⟨1, .builtin .sleep⟩, .ofNat 1]) outer :=
          .start hmay rfl
        have hcallback : Inward 1 (.function 0 f [.callback ⟨1, .builtin .sleep⟩, .ofNat 1]) outer []
            1 (.native (.builtin .pcall) [.callback ⟨1, .builtin .sleep⟩, .ofNat 1] none) inner :=
          .callback (c := ⟨0, .builtin .pcall⟩) rfl (by simp) (checkDepth_eq hdepth)
        have hinner : inner.Live := hcallback.live (hstart.live hlive)
        obtain ⟨v, hcall, hraise⟩ := hinner.encloses_protected rfl hnest' (checkDepth_eq hdepth')
        have hencloses := Encloses.inward hstart (.inward hcallback hcall)
        obtain ⟨-, w', hend, -, -, hdead, -⟩ := cancelled_throughout hw hactive hencloses hraise
        have hreach := (hencloses.visits .native).reaches hlive
        have hmem : id ∈ v.stack w.active := by
          rw [hreach.stack]
          simp [chainOf]
        obtain ⟨c, hc, howner⟩ := hreach.live.orderly.stacked hmem
        have hrunning : c.state = .running := (hreach.live.orderly.running hc).2 (howner ▸ hmem)
        refine ⟨w, w', id, hw, hend, _, hdead id c hc, ?_⟩
        rw [if_pos hrunning]
      · cases hcheck
    · cases hcheck

end World

end LuaMachine
