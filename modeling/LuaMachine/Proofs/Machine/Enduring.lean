import LuaMachine.Proofs.Coroutine.Resumption
import LuaMachine.Script.Session

/-!
# What endures in runs of code

A relation of worlds endures if it holds whenever nothing happens to coroutines, and takes no notice of
what calls in progress keep: processors, coroutines and the books of scripts (`Exec.Enduring`). Whatever
code does, and however it ends, such a relation holds between the world before and the world after
(`Reentry.endures_atDepth`). In particular no script goes away, and what stands for the shared variables
still does (`World.Retains`); only the host replaces the shared variables.
-/

namespace LuaMachine

open Exec

/-- A relation that goes on, holds when nothing happens to coroutines, and is about no more of a world
than its debuggers and its host objects. -/
structure Exec.Enduring (R : World → World → Prop) : Prop where
  trans : ∀ {u v w : World}, R u v → R v w → R u w
  quiet : ∀ {w w' : World}, w.Quiet w' → R w w'
  same : ∀ {w w' : World}, w'.scripts.map (·.debug) = w.scripts.map (·.debug) →
    w'.heap.objects = w.heap.objects → R w w'

namespace Exec.Enduring

variable {R : World → World → Prop} (hR : Enduring R) {α β : Type} {x : Exec α} {w w' : World}

include hR

theorem refl (w : World) : R w w := hR.quiet (.refl w)

/-- One script changes, but not its debugger. -/
theorem of_modify {w w' : World} {i : Nat} {f : Script → Script}
    (hscripts : w'.scripts = w.scripts.modify i f) (hf : ∀ s : Script, (f s).debug = s.debug)
    (hobjects : w'.heap.objects = w.heap.objects) : R w w' := by
  refine hR.same ?_ hobjects
  rw [hscripts]
  refine Array.ext_getElem? fun j => ?_
  rw [Array.getElem?_map, Array.getElem?_map, Array.getElem?_modify]
  split
  · rw [Option.map_map]
    exact congrArg (Option.map · _) (funext hf)
  · rfl

/-! ## Computations -/

theorem ends_quiet (hx : Quiet x) : x.Ends R := hx.mono hR.quiet

theorem ends_pure (a : α) : (pure a : Exec α).Ends R := hR.ends_quiet (quiet_pure a)

theorem ends_fail (f : Fault) : (Exec.fail f : Exec α).Ends R := hR.ends_quiet (quiet_fail f)

theorem ends_throw (s : Stop) : (throw s : Exec α).Ends R := .of_throw hR.refl s

theorem ends_get : (get : Exec World).Ends R := hR.ends_quiet quiet_get

theorem ends_bind {f : α → Exec β} (hx : x.Ends R) (hf : ∀ a, (f a).Ends R) : (x >>= f).Ends R :=
  Ends.bind (R := R) hR.trans hx hf

theorem ends_catchError {f : ScriptError → Exec α} (hx : x.Ends R) (hf : ∀ e, (f e).Ends R) :
    (Exec.catchError x f).Ends R := by
  constructor
  · intro w a w' h
    unfold Exec.catchError at h
    split at h
    · next hok =>
      cases h
      exact hx.ok hok
    · next e w₁ herr => exact hR.trans (hx.error herr) ((hf e).ok h)
    · cases h
  · intro w s w' h
    unfold Exec.catchError at h
    split at h
    · cases h
    · next e w₁ herr => exact hR.trans (hx.error herr) ((hf e).error h)
    · next herr =>
      cases h
      exact hx.error herr

/-- Something is done before a computation and after it. -/
theorem ends_around (hx : x.Ends R) {before : World → World} {after : World → World → World}
    (hbefore : ∀ w : World, R w (before w)) (hafter : ∀ w w' : World, R w' (after w w')) :
    Ends R fun w => Exec.andFinally x (after w) (before w) := by
  constructor
  · intro w a w' h
    unfold Exec.andFinally at h
    split at h
    · next hok =>
      cases h
      exact hR.trans (hR.trans (hbefore w) (hx.ok hok)) (hafter w _)
    · cases h
  · intro w s w' h
    unfold Exec.andFinally at h
    split at h
    · cases h
    · next herr =>
      cases h
      exact hR.trans (hR.trans (hbefore w) (hx.error herr)) (hafter w _)

theorem ends_andFinally (hx : x.Ends R) {after : World → World} (hafter : ∀ w : World, R w (after w)) :
    (Exec.andFinally x after).Ends R :=
  hR.ends_around hx hR.refl fun _ => hafter

theorem ends_andSettle (hx : x.Ends R) {onValue onError : World → World}
    (hvalue : ∀ w : World, R w (onValue w)) (herror : ∀ w : World, R w (onError w)) :
    (Exec.andSettle x onValue onError).Ends R := by
  constructor
  · intro w a w' h
    unfold Exec.andSettle at h
    split at h
    · next hok =>
      cases h
      exact hR.trans (hx.ok hok) (hvalue _)
    · cases h
    · cases h
  · intro w s w' h
    unfold Exec.andSettle at h
    split at h
    · cases h
    · next herr =>
      cases h
      exact hR.trans (hx.error herr) (herror _)
    · next herr =>
      cases h
      exact hx.error herr

theorem ends_within (hx : x.Ends R) (id : ScriptId) : (Exec.within id x).Ends R :=
  hR.ends_around hx (fun _ => hR.same rfl rfl) fun _ _ => hR.same rfl rfl

theorem ends_nested (hx : x.Ends R) : (Exec.nested x).Ends R := by
  unfold Exec.nested
  refine hR.ends_bind (hR.ends_quiet aside_script.quiet) fun s => ?_
  have hlevel : Ends R (do
      let id := (← get).active
      modify fun w => { w with
        scripts := w.scripts.modify id.index fun s => { s with nesting := s.nesting + 1 } }
      Exec.andFinally x fun w => { w with
        scripts := w.scripts.modify id.index fun s => { s with nesting := s.nesting - 1 } }) := by
    refine hR.ends_bind hR.ends_get fun w => hR.ends_bind (.of_change (fun _ => rfl) fun u => ?_) fun _ => ?_
    · exact hR.quiet (.modifyScript u _ (fun _ => rfl) fun _ => .refl _)
    · exact hR.ends_andFinally hx fun u => hR.quiet (.modifyScript u _ (fun _ => rfl) fun _ => .refl _)
  dsimp only
  split
  · exact hR.ends_bind (hR.ends_fail _) fun _ => hlevel
  · exact hlevel

theorem ends_startCoroutine (f : Value) : (startCoroutine f).Ends R :=
  .of_change (fun _ => rfl) fun _ => hR.same rfl rfl

/-- The relation holds whatever the library does. -/
theorem uniform : Uniform fun x _ => x.Ends R where
  aside hx := hR.ends_quiet hx.quiet
  bind := hR.ends_bind
  catchError := hR.ends_catchError
  intruding hx := hR.ends_around hx (fun _ => hR.same rfl rfl) fun _ _ => hR.same rfl rfl
  loadString code env name := hR.ends_quiet (quiet_loadString code env name)
  start := hR.ends_startCoroutine

end Exec.Enduring

/-! ## The machine -/

/-- The ways into a machine keep to a relation. -/
structure Reentry.Endures (R : World → World → Prop) (r : Reentry) : Prop where
  call : ∀ f args, (r.call f args).Ends R
  resume : ∀ id args, (r.resume id args).Ends R
  enter : ∀ id code, (r.enter id code).Ends R

namespace Reentry.Endures

variable {R : World → World → Prop} {r : Reentry} (hr : r.Endures R) (hR : Exec.Enduring R)

include hr hR

theorem alike : Alike (fun x _ => x.Ends R) r r := ⟨hR.uniform, hr.call, hr.resume, hr.enter⟩

theorem pairedQuietly : PairedQuietly (fun x _ => x.Ends R) r r :=
  ⟨(hr.alike hR).toPaired, fun hx => hR.ends_quiet hx⟩

theorem invoke (c : Callback) (args : List Value) (caller : Option Span) :
    (Exec.invoke r c args caller).Ends R := by
  unfold Exec.invoke
  refine hR.ends_bind (hR.ends_quiet quiet_checkDepth) fun _ => hR.ends_bind hR.ends_get fun w => ?_
  refine hR.ends_bind (hR.ends_quiet (quiet_modifyProcessor _)) fun _ => ?_
  exact hR.ends_andSettle ((hr.alike hR).native caller ⟨args⟩ c.native)
    (fun _ => hR.same rfl rfl) fun _ => hR.same rfl rfl

theorem stepCall (argc : Nat) (span : Option Span) : (r.stepCall argc span).Ends R := by
  unfold Reentry.stepCall
  refine hR.ends_bind (hR.ends_quiet (quiet_called argc)) fun call => ?_
  obtain ⟨f, args⟩ := call
  dsimp only
  split
  · refine hR.ends_bind (hR.ends_quiet quiet_address) fun a => ?_
    exact hR.ends_bind (hR.ends_quiet (quiet_enterClosure _ _ _ _)) fun _ => hR.ends_pure _
  · split
    · exact hR.ends_quiet (quiet_suspend args)
    · refine hR.ends_bind (hr.invoke hR _ args span) fun v => ?_
      exact hR.ends_quiet ((quiet_push v).bind fun _ => quiet_advance.bind fun _ => quiet_pure _)
  · exact hR.ends_fail _

theorem step (depth : Nat) (i : Instruction) : (r.step depth i).Ends R := by
  by_cases hcall : ∃ argc, i.op = .call argc
  · obtain ⟨op, span⟩ := i
    obtain ⟨argc, rfl⟩ := hcall
    exact hr.stepCall hR argc span
  · exact (hr.pairedQuietly hR).step depth i (not_exists.1 hcall)

theorem stepThen (depth : Nat) (i : Instruction) {rest : Exec Exit} (hrest : rest.Ends R) :
    (r.stepThen depth i rest).Ends R := by
  have hstep := hr.step hR depth i
  have htrace : ∀ e : ScriptError, (trace e i.span >>= failWith : Exec Exit).Ends R :=
    fun e => hR.ends_quiet ((aside_trace e i.span).bind fun _ => aside_failWith _).quiet
  constructor
  · intro w exit w' h
    unfold Reentry.stepThen at h
    split at h
    · next hok => exact hR.trans (hstep.ok hok) (hrest.ok h)
    · next hok =>
      cases h
      exact hstep.ok hok
    · next e w₁ herr => exact hR.trans (hstep.error herr) ((htrace e).ok h)
    · cases h
  · intro w s w' h
    unfold Reentry.stepThen at h
    split at h
    · next hok => exact hR.trans (hstep.ok hok) (hrest.error h)
    · cases h
    · next e w₁ herr => exact hR.trans (hstep.error herr) ((htrace e).error h)
    · next herr =>
      cases h
      exact hstep.error herr

theorem run (depth fuel : Nat) : (r.run depth fuel).Ends R := by
  induction fuel with
  | zero => exact .of_throw hR.refl .exhausted
  | succ n ih =>
    have hheard : ∀ s i, (hear s i >>= fun _ => r.stepThen depth i (r.run depth n)).Ends R :=
      fun s i => hR.ends_bind (hR.ends_quiet (quiet_hear s i)) fun _ => hr.stepThen hR depth i ih
    refine ends_iff.2 fun w => ?_
    cases hi : (w.scripts.getD w.active.index default).code.instruction? w.processor.ip with
    | none =>
      unfold final
      rw [Reentry.run]
      simp only [hi]
      exact hR.refl w
    | some i =>
      have hall := ends_iff.1 (hheard (w.scripts.getD w.active.index default) i) w
      unfold final at hall ⊢
      rw [run_eq r depth n hi]
      exact hall

theorem enterFunction (depth : Nat) (f : Value) (args : List Value) :
    (r.enterFunction depth f args).Ends R := by
  unfold Reentry.enterFunction
  refine hR.ends_bind (hR.ends_quiet (aside_resolveCallable f args).quiet) fun call => ?_
  obtain ⟨f, args⟩ := call
  dsimp only
  split
  · exact hR.ends_bind (hR.ends_quiet (quiet_enterClosure _ args none none)) fun _ => hr.run hR depth stepLimit
  · split
    · exact hR.ends_pure _
    · exact hR.ends_bind (hr.invoke hR _ args none) fun v => hR.ends_pure _
  · exact hR.ends_fail _

theorem callFunction (f : Value) (args : List Value) : (r.callFunction f args).Ends R := by
  refine hR.ends_nested (hR.ends_bind hR.ends_get fun w => ?_)
  refine hR.ends_andSettle (hR.ends_bind (hr.enterFunction hR _ f _) fun exit => ?_)
    (fun _ => hR.same rfl rfl) fun _ => hR.same rfl rfl
  cases exit with
  | returned v => exact hR.ends_pure v
  | yielded v => exact hR.ends_fail _

theorem continueBody (start : Option Value) (args : List Value) : (r.continueBody start args).Ends R := by
  cases start with
  | some f => exact hr.enterFunction hR 0 f _
  | none => exact hR.ends_bind (hR.ends_quiet (quiet_push _)) fun _ => hr.run hR 0 stepLimit

end Reentry.Endures

namespace Exec.Enduring

variable {R : World → World → Prop} (hR : Enduring R)

include hR

theorem setBody (id : CoroutineId) (body : Option CoroutineBody) : (Reentry.setBody id body).Ends R :=
  .of_change (fun _ => rfl) fun _ => hR.same rfl rfl

theorem transition (id : CoroutineId) (state : CoroutineState) :
    (Reentry.transition id state).Ends R := by
  unfold Reentry.transition
  refine hR.ends_bind (hR.ends_quiet aside_heap.quiet) fun h => ?_
  split
  · exact hR.ends_fail _
  · refine hR.ends_bind (hR.ends_quiet (aside_lift _).quiet) fun c => ?_
    exact .of_change (fun _ => rfl) fun _ => hR.same rfl rfl

end Exec.Enduring

namespace Reentry.Endures

variable {R : World → World → Prop} {r : Reentry} (hr : r.Endures R) (hR : Exec.Enduring R)

include hr hR

/-- The relation also holds if a coroutine breaks down. -/
theorem runBody (id : CoroutineId) (body : CoroutineBody) (args : List Value) :
    (r.runBody id body args).Ends R := by
  have hstarted : Exec.Ends R (do
      modifyScript fun s => { s with running := id :: s.running }
      andFinally (r.continueBody body.function args) fun w =>
        { w with scripts := w.scripts.modify w.active.index fun s =>
          { s with running := s.running.tail } }) := by
    refine hR.ends_bind (.of_change (fun _ => rfl) fun w => ?_) fun _ => ?_
    · exact hR.of_modify (f := fun s => { s with running := id :: s.running }) rfl (fun _ => rfl) rfl
    · exact hR.ends_andFinally (hr.continueBody hR body.function args) fun w =>
        hR.of_modify (f := fun s => { s with running := s.running.tail }) rfl (fun _ => rfl) rfl
  have hback : ∀ (w : World) (p : Processor), R w { w with processor := p } :=
    fun _ _ => hR.same rfl rfl
  constructor
  · intro w result w' h
    unfold Reentry.runBody at h
    dsimp only at h
    split at h
    · next hok =>
      cases h
      exact hR.trans (hback w _) (hR.trans (hstarted.ok hok) (hback _ _))
    · next herr =>
      cases h
      exact hR.trans (hback w _) (hR.trans (hstarted.error herr) (hback _ _))
    · cases h
  · intro w s w' h
    unfold Reentry.runBody at h
    dsimp only at h
    split at h
    · cases h
    · cases h
    · next herr =>
      cases h
      exact hR.trans (hback w _) (hR.trans (hstarted.error herr) (hback _ _))

theorem resumeBody (id : CoroutineId) (body : CoroutineBody) (args : List Value) :
    (r.resumeBody id body args).Ends R := by
  unfold Reentry.resumeBody
  refine hR.ends_bind (hR.setBody id none) fun _ => hR.ends_bind (hR.transition id .running) fun _ => ?_
  refine hR.ends_bind (hr.runBody hR id body args) fun result => ?_
  obtain ⟨outcome, p⟩ := result
  dsimp only
  split
  · refine hR.ends_bind (hR.transition id .suspended) fun _ => ?_
    exact hR.ends_bind (hR.setBody id _) fun _ => hR.ends_pure _
  · exact hR.ends_bind (hR.transition id .dead) fun _ => hR.ends_pure _
  · exact hR.ends_bind (hR.transition id .dead) fun _ => hR.ends_quiet (aside_failWith _).quiet

theorem resumeCoroutine (id : CoroutineId) (args : List Value) : (r.resumeCoroutine id args).Ends R := by
  unfold Reentry.resumeCoroutine
  refine hR.ends_bind hR.ends_get fun w => ?_
  split
  · exact hR.ends_fail _
  · next c _ =>
    extract_lets rest
    have hrest : ∀ u, (rest u).Ends R := by
      intro u
      dsimp only [rest]
      split
      · exact hR.ends_fail _
      · exact hR.ends_fail _
      · exact hR.ends_fail _
      all_goals
        refine hR.ends_nested ?_
        split
        · exact hR.ends_fail _
        · exact hr.resumeBody hR id _ args
    split
    · exact hR.ends_bind (hR.ends_fail _) hrest
    · exact hrest ()

theorem callScript (token : Nat) (f : Value) (args : List Value) :
    (r.callScript token f args).Ends R := by
  have hended : ∀ w : World, R w { w with scripts := w.scripts.modify w.active.index fun s =>
      { s with debug := s.debug.executionEnded } } := fun w =>
    hR.quiet (.modifyScript w _ (fun _ => rfl) fun s => s.debug.heeds_executionEnded)
  unfold Reentry.callScript
  refine hR.ends_bind (hR.ends_quiet Reentry.quiet_acquire) fun _ => ?_
  refine hR.ends_andSettle ?_ hended hended
  exact hR.ends_around (hr.callFunction hR f args) (fun _ => hR.same rfl rfl)
    fun _ w' => hR.of_modify (f := fun s => { s with
      processor := w'.processor, owner := none, counters := s.counters.countExecution })
        rfl (fun _ => rfl) rfl

theorem enterScript (id : ScriptId) (code : String) : (r.enterScript id code).Ends R := by
  have hrest : Exec.Ends R (within id do
      let f ← loadString code none none
      r.callScript (← newToken) f []) := by
    refine hR.ends_within (hR.ends_bind (hR.ends_quiet (quiet_loadString code none none)) fun f => ?_) id
    exact hR.ends_bind (hR.ends_quiet aside_newToken.quiet) fun token => hr.callScript hR token f []
  unfold Reentry.enterScript
  refine hR.ends_bind hR.ends_get fun w => ?_
  dsimp only
  split
  · exact hR.ends_bind (hR.ends_throw _) fun _ => hrest
  · exact hrest

end Reentry.Endures

/-- Whatever is asked of the machine, the relation holds between the world before and the world after. -/
theorem Reentry.endures_atDepth {R : World → World → Prop} (hR : Exec.Enduring R) (n : Nat) :
    (atDepth n).Endures R := by
  induction n with
  | zero => exact ⟨fun _ _ => hR.ends_throw _, fun _ _ => hR.ends_throw _, fun _ _ => hR.ends_throw _⟩
  | succ n ih => exact ⟨ih.callFunction hR, ih.resumeCoroutine hR, ih.enterScript hR⟩

/-! ## Scripts and shared variables -/

/-- No script went away, and what stands for the shared variables still does. -/
structure World.Retains (w w' : World) : Prop where
  size : w.scripts.size ≤ w'.scripts.size
  stores : ∀ {id : ObjectId}, w.heap.object? id = some .store → w'.heap.object? id = some .store

namespace World

variable {w w' w'' : World}

theorem retains_of_eq (hsize : w'.scripts.size = w.scripts.size)
    (hobjects : w'.heap.objects = w.heap.objects) : w.Retains w' := by
  refine ⟨Nat.le_of_eq hsize.symm, fun {id} h => ?_⟩
  unfold Heap.object? at h ⊢
  rw [hobjects]
  exact h

namespace Retains

theorem refl (w : World) : w.Retains w := retains_of_eq rfl rfl

theorem trans (h₁ : w.Retains w') (h₂ : w'.Retains w'') : w.Retains w'' :=
  ⟨Nat.le_trans h₁.size h₂.size, fun h => h₂.stores (h₁.stores h)⟩

end Retains

theorem Quiet.retains (h : w.Quiet w') : w.Retains w' := ⟨Nat.le_of_eq h.size.symm, h.stores⟩

end World

namespace Exec

/-- A computation after which scripts and stores are retained, however it ends. -/
abbrev Retaining {α : Type} (x : Exec α) : Prop := x.Ends World.Retains

variable {α β : Type} {x : Exec α}

theorem Quiet.retaining (hx : Quiet x) : Retaining x := hx.mono World.Quiet.retains

theorem Aside.retaining (hx : Aside x) : Retaining x := hx.quiet.retaining

theorem Retaining.bind {f : α → Exec β} (hx : Retaining x) (hf : ∀ a, Retaining (f a)) :
    Retaining (x >>= f) :=
  Ends.bind (fun h₁ h₂ => h₁.trans h₂) hx hf

theorem retaining_pure (a : α) : Retaining (pure a) := (aside_pure a).retaining

theorem retaining_get : Retaining (get : Exec World) := aside_get.retaining

theorem retaining_modify {f : World → World} (hf : ∀ w : World, w.Retains (f w)) :
    Retaining (modify f) :=
  .of_change (fun _ => rfl) hf

theorem enduring_retains : Enduring World.Retains where
  trans h₁ h₂ := h₁.trans h₂
  quiet h := h.retains
  same hdebug hobjects := by
    have hsize := congrArg Array.size hdebug
    rw [Array.size_map, Array.size_map] at hsize
    exact World.retains_of_eq hsize hobjects

end Exec

namespace Script

open Exec

theorem retaining_callWith (token : Nat) (f : Value) (args : List Value) :
    Retaining (callWith token f args) := by
  constructor
  · intro w a w' h
    exact ((Reentry.endures_atDepth enduring_retains _).callScript enduring_retains token f args).ok h
  · intro w s w' h
    exact ((Reentry.endures_atDepth enduring_retains _).callScript enduring_retains token f args).error h

theorem retaining_call (f : Value) (args : List Value) : Retaining (call f args) :=
  aside_newToken.retaining.bind fun token => retaining_callWith token f args

theorem aside_getGlobal (name : String) : Aside (getGlobal name) :=
  aside_heap.bind fun _ => aside_script.bind fun _ => aside_pure _

theorem aside_setGlobal (name : String) (v : Value) : Aside (setGlobal name v) :=
  aside_script.bind fun _ => aside_setField _ name v

end Script

end LuaMachine
