import LuaMachine.Proofs.Cancellation.Enclosure

/-!
# Cancellation cannot be caught

A safepoint that finds the execution cancelled raises an error that nothing in the library catches:
not `pcall`, not the resumption of a coroutine, not `load`. So everything that encloses the safepoint
ends with that same error (`Encloses.cancelled`). No code runs on the way out: what is left is the world
of the safepoint, except that calls in progress are given up (`World.GivesUp`). The running coroutines
are dead, and the stacks of processors are cut back to what they were (`Spot.Unwound`).
-/

namespace LuaMachine

open Exec

/-! ## Giving up -/

/-- A script without what the calls in progress keep there. -/
def Script.atRest (s : Script) : Script :=
  { s with
    processor := {}, owner := none, running := [], nesting := 0, counters := {}, debug := {} }

namespace World

/-- From a world to one in which calls in progress were given up, and some coroutines died of it. -/
structure GivesUp (dead : List CoroutineId) (w w' : World) : Prop where
  heap : { w'.heap with coroutines := w.heap.coroutines } = w.heap
  coroutines : ∀ id, w'.heap.coroutine? id = (w.heap.coroutine? id).map fun c =>
    if id ∈ dead then { c with state := .dead, body := none } else c
  scripts : w'.scripts.map Script.atRest = w.scripts.map Script.atRest
  printed : w'.printed = w.printed
  cancelled : w'.cancelled = w.cancelled

namespace GivesUp

variable {dead dead' : List CoroutineId} {w w' w'' : World}

/-- Nothing happened to the heap, to what was printed and to executions, and only what calls in
progress keep in scripts changed. -/
theorem of_scripts (hheap : w'.heap = w.heap)
    (hscripts : w'.scripts.map Script.atRest = w.scripts.map Script.atRest)
    (hprinted : w'.printed = w.printed) (hcancelled : w'.cancelled = w.cancelled) :
    GivesUp [] w w' := by
  refine ⟨by rw [hheap], fun id => ?_, hscripts, hprinted, hcancelled⟩
  rw [hheap]
  simp

theorem refl (w : World) : GivesUp [] w w := of_scripts rfl rfl rfl rfl

theorem trans (h₁ : GivesUp dead w w') (h₂ : GivesUp dead' w' w'') :
    GivesUp (dead ++ dead') w w'' := by
  refine ⟨?_, ?_, h₂.scripts.trans h₁.scripts, h₂.printed.trans h₁.printed,
    h₂.cancelled.trans h₁.cancelled⟩
  · have h := congrArg (fun h : Heap => { h with coroutines := w.heap.coroutines }) h₂.heap
    exact h.trans h₁.heap
  · intro id
    rw [h₂.coroutines, h₁.coroutines, Option.map_map]
    congr 1
    funext c
    by_cases hid : id ∈ dead <;> by_cases hid' : id ∈ dead' <;> simp [hid, hid']

/-- Giving up goes on without the death of a coroutine. -/
theorem quietly (h₁ : GivesUp dead w w') (h₂ : GivesUp [] w' w'') : GivesUp dead w w'' := by
  have h := h₁.trans h₂
  rwa [List.append_nil] at h

theorem map_atRest_modify (scripts : Array Script) (i : Nat) {f : Script → Script}
    (hf : ∀ s : Script, (f s).atRest = s.atRest) :
    (scripts.modify i f).map Script.atRest = scripts.map Script.atRest := by
  refine Array.ext_getElem? fun j => ?_
  rw [Array.getElem?_map, Array.getElem?_map, Array.getElem?_modify]
  split
  · rw [Option.map_map]
    exact congrArg (Option.map · _) (funext hf)
  · rfl

/-- A script forgets about a call in progress. -/
theorem modifyScript (w : World) (i : Nat) {f : Script → Script}
    (hf : ∀ s : Script, (f s).atRest = s.atRest) :
    GivesUp [] w { w with scripts := w.scripts.modify i f } :=
  of_scripts rfl (map_atRest_modify _ _ hf) rfl rfl

/-- A resumed coroutine dies. -/
theorem stopping (w : World) (id : CoroutineId) (p : Processor) :
    GivesUp [id] w (w.stopping id .dead none p) := by
  have hscripts := map_atRest_modify w.scripts w.active.index
    (f := fun s => { s with running := s.running.tail }) fun _ => rfl
  refine ⟨rfl, fun id' => ?_, hscripts, rfl, rfl⟩
  have hget : (w.stopping id .dead none p).heap.coroutine? id' = _ :=
    coroutine?_modify w.heap id id' _
  rw [hget]
  by_cases hid : id' = id
  · subst hid
    simp
  · simp [hid]

end GivesUp

end World

/-! ## Ends -/

/-- The stacks of a processor were cut down, and it goes on at the same place. -/
structure Processor.CutTo (p q : Processor) : Prop where
  frames : q.frames.size ≤ p.frames.size
  values : q.values.size ≤ p.values.size
  ip : q.ip = p.ip

theorem Processor.cutTo_unwind (p : Processor) (q : Processor) :
    p.CutTo { q.unwind p.frames.size p.values.size with ip := p.ip } := by
  refine ⟨?_, ?_, rfl⟩
  · simp only [unwind, Array.take_eq_extract, Array.size_extract]
    omega
  · simp only [unwind, Array.take_eq_extract, Array.size_extract]
    omega

namespace Spot

/-- What happens at a spot ends with a cancellation. -/
def Cancelled (n : Nat) (spot : Spot) (w w' : World) : Prop :=
  match spot with
  | request q => (Reentry.atDepth n).perform q w = .error (.error .cancelled) w'
  | function depth f args =>
    (Reentry.atDepth n).enterFunction depth f args w = .error (.error .cancelled) w'
  | loop depth fuel => (Reentry.atDepth n).run depth fuel w = .error (.error .cancelled) w'
  | native f args caller =>
    f.run (Reentry.atDepth n) caller ⟨args⟩ w = .error (.error .cancelled) w'

/-- The processors that a request used are as high as before, or lower. -/
def Unwound (spot : Spot) (w w' : World) : Prop :=
  match spot with
  | request (.call ..) => w.processor.CutTo w'.processor
  | request (.host ..) => w'.processor = w.processor ∧
    ∀ s : Script, w.scripts[w.active.index]? = some s →
      ∃ s' : Script, w'.scripts[w.active.index]? = some s' ∧ s.processor.CutTo s'.processor
  | request _ => w'.processor = w.processor
  | _ => True

/-- At a spot a safepoint is come to that finds the execution cancelled: at a call instruction, at a
jump, or in `sleep`. -/
inductive Raises : Nat → Spot → World → World → Prop
  | call {n depth fuel argc : Nat} {w w₁ u : World} {span : Option Span}
    (hi : (w.scripts.getD w.active.index default).code.instruction? w.processor.ip =
      some ⟨.call argc, span⟩)
    (hheard : Reentry.hear (w.scripts.getD w.active.index default) ⟨.call argc, span⟩ w =
      .ok () w₁)
    (hraise : called argc w₁ = .error (.error .cancelled) u) :
    Raises n (.loop depth (fuel + 1)) w u
  | jump {n depth fuel target : Nat} {w w₁ u : World} {i : Instruction}
    (hi : (w.scripts.getD w.active.index default).code.instruction? w.processor.ip = some i)
    (hheard : Reentry.hear (w.scripts.getD w.active.index default) i w = .ok () w₁)
    (hjump : i.op.jumpTarget? = some target)
    (hraise : (Reentry.atDepth n).step depth i w₁ = .error (.error .cancelled) u) :
    Raises n (.loop depth (fuel + 1)) w u
  | sleep {n : Nat} {args : List Value} {caller : Option Span} {w u : World}
    (hraise : Library.sleep ⟨args⟩ w = .error (.error .cancelled) u) :
    Raises n (.native (.builtin .sleep) args caller) w u

end Spot

namespace Reentry

variable {r : Reentry} {depth fuel : Nat} {w w₁ u : World} {i : Instruction}

/-- An instruction that is cancelled ends the loop at once. -/
theorem run_cancelled
    (hi : (w.scripts.getD w.active.index default).code.instruction? w.processor.ip = some i)
    (hheard : hear (w.scripts.getD w.active.index default) i w = .ok () w₁)
    (hstep : r.step depth i w₁ = .error (.error .cancelled) u) :
    r.run depth (fuel + 1) w = .error (.error .cancelled) u := by
  rw [run_eq r depth fuel hi, bind_ok hheard]
  unfold stepThen
  rw [hstep]
  rfl

/-- A native function that is cancelled leaves its frame. -/
theorem invoke_cancelled {c : Callback} {args : List Value} {caller : Option Span}
    (hdepth : checkDepth w = .ok () w)
    (h : c.native.run r caller ⟨args⟩ (w.inside c caller) = .error (.error .cancelled) u) :
    invoke r c args caller w = .error (.error .cancelled)
      { u with processor := { u.processor.unwind w.processor.frames.size w.processor.values.size with
          ip := w.processor.ip } } := by
  have hpush : pushFrame (.host c.name w.processor.values.size caller) w =
      .ok () (w.inside c caller) := rfl
  unfold invoke
  rw [bind_ok hdepth, bind_ok (get_eq _), bind_ok hpush]
  unfold andSettle
  rw [h]

/-- A call instruction ends with the native function that it calls. -/
theorem step_cancelled {argc : Nat} {span : Option Span} {c : Callback} {args : List Value}
    {v : World} (hcalled : called argc w = .ok (.callback c, args) w₁)
    (hyield : c.native ≠ .yield) (hinvoke : invoke r c args span w₁ = .error (.error .cancelled) v) :
    r.step depth ⟨.call argc, span⟩ w = .error (.error .cancelled) v := by
  change r.stepCall argc span w = _
  unfold stepCall
  rw [bind_ok hcalled]
  dsimp only
  cases hnative : c.native with
  | yield => exact absurd hnative hyield
  | _ => exact bind_error hinvoke

/-- A native function that is entered as a function ends the call. -/
theorem enterFunction_cancelled {f : Value} {args args' : List Value} {c : Callback} {v : World}
    (hf : resolveCallable f args w = .ok (.callback c, args') w₁) (hyield : c.native ≠ .yield)
    (hinvoke : invoke r c args' none w₁ = .error (.error .cancelled) v) :
    r.enterFunction depth f args w = .error (.error .cancelled) v := by
  unfold enterFunction
  rw [bind_ok hf]
  dsimp only
  cases hnative : c.native with
  | yield => exact absurd hnative hyield
  | _ => exact bind_error hinvoke

end Reentry

/-- What raises a cancellation ends with it. -/
theorem Spot.Raises.cancelled {n : Nat} {spot : Spot} {w u : World} (h : spot.Raises n w u) :
    spot.Cancelled n w u := by
  cases h with
  | call hi hheard hraise =>
    refine Reentry.run_cancelled hi hheard ?_
    exact bind_error hraise
  | jump hi hheard _ hraise => exact Reentry.run_cancelled hi hheard hraise
  | sleep hraise => exact hraise

/-! ## What encloses a cancellation -/

namespace Exec

/-- A computation that leaves the running processor as it is. -/
abbrev Stays {α : Type} (x : Exec α) : Prop := x.Ends fun w w' => w'.processor = w.processor

theorem Stays.bind {α β : Type} {x : Exec α} {f : α → Exec β} (hx : Stays x)
    (hf : ∀ a, Stays (f a)) : Stays (x >>= f) :=
  Ends.bind (fun h₁ h₂ => h₂.trans h₁) hx hf

theorem Aside.stays {α : Type} {x : Exec α} (hx : Aside x) : Stays x := hx.mono (·.processor)

theorem stays_modifyScript (f : Script → Script) : Stays (modifyScript f) :=
  .of_change (fun _ => rfl) fun _ => rfl

theorem stays_loaded (entry : Nat) (hasEnv : Bool) (env : Option TableId) :
    Stays (loaded entry hasEnv env) := by
  have hclosure : ∀ c, Stays (newClosure c) := fun _ => .of_change (fun _ => rfl) fun _ => rfl
  have hcell : ∀ v, Stays (newCell v) := fun _ => .of_change (fun _ => rfl) fun _ => rfl
  unfold loaded
  refine aside_script.stays.bind fun s => aside_get.stays.bind fun w => ?_
  split
  · exact (hcell _).bind fun _ => hclosure _
  · exact hclosure _

theorem stays_compile (code : String) (env : Option TableId) (name : Option String)
    (kind : HeaderKind) : Stays (Exec.compile code env name kind) := by
  unfold Exec.compile
  refine (stays_modifyScript _).bind fun _ => aside_script.stays.bind fun s => ?_
  refine aside_get.stays.bind fun w => ?_
  dsimp only
  split
  · exact (aside_failWith _).stays
  · exact (stays_modifyScript _).bind fun _ => stays_loaded _ _ env

theorem stays_loadString (code : String) (env : Option TableId) (name : Option String) :
    Stays (loadString code env name) := by
  unfold loadString
  dsimp only
  split
  · split
    · unfold loadDump
      refine aside_script.stays.bind fun s => aside_get.stays.bind fun w => ?_
      dsimp only
      split
      · exact (aside_failWith _).stays
      · exact (stays_modifyScript _).bind fun _ => stays_loaded _ _ env
    · exact (aside_failWith _).stays
  · exact stays_compile code env name .chunk

end Exec

namespace Reentry

variable {r : Reentry} {w w₁ u v : World}

/-- What the host's way in does with a script after a call. -/
theorem givesUp_settled (u : World) (token i : Nat) (p : Processor) :
    World.GivesUp [] u { u with
      scripts := u.scripts.modify i fun s =>
        { s with processor := u.processor, owner := none, counters := s.counters.countExecution }
      processor := p, token } :=
  .of_scripts rfl (World.GivesUp.map_atRest_modify u.scripts i
    (f := fun s => { s with processor := u.processor, owner := none
                            counters := s.counters.countExecution }) fun _ => rfl) rfl rfl

/-- A call ends with the function that it enters, and cuts the stacks down. -/
theorem callFunction_cancelled {f : Value} {args : List Value} (hnest : w.MayNest)
    (h : r.enterFunction w.processor.frames.size f (Value.flatten args) w.nested =
      .error (.error .cancelled) u) :
    ∃ w', r.callFunction f args w = .error (.error .cancelled) w' ∧ World.GivesUp [] u w' ∧
      w.processor.CutTo w'.processor := by
  let depth := w.processor.frames.size
  let height := w.processor.values.size
  let settled : World :=
    { u with processor := { u.processor.unwind depth height with ip := w.processor.ip } }
  refine ⟨settled.unnested w.active, ?_, ?_, Processor.cutTo_unwind _ _⟩
  · unfold callFunction
    rw [nested_eq _ hnest]
    unfold andFinally
    rw [bind_ok (get_eq _)]
    unfold andSettle
    have hbody : r.enterFunction w.nested.processor.frames.size f (Value.flatten args) w.nested =
        .error (.error .cancelled) u := h
    rw [bind_error hbody]
    rfl
  · have hunnested : World.GivesUp [] settled (settled.unnested w.active) :=
      .modifyScript settled _ (f := fun s => { s with nesting := s.nesting - 1 }) fun _ => rfl
    have hsettled : World.GivesUp [] u settled := .of_scripts rfl rfl rfl rfl
    exact hsettled.quietly hunnested

/-- A resumption ends with the body that it continues, and the coroutine is dead. -/
theorem Tidy.resumeCoroutine_cancelled (hr : r.Tidy) (hw : w.Live) {id : CoroutineId}
    {c : Coroutine} (hc : w.MayResume id c) {body : CoroutineBody} (hbody : c.body = some body)
    {args : List Value} (h : r.continueBody body.function args
      (w.nested.resuming id body.processor) = .error (.error .cancelled) u) :
    ∃ w', r.resumeCoroutine id args w = .error (.error .cancelled) w' ∧
      World.GivesUp [id] u w' ∧ w'.processor = w.processor := by
  let stopped := u.stopping id .dead none w.processor
  refine ⟨stopped.unnested w.active, ?_, ?_, rfl⟩
  · rw [hr.resumeCoroutine_eq hw hc hbody]
    unfold andFinally
    dsimp only
    rw [h]
    rfl
  · have hunnested : World.GivesUp [] stopped (stopped.unnested w.active) :=
      .modifyScript stopped _ (f := fun s => { s with nesting := s.nesting - 1 }) fun _ => rfl
    exact (World.GivesUp.stopping u id w.processor).quietly hunnested

/-- The running script was free, and is held by the thread that is running now. -/
theorem acquire_eq (h : acquire w = .ok () w₁) : w₁ = { w with
    scripts := w.scripts.modify w.active.index fun s => { s with owner := some w.thread } } := by
  unfold acquire at h
  rw [bind_ok (script_getD _), bind_ok (get_eq _)] at h
  cases howner : (w.scripts.getD w.active.index default).owner with
  | none =>
    rw [howner] at h
    cases h
    rfl
  | some owner =>
    rw [howner] at h
    dsimp only at h
    split at h
    · cases h
    · split at h <;> cases h

/-- A call from the host ends with the call on the main processor, which is cut down. -/
theorem callScript_cancelled {token : Nat} {f : Value} {args : List Value}
    (hacquire : acquire w = .ok () w₁) (hsize : u.scripts.size = w.scripts.size)
    (h : r.callFunction f args { w₁ with
      processor := (w₁.scripts.getD w₁.active.index default).processor, token } =
        .error (.error .cancelled) u)
    (hcut : (w₁.scripts.getD w₁.active.index default).processor.CutTo u.processor) :
    ∃ w', r.callScript token f args w = .error (.error .cancelled) w' ∧
      World.GivesUp [] u w' ∧ Spot.Unwound (.request (.host token f args)) w w' := by
  let settled : World := { u with
    scripts := u.scripts.modify w₁.active.index fun s =>
      { s with processor := u.processor, owner := none, counters := s.counters.countExecution }
    processor := w₁.processor, token := w₁.token }
  refine ⟨{ settled with scripts := settled.scripts.modify settled.active.index fun s =>
    { s with debug := s.debug.executionEnded } }, ?_, ?_, ?_, ?_⟩
  · unfold callScript
    rw [bind_ok hacquire]
    unfold andSettle onMainProcessor andFinally
    dsimp only
    rw [h]
  · have hended : World.GivesUp [] settled _ :=
      .modifyScript settled settled.active.index
        (f := fun s => { s with debug := s.debug.executionEnded }) fun _ => rfl
    exact (givesUp_settled u _ _ _).quietly hended
  · change w₁.processor = _
    rw [acquire_eq hacquire]
  · intro s hs
    rw [acquire_eq hacquire] at hcut
    have hlt : w.active.index < u.scripts.size := by
      rw [hsize]
      exact (Array.getElem?_eq_some_iff.1 hs).1
    have hmain : settled.scripts[w.active.index]? = some { u.scripts[w.active.index] with
        processor := u.processor, owner := none
        counters := u.scripts[w.active.index].counters.countExecution } := by
      change (u.scripts.modify w₁.active.index _)[w.active.index]? = _
      rw [acquire_eq hacquire, Array.getElem?_modify, if_pos rfl, Array.getElem?_eq_getElem hlt]
      rfl
    have hprocessor : s.processor.CutTo u.processor := by
      simpa [Array.getD_eq_getD_getElem?, Array.getElem?_modify, hs] using hcut
    rw [Array.getElem?_modify, hmain]
    split
    · exact ⟨_, rfl, hprocessor⟩
    · exact ⟨_, rfl, hprocessor⟩

/-- Entering a script ends with the call of what was loaded. -/
theorem enterScript_cancelled {token : Nat} {id : ScriptId} {code : String} {f : Value}
    {w₂ : World} (hid : id.index < w.scripts.size)
    (hload : loadString code none none { w with active := id } = .ok f w₁)
    (htoken : newToken w₁ = .ok token w₂)
    (h : r.callScript token f [] w₂ = .error (.error .cancelled) u) :
    ∃ w', r.enterScript id code w = .error (.error .cancelled) w' ∧
      World.GivesUp [] u w' ∧ w'.processor = u.processor := by
  refine ⟨{ u with active := w.active }, ?_, .of_scripts rfl rfl rfl rfl, rfl⟩
  have hinside : (do
      let f ← loadString code none none
      r.callScript (← newToken) f [] : Exec Value) { w with active := id } =
        .error (.error .cancelled) u := by
    rw [bind_ok hload, bind_ok htoken, h]
  unfold enterScript
  rw [bind_ok (get_eq _)]
  dsimp only
  rw [if_neg (Nat.not_le_of_lt hid)]
  unfold within andFinally
  dsimp only
  rw [hinside]

end Reentry

section Encloses

variable {n k m : Nat} {spot between inner : Spot} {w w₁ v u u' : World}
  {link chain : List (ScriptId × CoroutineId)}

/-- The machine at a depth answers a request as it performs it one level lower. -/
theorem Reentry.answersCancelled {q : Request}
    (h : (atDepth n).perform q w = .error (.error .cancelled) u)
    (hq : ∀ token f args, q ≠ .host token f args) :
    (atDepth (n + 1)).AnswersCancelled q w u := by
  cases q with
  | call f args => exact h
  | resume id args => exact h
  | enter id code => exact h
  | host token f args => exact hq token f args rfl

/-- What is cancelled just inside a spot cancels it, and is not caught there: calls in progress are
given up, of a resumption that is the link the coroutine dies, and the stacks are cut down. -/
theorem Inward.cancelled (h : Inward n spot w link k between w₁) (hw : w.Live)
    (hend : between.Cancelled k w₁ u) (hunwound : between.Unwound w₁ u) :
    ∃ u', spot.Cancelled n w u' ∧ World.GivesUp (link.map (·.2)) u u' ∧ spot.Unwound w u' := by
  have hlive := h.live hw
  induction h with
  | @next n depth fuel w w₂ w₃ i hi hheard hstep =>
    refine ⟨u, ?_, .refl u, trivial⟩
    change (Reentry.atDepth n).run depth (fuel + 1) w = _
    rw [Reentry.run_eq _ depth fuel hi, bind_ok hheard]
    unfold Reentry.stepThen
    rw [hstep]
    exact hend
  | @asked n depth fuel w w₂ v i q hi hheard hcall hasks =>
    have hanswer := Reentry.answersCancelled hend fun token f args hq =>
      Reentry.not_asks_host (hq ▸ hasks)
    refine ⟨u, Reentry.run_cancelled hi hheard ?_, .refl u, trivial⟩
    exact Reentry.asks_cancelled hasks hanswer fun r' hr' => hr'.step depth i hcall
  | @invoked n depth fuel argc w w₂ w₃ span c args hi hheard hcalled hyield hdepth =>
    have hinvoke := Reentry.invoke_cancelled hdepth hend
    refine ⟨_, Reentry.run_cancelled hi hheard (Reentry.step_cancelled hcalled hyield hinvoke), ?_,
      trivial⟩
    exact .of_scripts rfl rfl rfl rfl
  | @nativeAsked n f args caller w v q hf hasks =>
    have hanswer := Reentry.answersCancelled hend fun token f args hq =>
      Reentry.not_asks_host (hq ▸ hasks)
    refine ⟨u, ?_, .refl u, trivial⟩
    exact Reentry.asks_cancelled hasks hanswer fun r' hr' => hr'.native caller ⟨args⟩ f hf
  | @closure n depth f args args' id w w₂ w₃ hf henter =>
    refine ⟨u, ?_, .refl u, trivial⟩
    change (Reentry.atDepth n).enterFunction depth f args w = _
    unfold Reentry.enterFunction
    rw [bind_ok hf]
    dsimp only
    rw [bind_ok henter]
    exact hend
  | @callback n depth f args args' c w w₂ hf hyield hdepth =>
    have hinvoke := Reentry.invoke_cancelled hdepth hend
    exact ⟨_, Reentry.enterFunction_cancelled hf hyield hinvoke, .of_scripts rfl rfl rfl rfl, trivial⟩
  | call hnest => exact Reentry.callFunction_cancelled hnest hend
  | @start n id c p f args w hc hbody =>
    exact (Reentry.tidy_atDepth n).resumeCoroutine_cancelled hw hc hbody hend
  | @again n id c p args w w₂ hc hbody hpush =>
    have hcontinued : (Reentry.atDepth n).continueBody none args (w.nested.resuming id p) =
        .error (.error .cancelled) u := by
      unfold Reentry.continueBody
      dsimp only
      rw [bind_ok hpush]
      exact hend
    exact (Reentry.tidy_atDepth n).resumeCoroutine_cancelled hw hc hbody hcontinued
  | @host n token f args w w₂ hacquire =>
    have hmain : w₂.Quiet { w₂ with
        processor := (w₂.scripts.getD w₂.active.index default).processor, token } :=
      ⟨rfl, rfl, rfl, fun h => h, .refl _⟩
    have hsize := ((Exec.Quiet.continues Reentry.quiet_acquire hw hacquire).quiet hmain).size
    have hcall := ((Reentry.tidy_atDepth n).callFunction hlive f args).error hend
    exact Reentry.callScript_cancelled hacquire (hcall.size.trans hsize) hend hunwound
  | @enter n token id code f w w₂ w₃ hid hload htoken =>
    obtain ⟨u', hu', hgives, hp⟩ := Reentry.enterScript_cancelled hid hload htoken hend
    have hloaded : w₂.processor = w.processor :=
      (stays_loadString code none none).ok (w := { w with active := id }) hload
    have htokened := (aside_newToken.ok htoken).processor.trans hloaded
    exact ⟨u', hu', hgives, hp.trans (hunwound.1.trans htokened)⟩

/-- Everything that encloses a cancellation ends with it, and no code runs on the way out: calls in
progress are given up, which leaves the resumed coroutines dead and the stacks cut down. -/
theorem Encloses.cancelled (h : Encloses n spot w chain m inner v) (hraise : inner.Raises m v u)
    (hw : w.Live) : ∃ u', spot.Cancelled n w u' ∧ World.GivesUp (chain.map (·.2)) u u' ∧
      spot.Unwound w u' := by
  induction h with
  | @here n spot w =>
    refine ⟨u, hraise.cancelled, .refl u, ?_⟩
    cases hraise <;> trivial
  | inward hfirst _ ih =>
    obtain ⟨u₁, hend, hgives, hunwound⟩ := ih hraise (hfirst.live hw)
    obtain ⟨u', hend', hgives', hunwound'⟩ := hfirst.cancelled hw hend hunwound
    refine ⟨u', hend', ?_, hunwound'⟩
    rw [List.map_append]
    exact hgives.trans hgives'

end Encloses

end LuaMachine
