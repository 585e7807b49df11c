import LuaMachine.Proofs.Crossing.Regions
import LuaMachine.Proofs.Crossing.Unless
import LuaMachine.Proofs.Debug.Listening
import LuaMachine.Proofs.Flat.Hosting
import LuaMachine.Proofs.Loops.Order
import LuaMachine.Proofs.Loops.Presence

/-!
# Stepping over

A script is stopped in the middle of a run, and its debugger lets it go on with a step over
(`Pause`). Whatever the run comes to, inside what is carried out there and after it, that answer is in
force until the debugger is asked again (`Pause.heeds`). A step over remembers the height of the call
stack, and the place where it began. So the script stops at another place if the call stack is not
higher. On the processor where the step began, that is never the case in what the function calls: as
long as it has not returned, the script stops in the function itself. The processor of a coroutine has a
call stack of its own, and there the height says nothing about who resumed whom.

Main statement: `Pause.stepOver_stops`.
-/

namespace LuaMachine

open Exec

/-! ## Where a step over ends -/

namespace DebugState

variable {d : DebugState} {ip depth : Nat} {place : Option Span} {requested : Bool}

/-- A place where a step can end, and another one than was reached last. -/
def Moves (d : DebugState) (place : Option Span) : Prop :=
  ∃ s, place = some s ∧ s.isStepStop = true ∧ d.movedTo s = true

/-- So is one with a breakpoint. -/
def Hits (d : DebugState) (place : Option Span) : Prop :=
  ∃ s, place = some s ∧ s.isStepStop = true ∧ d.movedTo s = true ∧ d.isBreakpoint s = true

/-- A step over ends at another place, unless the call stack is higher. -/
theorem arrive_stepOver (h : d.action = .stepOver) :
    (d.arrive ip depth place requested).1 = false ↔
      requested = true ∨ d.Hits place ∨ (d.Moves place ∧ depth ≤ d.depthAtStep) := by
  have hnowhere : place.filter (·.isStepStop) = none → ¬d.Hits place ∧ ¬d.Moves place := by
    intro hnone
    refine ⟨?_, ?_⟩
    · rintro ⟨s, rfl, hs, -⟩
      simp [Option.filter, hs] at hnone
    · rintro ⟨s, rfl, hs, -⟩
      simp [Option.filter, hs] at hnone
  unfold arrive
  cases hstop : place.filter (·.isStepStop) with
  | none =>
    obtain ⟨hhits, hmoves⟩ := hnowhere hstop
    cases requested <;> simp [h, hhits, hmoves]
  | some s =>
    obtain ⟨rfl, hs⟩ := Option.filter_eq_some_iff.1 hstop
    cases requested <;> cases hmoved : d.movedTo s <;> cases hbreak : d.isBreakpoint s <;>
      simp [h, Hits, Moves, hs, hmoved, hbreak]

end DebugState

namespace World

variable {w : World} {i : Instruction}

/-- The front end asks for a pause at the next instruction. -/
def Requested (w : World) : Prop :=
  ∃ front, w.debug.debugger = some front ∧ front.pauseAt.contains (front.asked + 1) = true

/-- A stop at an instruction is asked for, or there is a breakpoint. -/
def Demands (w : World) (i : Instruction) : Prop := w.Requested ∨ w.debug.Hits i.span

/-- Before an instruction, the script is stopped and its debugger asked for actions. -/
def Pauses (w : World) (i : Instruction) : Prop :=
  w.debug.answers < ((Reentry.hear (w.scripts.getD w.active.index default) i).final w).debug.answers

/-- Where a debugger decides to stop, it is asked. -/
theorem pauses_iff {front : Debugger} (hfront : w.debug.debugger = some front) :
    w.Pauses i ↔ (w.decides front i.span).1 = false := by
  have hattached : w.debug.isAttached = true := congrArg Option.isSome hfront
  have hattached' : (w.scripts.getD w.active.index default).debug.isAttached = true := hattached
  have hdecided : (w.withDebug (w.decides front i.span).2).debug = _ :=
    debug_withDebug (active_of_attached hattached)
  unfold Pauses Reentry.hear
  rw [if_pos hattached']
  have hlisten := listen_eq hfront i.span
  cases hdecides : (w.decides front i.span).1 with
  | true =>
    rw [if_pos hdecides] at hlisten
    rw [final_ok hlisten, hdecided, answers_decides]
    simp
  | false =>
    rw [if_neg (Bool.eq_false_iff.1 hdecides)] at hlisten
    have hpause := (pause_spec (hdecided ▸ attached_decides) w.processor.ip i.span).2.1
    rw [hdecided, answers_decides] at hpause
    rw [final_congr hlisten]
    simpa using hpause

/-- While a step over is in force, a script is stopped if that is asked for, at breakpoints, and at other
places where the call stack is not higher. -/
theorem pauses_stepOver (hattached : w.debug.isAttached = true) (h : w.debug.action = .stepOver) :
    w.Pauses i ↔ w.Demands i ∨
      (w.debug.Moves i.span ∧ w.processor.frames.size ≤ w.debug.depthAtStep) := by
  obtain ⟨front, hfront⟩ := Option.isSome_iff_exists.1 hattached
  have hrequested : w.Requested ↔ front.pauseAt.contains (front.asked + 1) = true := by
    unfold Requested
    simp [hfront]
  let asked : DebugState := { w.debug with debugger := some { front with asked := front.asked + 1 } }
  have hlines : asked.lineBased = w.debug.lineBased := by
    unfold DebugState.lineBased
    rw [hfront]
  have hmoved : asked.movedTo = w.debug.movedTo := by
    unfold DebugState.movedTo
    rw [hlines]
  have hbreak : asked.isBreakpoint = w.debug.isBreakpoint := by
    unfold DebugState.isBreakpoint
    rw [hlines]
  have hends : (w.decides front i.span).1 = false ↔ _ := asked.arrive_stepOver h
  unfold Demands DebugState.Hits DebugState.Moves
  unfold DebugState.Hits DebugState.Moves at hends
  rw [hmoved, hbreak] at hends
  rw [pauses_iff hfront, hrequested, or_assoc]
  exact hends

end World

/-! ## Pauses -/

theorem Exec.enduring_heeds : Enduring World.Heeds where
  trans h₁ h₂ := h₁.trans h₂
  quiet h := h.heeds
  same {w w'} hdebug _ i := by
    have hget : ∀ u : World, (u.scripts.getD i default).debug =
        ((u.scripts.map (·.debug))[i]?).getD (default : Script).debug := by
      intro u
      rw [Array.getD_eq_getD_getElem?, Array.getElem?_map]
      cases u.scripts[i]? <;> rfl
    rw [hget w, hget w', hdebug]
    exact .refl _

/-- At an instruction of a loop the debugger is listened to: before it is carried out, or because it has
failed. It is in the world `u` that the debugger might stop the script, and the debugger lets it go on in
the world `v`. -/
inductive Reentry.Consults (r : Reentry) (depth : Nat) (i : Instruction) (w : World) :
    World → World → Prop
  | arriving {v : World}
    (hheard : hear (w.scripts.getD w.active.index default) i w = .ok () v) : r.Consults depth i w w v
  | failing {w₁ u v : World} {e e' : ScriptError}
    (hheard : hear (w.scripts.getD w.active.index default) i w = .ok () w₁)
    (hstep : r.step depth i w₁ = .error (.error e) u) (htrace : trace e i.span u = .ok e' v) :
    r.Consults depth i w u v

/-- A script is stopped in the middle of a run. A host has made a request, which has come to an
instruction of a loop, and the debugger was asked there for actions. -/
structure Pause where
  n : Nat
  request : Request
  start : World
  m : Nat
  depth : Nat
  fuel : Nat
  /-- the world where the loop comes to the instruction -/
  here : World
  instruction : Instruction
  /-- the world where the script was stopped -/
  stopped : World
  /-- the world where it goes on -/
  resumed : World
  hosted : start.Hosted
  active : start.active.index < start.scripts.size
  comes : Attains n (.request request) start m (.loop depth (fuel + 1)) here
  fetched : (here.scripts.getD here.active.index default).code.instruction? here.processor.ip =
    some instruction
  consults : (Reentry.atDepth m).Consults depth instruction here stopped resumed
  answered : stopped.debug.answers < resumed.debug.answers

namespace Exec

variable {w v : World} {place : Option Span} {e e' : ScriptError}

theorem stepOver_of_pause {ip : Nat} (hattached : w.debug.isAttached = true)
    (h : pause ip place w = .ok () v) (hover : v.debug.action = .stepOver) :
    v.debug.isAttached = true ∧ v.debug.depthAtStep = w.processor.frames.size ∧ v.debug.last = place := by
  obtain ⟨hconsults, -, hbegins⟩ := pause_spec hattached ip place
  rw [final_ok h] at hconsults
  exact ⟨hconsults.attached hattached, hbegins v h hover⟩

/-- If the debugger is asked at an instruction and answers with a step over, that begins where the script
was stopped. -/
theorem stepOver_of_listen (h : listen place w = .ok () v) (hanswered : w.debug.answers < v.debug.answers)
    (hover : v.debug.action = .stepOver) : v.debug.isAttached = true ∧
      v.debug.depthAtStep = w.processor.frames.size ∧ v.debug.last = place := by
  cases hfront : w.debug.debugger with
  | none =>
    cases (listen_of_detached hfront place).symm.trans h
    exact absurd hanswered (Nat.lt_irrefl _)
  | some front =>
    have hdecided : (w.withDebug (w.decides front place).2).debug = (w.decides front place).2 :=
      World.debug_withDebug (World.active_of_attached (congrArg Option.isSome hfront))
    rw [listen_eq hfront] at h
    split at h
    · cases h
      rw [hdecided, World.answers_decides] at hanswered
      exact absurd hanswered (Nat.lt_irrefl _)
    · have hattached : (w.withDebug (w.decides front place).2).debug.isAttached = true := by
        rw [hdecided]
        exact World.attached_decides
      have hover' := stepOver_of_pause hattached h hover
      exact hover'

/-- So does one with which it answers to an error. -/
theorem stepOver_of_trace (h : trace e place w = .ok e' v)
    (hanswered : w.debug.answers < v.debug.answers) (hover : v.debug.action = .stepOver) :
    v.debug.isAttached = true ∧ v.debug.depthAtStep = w.processor.frames.size ∧ v.debug.last = place := by
  cases hfront : w.debug.debugger with
  | none =>
    obtain ⟨_, hpassed⟩ := trace_of_detached hfront e place
    cases hpassed.symm.trans h
    exact absurd hanswered (Nat.lt_irrefl _)
  | some front =>
    cases e with
    | runtime e =>
      obtain ⟨e₁, htrace⟩ := trace_of_attached hfront e place
      have hattached : w.debug.isAttached = true := congrArg Option.isSome hfront
      have htold := World.debug_withDebug (d := w.debug.tell (.error e₁.display))
        (World.active_of_attached hattached)
      rw [htrace] at h
      split at h
      · obtain ⟨_, w₁, hpause, hrest⟩ := of_bind_ok h
        cases hrest
        have hattached₁ : (w.withDebug (w.debug.tell (.error e₁.display))).debug.isAttached = true := by
          rw [htold]
          exact hattached
        have hbegins := stepOver_of_pause hattached₁ hpause hover
        exact hbegins
      · cases h
        rw [htold, DebugState.answers_tell] at hanswered
        exact absurd hanswered (Nat.lt_irrefl _)
    | _ =>
      cases h
      exact absurd hanswered (Nat.lt_irrefl _)

end Exec

namespace Reentry.Consults

variable {R : World → World → Prop} {r : Reentry} {n k m depth fuel : Nat} {i : Instruction}
  {between inner : Spot} {w w₁ w' u v : World}

/-- A step over begins where the script was stopped. -/
theorem stepOver_begins (h : r.Consults depth i w u v) (hanswered : u.debug.answers < v.debug.answers)
    (hover : v.debug.action = .stepOver) : v.debug.isAttached = true ∧
      v.debug.depthAtStep = u.processor.frames.size ∧ v.debug.last = i.span := by
  cases h with
  | arriving hheard =>
    unfold hear at hheard
    split at hheard
    · exact stepOver_of_listen hheard hanswered hover
    · cases hheard
      exact absurd hanswered (Nat.lt_irrefl _)
  | failing hheard hstep htrace => exact stepOver_of_trace htrace hanswered hover

theorem active (h : r.Consults depth i w u v) : v.active = u.active := by
  cases h with
  | arriving hheard => exact ((quiet_hear _ i).ok hheard).active
  | failing hheard hstep htrace => exact ((aside_trace _ i.span).ok htrace).active

theorem endures (h : r.Consults depth i w u v) (hr : r.Endures R) (hR : Enduring R) : R w u := by
  cases h with
  | arriving hheard => exact hR.refl w
  | failing hheard hstep htrace =>
    exact hR.trans ((hR.ends_quiet (quiet_hear _ i)).ok hheard) ((hr.step hR depth i).error hstep)

/-- What the loop comes to is there after the debugger has let the script go on, or before the
instruction has failed. -/
theorem inside (h : (atDepth n).Consults depth i w u v)
    (hi : (w.scripts.getD w.active.index default).code.instruction? w.processor.ip = some i)
    (hfirst : Onward n (.loop depth (fuel + 1)) w k between w₁) (hrest : Attains k between w₁ m inner w')
    (hw : w.Live) (hR : Enduring R) : R v w' ∨ R w' u := by
  cases hfirst with
  | inward hfirst =>
    cases h with
    | arriving hheard => exact .inl (hR.trans (hfirst.endures_heard hi hheard hR) (hrest.comes.endures hR))
    | failing hheard hstep htrace =>
      refine .inr ?_
      have hover : R ((between.exit (atDepth k)).final w₁) u := by
        have hcode : ¬between.IsCode := by
          rintro hcode
          cases hfirst with
          | next hi' hheard' hstep' =>
            cases hi.symm.trans hi'
            cases hheard.symm.trans hheard'
            cases hstep.symm.trans hstep'
          | _ => exact hcode
        have hover := hfirst.step_outlasts hcode hi hheard hR
        rw [final_error hstep] at hover
        exact hover
      have hend := ends_iff.1 (inner.ends_exit m hR) w'
      exact hR.trans hend (hR.trans (hrest.outlasts (hfirst.live hw) hR) hover)

/-- The loop ends after the debugger has let the script go on. -/
theorem outlasts (h : (atDepth n).Consults depth i w u v)
    (hi : (w.scripts.getD w.active.index default).code.instruction? w.processor.ip = some i)
    (hR : Enduring R) : R v (((Spot.loop depth (fuel + 1)).exit (atDepth n)).final w) := by
  have hr := endures_atDepth hR n
  have hrun : ∀ {w₁ : World}, hear (w.scripts.getD w.active.index default) i w = .ok () w₁ →
      (atDepth n).run depth (fuel + 1) w =
        (atDepth n).stepThen depth i ((atDepth n).run depth fuel) w₁ := fun hheard =>
    (run_eq _ depth fuel hi).trans (bind_ok hheard)
  change R v (((atDepth n).run depth (fuel + 1)).final w)
  cases h with
  | arriving hheard =>
    rw [final_congr (hrun hheard)]
    exact ends_iff.1 (hr.stepThen hR depth i (hr.run hR depth fuel)) v
  | @failing w₁ _ _ _ e hheard hstep htrace =>
    have hthen : (atDepth n).stepThen depth i ((atDepth n).run depth fuel) w₁ =
        .error (.error e) v := by
      unfold stepThen
      rw [hstep]
      exact (bind_ok htrace).trans rfl
    rw [final_error ((hrun hheard).trans hthen)]
    exact hR.refl v

end Reentry.Consults

namespace Pause

variable (P : Pause) {R : World → World → Prop} {k : Nat} {spot : Spot} {v : World}

/-- A step over begins where the script was stopped. -/
theorem stepOver_begins (hover : P.resumed.debug.action = .stepOver) :
    P.resumed.debug.isAttached = true ∧
      P.resumed.debug.depthAtStep = P.stopped.processor.frames.size ∧
      P.resumed.debug.last = P.instruction.span :=
  P.consults.stepOver_begins P.answered hover

/-- What control comes to in the run is there after the debugger has let the script go on, or before the
script was stopped. -/
theorem after_or_before (h : Attains P.n (.request P.request) P.start k spot v) (hR : Enduring R) :
    R P.resumed v ∨ R v P.stopped := by
  have hlive : P.start.Live := ⟨P.hosted.resting.orderly.1, P.active⟩
  have hhere : R P.here P.stopped := P.consults.endures (Reentry.endures_atDepth hR _) hR
  rcases P.comes.total h hlive hR with hinside | hbefore | hafter | hover
  · cases hinside with
    | here => exact .inr hhere
    | onward hfirst hrest => exact P.consults.inside P.fetched hfirst hrest (P.comes.comes.live hlive) hR
  · exact .inr (hR.trans (hbefore.comes.endures hR) hhere)
  · exact .inl (hR.trans (P.consults.outlasts P.fetched hR) hafter)
  · have hend := ends_iff.1 (spot.ends_exit k hR) v
    exact .inr (hR.trans hend (hR.trans hover hhere))

/-- An answer is in force until the next one. -/
theorem heeds (h : Attains P.n (.request P.request) P.start k spot v)
    (hscript : v.active = P.resumed.active) (hsame : v.debug.answers = P.resumed.debug.answers) :
    P.resumed.debug.Heeds v.debug := by
  rcases P.after_or_before h enduring_heeds with hafter | hbefore
  · have hheeds := hafter P.resumed.active.index
    rw [← hscript] at hheeds
    unfold World.debug
    rw [← hscript]
    exact hheeds
  · have hactive : P.stopped.active = v.active := hscript.trans P.consults.active |>.symm
    have hheeds : v.debug.Heeds P.stopped.debug := by
      unfold World.debug
      rw [hactive]
      exact hbefore v.active.index
    have hle := hheeds.answers
    rw [hsame] at hle
    exact absurd P.answered (Nat.not_lt_of_le hle)

/-- What the function calls where the step began is above it, as long as it has not returned. -/
theorem onStack {A : Activation} {x y d f : Nat} (hruns : P.here.Runs A x y)
    (hat : A.At x y P.here.processor)
    (hcarries : A.Carries P.m (.loop P.depth (P.fuel + 1)) P.here k (.loop d f) v) (hg : v.Genuine) :
    A.OnStack v.processor := by
  have hback : ∃ frame, P.here.processor.frames.back? = some (.script frame) := by
    obtain ⟨frame, own, -, -, hp⟩ := hat
    exact ⟨frame, by rw [hp]; exact Array.back?_push⟩
  obtain ⟨frame, hback⟩ := hback
  have hg₀ := hcarries.inherits.genuine hg
  obtain ⟨hsane, bottom, hdepth, B, σ, z, hattends, -, hshows⟩ :=
    P.hosted.attended P.comes.comes hg₀ hback
  have hbelow : P.depth ≤ A.outer.frames.size := by
    have hunder := (hattends.waits hg₀).under.frames.length_le
    have hheight := hat.size_frames
    have hheight' := hshows.place.size_frames
    simp only [Array.length_toList] at hunder
    omega
  exact (hcarries.belongs hg hsane.closed (.running hbelow hruns hat)).onStack

/-- A step over is in force until the debugger is asked again. It ends where that is demanded, and at
another place if the call stack of the processor is not higher than it was: in the function where the
step began, and in those that wait for it on its processor, at every other place. As long as that
function is on the stack, it does not end in another one. So it is with everything that is called on the
same processor: only the body of a coroutine has another. -/
theorem stepOver_stops (hover : P.resumed.debug.action = .stepOver) {d f : Nat} {j : Instruction}
    (h : Attains P.n (.request P.request) P.start k (.loop d f) v)
    (hscript : v.active = P.resumed.active) (hsame : v.debug.answers = P.resumed.debug.answers) :
    v.debug.last = P.instruction.span ∧
      (v.Pauses j ↔ v.Demands j ∨ (v.debug.Moves j.span ∧
        v.processor.frames.size ≤ P.stopped.processor.frames.size)) ∧
      (∀ B : Activation, B.OnStack P.stopped.processor → B.Remains v.processor →
        (v.Pauses j ↔ v.Demands j ∨ v.debug.Moves j.span)) ∧
      (∀ A : Activation, A.Remains P.stopped.processor → A.OnStack v.processor → v.Pauses j →
        v.Demands j ∨ A.Remains v.processor) ∧
      ∀ (A : Activation) (x y : Nat), P.here.Runs A x y → A.At x y P.here.processor →
        A.Carries P.m (.loop P.depth (P.fuel + 1)) P.here k (.loop d f) v → v.Genuine →
          A.OnStack v.processor := by
  obtain ⟨hattached, hdepth, hlast⟩ := P.stepOver_begins hover
  have hheeds := P.heeds h hscript hsame
  have haction := (hheeds.action hsame).trans hover
  have hpauses : v.Pauses j ↔ v.Demands j ∨ (v.debug.Moves j.span ∧
      v.processor.frames.size ≤ P.stopped.processor.frames.size) := by
    rw [World.pauses_stepOver (hheeds.attached hattached) haction, hheeds.depthAtStep hsame, hdepth]
  refine ⟨?_, hpauses, fun B hon hremains => ?_, fun A hremains hon hpaused => ?_, ?_⟩
  · have hstepping : P.resumed.debug.action ≠ .run := by
      rw [hover]
      decide
    exact (hheeds.last hsame hstepping).trans hlast
  · have hheight : v.processor.frames.size ≤ P.stopped.processor.frames.size := by
      have hlow := hon.size_lt
      have hsize := hremains.size_frames
      omega
    rw [hpauses, and_iff_left hheight]
  · rcases hpauses.1 hpaused with hdemands | ⟨-, hheight⟩
    · exact .inl hdemands
    · exact .inr (hon.remains (hremains.size_frames ▸ hheight))
  · exact fun A x y hruns hat hcarries hg => P.onStack hruns hat hcarries hg

/-- All scripts get a debugger that always answers with a step over. -/
def overseen (w : World) : World :=
  { w with scripts := w.scripts.map fun s =>
      { s with debug := { debugger := some { fallback := { kind := .stepOver } } } } }

/-- What is checked of a source text that a host calls with a debugger that always answers with a step
over: that is the answer after `k` instructions, and after `j` more control is in a function that was
called, at another place. -/
def passesOver (source : String) (k j : Nat) : Bool :=
  match Script.create {} {} with
  | .error .. => false
  | .ok _ w₀ =>
    w₀.active.index < w₀.scripts.size &&
    match Exec.loadFunction source none none (overseen w₀) with
    | .ok (.function f) w =>
      let s := w.scripts.getD w.active.index default
      w.active.index < w.scripts.size && s.nesting < s.options.maxNestedCalls &&
      w.processor.frames.size == 0 &&
      match enterClosure f [] none none w.nested with
      | .error .. => false
      | .ok _ u => match (Reentry.atDepth 1).proceed 0 k u, (Reentry.atDepth 1).proceed 0 (k + j) u with
        | some here, some v =>
          match (here.scripts.getD here.active.index default).code.instruction? here.processor.ip,
            (v.scripts.getD v.active.index default).code.instruction? v.processor.ip with
          | some i, some ⟨_, some place⟩ =>
            match Reentry.hear (here.scripts.getD here.active.index default) i here with
            | .error .. => false
            | .ok _ resumed => here.debug.answers < resumed.debug.answers &&
              resumed.debug.action == .stepOver && v.active == resumed.active &&
              v.debug.answers == resumed.debug.answers && v.debug.debugger.all (·.pauseAt.isEmpty) &&
              place.isStepStop && v.debug.movedTo place && !v.debug.isBreakpoint place &&
              here.processor.frames.size < v.processor.frames.size
          | _, _ => false
        | _, _ => false
    | _ => false

/-- A function that is called is stepped over. -/
theorem stepOver_stops_called : ∃ (P : Pause) (k d f : Nat) (v : World) (j : Instruction),
    P.resumed.debug.action = .stepOver ∧
      Attains P.n (.request P.request) P.start k (.loop d f) v ∧ v.active = P.resumed.active ∧
      v.debug.answers = P.resumed.debug.answers ∧ v.debug.Moves j.span ∧ ¬v.Pauses j := by
  obtain ⟨source, hcheck⟩ : ∃ source, passesOver source 3 6 = true :=
    ⟨"return (function() return 1 end)()", by decide +kernel⟩
  unfold passesOver at hcheck
  cases hscript : Script.create {} {} with
  | error e w => simp [hscript] at hcheck
  | ok _ w₀ =>
    simp only [hscript, Bool.and_eq_true, decide_eq_true_eq] at hcheck
    obtain ⟨hactive₀, hcheck⟩ := hcheck
    split at hcheck
    · next f w hload =>
      have hoverseen : (overseen w₀).Hosted := by
        refine .settings (.script (.empty rfl rfl rfl) hscript) rfl rfl ?_
        exact Array.map_map
      have hw : w.Hosted := .provides hoverseen (Nat.lt_of_lt_of_eq hactive₀ (Array.size_map ..).symm)
        (.loadFunction _ none none) (.inl ⟨_, hload⟩)
      simp only [Bool.and_eq_true, decide_eq_true_eq, beq_iff_eq] at hcheck
      obtain ⟨⟨⟨hactive, hnest⟩, hframes⟩, hcheck⟩ := hcheck
      split at hcheck
      · cases hcheck
      · next _ u henter =>
        split at hcheck
        · next here v hhere hv =>
          split at hcheck
          · next i op place hi hj =>
            split at hcheck
            · cases hcheck
            · next _ resumed hheard =>
              simp only [Bool.and_eq_true, decide_eq_true_eq, beq_iff_eq, Bool.not_eq_true'] at hcheck
              obtain ⟨⟨⟨⟨⟨hcheck, hfront⟩, hstop⟩, hmoved⟩, hbreak⟩, hheight⟩ := hcheck
              obtain ⟨⟨⟨hanswered, hover⟩, hsame⟩, hanswers⟩ := hcheck
              have henters : Attains 1 (.request (.call (.function f) [])) w 1 (.loop 0 stepLimit) u := by
                refine .onward (.inward (.call hnest)) (.onward (.inward (.closure rfl henter)) ?_)
                rw [hframes]
                exact .here
              have hcomes := henters.trans (.of_passes (Reentry.passes_of_proceed hhere))
              let P : Pause := ⟨1, .call (.function f) [], w, 1, 0, stepLimit - 4, here, i, here,
                resumed, hw, hactive, hcomes, hi, .arriving hheard, hanswered⟩
              have hlater := henters.trans (.of_passes (Reentry.passes_of_proceed hv))
              obtain ⟨-, hpauses, -⟩ :=
                P.stepOver_stops (j := ⟨op, some place⟩) hover hlater hsame hanswers
              have hmoves : v.debug.Moves (some place) := ⟨place, rfl, hstop, hmoved⟩
              refine ⟨P, 1, 0, _, v, ⟨op, some place⟩, hover, hlater, hsame, hanswers, hmoves, ?_⟩
              rw [hpauses]
              rintro ((⟨front, hfront', hrequested⟩ | ⟨_, hplace, -, -, hbreak'⟩) | ⟨-, hlow⟩)
              · simp only [hfront', Option.all_some, List.isEmpty_iff] at hfront
                rw [hfront] at hrequested
                cases hrequested
              · cases hplace
                rw [hbreak] at hbreak'
                cases hbreak'
              · exact Nat.not_le_of_lt hheight hlow
          · cases hcheck
        · cases hcheck
    · cases hcheck

end Pause

end LuaMachine
