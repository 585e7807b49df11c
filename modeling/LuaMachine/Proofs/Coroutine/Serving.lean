import LuaMachine.Proofs.Loops.Bounded

/-!
# What a request carries out

A request to call a function or to resume a coroutine enters a function, or goes on with a loop of
instructions. That function and its loop is what the request carries out itself (`Serves`); whatever
is asked for on the way is carried out by another request. So every function and every loop that
control comes to is served by one request (`Encloses.exists_serves`).

A request runs its code above a processor that is known: a call above the one that was running, and a
resumption above that of a new coroutine (`Serves.above`). What comes of the request is told by how its
code ends (`Serves.resume_eq`, `Serves.call_eq`).
-/

namespace LuaMachine

open Exec

/-- Where instructions are carried out: a function that is entered, and a loop. -/
def Spot.IsCode : Spot → Prop
  | .function .. | .loop .. => True
  | .request _ | .native .. => False

/-- How code ends. A request and a native function end with a value. -/
def Spot.exit (r : Reentry) : Spot → Exec Exit
  | .function depth f args => r.enterFunction depth f args
  | .loop depth fuel => r.run depth fuel
  | .request q => return .returned (← r.perform q)
  | .native f args caller => return .returned (← f.run r caller ⟨args⟩)

/-- What a request, asked for in a world, carries out itself at a depth of the machine: what it enters,
and the loop of instructions from there on. -/
inductive Serves (m : Nat) (q : Request) (u : World) : Spot → World → Prop
  | entered {spot : Spot} {v : World} {link : List (ScriptId × CoroutineId)}
    (h : Inward m (.request q) u link m spot v) : Serves m q u spot v
  | onward {spot : Spot} {depth fuel : Nat} {v v' : World} (h : Serves m q u spot v)
    (hcode : spot.IsCode) (hnext : Inward m spot v [] m (.loop depth fuel) v') :
    Serves m q u (.loop depth fuel) v'

variable {n m depth fuel : Nat} {q : Request} {spot inner : Spot} {w u v v' : World}
  {link chain : List (ScriptId × CoroutineId)}

/-- Code is served by the last request on the way to it, or it is the code that control comes from. -/
theorem Encloses.serves_or (h : Encloses n spot w chain m inner v) (hcode : inner.IsCode) :
    (∃ q u chain', Encloses n spot w chain' m (.request q) u ∧ Serves m q u inner v) ∨
      spot.IsCode ∧ n = m ∧ ∀ q u, Serves m q u spot w → Serves m q u inner v := by
  induction h with
  | here => exact .inr ⟨hcode, rfl, fun _ _ => id⟩
  | @inward n k m spot between inner w w₁ v link chain hfirst hrest ih =>
    rcases ih hcode with ⟨q, u, chain', hbefore, hserves⟩ | ⟨hbetween, rfl, hserves⟩
    · exact .inl ⟨q, u, chain' ++ link, .inward hfirst hbefore, hserves⟩
    · cases hfirst with
      | next hi hheard hstep =>
        exact .inr ⟨trivial, rfl, fun q u h => hserves q u (.onward h trivial (.next hi hheard hstep))⟩
      | closure hf henter =>
        exact .inr ⟨trivial, rfl, fun q u h => hserves q u (.onward h trivial (.closure hf henter))⟩
      | call hnest => exact .inl ⟨_, _, [], .here, hserves _ _ (.entered (.call hnest))⟩
      | start hc hbody => exact .inl ⟨_, _, [], .here, hserves _ _ (.entered (.start hc hbody))⟩
      | again hc hbody hpush =>
        exact .inl ⟨_, _, [], .here, hserves _ _ (.entered (.again hc hbody hpush))⟩
      | _ => exact hbetween.elim

/-- Every function and every loop that control comes to from a request is served by a request. -/
theorem Encloses.exists_serves (h : Encloses n (.request q) w chain m inner v)
    (hcode : inner.IsCode) :
    ∃ q' u chain', Encloses n (.request q) w chain' m (.request q') u ∧ Serves m q' u inner v :=
  (h.serves_or hcode).resolve_right fun hnot => hnot.1

theorem Serves.inherits (h : Serves m q u spot v) : u.Inherits v := by
  induction h with
  | entered h => exact h.inherits
  | onward _ _ hnext ih => exact ih.trans hnext.inherits

theorem Serves.live (h : Serves m q u spot v) (hu : u.Live) : v.Live := by
  induction h with
  | entered h => exact h.live hu
  | onward _ _ hnext ih => exact hnext.live ih

/-- A loop serves the same request however far it goes. -/
theorem Serves.passes {k : Nat} (hpasses : (Reentry.atDepth m).Passes depth k v v')
    (h : Serves m q u (.loop depth (k + fuel)) v) : Serves m q u (.loop depth fuel) v' := by
  induction hpasses with
  | refl => exact Nat.zero_add fuel ▸ h
  | @step k w w₁ w₂ v i hi hheard hstep _ ih =>
    rw [Nat.add_right_comm] at h
    exact ih (h.onward trivial (.next hi hheard hstep))

/-! ## Above which processor -/

/-- The processor above which a request runs code. A coroutine that is resumed has one of its own. -/
def Request.bottom (q : Request) (u : World) : Processor :=
  match q with
  | .resume .. => .ofCoroutine
  | _ => u.processor

/-- Code above a processor: a function is entered there, and a loop of instructions is under way. -/
def Spot.Above (bottom : Processor) (v : World) : Spot → Prop
  | .function depth _ _ => bottom.frames.size = depth ∧ v.processor = bottom
  | .loop depth _ => bottom.frames.size = depth ∧ v.InLoop bottom
  | .request _ | .native .. => True

theorem Inward.above_entered (h : Inward m (.request q) u link m spot v) (hresumable : u.Resumable) :
    spot.Above (q.bottom u) v := by
  cases h with
  | call hnest => exact ⟨rfl, rfl⟩
  | start hc hbody =>
    have hfresh := (hresumable _ _ hc.coroutine).fresh _ _ hbody
    exact ⟨rfl, hfresh⟩
  | again hc hbody hpush => exact ⟨rfl, inLoop_of_resumes hresumable hc hbody hpush⟩
  | _ => trivial

theorem Inward.above_onward {bottom : Processor} (h : Inward m spot v [] m (.loop depth fuel) v') (hcode : spot.IsCode)
    (hg : v'.Genuine) (hclosed : v.Closed) (habove : spot.Above bottom v) :
    (Spot.loop depth fuel).Above bottom v' := by
  cases h with
  | next hi hheard hstep =>
    obtain ⟨rfl, hloop⟩ := habove
    obtain ⟨-, hloop', -⟩ :=
      Reentry.loop_instruction (Reentry.calm_atDepth _) hi hheard hstep hg hclosed hloop
    exact ⟨rfl, hloop'⟩
  | closure hf henter =>
    obtain ⟨hdepth, rfl⟩ := habove
    exact ⟨hdepth, inLoop_of_enters hf henter hg hclosed⟩

/-- All that a request carries out is above its processor. -/
theorem Serves.above (h : Serves m q u spot v) (hg : v.Genuine) (hclosed : u.Closed)
    (hresumable : u.Resumable) : spot.Above (q.bottom u) v := by
  induction h with
  | entered h => exact h.above_entered hresumable
  | onward h hcode hnext ih =>
    have hg' := hnext.inherits.genuine hg
    exact hnext.above_onward hcode hg (h.inherits.closed hg' hclosed) (ih hg')

/-! ## What comes of it -/

theorem Inward.exit_eq (h : Inward m spot v [] m (.loop depth fuel) v') (hcode : spot.IsCode) :
    spot.exit (Reentry.atDepth m) v = (Spot.loop depth fuel).exit (Reentry.atDepth m) v' := by
  cases h with
  | @next n depth fuel w w₁ w₂ i hi hheard hstep =>
    change (Reentry.atDepth m).run depth (fuel + 1) v = _
    rw [Reentry.run_eq _ depth fuel hi, bind_ok hheard]
    unfold Reentry.stepThen
    rw [hstep]
    rfl
  | closure hf henter => exact (bind_ok hf).trans (bind_ok henter)

/-- What comes of a resumption is told by how the code ends that it carries out. -/
theorem Serves.resume_eq {id : CoroutineId} {args : List Value}
    (h : Serves m (.resume id args) u spot v) (hcode : spot.IsCode) (hu : u.Live) :
    (Reentry.atDepth m).resumeCoroutine id args u =
      andFinally (fun _ => Reentry.concluding id u.processor (spot.exit (Reentry.atDepth m) v))
        (·.unnested u.active) u.nested := by
  induction h with
  | entered h =>
    cases h with
    | start hc hbody =>
      rw [(Reentry.tidy_atDepth m).resumeCoroutine_eq hu hc hbody]
      rfl
    | @again _ _ _ p _ _ _ hc hbody hpush =>
      have hgoes : (Reentry.atDepth m).continueBody none args (u.nested.resuming id p) =
          (Reentry.atDepth m).run 0 stepLimit _ := bind_ok hpush
      rw [(Reentry.tidy_atDepth m).resumeCoroutine_eq hu hc hbody]
      unfold andFinally
      dsimp only
      rw [hgoes]
      rfl
  | onward h hbefore hnext ih => rw [ih hbefore, hnext.exit_eq hbefore]

theorem Coroutine.Change.size_le {cs cs' : Array Coroutine} (h : Coroutine.Change cs cs') :
    cs.size ≤ cs'.size := by
  cases h with
  | create hc =>
    rw [Array.size_push]
    exact Nat.le_succ _
  | body i b => exact Nat.le_of_eq Array.size_modify.symm
  | become hc hs => exact Nat.le_of_eq Array.size_modify.symm

/-- Coroutines do not go away. -/
theorem World.Evolves.exists_coroutine (h : w.Evolves v) {id : CoroutineId} {c : Coroutine}
    (hc : w.heap.coroutine? id = some c) : ∃ c', v.heap.coroutine? id = some c' := by
  have hsize : ∀ {cs cs'}, Relation.ReflTransGen Coroutine.Change cs cs' → cs.size ≤ cs'.size := by
    intro cs cs' h
    induction h with
    | refl => exact Nat.le_refl _
    | tail _ hlast ih => exact Nat.le_trans ih hlast.size_le
  have hlt : id.index < w.heap.coroutines.size := (Array.getElem?_eq_some_iff.1 hc).1
  exact ⟨_, Array.getElem?_eq_getElem (Nat.lt_of_lt_of_le hlt (hsize h))⟩

/-- What a coroutine that has just stopped is like. -/
theorem Heap.of_coroutine_stopped {h : Heap} {id : CoroutineId} {state : CoroutineState}
    {body : Option CoroutineBody} {c : Coroutine}
    (hc : (h.modifyCoroutine id fun c => { c with state, body }).coroutine? id = some c) :
    c.state = state ∧ c.body = body := by
  rw [World.coroutine?_modify, if_pos rfl] at hc
  obtain ⟨c', -, rfl⟩ := Option.map_eq_some_iff.1 hc
  exact ⟨rfl, rfl⟩

theorem Serves.mayResume {id : CoroutineId} {args : List Value}
    (h : Serves m (.resume id args) u spot v) : ∃ c, u.MayResume id c := by
  induction h with
  | entered h =>
    cases h with
    | start hc hbody => exact ⟨_, hc⟩
    | again hc hbody hpush => exact ⟨_, hc⟩
  | onward _ _ _ ih => exact ih

/-- If the code of a resumption ends with a suspension, the coroutine is suspended with the processor as
it is then. -/
theorem Serves.resume_yielded {id : CoroutineId} {args : List Value}
    (h : Serves m (.resume id args) u spot v) (hcode : spot.IsCode) (hu : u.Live) {x : Value}
    (hexit : spot.exit (Reentry.atDepth m) v = .ok (.yielded x) v') :
    ∃ w' c', (Reentry.atDepth m).resumeCoroutine id args u = .ok x w' ∧
      w'.heap.coroutine? id = some c' ∧ c'.state = .suspended ∧
      c'.body = some { processor := v'.processor, function := none } := by
  have hresume := h.resume_eq hcode hu
  unfold andFinally at hresume
  rw [hexit] at hresume
  obtain ⟨c, hc⟩ := h.mayResume
  have hcontinues := ((Reentry.tidy_atDepth m).resumeCoroutine hu id args).ok hresume
  obtain ⟨c', hc'⟩ := hcontinues.evolves.exists_coroutine hc.coroutine
  exact ⟨_, c', hresume, hc', Heap.of_coroutine_stopped hc'⟩

namespace Reentry

/-- What comes of a call, by how its code ends. -/
def settled (outer : Processor) : EStateM.Result Stop World Exit → EStateM.Result Stop World Value
  | .ok (.returned x) w => .ok x { w with processor := { w.processor with ip := outer.ip } }
  | .ok (.yielded _) w => .error (.error (.ofFault .yieldAcrossHost)) { w with
      processor := { w.processor.unwind outer.frames.size outer.values.size with ip := outer.ip } }
  | .error (.error e) w => .error (.error e) { w with
      processor := { w.processor.unwind outer.frames.size outer.values.size with ip := outer.ip } }
  | .error stop w => .error stop w

/-- A call at a level of nesting of its own. -/
theorem callFunction_eq (r : Reentry) (hnest : u.MayNest) (f : Value) (args : List Value) :
    r.callFunction f args u = andFinally
      (fun _ => settled u.processor
        (r.enterFunction u.processor.frames.size f (Value.flatten args) u.nested))
      (·.unnested u.active) u.nested := by
  unfold callFunction
  rw [nested_eq _ hnest]
  unfold andFinally
  congr 1
  change andSettle (EStateM.bind (r.enterFunction u.processor.frames.size f (Value.flatten args)) _)
    _ _ u.nested = _
  unfold andSettle EStateM.bind
  cases r.enterFunction u.processor.frames.size f (Value.flatten args) u.nested with
  | ok exit w => cases exit <;> rfl
  | error stop w => cases stop <;> rfl

end Reentry

/-- What comes of a call is told by how the code ends that it carries out. -/
theorem Serves.call_eq {f : Value} {args : List Value} (h : Serves m (.call f args) u spot v)
    (hcode : spot.IsCode) :
    (Reentry.atDepth m).callFunction f args u =
      andFinally (fun _ => Reentry.settled u.processor (spot.exit (Reentry.atDepth m) v))
        (·.unnested u.active) u.nested := by
  induction h with
  | entered h =>
    cases h with
    | call hnest => exact Reentry.callFunction_eq _ hnest f args
  | onward h hbefore hnext ih => rw [ih hbefore, hnext.exit_eq hbefore]

end LuaMachine
