import LuaMachine.Proofs.Coroutine.Yieldable
import LuaMachine.Proofs.Machine.Enduring

/-!
# What endures from the inside of a computation

A relation of worlds that endures (`Exec.Enduring`) holds between the world where something begins and
every world that control comes to from there (`Comes.endures`), although that may be in the middle of a
native function or of an instruction. It also holds between the end of what is inside and the end of
what it is inside of (`Inward.outlasts`): nothing is undone on the way out.
-/

namespace LuaMachine

open Exec

variable {R : World → World → Prop} {r : Reentry} {α β : Type} {w v u : World} {q : Request}

/-! ## On the way inwards -/

namespace Exec.Enduring

variable (hR : Enduring R)

include hR

theorem lasting (w : World) : World.Lasting (R w) :=
  ⟨fun h hquiet => hR.trans h (hR.quiet hquiet), fun h _ => hR.trans h (hR.same rfl rfl)⟩

theorem resuming (w : World) (id : CoroutineId) (p : Processor) : R w (w.nested.resuming id p) :=
  hR.trans (hR.quiet w.quiet_nested)
    (hR.of_modify (f := fun s => { s with running := id :: s.running }) rfl (fun _ => rfl) rfl)

end Exec.Enduring

namespace Reentry.Endures

variable (hr : r.Endures R) (hR : Enduring R)

include hr hR

/-- A request is made in a world that is related to the one where the computation began. -/
theorem asks {x : Reentry → Exec α}
    (hx : ∀ r', Alike (AgreeOn (R w)) r r' → AgreeOn (R w) (x r) (x r'))
    (hasks : Asks x r w q v) : R w v := by
  obtain ⟨a, ha⟩ := hasks
  by_contra hv
  -- the other answer is never given, since the world it is for is never reached
  have hne : ∀ w', R w w' → w' ≠ v := by
    rintro w' hw' rfl
    exact hv hw'
  have hleads : ∀ {x : Exec Value} (w' : World), x.Ends R → R w w' →
      x.Leads w' (fun _ => R w) (R w) := fun w' hx hw' =>
    (Leads.of_ends hx w').mono (fun _ _ => hR.trans hw') fun _ => hR.trans hw'
  have hsame : Alike (AgreeOn (R w)) r (r.answering q v a) := by
    refine ⟨(hR.lasting w).uniform, ?_, ?_, ?_⟩
    · exact fun f args w' hw' =>
        ⟨(if_neg fun h => hne w' hw' h.2).symm, hleads w' (hr.call f args) hw'⟩
    · exact fun id args w' hw' =>
        ⟨(if_neg fun h => hne w' hw' h.2).symm, hleads w' (hr.resume id args) hw'⟩
    · exact fun id code w' hw' =>
        ⟨(if_neg fun h => hne w' hw' h.2).symm, hleads w' (hr.enter id code) hw'⟩
  exact ha ((hx _ hsame w (hR.refl w)).1).symm

theorem asks_native {f : Native} {caller : Option Span} {args : Arguments}
    (hasks : Asks (f.run · caller args) r w q v) : R w v :=
  hr.asks hR (fun _ hr' => hr'.native caller args f) hasks

theorem asks_step {depth : Nat} {i : Instruction} (hasks : Asks (·.step depth i) r w q v) : R w v :=
  hr.asks hR (fun _ hr' => hr'.step (hR.lasting w) depth i) hasks

end Reentry.Endures

section Inwards

variable {n m k : Nat} {spot between inner : Spot} {link chain : List (ScriptId × CoroutineId)}
  {w₁ : World}

/-- What a loop comes to from where the debugger has let its instruction pass. -/
theorem Inward.endures_heard {depth fuel : Nat} {i : Instruction} {w₂ : World}
    (h : Inward n (.loop depth (fuel + 1)) w link k between w₁)
    (hi : (w.scripts.getD w.active.index default).code.instruction? w.processor.ip = some i)
    (hheard : Reentry.hear (w.scripts.getD w.active.index default) i w = .ok () w₂)
    (hR : Enduring R) : R w₂ w₁ := by
  have hr := fun n => Reentry.endures_atDepth hR n
  cases h with
  | next hi' hheard' hstep =>
    cases hi.symm.trans hi'
    cases hheard.symm.trans hheard'
    exact ((hr _).step hR _ _).ok hstep
  | asked hi' hheard' hcall hasks =>
    cases hi.symm.trans hi'
    cases hheard.symm.trans hheard'
    exact (hr _).asks_step hR hasks
  | invoked hi' hheard' hcalled hyield hdepth =>
    cases hi.symm.trans hi'
    cases hheard.symm.trans hheard'
    exact hR.trans ((hR.ends_quiet (quiet_called _)).ok hcalled) (hR.same rfl rfl)

theorem Inward.endures (h : Inward n spot w link k between w₁) (hR : Enduring R) : R w w₁ := by
  have hheard : ∀ {s : Script} {i : Instruction} {w₂ : World}, Reentry.hear s i w = .ok () w₂ → R w w₂ :=
    fun h => (hR.ends_quiet (Reentry.quiet_hear _ _)).ok h
  have hinward := h
  cases h with
  | next hi hheard' hstep => exact hR.trans (hheard hheard') (hinward.endures_heard hi hheard' hR)
  | asked hi hheard' hcall hasks =>
    exact hR.trans (hheard hheard') (hinward.endures_heard hi hheard' hR)
  | invoked hi hheard' hcalled hyield hdepth =>
    exact hR.trans (hheard hheard') (hinward.endures_heard hi hheard' hR)
  | nativeAsked hf hasks => exact (Reentry.endures_atDepth hR _).asks_native hR hasks
  | closure hf henter =>
    have hfirst := (hR.ends_quiet (aside_resolveCallable _ _).quiet).ok hf
    exact hR.trans hfirst ((hR.ends_quiet (quiet_enterClosure _ _ _ _)).ok henter)
  | callback hf hyield hdepth =>
    have hfirst := (hR.ends_quiet (aside_resolveCallable _ _).quiet).ok hf
    exact hR.trans hfirst (hR.same rfl rfl)
  | call hnest => exact hR.quiet w.quiet_nested
  | start hc hbody => exact hR.resuming w _ _
  | again hc hbody hpush =>
    exact hR.trans (hR.resuming w _ _) ((hR.ends_quiet (quiet_push _)).ok hpush)
  | host hacquire =>
    have hfirst := (hR.ends_quiet Reentry.quiet_acquire).ok hacquire
    exact hR.trans hfirst (hR.same rfl rfl)
  | @enter n token id code f w w₁ w₂ hid hload htoken =>
    have hactive : R w { w with active := id } := hR.same rfl rfl
    have hloaded := (hR.ends_quiet (quiet_loadString code none none)).ok hload
    have htokened := (hR.ends_quiet aside_newToken.quiet).ok htoken
    exact hR.trans (hR.trans hactive hloaded) htokened

/-- Wherever control comes to, the relation holds. -/
theorem Comes.endures (h : Comes n spot w m inner v) (hR : Enduring R) : R w v := by
  induction h with
  | here => exact hR.refl _
  | inward hfirst _ ih => exact hR.trans (hfirst.endures hR) ih
  | asked hasks _ ih => exact hR.trans ((Reentry.endures_atDepth hR _).asks_native hR hasks) ih
  | cancelled hcancel _ ih => exact hR.trans ((hR.ends_quiet (aside_cancel _).quiet).ok hcancel) ih

end Inwards

/-! ## On the way out -/

namespace Exec

theorem final_ok {x : Exec α} {a : α} (h : x w = .ok a v) : x.final w = v := by
  unfold final
  rw [h]

theorem final_error {x : Exec α} {s : Stop} (h : x w = .error s v) : x.final w = v := by
  unfold final
  rw [h]

theorem final_congr {x x' : Exec α} (h : x w = x' v) : x.final w = x'.final v := by
  unfold final
  rw [h]

/-- Two computations come to the same, unless the first one ends in a world that is related to a given
one. -/
def UnlessAfter (R : World → World → Prop) (u : World) (x x' : Exec α) : Prop :=
  x.Ends R ∧ ∀ w, x w = x' w ∨ R u (x.final w)

theorem andFinally_outlasts {x : Exec α} {after : World → World} (hafter : ∀ w, R w (after w))
    (w : World) : R (x.final w) ((andFinally x after).final w) := by
  have hfinal : (andFinally x after).final w = after (x.final w) := by
    unfold andFinally final
    dsimp only
    cases x w <;> rfl
  exact hfinal ▸ hafter _

theorem unlessAfter_same {x : Exec α} (hx : x.Ends R) : UnlessAfter R u x x := ⟨hx, fun _ => .inl rfl⟩

namespace Enduring

variable (hR : Enduring R)

include hR

/-- What follows a computation. -/
theorem bind_outlasts {x : Exec α} {f : α → Exec β} (hf : ∀ a, (f a).Ends R) (w : World) :
    R (x.final w) ((x >>= f).final w) := by
  cases hx : x w with
  | ok a w' =>
    rw [final_ok hx, final_congr (bind_ok (f := f) hx)]
    exact ends_iff.1 (hf a) w'
  | error s w' =>
    rw [final_error hx, final_error (bind_error (f := f) hx)]
    exact hR.refl w'

theorem andSettle_outlasts {x : Exec α} {onValue onError : World → World}
    (hvalue : ∀ w, R w (onValue w)) (herror : ∀ w, R w (onError w)) (w : World) :
    R (x.final w) ((andSettle x onValue onError).final w) := by
  unfold andSettle final
  dsimp only
  cases x w with
  | ok a w' => exact hvalue w'
  | error s w' =>
    cases s with
    | error e => exact herror w'
    | _ => exact hR.refl w'

theorem catchError_outlasts {x : Exec α} {f : ScriptError → Exec α} (hf : ∀ e, (f e).Ends R)
    (w : World) : R (x.final w) ((Exec.catchError x f).final w) := by
  unfold Exec.catchError final
  dsimp only
  cases x w with
  | ok a w' => exact hR.refl w'
  | error s w' =>
    cases s with
    | error e => exact ends_iff.1 (hf e) w'
    | _ => exact hR.refl w'

theorem unlessAfter_bind {x x' : Exec α} {f f' : α → Exec β} (hx : UnlessAfter R u x x')
    (hf : ∀ a, UnlessAfter R u (f a) (f' a)) : UnlessAfter R u (x >>= f) (x' >>= f') := by
  have hends : ∀ a, (f a).Ends R := fun a => (hf a).1
  refine ⟨hR.ends_bind hx.1 hends, fun w => ?_⟩
  rcases hx.2 w with hsame | hafter
  · cases hx' : x' w with
    | ok a w' =>
      rw [bind_ok (hsame.trans hx'), bind_ok hx', final_congr (bind_ok (f := f) (hsame.trans hx'))]
      exact (hf a).2 w'
    | error s w' => exact .inl ((bind_error (hsame.trans hx')).trans (bind_error hx').symm)
  · exact .inr (hR.trans hafter (hR.bind_outlasts hends w))

theorem unlessAfter_catchError {x x' : Exec α} {f f' : ScriptError → Exec α}
    (hx : UnlessAfter R u x x') (hf : ∀ e, UnlessAfter R u (f e) (f' e)) :
    UnlessAfter R u (Exec.catchError x f) (Exec.catchError x' f') := by
  refine ⟨hR.ends_catchError hx.1 fun e => (hf e).1, fun w => ?_⟩
  rcases hx.2 w with hsame | hafter
  · unfold Exec.catchError final
    dsimp only
    rw [hsame]
    cases x' w with
    | ok a w' => exact .inl rfl
    | error s w' =>
      cases s with
      | error e => exact (hf e).2 w'
      | _ => exact .inl rfl
  · exact .inr (hR.trans hafter (hR.catchError_outlasts (fun e => (hf e).1) w))

theorem uniform_unlessAfter (u : World) : Uniform (UnlessAfter R u) where
  aside hx := unlessAfter_same (hR.ends_quiet hx.quiet)
  bind := hR.unlessAfter_bind
  catchError := hR.unlessAfter_catchError
  intruding {α x x'} hx := by
    refine ⟨@Uniform.intruding _ hR.uniform α x x hx.1, fun w => ?_⟩
    rcases hx.2 { w with thread := intruderThread } with hsame | hafter
    · refine .inl ?_
      unfold Probe.intruding andFinally
      dsimp only
      rw [hsame]
    · have hback : ∀ w' : World, R w' { w' with thread := w.thread } := fun _ => hR.same rfl rfl
      exact .inr (hR.trans hafter (andFinally_outlasts hback _))
  loadString code env name := unlessAfter_same (hR.ends_quiet (quiet_loadString code env name))
  start f := unlessAfter_same (hR.ends_startCoroutine f)

end Enduring

end Exec

namespace Reentry

variable {n k m depth : Nat} {i : Instruction}

/-- A computation that reaches the machine only by the ways in that it is given. -/
structure WorksThrough (x : Reentry → Exec α) : Prop where
  alike : ∀ {Φ : {β : Type} → Exec β → Exec β → Prop} {r r' : Reentry}, Alike Φ r r' →
    (∀ {β : Type} {y : Exec β}, y.Quiet → Φ y y) → Φ (x r) (x r')

theorem worksThrough_native (f : Native) (caller : Option Span) (args : Arguments) :
    WorksThrough (f.run · caller args) := ⟨fun h _ => h.native caller args f⟩

theorem worksThrough_step (hcall : ∀ argc, i.op ≠ .call argc) : WorksThrough (·.step depth i) :=
  ⟨fun h hquiet => (PairedQuietly.mk h.toPaired hquiet).step depth i hcall⟩

/-- The world where a machine has answered a request. -/
def answered (r : Reentry) (q : Request) (v : World) : World :=
  match q with
  | .call f args => (r.call f args).final v
  | .resume id args => (r.resume id args).final v
  | .enter id code => (r.enter id code).final v
  | .host .. => v

theorem answered_atDepth {x : Reentry → Exec α} (hasks : Asks x r w q v) (n : Nat) :
    (atDepth (n + 1)).answered q v = ((atDepth n).perform q).final v := by
  cases q with
  | host token f args => exact (not_asks_host hasks).elim
  | _ => rfl

/-- With another answer to a request, only what comes after the first answer is different. -/
theorem alike_unlessAfter (hr : r.Endures R) (hR : Enduring R) (q : Request) (v : World)
    (a : EStateM.Result Stop World Value) :
    Alike (UnlessAfter R (r.answered q v)) r (r.answering q v a) := by
  refine ⟨hR.uniform_unlessAfter _, fun f args => ?_, fun id args => ?_, fun id code => ?_⟩
  · refine ⟨hr.call f args, fun w => ?_⟩
    by_cases h : q = .call f args ∧ w = v
    · obtain ⟨rfl, rfl⟩ := h
      exact .inr (hR.refl _)
    · exact .inl (if_neg h).symm
  · refine ⟨hr.resume id args, fun w => ?_⟩
    by_cases h : q = .resume id args ∧ w = v
    · obtain ⟨rfl, rfl⟩ := h
      exact .inr (hR.refl _)
    · exact .inl (if_neg h).symm
  · refine ⟨hr.enter id code, fun w => ?_⟩
    by_cases h : q = .enter id code ∧ w = v
    · obtain ⟨rfl, rfl⟩ := h
      exact .inr (hR.refl _)
    · exact .inl (if_neg h).symm

theorem WorksThrough.unlessAfter {x : Reentry → Exec α} (hx : WorksThrough x) (hr : r.Endures R)
    (hR : Enduring R) (q : Request) (v : World) (a : EStateM.Result Stop World Value) :
    UnlessAfter R (r.answered q v) (x r) (x (r.answering q v a)) :=
  hx.alike (alike_unlessAfter hr hR q v a) fun hy => unlessAfter_same (hR.ends_quiet hy)

/-- What asks the machine for something ends after the answer. -/
theorem WorksThrough.outlasts {x : Reentry → Exec α} (hx : WorksThrough x) (hR : Enduring R)
    (hasks : Asks x (atDepth (n + 1)) w q v) :
    R (((atDepth n).perform q).final v) ((x (atDepth (n + 1))).final w) := by
  rw [← answered_atDepth hasks]
  obtain ⟨a, ha⟩ := hasks
  have hunless := hx.unlessAfter (endures_atDepth hR (n + 1)) hR q v a
  exact (hunless.2 w).resolve_left fun h => ha h.symm

end Reentry

namespace Exec.Enduring

variable (hR : Enduring R)

include hR

/-- What is left of a loop after an instruction. -/
theorem stepThen_outlasts {depth : Nat} {i : Instruction} {rest : Exec Exit} (hrest : rest.Ends R)
    (r : Reentry) (w : World) :
    R ((r.step depth i).final w) ((r.stepThen depth i rest).final w) := by
  have htrace : ∀ e : ScriptError, (trace e i.span >>= failWith : Exec Exit).Ends R :=
    fun e => hR.ends_quiet ((aside_trace e i.span).bind fun _ => aside_failWith _).quiet
  unfold final Reentry.stepThen
  cases r.step depth i w with
  | ok exit w' =>
    cases exit with
    | none => exact ends_iff.1 hrest w'
    | some exit => exact hR.refl w'
  | error s w' =>
    cases s with
    | error e => exact ends_iff.1 (htrace e) w'
    | _ => exact hR.refl w'

/-- A loop ends after its next instruction. -/
theorem run_outlasts (hr : r.Endures R) {depth fuel : Nat} {i : Instruction} {w₁ : World}
    (hi : (w.scripts.getD w.active.index default).code.instruction? w.processor.ip = some i)
    (hheard : Reentry.hear (w.scripts.getD w.active.index default) i w = .ok () w₁) :
    R ((r.step depth i).final w₁) ((r.run depth (fuel + 1)).final w) := by
  have hrun : r.run depth (fuel + 1) w = r.stepThen depth i (r.run depth fuel) w₁ :=
    (Reentry.run_eq r depth fuel hi).trans (bind_ok hheard)
  rw [final_congr hrun]
  exact hR.stepThen_outlasts (hr.run hR depth fuel) r w₁

/-- A native function leaves its frame. -/
theorem invoke_outlasts (r : Reentry) {c : Callback} (args : List Value) (caller : Option Span)
    (hdepth : checkDepth w = .ok () w) :
    R ((c.native.run r caller ⟨args⟩).final (w.inside c caller))
      ((Exec.invoke r c args caller).final w) := by
  let leave (w' : World) : World := { w' with processor := { w'.processor.unwind
    w.processor.frames.size w.processor.values.size with ip := w.processor.ip } }
  have hleave : ∀ w', R w' (leave w') := fun _ => hR.same rfl rfl
  have hinvoke : Exec.invoke r c args caller w = andSettle (c.native.run r caller ⟨args⟩) leave leave
      (w.inside c caller) := bind_ok hdepth
  rw [final_congr hinvoke]
  exact hR.andSettle_outlasts hleave hleave _

/-- A call instruction ends after the native function that it calls. -/
theorem stepCall_outlasts (r : Reentry) {argc : Nat} {span : Option Span} {c : Callback}
    {args : List Value} {w₁ : World} (hcalled : called argc w = .ok (.callback c, args) w₁)
    (hyield : c.native ≠ .yield) (hdepth : checkDepth w₁ = .ok () w₁) :
    R ((c.native.run r span ⟨args⟩).final (w₁.inside c span)) ((r.stepCall argc span).final w) := by
  rw [final_congr (Reentry.stepCall_native hcalled hyield)]
  refine hR.trans (hR.invoke_outlasts r args span hdepth) (hR.bind_outlasts (fun v => ?_) w₁)
  exact hR.ends_quiet ((quiet_push v).bind fun _ => quiet_advance.bind fun _ => quiet_pure _)

/-- So does a native function that is entered as a function. -/
theorem enterFunction_outlasts (r : Reentry) {depth : Nat} {f : Value} {args args' : List Value}
    {c : Callback} {w₁ : World} (hf : resolveCallable f args w = .ok (.callback c, args') w₁)
    (hyield : c.native ≠ .yield) (hdepth : checkDepth w₁ = .ok () w₁) :
    R ((c.native.run r none ⟨args'⟩).final (w₁.inside c none))
      ((r.enterFunction depth f args).final w) := by
  have henters : r.enterFunction depth f args w =
      (Exec.invoke r c args' none >>= fun v => return .returned v : Exec Exit) w₁ := by
    unfold Reentry.enterFunction
    rw [bind_ok hf]
    dsimp only
    cases hn : c.native with
    | yield => exact absurd hn hyield
    | _ => rfl
  rw [final_congr henters]
  exact hR.trans (hR.invoke_outlasts r args' none hdepth)
    (hR.bind_outlasts (fun v => hR.ends_pure (Exit.returned v)) w₁)

end Exec.Enduring

section Outwards

variable {n m k : Nat} {spot between inner : Spot} {link chain : List (ScriptId × CoroutineId)}
  {w₁ : World}

theorem Spot.ends_exit (spot : Spot) (n : Nat) (hR : Enduring R) :
    (spot.exit (Reentry.atDepth n)).Ends R := by
  have hr := Reentry.endures_atDepth hR n
  have hreturned : ∀ {x : Exec Value}, x.Ends R → (x >>= fun v => pure (Exit.returned v)).Ends R :=
    fun hx => hR.ends_bind hx fun _ => hR.ends_pure _
  cases spot with
  | function depth f args => exact hr.enterFunction hR depth f args
  | loop depth fuel => exact hr.run hR depth fuel
  | native f args caller => exact hreturned ((hr.alike hR).native caller ⟨args⟩ f)
  | request q =>
    cases q with
    | call f args => exact hreturned (hr.callFunction hR f args)
    | resume id args => exact hreturned (hr.resumeCoroutine hR id args)
    | enter id code => exact hreturned (hr.enterScript hR id code)
    | host token f args => exact hreturned (hr.callScript hR token f args)

theorem Spot.final_exit_request (r : Reentry) (q : Request) (w : World) :
    ((Spot.request q).exit r).final w = (r.perform q).final w := by
  unfold Spot.exit
  cases h : r.perform q w with
  | ok v w' => exact (final_congr (bind_ok h)).trans (final_ok h).symm
  | error s w' => exact (final_error (bind_error h)).trans (final_error h).symm

theorem Spot.final_exit_native (r : Reentry) (f : Native) (args : List Value) (caller : Option Span)
    (w : World) : ((Spot.native f args caller).exit r).final w = (f.run r caller ⟨args⟩).final w := by
  unfold Spot.exit
  cases h : f.run r caller ⟨args⟩ w with
  | ok v w' => exact (final_congr (bind_ok h)).trans (final_ok h).symm
  | error s w' => exact (final_error (bind_error h)).trans (final_error h).symm

namespace Exec.Enduring

variable (hR : Enduring R)

include hR

/-- A call ends after the function that it enters. -/
theorem call_outlasts {f : Value} {args : List Value} (r : Reentry) (hnest : w.MayNest) :
    R ((r.enterFunction w.processor.frames.size f (Value.flatten args)).final w.nested)
      ((r.callFunction f args).final w) := by
  have hsettled : ∀ result : EStateM.Result Stop World Exit,
      R (final (fun _ => result) w.nested)
        (final (fun _ => Reentry.settled w.processor result) w.nested) := by
    intro result
    cases result with
    | ok exit w' => cases exit <;> exact hR.same rfl rfl
    | error s w' =>
      cases s with
      | error e => exact hR.same rfl rfl
      | _ => exact hR.refl w'
  have hafter : ∀ w' : World, R w' (w'.unnested w.active) := fun w' => hR.quiet (w'.quiet_unnested _)
  rw [final_congr (r.callFunction_eq hnest f args)]
  exact hR.trans (hsettled _) (andFinally_outlasts hafter _)

/-- A resumption ends after the body that it continues. -/
theorem resume_outlasts {r : Reentry} (hr : r.Tidy) (hw : w.Live) {id : CoroutineId} {c : Coroutine}
    (hc : w.MayResume id c) {body : CoroutineBody} (hbody : c.body = some body) (args : List Value) :
    R ((r.continueBody body.function args).final (w.nested.resuming id body.processor))
      ((r.resumeCoroutine id args).final w) := by
  have hstopping : ∀ (w' : World) (state : CoroutineState) (body : Option CoroutineBody)
      (p : Processor), R w' (w'.stopping id state body p) := fun w' _ _ _ =>
    hR.of_modify (f := fun s => { s with running := s.running.tail }) rfl (fun _ => rfl) rfl
  have hpopped : ∀ (w' : World) (p : Processor), R w' (w'.popped p) := fun w' _ =>
    hR.of_modify (f := fun s => { s with running := s.running.tail }) rfl (fun _ => rfl) rfl
  have hconcluding : ∀ result : EStateM.Result Stop World Exit,
      R (final (fun _ => result) w.nested)
        (final (fun _ => Reentry.concluding id w.processor result) w.nested) := by
    intro result
    cases result with
    | ok exit w' => cases exit <;> exact hstopping _ _ _ _
    | error s w' =>
      cases s with
      | error e => exact hstopping _ _ _ _
      | _ => exact hpopped _ _
  have hafter : ∀ w' : World, R w' (w'.unnested w.active) := fun w' => hR.quiet (w'.quiet_unnested _)
  rw [final_congr (hr.resumeCoroutine_eq hw hc hbody args)]
  exact hR.trans (hconcluding _) (andFinally_outlasts hafter _)

/-- A call from the host ends after the call on the main processor. -/
theorem host_outlasts {r : Reentry} {token : Nat} {f : Value} {args : List Value} {w₁ : World}
    (hacquire : Reentry.acquire w = .ok () w₁) :
    R ((r.callFunction f args).final
        { w₁ with processor := (w₁.scripts.getD w₁.active.index default).processor, token })
      ((r.callScript token f args).final w) := by
  have hended : ∀ w' : World, R w' { w' with scripts := w'.scripts.modify w'.active.index fun s =>
      { s with debug := s.debug.executionEnded } } := fun w' =>
    hR.quiet (.modifyScript w' _ (fun _ => rfl) fun s => s.debug.heeds_executionEnded)
  let after (w' : World) : World := { w' with
    scripts := w'.scripts.modify w₁.active.index fun s =>
      { s with processor := w'.processor, owner := none, counters := s.counters.countExecution }
    processor := w₁.processor
    token := w₁.token }
  have hafter : ∀ w', R w' (after w') := fun w' => hR.of_modify (f := fun s => { s with
    processor := w'.processor, owner := none, counters := s.counters.countExecution })
      rfl (fun _ => rfl) rfl
  have hmain : R _ ((Reentry.onMainProcessor token (r.callFunction f args)).final w₁) :=
    andFinally_outlasts (x := r.callFunction f args) hafter
      { w₁ with processor := (w₁.scripts.getD w₁.active.index default).processor, token }
  unfold Reentry.callScript
  rw [final_congr (bind_ok hacquire)]
  exact hR.trans hmain (hR.andSettle_outlasts hended hended w₁)

/-- To enter a script ends after the call there. -/
theorem enter_outlasts {r : Reentry} {token : Nat} {id : ScriptId} {code : String} {f : Value}
    {w₁ w₂ : World} (hid : id.index < w.scripts.size)
    (hload : loadString code none none { w with active := id } = .ok f w₁)
    (htoken : newToken w₁ = .ok token w₂) :
    R ((r.callScript token f []).final w₂) ((r.enterScript id code).final w) := by
  let entered : Exec Value := do
    let f ← loadString code none none
    r.callScript (← newToken) f []
  have hentered : entered { w with active := id } = r.callScript token f [] w₂ :=
    (bind_ok hload).trans (bind_ok htoken)
  have henters : r.enterScript id code w = within id entered w := by
    unfold Reentry.enterScript
    rw [bind_ok (get_eq _), if_neg (Nat.not_le_of_lt hid)]
  have hafter : ∀ w' : World, R w' { w' with active := w.active } := fun _ => hR.same rfl rfl
  rw [final_congr henters, ← final_congr hentered]
  exact andFinally_outlasts hafter _

end Exec.Enduring

/-- An instruction ends after what it calls or asks for. -/
theorem Inward.step_outlasts {depth fuel : Nat} {i : Instruction} {w₂ : World}
    (h : Inward n (.loop depth (fuel + 1)) w link k between w₁) (hcode : ¬between.IsCode)
    (hi : (w.scripts.getD w.active.index default).code.instruction? w.processor.ip = some i)
    (hheard : Reentry.hear (w.scripts.getD w.active.index default) i w = .ok () w₂)
    (hR : Enduring R) : R ((between.exit (Reentry.atDepth k)).final w₁)
      (((Reentry.atDepth n).step depth i).final w₂) := by
  cases h with
  | next hi' hheard' hstep => exact absurd trivial hcode
  | asked hi' hheard' hcall hasks =>
    cases hi.symm.trans hi'
    cases hheard.symm.trans hheard'
    rw [Spot.final_exit_request]
    exact (Reentry.worksThrough_step hcall).outlasts hR hasks
  | invoked hi' hheard' hcalled hyield hdepth =>
    cases hi.symm.trans hi'
    cases hheard.symm.trans hheard'
    rw [Spot.final_exit_native]
    exact hR.stepCall_outlasts _ hcalled hyield hdepth

/-- What goes on at a spot ends after what goes on just inside it. -/
theorem Inward.outlasts (h : Inward n spot w link k between w₁) (hw : w.Live) (hR : Enduring R) :
    R ((between.exit (Reentry.atDepth k)).final w₁) ((spot.exit (Reentry.atDepth n)).final w) := by
  have hr := fun n => Reentry.endures_atDepth hR n
  have hinward := h
  cases h with
  | next hi hheard hstep =>
    rw [final_congr (hinward.exit_eq trivial)]
    exact hR.refl _
  | closure hf henter =>
    rw [final_congr (hinward.exit_eq trivial)]
    exact hR.refl _
  | asked hi hheard hcall hasks =>
    exact hR.trans (hinward.step_outlasts id hi hheard hR) (hR.run_outlasts (hr _) hi hheard)
  | invoked hi hheard hcalled hyield hdepth =>
    exact hR.trans (hinward.step_outlasts id hi hheard hR) (hR.run_outlasts (hr _) hi hheard)
  | @nativeAsked _ f args caller _ _ q hf hasks =>
    rw [Spot.final_exit_request, Spot.final_exit_native]
    exact (Reentry.worksThrough_native f caller ⟨args⟩).outlasts hR hasks
  | callback hf hyield hdepth =>
    rw [Spot.final_exit_native]
    exact hR.enterFunction_outlasts _ hf hyield hdepth
  | call hnest =>
    rw [Spot.final_exit_request]
    exact hR.call_outlasts _ hnest
  | start hc hbody =>
    rw [Spot.final_exit_request]
    exact hR.resume_outlasts (Reentry.tidy_atDepth n) hw hc hbody _
  | @again _ id c p args _ _ hc hbody hpush =>
    rw [Spot.final_exit_request]
    have hgoes : (Reentry.atDepth n).continueBody none args (w.nested.resuming id p) =
        (Reentry.atDepth n).run 0 stepLimit w₁ := bind_ok hpush
    have hresume := hR.resume_outlasts (Reentry.tidy_atDepth n) hw hc hbody args
    rw [final_congr hgoes] at hresume
    exact hresume
  | host hacquire =>
    rw [Spot.final_exit_request, Spot.final_exit_request]
    exact hR.host_outlasts hacquire
  | enter hid hload htoken =>
    rw [Spot.final_exit_request, Spot.final_exit_request]
    exact hR.enter_outlasts hid hload htoken

end Outwards

end LuaMachine
