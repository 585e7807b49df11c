import LuaMachine.Proofs.Loops.Aftermath

/-!
# The order of what happens in a run

What an instruction or a native function asks of the machine, it asks in turn: one of two requests is
made after the other has been answered (`Reentry.asks_total`). So of two spots that control comes to in
a run, one is inside the other, or over by the time that control comes to the other
(`Attains.total`). After and before are told by any relation of worlds that endures.
-/

namespace LuaMachine

open Exec

variable {R : World → World → Prop} {r : Reentry} {α β : Type} {w u u' v z : World} {q q' : Request}

/-! ## Requests made in turn -/

namespace Exec

/-- Code makes no scripts. -/
theorem enduring_size : Enduring fun w w' : World => w'.scripts.size = w.scripts.size where
  trans h₁ h₂ := h₂.trans h₁
  quiet h := by simpa using congrArg Array.size h.running
  same h _ := by simpa using congrArg Array.size h

namespace Enduring

variable (hR : Enduring R)

include hR

theorem and {S : World → World → Prop} (hS : Enduring S) : Enduring fun w w' => R w w' ∧ S w w' where
  trans h₁ h₂ := ⟨hR.trans h₁.1 h₂.1, hS.trans h₁.2 h₂.2⟩
  quiet h := ⟨hR.quiet h, hS.quiet h⟩
  same h h' := ⟨hR.same h h', hS.same h h'⟩

/-- In a world `u`, another one takes its place. -/
theorem detour (u z : World) : Enduring fun w w' => R w w' ∨ R w u ∧ R z w' where
  trans h₁ h₂ := by
    rcases h₁ with h₁ | ⟨hu, hz⟩
    · rcases h₂ with h₂ | ⟨hu, hz⟩
      · exact .inl (hR.trans h₁ h₂)
      · exact .inr ⟨hR.trans h₁ hu, hz⟩
    · rcases h₂ with h₂ | ⟨-, hz'⟩
      · exact .inr ⟨hu, hR.trans hz h₂⟩
      · exact .inr ⟨hu, hz'⟩
  quiet h := .inl (hR.quiet h)
  same h h' := .inl (hR.same h h')

end Enduring

/-- Two computations come to the same, unless the second one is given up, in a world that is related to
a given one. -/
def UnlessGivenUp (R : World → World → Prop) (z : World) (x x' : Exec α) : Prop :=
  ∀ w, x w = x' w ∨ ∃ w', x' w = .error .exhausted w' ∧ R z w'

theorem uniform_unlessGivenUp (hR : Enduring R) (z : World) : Uniform (UnlessGivenUp R z) where
  aside _ _ := .inl rfl
  bind {α β x x' f f'} hx hf w := by
    rcases hx w with hsame | ⟨w', hgiven, hw'⟩
    · cases hx' : x' w with
      | ok a w₁ =>
        rw [bind_ok (hsame.trans hx'), bind_ok hx']
        exact hf a w₁
      | error s w₁ => exact .inl ((bind_error (hsame.trans hx')).trans (bind_error hx').symm)
    · exact .inr ⟨w', bind_error hgiven, hw'⟩
  catchError {α x x' f f'} hx hf w := by
    unfold Exec.catchError
    rcases hx w with hsame | ⟨w', hgiven, hw'⟩
    · rw [hsame]
      cases x' w with
      | ok a w₁ => exact .inl rfl
      | error s w₁ =>
        cases s with
        | error e => exact hf e w₁
        | _ => exact .inl rfl
    · rw [hgiven]
      exact .inr ⟨w', rfl, hw'⟩
  intruding {α x x'} hx w := by
    unfold Probe.intruding andFinally
    dsimp only
    rcases hx { w with thread := intruderThread } with hsame | ⟨w', hgiven, hw'⟩
    · rw [hsame]
      exact .inl rfl
    · rw [hgiven]
      exact .inr ⟨_, rfl, hR.trans hw' (hR.same rfl rfl)⟩
  loadString _ _ _ _ := .inl rfl
  start _ _ := .inl rfl

end Exec

namespace Reentry

variable {x : Reentry → Exec α}

/-- A machine that gives up when it is asked for something in a world, and leaves another one. -/
noncomputable def givingUp (r : Reentry) (q : Request) (v z : World) : Reentry :=
  r.answering q v (.error .exhausted z)

theorem alike_givingUp (hR : Enduring R) {r' : Reentry} (hr' : r' = r ∨ ∃ a, r' = r.answering q v a)
    (z : World) : Alike (UnlessGivenUp R z) r' (r.givingUp q v z) := by
  have hunless : ∀ {p : Prop} {w : World} {a b c : EStateM.Result Stop World Value},
      (p ∧ w = v → c = .error .exhausted z) → (¬(p ∧ w = v) → a = b) → (¬(p ∧ w = v) → c = b) →
        a = c ∨ ∃ w', c = .error .exhausted w' ∧ R z w' := by
    intro p w a b c hthere h h'
    by_cases hp : p ∧ w = v
    · exact .inr ⟨z, hthere hp, hR.refl z⟩
    · exact .inl ((h hp).trans (h' hp).symm)
  refine ⟨uniform_unlessGivenUp hR z, fun f args w => ?_, fun id args w => ?_, fun id code w => ?_⟩
  · refine hunless (fun h => if_pos h) (fun h => ?_) fun h => if_neg h
    rcases hr' with rfl | ⟨a, rfl⟩
    · rfl
    · exact if_neg h
  · refine hunless (fun h => if_pos h) (fun h => ?_) fun h => if_neg h
    rcases hr' with rfl | ⟨a, rfl⟩
    · rfl
    · exact if_neg h
  · refine hunless (fun h => if_pos h) (fun h => ?_) fun h => if_neg h
    rcases hr' with rfl | ⟨a, rfl⟩
    · rfl
    · exact if_neg h

/-- What asks a machine that gives up comes to nothing. -/
theorem WorksThrough.givenUp (hx : WorksThrough x) (hR : Enduring R) (hasks : Asks x r w q v)
    (z : World) : ∃ w', x (r.givingUp q v z) w = .error .exhausted w' ∧ R z w' := by
  obtain ⟨a, ha⟩ := hasks
  have hunless : ∀ {r' : Reentry}, (r' = r ∨ ∃ a, r' = r.answering q v a) →
      UnlessGivenUp R z (x r') (x (r.givingUp q v z)) := fun hr' =>
    hx.alike (alike_givingUp hR hr' z) fun _ _ => .inl rfl
  rcases hunless (.inl rfl) w with hself | hself
  · rcases hunless (.inr ⟨a, rfl⟩) w with hother | hother
    · exact absurd (hother.trans hself.symm) ha
    · exact hother
  · exact hself

theorem Endures.answered (hr : r.Endures R) (hR : Enduring R) (q : Request) (v : World) :
    R v (r.answered q v) := by
  cases q with
  | call f args => exact ends_iff.1 (hr.call f args) v
  | resume id args => exact ends_iff.1 (hr.resume id args) v
  | enter id code => exact ends_iff.1 (hr.enter id code) v
  | host token f args => exact hR.refl v

/-- A machine that gives up leaves its world for another one there. -/
theorem Endures.givingUp (hr : r.Endures R) (hR : Enduring R) (q : Request) (v z : World) :
    (r.givingUp q v z).Endures fun w w' => R w w' ∨ R w v ∧ R z w' := by
  have hends : ∀ {p : Prop} {y y' : Exec Value}, y.Ends R →
      (∀ w, p ∧ w = v → y' w = .error .exhausted z) → (∀ w, ¬(p ∧ w = v) → y' w = y w) →
        y'.Ends fun w w' => R w w' ∨ R w v ∧ R z w' := by
    intro p y y' hy hthere helse
    refine ends_iff.2 fun w => ?_
    by_cases h : p ∧ w = v
    · rw [final_error (hthere w h)]
      exact .inr ⟨h.2 ▸ hR.refl w, hR.refl z⟩
    · rw [final_congr (helse w h)]
      exact .inl (ends_iff.1 hy w)
  refine ⟨fun f args => ?_, fun id args => ?_, fun id code => ?_⟩
  · exact hends (hr.call f args) (fun _ h => if_pos h) fun _ h => if_neg h
  · exact hends (hr.resume id args) (fun _ h => if_pos h) fun _ h => if_neg h
  · exact hends (hr.enter id code) (fun _ h => if_pos h) fun _ h => if_neg h

theorem answered_givingUp (h : ¬(q = q' ∧ u = u')) (r : Reentry) (z : World) :
    (r.givingUp q' u' z).answered q u = r.answered q u := by
  have hne : ¬(q' = q ∧ u = u') := fun h' => h ⟨h'.1.symm, h'.2⟩
  cases q with
  | call f args => exact final_congr (if_neg hne)
  | resume id args => exact final_congr (if_neg hne)
  | enter id code => exact final_congr (if_neg hne)
  | host token f args => rfl

theorem answering_comm (h : ¬(q = q' ∧ u = u')) (r : Reentry) (a a' : EStateM.Result Stop World Value) :
    (r.answering q u a).answering q' u' a' = (r.answering q' u' a').answering q u a := by
  classical
  have hcomm : ∀ {q₀ : Request} {y : Exec Value} (w : World),
      (if q' = q₀ ∧ w = u' then a' else if q = q₀ ∧ w = u then a else y w) =
        if q = q₀ ∧ w = u then a else if q' = q₀ ∧ w = u' then a' else y w := by
    intro q₀ y w
    by_cases h₁ : q = q₀ ∧ w = u
    · have h₂ : ¬(q' = q₀ ∧ w = u') := fun h₂ => h ⟨h₁.1.trans h₂.1.symm, h₁.2.symm.trans h₂.2⟩
      rw [if_neg h₂, if_pos h₁, if_pos h₁]
    · rw [if_neg h₁, if_neg h₁]
  unfold answering
  congr 1
  · exact funext fun f => funext fun args => funext fun w => hcomm w
  · exact funext fun id => funext fun args => funext fun w => hcomm w
  · exact funext fun id => funext fun code => funext fun w => hcomm w

/-- A request is made in a world that is related to the one where the computation began. -/
theorem WorksThrough.endures (hx : WorksThrough x) (hr : r.Endures R) (hR : Enduring R)
    (hasks : Asks x r w q v) : R w v :=
  hr.asks hR (fun _ hr' => hx.alike hr' fun hy => (hR.lasting w).agree hy) hasks

/-- A request that is made after another one has been answered, or else is made whatever the answer
is. -/
theorem WorksThrough.after_or (hx : WorksThrough x) (hr : r.Endures R) (hR : Enduring R)
    (hsize : ∀ {w w' : World}, R w w' → w'.scripts.size = w.scripts.size) (hasks : Asks x r w q u)
    (hasks' : Asks x r w q' u') (hne : ¬(q = q' ∧ u = u')) (hz : z.scripts.size ≠ w.scripts.size)
    (a : EStateM.Result Stop World Value) : R (r.answered q u) u' ∨
      x (r.givingUp q' u' z) w = x ((r.givingUp q' u' z).answering q u a) w := by
  obtain ⟨w', hgiven, hw'⟩ := hx.givenUp hR hasks' z
  have hunless := (hx.unlessAfter (hr.givingUp hR q' u' z) (hR.detour u' z) q u a).2 w
  rw [answered_givingUp hne, final_error hgiven] at hunless
  rcases hunless with hsame | hdirect | ⟨hafter, -⟩
  · exact .inr hsame
  · -- the world that is left there has another number of scripts
    have hanswered := hsize (hr.answered hR q u)
    have hasked := hsize (hx.endures hr hR hasks)
    exact absurd ((hsize hw').symm.trans ((hsize hdirect).trans (hanswered.trans hasked))) hz
  · exact .inl hafter

/-- One of two requests is made after the other one has been answered. -/
theorem WorksThrough.total (hx : WorksThrough x) (hR : Enduring R) {n : Nat}
    (hasks : Asks x (atDepth (n + 1)) w q u) (hasks' : Asks x (atDepth (n + 1)) w q' u') :
    (q = q' ∧ u = u') ∨ R (((atDepth n).perform q).final u) u' ∨
      R (((atDepth n).perform q').final u') u := by
  by_cases hsame : q = q' ∧ u = u'
  · exact .inl hsame
  right
  have hsame' : ¬(q' = q ∧ u' = u) := fun h => hsame ⟨h.1.symm, h.2.symm⟩
  have hS := hR.and enduring_size
  have hr := endures_atDepth hS (n + 1)
  -- two worlds with other numbers of scripts than there are in the run
  let z : World := { w with scripts := w.scripts.push default }
  let z' : World := { z with scripts := z.scripts.push default }
  have hz : z.scripts.size = w.scripts.size + 1 := Array.size_push _
  have hz' : z'.scripts.size = w.scripts.size + 2 :=
    (Array.size_push _).trans (congrArg (· + 1) hz)
  rw [← answered_atDepth hasks, ← answered_atDepth hasks']
  rcases hx.after_or hr hS And.right hasks hasks' hsame (z := z') (by omega)
    (.error .exhausted z) with hafter | hgiven'
  · exact .inl hafter.1
  rcases hx.after_or hr hS And.right hasks' hasks hsame' (z := z) (by omega)
    (.error .exhausted z') with hafter | hgiven
  · exact .inr hafter.1
  -- neither depends on the other: giving up would leave both worlds
  obtain ⟨w₁, h₁, hsize₁⟩ := hx.givenUp enduring_size hasks z
  obtain ⟨w₂, h₂, hsize₂⟩ := hx.givenUp enduring_size hasks' z'
  have hboth : x ((atDepth (n + 1)).givingUp q u z) w = x ((atDepth (n + 1)).givingUp q' u' z') w := by
    rw [hgiven, hgiven']
    exact congrArg (x · w) (answering_comm hsame _ _ _)
  cases h₁.symm.trans (hboth.trans h₂)
  omega

end Reentry

/-! ## Spots of a run -/

/-- One step of control further inside, also into what is asked for by the probes that make a text of
every error. -/
inductive Onward : Nat → Spot → World → Nat → Spot → World → Prop
  | inward {n k : Nat} {spot between : Spot} {w w₁ : World} {link : List (ScriptId × CoroutineId)}
    (h : Inward n spot w link k between w₁) : Onward n spot w k between w₁
  | asked {n : Nat} {f : Native} {args : List Value} {caller : Option Span} {w u : World}
    {q : Request}
    (hasks : Reentry.Asks (f.run · caller ⟨args⟩) (Reentry.atDepth (n + 1)) w q u) :
    Onward (n + 1) (.native f args caller) w n (.request q) u

/-- Control comes from a spot to another, without anyone else interfering. -/
inductive Attains : Nat → Spot → World → Nat → Spot → World → Prop
  | here {n : Nat} {spot : Spot} {w : World} : Attains n spot w n spot w
  | onward {n k m : Nat} {spot between inner : Spot} {w w₁ v : World}
    (hfirst : Onward n spot w k between w₁) (hrest : Attains k between w₁ m inner v) :
    Attains n spot w m inner v

variable {n k k' m m' : Nat} {spot between between' inner inner' : Spot} {w₁ w₁' v' : World}

theorem Onward.comes (h : Onward n spot w k between w₁) (hrest : Comes k between w₁ m inner v) :
    Comes n spot w m inner v := by
  cases h with
  | inward h => exact .inward h hrest
  | asked hasks => exact .asked hasks hrest

theorem Attains.comes (h : Attains n spot w m inner v) : Comes n spot w m inner v := by
  induction h with
  | here => exact .here
  | onward hfirst _ ih => exact hfirst.comes ih

theorem Attains.trans (h : Attains n spot w k between u) (hrest : Attains k between u m inner v) :
    Attains n spot w m inner v := by
  induction h with
  | here => exact hrest
  | onward hfirst _ ih => exact .onward hfirst (ih hrest)

/-- Control comes to wherever the instructions of a loop lead. -/
theorem Attains.of_passes {depth fuel : Nat} (h : (Reentry.atDepth n).Passes depth k w u) :
    Attains n (.loop depth (fuel + k)) w n (.loop depth fuel) u := by
  induction h with
  | refl => exact .here
  | step hi hheard hstep _ ih => exact .onward (.inward (.next hi hheard hstep)) ih

/-- What goes on at a spot ends after what goes on just inside it. -/
theorem Onward.outlasts (h : Onward n spot w k between w₁) (hw : w.Live) (hR : Enduring R) :
    R ((between.exit (Reentry.atDepth k)).final w₁) ((spot.exit (Reentry.atDepth n)).final w) := by
  cases h with
  | inward h => exact h.outlasts hw hR
  | asked hasks =>
    rw [Spot.final_exit_request, Spot.final_exit_native]
    exact (Reentry.worksThrough_native _ _ _).outlasts hR hasks

theorem Attains.outlasts (h : Attains n spot w m inner v) (hw : w.Live) (hR : Enduring R) :
    R ((inner.exit (Reentry.atDepth m)).final v) ((spot.exit (Reentry.atDepth n)).final w) := by
  induction h with
  | here => exact hR.refl _
  | onward hfirst _ ih =>
    exact hR.trans (ih ((hfirst.comes .here).live hw)) (hfirst.outlasts hw hR)

/-- The ways on from the same spot: they are the same, or one is over by the time of the other. -/
def InTurn (R : World → World → Prop) (k : Nat) (between : Spot) (w₁ : World) (k' : Nat)
    (between' : Spot) (w₁' : World) : Prop :=
  (k = k' ∧ between = between' ∧ w₁ = w₁') ∨
    R ((between.exit (Reentry.atDepth k)).final w₁) w₁' ∨
    R ((between'.exit (Reentry.atDepth k')).final w₁') w₁

theorem InTurn.symm (h : InTurn R k between w₁ k' between' w₁') :
    InTurn R k' between' w₁' k between w₁ := by
  rcases h with ⟨rfl, rfl, rfl⟩ | h | h
  · exact .inl ⟨rfl, rfl, rfl⟩
  · exact .inr (.inr h)
  · exact .inr (.inl h)

/-- What an instruction calls or asks for is over by the time of the next one. -/
theorem inTurn_next {depth fuel : Nat} {i : Instruction} {w₂ : World}
    {link : List (ScriptId × CoroutineId)}
    (hi : (w.scripts.getD w.active.index default).code.instruction? w.processor.ip = some i)
    (hheard : Reentry.hear (w.scripts.getD w.active.index default) i w = .ok () w₁)
    (hstep : (Reentry.atDepth n).step depth i w₁ = .ok none w₂)
    (h : Inward n (.loop depth (fuel + 1)) w link k between u) (hcode : ¬between.IsCode)
    (hR : Enduring R) : InTurn R n (.loop depth fuel) w₂ k between u := by
  have hover := h.step_outlasts hcode hi hheard hR
  rw [final_ok hstep] at hover
  exact .inr (.inr hover)

theorem Reentry.WorksThrough.inTurn {x : Reentry → Exec α} (hx : WorksThrough x) (hR : Enduring R)
    (hasks : Asks x (atDepth (n + 1)) w q u) (hasks' : Asks x (atDepth (n + 1)) w q' u') :
    InTurn R n (.request q) u n (.request q') u' := by
  unfold InTurn
  rw [Spot.final_exit_request, Spot.final_exit_request]
  rcases hx.total hR hasks hasks' with ⟨rfl, rfl⟩ | h | h
  · exact .inl ⟨rfl, rfl, rfl⟩
  · exact .inr (.inl h)
  · exact .inr (.inr h)

/-- Where control goes on inside a spot, it goes on in turn. -/
theorem Inward.inTurn {link link' : List (ScriptId × CoroutineId)} (h : Inward n spot w link k between w₁)
    (h' : Inward n spot w link' k' between' w₁') (hR : Enduring R) :
    InTurn R k between w₁ k' between' w₁' := by
  have hfirst := h
  have hsecond := h'
  cases h with
  | next hi hheard hstep =>
    cases h' with
    | next hi' hheard' hstep' =>
      cases hi.symm.trans hi'
      cases hheard.symm.trans hheard'
      cases hstep.symm.trans hstep'
      exact .inl ⟨rfl, rfl, rfl⟩
    | asked => exact inTurn_next hi hheard hstep hsecond id hR
    | invoked => exact inTurn_next hi hheard hstep hsecond id hR
  | asked hi hheard hcall hasks =>
    cases h' with
    | next hi' hheard' hstep' => exact (inTurn_next hi' hheard' hstep' hfirst id hR).symm
    | asked hi' hheard' hcall' hasks' =>
      cases hi.symm.trans hi'
      cases hheard.symm.trans hheard'
      exact (Reentry.worksThrough_step hcall).inTurn hR hasks hasks'
    | invoked hi' =>
      cases hi.symm.trans hi'
      exact absurd rfl (hcall _)
  | invoked hi hheard hcalled hyield hdepth =>
    cases h' with
    | next hi' hheard' hstep' => exact (inTurn_next hi' hheard' hstep' hfirst id hR).symm
    | asked hi' hheard' hcall' hasks' =>
      cases hi.symm.trans hi'
      exact absurd rfl (hcall' _)
    | invoked hi' hheard' hcalled' =>
      cases hi.symm.trans hi'
      cases hheard.symm.trans hheard'
      cases hcalled.symm.trans hcalled'
      exact .inl ⟨rfl, rfl, rfl⟩
  | nativeAsked hf hasks =>
    cases h' with
    | nativeAsked hf' hasks' => exact (Reentry.worksThrough_native _ _ _).inTurn hR hasks hasks'
  | closure hf henter =>
    cases h' with
    | closure hf' henter' =>
      cases hf.symm.trans hf'
      cases henter.symm.trans henter'
      exact .inl ⟨rfl, rfl, rfl⟩
    | callback hf' => cases hf.symm.trans hf'
  | callback hf hyield hdepth =>
    cases h' with
    | closure hf' => cases hf.symm.trans hf'
    | callback hf' =>
      cases hf.symm.trans hf'
      exact .inl ⟨rfl, rfl, rfl⟩
  | call =>
    cases h'
    exact .inl ⟨rfl, rfl, rfl⟩
  | start hc hbody =>
    cases h' with
    | start hc' hbody' =>
      cases hc.coroutine.symm.trans hc'.coroutine
      cases hbody.symm.trans hbody'
      exact .inl ⟨rfl, rfl, rfl⟩
    | again hc' hbody' =>
      cases hc.coroutine.symm.trans hc'.coroutine
      cases hbody.symm.trans hbody'
  | again hc hbody hpush =>
    cases h' with
    | start hc' hbody' =>
      cases hc.coroutine.symm.trans hc'.coroutine
      cases hbody.symm.trans hbody'
    | again hc' hbody' hpush' =>
      cases hc.coroutine.symm.trans hc'.coroutine
      cases hbody.symm.trans hbody'
      cases hpush.symm.trans hpush'
      exact .inl ⟨rfl, rfl, rfl⟩
  | host hacquire =>
    cases h' with
    | host hacquire' =>
      cases hacquire.symm.trans hacquire'
      exact .inl ⟨rfl, rfl, rfl⟩
  | enter hid hload htoken =>
    cases h' with
    | enter hid' hload' htoken' =>
      cases hload.symm.trans hload'
      cases htoken.symm.trans htoken'
      exact .inl ⟨rfl, rfl, rfl⟩

theorem Onward.inTurn_asked {f : Native} {args : List Value} {caller : Option Span}
    (hasks : Reentry.Asks (f.run · caller ⟨args⟩) (Reentry.atDepth (n + 1)) w q u)
    (h : Onward (n + 1) (.native f args caller) w k between w₁) (hR : Enduring R) :
    InTurn R n (.request q) u k between w₁ := by
  have hx := Reentry.worksThrough_native f caller ⟨args⟩
  cases h with
  | asked hasks' => exact hx.inTurn hR hasks hasks'
  | inward h =>
    cases h with
    | nativeAsked _ hasks' => exact hx.inTurn hR hasks hasks'

theorem Onward.inTurn (h : Onward n spot w k between w₁) (h' : Onward n spot w k' between' w₁')
    (hR : Enduring R) : InTurn R k between w₁ k' between' w₁' := by
  cases h with
  | asked hasks => exact h'.inTurn_asked hasks hR
  | inward h =>
    cases h' with
    | asked hasks' => exact (Onward.inTurn_asked hasks' (.inward h) hR).symm
    | inward h' => exact h.inTurn h' hR

/-- Of two spots that control comes to, one is inside the other, or over by the time that control comes
to the other. -/
theorem Attains.total (h : Attains n spot w m inner v) (h' : Attains n spot w m' inner' v')
    (hw : w.Live) (hR : Enduring R) :
    Attains m inner v m' inner' v' ∨ Attains m' inner' v' m inner v ∨
      R ((inner.exit (Reentry.atDepth m)).final v) v' ∨
      R ((inner'.exit (Reentry.atDepth m')).final v') v := by
  induction h with
  | here => exact .inl h'
  | @onward n k m spot between inner w w₁ v hfirst hrest ih =>
    cases h' with
    | here => exact .inr (.inl (.onward hfirst hrest))
    | onward hfirst' hrest' =>
      have hlive := (hfirst.comes .here).live hw
      have hlive' := (hfirst'.comes .here).live hw
      rcases hfirst.inTurn hfirst' hR with ⟨rfl, rfl, rfl⟩ | hturn | hturn
      · exact ih hrest' hlive
      · have hover := hR.trans (hrest.outlasts hlive hR) hturn
        exact .inr (.inr (.inl (hR.trans hover (hrest'.comes.endures hR))))
      · have hover := hR.trans (hrest'.outlasts hlive' hR) hturn
        exact .inr (.inr (.inr (hR.trans hover (hrest.comes.endures hR))))

end LuaMachine
