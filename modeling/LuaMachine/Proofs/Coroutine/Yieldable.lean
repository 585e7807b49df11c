import LuaMachine.Proofs.Coroutine.Serving
import LuaMachine.Proofs.Flat.Hosting

/-!
# Whether the running coroutine can be suspended

What `coroutine.isyieldable` says and what `coroutine.yield` does where a request calls them depends on
the request alone, wherever in its code that is (`Serves.canYield`). In a resumption the first one is
true, and the second one suspends the coroutine. In a call `coroutine.yield` is an error. There
`coroutine.isyieldable` says whether the processor that the call came from could have been suspended,
which is so if an instruction of a coroutine asked for the call, to let a handler work for it
(`Request.Detains`), and never if a native function asked for it.

Main statement: `World.Hosted.yieldable_told`.
-/

namespace LuaMachine

open Exec

/-! ## Processors that can be suspended -/

namespace World

variable {w w' : World} {bottom p : Processor} {home address : Option Nat} {op : OpCode}

/-- Above the bottom there are activations of script functions only. -/
theorem Waits.canYield (h : w.Waits home bottom p address) : p.canYield = bottom.canYield := by
  induction h with
  | base => rfl
  | call _ hat _ ih =>
    obtain ⟨f, own, -, -, rfl⟩ := hat
    rw [← ih]
    unfold Processor.canYield Processor.hostDepth
    simp [Frame.isHost]

theorem RunsAbove.canYield (h : w.RunsAbove home bottom) :
    w.processor.canYield = bottom.canYield := by
  obtain ⟨A, k, x, hwaits, -, f, own, -, -, hp⟩ := h
  rw [hp, ← hwaits.canYield]
  unfold Processor.canYield Processor.hostDepth
  simp [Frame.isHost]

/-- Without a frame nothing is carried out but the beginning of a function. -/
theorem Adrift.begins (h : w.Adrift) (hg : w.Genuine) (hop : w.ops w.processor.ip = some op) :
    (∃ name kind k, op = .header name kind k) ∨ ∃ locals, op = .beginFn locals := by
  rcases h.2 with hip | ⟨hip, locals, hbegin⟩
  · obtain ⟨s, hs, hops⟩ := exists_script_of_ops hop
    rw [hops, hip] at hop
    obtain ⟨⟨name, kind, k, hheader⟩, -⟩ := (hg _ s hs).first hop
    exact .inl ⟨name, kind, k, hheader⟩
  · rw [hip, hbegin] at hop
    exact .inr ⟨locals, (Option.some.inj hop).symm⟩

/-- Without a frame no call is carried out. -/
theorem Adrift.not_call (h : w.Adrift) (hg : w.Genuine) {argc : Nat}
    (hop : w.ops w.processor.ip = some (.call argc)) : False := by
  rcases h.begins hg hop with ⟨name, kind, k, hcall⟩ | ⟨locals, hcall⟩ <;> cases hcall

theorem InLoop.canYield (h : w.InLoop bottom) (hg : w.Genuine) {argc : Nat}
    (hop : w.ops w.processor.ip = some (.call argc)) : w.processor.canYield = bottom.canYield := by
  rcases h with h | h
  · exact h.canYield
  · exact (h.not_call hg hop).elim

end World

namespace Exec

variable {w : World} {args : List Value}

/-- A suspension that is not allowed is an error. -/
theorem suspend_refused (args : List Value) (h : w.processor.canYield = false) :
    ∃ f, suspend args w = .error (.error (.ofFault f)) w := by
  unfold suspend
  rw [bind_ok (processor_eq _), h]
  cases w.processor.isCoroutine
  · exact ⟨.yieldOutside, rfl⟩
  · exact ⟨.yieldAcrossHost, rfl⟩

/-- An error is still one when it has been completed. -/
theorem exists_error_of_trace (e : ScriptError) (place : Option Span) (w : World) :
    ∃ stop w', (trace e place >>= failWith : Exec Exit) w = .error stop w' := by
  cases h : trace e place w with
  | ok e' w' => exact ⟨_, w', bind_ok h⟩
  | error stop w' => exact ⟨stop, w', bind_error h⟩

end Exec

/-! ## Calls of native functions -/

/-- Code calls a native function: with which values and from which place, in the world where no more
than the function itself is missing. -/
inductive Spot.Calls : Spot → World → Callback → List Value → Option Span → World → Prop
  | instruction {depth fuel argc : Nat} {v v₁ v₂ : World} {span : Option Span} {c : Callback}
    {args : List Value}
    (hi : (v.scripts.getD v.active.index default).code.instruction? v.processor.ip =
      some ⟨.call argc, span⟩)
    (hheard : Reentry.hear (v.scripts.getD v.active.index default) ⟨.call argc, span⟩ v =
      .ok () v₁)
    (hcalled : called argc v₁ = .ok (.callback c, args) v₂) :
    Calls (.loop depth (fuel + 1)) v c args span v₂
  | function {depth : Nat} {f : Value} {args args' : List Value} {v v₂ : World} {c : Callback}
    (hf : resolveCallable f args v = .ok (.callback c, args') v₂) :
    Calls (.function depth f args) v c args' none v₂

namespace Spot.Calls

variable {spot : Spot} {v v₂ : World} {c : Callback} {args : List Value} {span : Option Span}
  {bottom : Processor} {r : Reentry}

theorem isCode (h : spot.Calls v c args span v₂) : spot.IsCode := by
  cases h <;> trivial

theorem follows (h : spot.Calls v c args span v₂) : v.Follows v₂ := by
  cases h with
  | instruction hi hheard hcalled =>
    have hfirst := ((Reentry.calm_hear _ _ v.processor v).ok hheard).1
    rw [called_world hcalled]
    exact hfirst.trans (World.follows_of_eq rfl)
  | function hf => exact ((calm_resolveCallable _ _ v.processor v).ok hf).1

/-- A native function is called on a processor that can be suspended if the one below can. -/
theorem canYield (h : spot.Calls v c args span v₂) (hg : v₂.Genuine) (hclosed : v.Closed)
    (habove : spot.Above bottom v) : v₂.processor.canYield = bottom.canYield := by
  cases h with
  | @instruction _ _ argc _ v₁ _ _ _ _ hi hheard hcalled =>
    obtain ⟨hfirst, hprocessor⟩ := (Reentry.calm_hear _ _ v.processor v).ok hheard
    obtain rfl := called_world hcalled
    have hg₁ : v₁.Genuine := hg
    have hyield : (v₁.taken (argc + 1)).processor.canYield = v₁.processor.canYield := rfl
    rw [hyield, hprocessor hg₁ hclosed rfl]
    exact habove.2.canYield (hfirst.later.genuine hg₁) (World.ops_of_instruction hi)
  | function hf =>
    rw [followCall_world hf, habove.2]

/-- Where `coroutine.yield` is called, the code ends: with a suspension, if that is allowed. -/
theorem exit_yield (h : spot.Calls v c args span v₂) (hyield : c.native = .yield) :
    (∃ v', spot.exit r v = .ok (.yielded (.ofList args)) v') ∨
      v₂.processor.canYield = false ∧ ∃ stop v', spot.exit r v = .error stop v' := by
  cases h with
  | @instruction depth fuel argc _ v₁ _ span _ _ hi hheard hcalled =>
    have hrun : r.run depth (fuel + 1) v =
        r.stepThen depth ⟨.call argc, span⟩ (r.run depth fuel) v₁ := by
      rw [Reentry.run_eq r depth fuel hi, bind_ok hheard]
    cases hallowed : v₂.processor.canYield with
    | true =>
      left
      have hstep : r.step depth ⟨.call argc, span⟩ v₁ =
          .ok (some (.yielded (.ofList args))) v₂.advanced :=
        Reentry.stepCall_yield hcalled hyield hallowed
      refine ⟨v₂.advanced, hrun.trans ?_⟩
      unfold Reentry.stepThen
      rw [hstep]
    | false =>
      obtain ⟨f, hrefused⟩ := suspend_refused args hallowed
      have hstep : r.step depth ⟨.call argc, span⟩ v₁ = .error (.error (.ofFault f)) v₂ := by
        refine (bind_ok hcalled).trans ?_
        dsimp only
        rw [hyield]
        exact hrefused
      obtain ⟨stop, v', herror⟩ := exists_error_of_trace (.ofFault f) span v₂
      refine .inr ⟨rfl, stop, v', hrun.trans ?_⟩
      unfold Reentry.stepThen
      rw [hstep]
      exact herror
  | function hf =>
    left
    refine ⟨v₂, (bind_ok hf).trans ?_⟩
    dsimp only
    rw [hyield]
    rfl

end Spot.Calls

/-- A native function that says whether the processor could have been suspended where it was called. -/
theorem Exec.invoke_isyieldable (r : Reentry) {c : Callback} (args : List Value)
    (caller : Option Span) {w : World} (hc : c.native = .builtin .isyieldable)
    (hdepth : checkDepth w = .ok () w) :
    invoke r c args caller w = .ok (.boolean w.processor.canYield) w := by
  have hinside : (w.inside c caller).processor.hostDepth = w.processor.hostDepth + 1 := by
    unfold World.inside Processor.hostDepth
    rw [Array.countP_push]
    rfl
  have htold : c.native.run r caller ⟨args⟩ (w.inside c caller) =
      .ok (.boolean w.processor.canYield) (w.inside c caller) := by
    rw [hc]
    change EStateM.Result.ok (Value.boolean (w.processor.isCoroutine &&
      decide ((w.inside c caller).processor.hostDepth ≤ 1))) _ = _
    rw [hinside]
    congr 2
    unfold Processor.canYield
    congr 1
    rw [Bool.eq_iff_iff, decide_eq_true_iff, beq_iff_eq]
    omega
  have hunder : w.processor.Under (w.inside c caller).processor := by
    refine ⟨?_, List.prefix_rfl, rfl⟩
    exact Array.toList_push ▸ List.prefix_append _ _
  unfold invoke
  rw [bind_ok hdepth]
  change andSettle (c.native.run r caller ⟨args⟩) _ _ (w.inside c caller) = _
  unfold andSettle
  rw [htold]
  dsimp only
  congr 1
  exact congrArg (fun p => { w with processor := p }) hunder.unwind

/-! ## Requests -/

/-- A call that is asked for in a coroutine that could be suspended there. -/
def Request.Detains (q : Request) (u : World) : Prop :=
  (∃ f args, q = .call f args) ∧ u.processor.canYield = true

/-- A request suspends a coroutine, which says a value to whoever resumed it. -/
def Request.Suspends (m : Nat) (q : Request) (u : World) (x : Value) : Prop :=
  ∃ id args w' c, q = .resume id args ∧ (Reentry.atDepth m).perform q u = .ok x w' ∧
    w'.heap.coroutine? id = some c ∧ c.state = .suspended

section Serves

variable {m : Nat} {q : Request} {u v v₂ : World} {spot : Spot} {c : Callback} {args : List Value}
  {span : Option Span}

/-- Code is carried out for calls and resumptions. -/
theorem Serves.call_or_resume (h : Serves m q u spot v) (hcode : spot.IsCode) :
    (∃ f args, q = .call f args) ∨ ∃ id args, q = .resume id args := by
  induction h with
  | entered h =>
    cases h with
    | call hnest => exact .inl ⟨_, _, rfl⟩
    | start hc hbody => exact .inr ⟨_, _, rfl⟩
    | again hc hbody hpush => exact .inr ⟨_, _, rfl⟩
    | _ => exact hcode.elim
  | onward _ hbefore _ ih => exact ih hbefore

/-- Wherever a request calls a native function, the processor can be suspended if it could be where the
request began. -/
theorem Serves.canYield (h : Serves m q u spot v) (hcalls : spot.Calls v c args span v₂)
    (hg : v₂.Genuine) (hclosed : u.Closed) (hresumable : u.Resumable) :
    v₂.processor.canYield = (q.bottom u).canYield := by
  have hg' := hcalls.follows.later.genuine hg
  exact hcalls.canYield hg (h.inherits.closed hg' hclosed) (h.above hg' hclosed hresumable)

/-- So it can in a resumption, and in a call that detains a coroutine. -/
theorem Serves.bottom_canYield (h : Serves m q u spot v) (hcode : spot.IsCode) :
    (q.bottom u).canYield = true ↔ (∃ id args, q = .resume id args) ∨ q.Detains u := by
  rcases h.call_or_resume hcode with ⟨f, args, rfl⟩ | ⟨id, args, rfl⟩
  · constructor
    · exact fun hyield => .inr ⟨⟨f, args, rfl⟩, hyield⟩
    · rintro (⟨id, args', h⟩ | ⟨-, hyield⟩)
      · cases h
      · exact hyield
  · exact ⟨fun _ => .inl ⟨id, args, rfl⟩, fun _ => rfl⟩

/-- A resumption that calls `coroutine.yield` suspends the coroutine. -/
theorem Serves.suspends {id : CoroutineId} {as : List Value} (h : Serves m (.resume id as) u spot v)
    (hcalls : spot.Calls v c args span v₂) (hyield : c.native = .yield) (hu : u.Live)
    (hallowed : v₂.processor.canYield = true) :
    (Request.resume id as).Suspends m u (.ofList args) := by
  have hcode := hcalls.isCode
  obtain ⟨v', hexit⟩ | ⟨hno, -⟩ := hcalls.exit_yield (r := Reentry.atDepth m) hyield
  · obtain ⟨w', c', hresume, hc', hstate, -⟩ := h.resume_yielded hcode hu hexit
    exact ⟨id, as, w', c', rfl, hresume, hc', hstate⟩
  · rw [hallowed] at hno
    cases hno

/-- A call that comes to a call of `coroutine.yield` fails. -/
theorem Serves.call_fails {f : Value} {as : List Value} (h : Serves m (.call f as) u spot v)
    (hcalls : spot.Calls v c args span v₂) (hyield : c.native = .yield) :
    ∃ stop w', (Reentry.atDepth m).perform (.call f as) u = .error stop w' := by
  have hcall := h.call_eq hcalls.isCode
  unfold andFinally at hcall
  change ∃ stop w', (Reentry.atDepth m).callFunction f as u = .error stop w'
  obtain ⟨v', hexit⟩ | ⟨-, stop, v', hexit⟩ := hcalls.exit_yield (r := Reentry.atDepth m) hyield
  · rw [hexit] at hcall
    exact ⟨_, _, hcall⟩
  · rw [hexit] at hcall
    cases stop <;> exact ⟨_, _, hcall⟩

end Serves

/-! ## Requests of native functions -/

section Comes

variable {n k m : Nat} {spot between inner : Spot} {w w₁ v : World}
  {link : List (ScriptId × CoroutineId)}

/-- Coroutines stay in order wherever control comes. -/
theorem Comes.live (h : Comes n spot w m inner v) (hw : w.Live) : v.Live := by
  induction h with
  | here => exact hw
  | inward hfirst _ ih => exact ih (hfirst.live hw)
  | @asked n m f args caller w u v q inner hasks _ ih =>
    have hcontinues := (Reentry.tidy_atDepth (n + 1)).asks hw
      (fun r' hr' => hr'.native caller ⟨args⟩ f) hasks
    exact ih (hcontinues.live hw)
  | cancelled hcancel _ ih => exact ih (((aside_cancel _).quiet.continues hw hcancel).live hw)

/-- A native function that runs detains its processor. -/
def Spot.Framed (v : World) : Spot → Prop
  | .native .. => v.processor.canYield = false
  | _ => True

theorem World.canYield_inside (w : World) (c : Callback) (caller : Option Span) :
    (w.inside c caller).processor.canYield = false := by
  unfold World.inside Processor.canYield Processor.hostDepth
  rw [Array.countP_push]
  exact Bool.and_eq_false_imp.2 fun _ => rfl

theorem Inward.framed (h : Inward n spot w link k between w₁) : between.Framed w₁ := by
  cases h with
  | invoked hi hheard hcalled hyield hdepth => exact World.canYield_inside _ _ _
  | callback hf hyield hdepth => exact World.canYield_inside _ _ _
  | _ => trivial

theorem Comes.framed (h : Comes n spot w m inner v) (hspot : spot.Framed w) : inner.Framed v := by
  induction h with
  | here => exact hspot
  | inward hfirst _ ih => exact ih hfirst.framed
  | asked _ _ ih => exact ih trivial
  | @cancelled n m token spot inner w w₁ v hcancel _ ih =>
    refine ih ?_
    cases hcancel
    exact hspot

end Comes

namespace Reentry

variable {r : Reentry} {f : Native} {caller : Option Span} {args : Arguments} {g : Value}
  {as : List Value} {u v : World}

/-- The probes that make a text of every error ask for no call. -/
theorem letsPass_of_asks_call (hasks : Asks (f.run · caller args) r v (.call g as) u) :
    f.LetsPass := by
  by_contra hf
  obtain ⟨a, ha⟩ := hasks
  have henter : (r.answering (.call g as) u a).enter = r.enter := by
    funext id code w
    exact if_neg fun h => nomatch h.1
  cases f with
  | probe home p =>
    cases p with
    | reenter =>
      refine ha ?_
      change Probe.run (r.answering (.call g as) u a) home caller args .reenter v = _
      unfold Probe.run Probe.attempt
      rw [henter]
      rfl
    | intrude =>
      refine ha ?_
      change Probe.run (r.answering (.call g as) u a) home caller args .intrude v = _
      unfold Probe.run Probe.attempt
      rw [henter]
      rfl
    | _ => exact hf trivial
  | _ => exact hf trivial

/-- A native function asks for a call on the processor on which it runs. -/
theorem Calm.processor_of_asks_call (hr : r.Calm)
    (hasks : Asks (f.run · caller args) r v (.call g as) u) (hg : u.Genuine) (hclosed : v.Closed) :
    u.processor = v.processor := by
  have hf := letsPass_of_asks_call hasks
  have hcancelled := cancelled_of_asks hasks fun hr' =>
    (paired_cancelled hr').toPaired.native caller args f hf
  exact (((hr.answering_cancelled (.call g as) u).alike.native caller args f v.processor v).error
    hcancelled).2 hg hclosed rfl

end Reentry

namespace World

theorem Halted.suspended {w : World} {bottom : Processor} (h : w.Halted bottom) (hg : w.Genuine) :
    w.Suspended bottom := by
  rcases h with h | ⟨A, σ, x, hattends, htraces, hshows⟩
  · exact .inl h
  · exact .inr ⟨A, σ.length, x, hattends.waits hg, htraces.runs hg, hshows.place⟩

/-- In a sane world coroutines can be resumed. -/
theorem Sane.resumable {w : World} (h : w.Sane) (hg : w.Genuine) : w.Resumable := by
  intro i c hi
  have hpoised := h.poised c (Array.mem_of_getElem? hi)
  exact ⟨hpoised.fresh, fun p hp => (hpoised.suspended p hp).suspended hg⟩

namespace Hosted

variable {w : World}

/-- What `coroutine.isyieldable` says, and what `coroutine.yield` does in the same place. Every function
and every loop that control comes to while a request of a host is in progress is carried out for one
request, which may be the same. Wherever its code calls a native function, `coroutine.isyieldable` says
in that place, if there is room for its frame, that the coroutine can be suspended if and only if the
request is a resumption, or a call that detains a coroutine. If the function is `coroutine.yield`, a resumption ends there: it suspends the
coroutine, which says the values of the call. A call ends with an error. So the answer is right, unless
the request is a call that detains a coroutine, and no native function asks for such a call. -/
theorem yieldable_told {n : Nat} {q : Request} (hw : w.Hosted)
    (hactive : w.active.index < w.scripts.size) :
    (∀ chain m spot v, Encloses n (.request q) w chain m spot v → spot.IsCode →
      ∃ q' u chain', Encloses n (.request q) w chain' m (.request q') u ∧ Serves m q' u spot v) ∧
    (∀ m q' u spot v c args span v₂, Comes n (.request q) w m (.request q') u →
      Serves m q' u spot v → spot.Calls v c args span v₂ → v₂.Genuine →
      (∀ f : Callback, f.native = .builtin .isyieldable → checkDepth v₂ = .ok () v₂ →
        ∃ b, invoke (Reentry.atDepth m) f args span v₂ = .ok (.boolean b) v₂ ∧
          (b = true ↔ (∃ id as, q' = .resume id as) ∨ q'.Detains u)) ∧
      (c.native = .yield →
        (q'.Suspends m u (.ofList args) ↔ ∃ id as, q' = .resume id as) ∧
        (q'.Suspends m u (.ofList args) ∨
          ∃ stop w', (Reentry.atDepth m).perform q' u = .error stop w'))) ∧
    ∀ m f as caller v g gs u, Comes n (.request q) w (m + 1) (.native f as caller) v →
      Reentry.Asks (f.run · caller ⟨as⟩) (Reentry.atDepth (m + 1)) v (.call g gs) u → u.Genuine →
      ¬(Request.call g gs).Detains u := by
  have hlive : w.Live := ⟨hw.resting.orderly.1, hactive⟩
  refine ⟨fun chain m spot v h hcode => h.exists_serves hcode, ?_, ?_⟩
  · intro m q' u spot v c args span v₂ hcomes hserves hcalls hg
    have hcode := hcalls.isCode
    have hgu := hserves.inherits.genuine (hcalls.follows.later.genuine hg)
    have hgw := hcomes.inherits.genuine hgu
    have hsane := hw.sane hgw
    have hclosed := hcomes.inherits.closed hgu hsane.closed
    have hresumable := hcomes.inherits.resumable hgu hsane.closed (hsane.resumable hgw)
    have hallowed := hserves.canYield hcalls hg hclosed hresumable
    refine ⟨fun f hf hdepth => ?_, fun hc => ?_⟩
    · refine ⟨_, invoke_isyieldable _ args span hf hdepth, ?_⟩
      rw [hallowed]
      exact hserves.bottom_canYield hcode
    · rcases hserves.call_or_resume hcode with ⟨g, gs, rfl⟩ | ⟨id, gs, rfl⟩
      · have hno : ¬(Request.call g gs).Suspends m u (.ofList args) := by
          rintro ⟨id, as, w', c', h, -⟩
          cases h
        refine ⟨⟨fun h => absurd h hno, ?_⟩, .inr (hserves.call_fails hcalls hc)⟩
        rintro ⟨id, as, h⟩
        cases h
      · have hsuspends := hserves.suspends hcalls hc (hcomes.live hlive) hallowed
        exact ⟨⟨fun _ => ⟨id, gs, rfl⟩, fun _ => hsuspends⟩, .inl hsuspends⟩
  · rintro m f as caller v g gs u hcomes hasks hg ⟨-, hyield⟩
    have hgv := ((Reentry.calm_atDepth (m + 1)).asks_native hasks).genuine hg
    have hgw := hcomes.inherits.genuine hgv
    have hclosed := hcomes.inherits.closed hgv (hw.sane hgw).closed
    have hprocessor := (Reentry.calm_atDepth (m + 1)).processor_of_asks_call hasks hg hclosed
    have hframed : v.processor.canYield = false := hcomes.framed trivial
    rw [hprocessor, hframed] at hyield
    cases hyield

/-- What is checked of a coroutine that consists of a suspension: it can be resumed, there is room for a
frame, and there is no more code than in another world. -/
def startsSuspension (w₀ w : World) (id : CoroutineId) : Bool :=
  match w.heap.coroutine? id with
  | some { owner, state := .notStarted
           body := some { processor := p, function := some (.callback ⟨0, .yield⟩) } } =>
    let s := w.scripts.getD w.active.index default
    let inside := w.nested.resuming id p
    owner == w.active && s.nesting < s.options.maxNestedCalls && w.active.index < w.scripts.size &&
      p.frames.size < (inside.scripts.getD inside.active.index default).options.callStackLimit &&
      inside.scripts.map (·.code.size) == w₀.scripts.map (·.code.size)
  | _ => false

/-- A script with a coroutine that consists of a suspension. -/
def hasSuspension : Bool :=
  match Script.create {} {} with
  | .ok _ w₀ => w₀.active.index < w₀.scripts.size &&
    match createCoroutine (.callback ⟨0, .yield⟩) w₀ with
    | .ok id w => startsSuspension w₀ w id
    | .error _ _ => false
  | .error _ _ => false

/-- A coroutine that calls `coroutine.yield` where `coroutine.isyieldable` says that it may. -/
theorem yieldable_told_suspended : ∃ w v : World, ∃ id : CoroutineId, w.Hosted ∧
    Serves 0 (.resume id []) w (.function 0 (.callback ⟨0, .yield⟩) []) v ∧
    invoke (Reentry.atDepth 0) ⟨0, .builtin .isyieldable⟩ [] none v = .ok (.boolean true) v ∧
      (Request.resume id []).Suspends 0 w (.ofList []) := by
  have hcheck : hasSuspension = true := by decide +kernel
  unfold hasSuspension at hcheck
  cases hscript : Script.create {} {} with
  | error s w => simp [hscript] at hcheck
  | ok i w₀ =>
    simp only [hscript, Bool.and_eq_true, decide_eq_true_eq] at hcheck
    obtain ⟨hactive₀, hcheck⟩ := hcheck
    have hw₀ : w₀.Hosted := .script (.empty rfl rfl rfl) hscript
    have hempty : World.Genuine {} := fun i s hs => by cases hs
    have hg₀ : w₀.Genuine := hempty.createScript hscript
    split at hcheck
    · next id w hcreate =>
      have hw : w.Hosted := .coroutine hw₀ hactive₀ hcreate
      unfold startsSuspension at hcheck
      split at hcheck
      · next owner p hc =>
        simp only [Bool.and_eq_true, decide_eq_true_eq, beq_iff_eq] at hcheck
        obtain ⟨⟨⟨⟨howner, hnest⟩, hactive⟩, hdepth⟩, hsizes⟩ := hcheck
        let f : Value := .callback ⟨0, .yield⟩
        let v := w.nested.resuming id p
        have hmay : w.MayResume id
            { owner, state := .notStarted, body := some { processor := p, function := some f } } :=
          ⟨hc, howner, .inl rfl, hnest⟩
        have hserves : Serves 0 (.resume id []) w (.function 0 f []) v := .entered (.start hmay rfl)
        have hcalls : (Spot.function 0 f []).Calls v ⟨0, .yield⟩ [] none v := .function rfl
        have hnested : w.Follows w.nested := follows_modifyScript fun _ _ => .refl _
        have hfollows := (((calm_createCoroutine f default w₀).ok hcreate).1.trans hnested).trans
          (Reentry.follows_resuming _ id p)
        have hg : v.Genuine := hg₀.of_sizes hfollows.later hsizes
        obtain ⟨htold, hyields⟩ := (yieldable_told hw hactive (n := 0) (q := .resume id [])).2.1
          0 _ w _ v _ _ _ v .here hserves hcalls hg
        obtain ⟨b, hb, hiff⟩ := htold ⟨0, .builtin .isyieldable⟩ rfl (checkDepth_eq hdepth)
        rw [hiff.2 (.inl ⟨id, [], rfl⟩)] at hb
        exact ⟨w, v, id, hw, hserves, hb, (hyields rfl).1.2 ⟨id, [], rfl⟩⟩
      · cases hcheck
    · cases hcheck

end Hosted

end World

end LuaMachine
