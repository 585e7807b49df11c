import LuaMachine.Proofs.Coroutine.Visits

/-!
# What encloses what

A loop of instructions encloses the native functions that its instructions call and the requests they
make; a native function encloses its requests; a request encloses the function it enters, and so on.
`Inward` is one step of control from a spot to one inside it, and `Encloses` follows such steps. Other
than `Visits` it keeps the spot that was reached, and it does not go into the probes that make a text
of every error (`Native.LetsPass`).

A computation that makes a request and lets a cancellation pass ends as soon as the answer is a
cancellation, and leaves the world as the answer left it (`Reentry.asks_cancelled`).
-/

namespace LuaMachine

open Exec

/-- At a spot in a world, the machine at a depth goes to a spot just inside it, in another world. A
resumption that is accepted on the way is the link. -/
inductive Inward : Nat → Spot → World → List (ScriptId × CoroutineId) → Nat → Spot → World → Prop
  /- loops of instructions -/
  | next {n depth fuel : Nat} {w w₁ w₂ : World} {i : Instruction}
    (hi : (w.scripts.getD w.active.index default).code.instruction? w.processor.ip = some i)
    (hheard : Reentry.hear (w.scripts.getD w.active.index default) i w = .ok () w₁)
    (hstep : (Reentry.atDepth n).step depth i w₁ = .ok none w₂) :
    Inward n (.loop depth (fuel + 1)) w [] n (.loop depth fuel) w₂
  | asked {n depth fuel : Nat} {w w₁ u : World} {i : Instruction} {q : Request}
    (hi : (w.scripts.getD w.active.index default).code.instruction? w.processor.ip = some i)
    (hheard : Reentry.hear (w.scripts.getD w.active.index default) i w = .ok () w₁)
    (hcall : ∀ argc, i.op ≠ .call argc)
    (hasks : Reentry.Asks (·.step depth i) (Reentry.atDepth (n + 1)) w₁ q u) :
    Inward (n + 1) (.loop depth (fuel + 1)) w [] n (.request q) u
  | invoked {n depth fuel argc : Nat} {w w₁ w₂ : World} {span : Option Span} {c : Callback}
    {args : List Value}
    (hi : (w.scripts.getD w.active.index default).code.instruction? w.processor.ip =
      some ⟨.call argc, span⟩)
    (hheard : Reentry.hear (w.scripts.getD w.active.index default) ⟨.call argc, span⟩ w =
      .ok () w₁)
    (hcalled : called argc w₁ = .ok (.callback c, args) w₂) (hyield : c.native ≠ .yield)
    (hdepth : checkDepth w₂ = .ok () w₂) :
    Inward n (.loop depth (fuel + 1)) w [] n (.native c.native args span) (w₂.inside c span)
  /- native functions -/
  | nativeAsked {n : Nat} {f : Native} {args : List Value} {caller : Option Span} {w u : World}
    {q : Request} (hf : f.LetsPass)
    (hasks : Reentry.Asks (f.run · caller ⟨args⟩) (Reentry.atDepth (n + 1)) w q u) :
    Inward (n + 1) (.native f args caller) w [] n (.request q) u
  /- functions -/
  | closure {n depth : Nat} {f : Value} {args args' : List Value} {id : ClosureId} {w w₁ w₂ : World}
    (hf : resolveCallable f args w = .ok (.function id, args') w₁)
    (henter : enterClosure id args' none none w₁ = .ok () w₂) :
    Inward n (.function depth f args) w [] n (.loop depth stepLimit) w₂
  | callback {n depth : Nat} {f : Value} {args args' : List Value} {c : Callback} {w w₁ : World}
    (hf : resolveCallable f args w = .ok (.callback c, args') w₁) (hyield : c.native ≠ .yield)
    (hdepth : checkDepth w₁ = .ok () w₁) :
    Inward n (.function depth f args) w [] n (.native c.native args' none) (w₁.inside c none)
  /- requests -/
  | call {n : Nat} {f : Value} {args : List Value} {w : World} (hnest : w.MayNest) :
    Inward n (.request (.call f args)) w []
      n (.function w.processor.frames.size f (Value.flatten args)) w.nested
  | start {n : Nat} {id : CoroutineId} {c : Coroutine} {p : Processor} {f : Value}
    {args : List Value} {w : World} (hc : w.MayResume id c)
    (hbody : c.body = some { processor := p, function := some f }) :
    Inward n (.request (.resume id args)) w [(w.active, id)]
      n (.function 0 f (Value.flatten args)) (w.nested.resuming id p)
  | again {n : Nat} {id : CoroutineId} {c : Coroutine} {p : Processor} {args : List Value}
    {w w₁ : World} (hc : w.MayResume id c)
    (hbody : c.body = some { processor := p, function := none })
    (hpush : push (.ofList (Value.flatten args)) (w.nested.resuming id p) = .ok () w₁) :
    Inward n (.request (.resume id args)) w [(w.active, id)] n (.loop 0 stepLimit) w₁
  | host {n token : Nat} {f : Value} {args : List Value} {w w₁ : World}
    (hacquire : Reentry.acquire w = .ok () w₁) :
    Inward n (.request (.host token f args)) w [] n (.request (.call f args))
      { w₁ with processor := (w₁.scripts.getD w₁.active.index default).processor, token }
  | enter {n token : Nat} {id : ScriptId} {code : String} {f : Value} {w w₁ w₂ : World}
    (hid : id.index < w.scripts.size)
    (hload : loadString code none none { w with active := id } = .ok f w₁)
    (htoken : newToken w₁ = .ok token w₂) :
    Inward n (.request (.enter id code)) w [] n (.request (.host token f [])) w₂

/-- At a spot in a world, the machine at a depth comes to a spot inside it, in another world, with a
chain of resumptions in progress, innermost first. -/
inductive Encloses : Nat → Spot → World → List (ScriptId × CoroutineId) → Nat → Spot → World → Prop
  | here {n : Nat} {spot : Spot} {w : World} : Encloses n spot w [] n spot w
  | inward {n k m : Nat} {spot between inner : Spot} {w w₁ v : World}
    {link chain : List (ScriptId × CoroutineId)} (hfirst : Inward n spot w link k between w₁)
    (hrest : Encloses k between w₁ chain m inner v) : Encloses n spot w (chain ++ link) m inner v

section Inward

variable {n k m : Nat} {spot between inner : Spot} {w w₁ v : World}
  {link chain : List (ScriptId × CoroutineId)}

/-- What is visited further inside is visited. -/
theorem Inward.visits (h : Inward n spot w link k between w₁) (hrest : Visits k between w₁ chain v) :
    Visits n spot w (chain ++ link) v := by
  cases h with
  | start hc hbody => exact .start hc hbody hrest
  | again hc hbody hpush => exact .again hc hbody hpush hrest
  | _ =>
    rw [List.append_nil]
    first
      | exact .next ‹_› ‹_› ‹_› hrest
      | exact .asked ‹_› ‹_› ‹_› hrest
      | exact .invoked ‹_› ‹_› ‹_› ‹_› ‹_› hrest
      | exact .nativeAsked ‹_› hrest
      | exact .closure ‹_› ‹_› hrest
      | exact .callback ‹_› ‹_› ‹_› hrest
      | exact .call ‹_› hrest
      | exact .host ‹_› hrest
      | exact .enter ‹_› ‹_› ‹_› hrest

/-- What is enclosed, and visited from its own world on, is visited. -/
theorem Encloses.visits (h : Encloses n spot w chain m inner v) (hself : Visits m inner v [] v) :
    Visits n spot w chain v := by
  induction h with
  | here => exact hself
  | inward hfirst _ ih => exact hfirst.visits (ih hself)

/-- On the way inwards coroutines stay in order. -/
theorem Inward.live (h : Inward n spot w link k between w₁) (hw : w.Live) : w₁.Live := by
  induction h with
  | @next n depth fuel w w₂ w₃ i hi hheard hstep =>
    have hlive := (Exec.Quiet.continues (Reentry.quiet_hear _ i) hw hheard).live hw
    exact (((Reentry.tidy_atDepth n).step hlive depth i).ok hstep).live hlive
  | @asked n depth fuel w w₂ u i q hi hheard hcall hasks =>
    have hlive := (Exec.Quiet.continues (Reentry.quiet_hear _ i) hw hheard).live hw
    have hsecond := (Reentry.tidy_atDepth (n + 1)).asks hlive
      (fun r' hr' => hr'.step hlive.lasting depth i) hasks
    exact hsecond.live hlive
  | @invoked n depth fuel argc w w₂ w₃ span c args hi hheard hcalled hyield hdepth =>
    have hlive := (Exec.Quiet.continues (Reentry.quiet_hear _ _) hw hheard).live hw
    have hsecond := Exec.Quiet.continues (quiet_called argc) hlive hcalled
    have hinside : w₃.Quiet (w₃.inside c span) := ⟨rfl, rfl, rfl, fun h => h, .refl _⟩
    exact hinside.live (hsecond.live hlive)
  | @nativeAsked n f args caller w u q hf hasks =>
    exact ((Reentry.tidy_atDepth (n + 1)).asks hw
      (fun r' hr' => hr'.native caller ⟨args⟩ f) hasks).live hw
  | closure hf henter =>
    have hlive := (Exec.Quiet.continues (aside_resolveCallable _ _).quiet hw hf).live hw
    exact (Exec.Quiet.continues (quiet_enterClosure _ _ none none) hlive henter).live hlive
  | @callback n depth f args args' c w w₂ hf hyield hdepth =>
    have hlive := (Exec.Quiet.continues (aside_resolveCallable f args).quiet hw hf).live hw
    have hinside : w₂.Quiet (w₂.inside c none) := ⟨rfl, rfl, rfl, fun h => h, .refl _⟩
    exact hinside.live hlive
  | call hnest => exact (World.quiet_nested _).live hw
  | start hc hbody => exact ((World.quiet_nested _).live hw).resuming hc.coroutine hc.owner hc.state _
  | @again n id c p args w w₂ hc hbody hpush =>
    have hlive := (w.quiet_nested.live hw).resuming hc.coroutine hc.owner hc.state p
    exact (Exec.Quiet.continues (quiet_push _) hlive hpush).live hlive
  | @host n token f args w w₂ hacquire =>
    have hlive := (Exec.Quiet.continues Reentry.quiet_acquire hw hacquire).live hw
    have hmain : w₂.Quiet { w₂ with
        processor := (w₂.scripts.getD w₂.active.index default).processor, token } :=
      ⟨rfl, rfl, rfl, fun h => h, .refl _⟩
    exact hmain.live hlive
  | @enter n token id code f w w₂ w₃ hid hload htoken =>
    have hlive : World.Live { w with active := id } := ⟨hw.orderly.withActive id, hid⟩
    have hloaded := (Exec.Quiet.continues (quiet_loadString code none none) hlive hload).live hlive
    exact (Exec.Quiet.continues aside_newToken.quiet hloaded htoken).live hloaded

theorem Encloses.live (h : Encloses n spot w chain m inner v) (hw : w.Live) : v.Live := by
  induction h with
  | here => exact hw
  | inward hfirst _ ih => exact ih (hfirst.live hw)

end Inward

/-! ## Answers that are a cancellation -/

namespace Exec

variable {α : Type} {u : World}

/-- Two computations come to the same, unless the first one is cancelled in a given world. -/
def CancelledOr (u : World) (x x' : Exec α) : Prop :=
  ∀ w, x w = x' w ∨ x w = .error (.error .cancelled) u

theorem CancelledOr.refl (x : Exec α) : CancelledOr u x x := fun _ => .inl rfl

/-- What lets a cancellation pass does nothing after one. -/
theorem regular_cancelledOr (u : World) : Regular (CancelledOr u) where
  aside _ := .refl _
  loadString _ _ _ := .refl _
  start _ := .refl _
  bind {α β x x' f f'} hx hf w := by
    change EStateM.bind x f w = EStateM.bind x' f' w ∨
      EStateM.bind x f w = .error (.error .cancelled) u
    unfold EStateM.bind
    rcases hx w with h | h
    · rw [h]
      cases x' w with
      | ok a w' => exact hf a w'
      | error s w' => exact .inl rfl
    · rw [h]
      exact .inr rfl
  handled {α x x' f f'} hx hf hpass _ w := by
    unfold Exec.catchError
    rcases hx w with h | h
    · rw [h]
      cases x' w with
      | ok a w' => exact .inl rfl
      | error s w' =>
        cases s with
        | error e => exact hf e w'
        | panic message => exact .inl rfl
        | exhausted => exact .inl rfl
    · rw [h]
      refine .inr ?_
      change f .cancelled u = _
      rw [hpass]
      rfl

end Exec

namespace Reentry

variable {r : Reentry} {α : Type} {w v u : World} {q : Request}

/-- A machine answers a request with a cancellation. -/
def AnswersCancelled (r : Reentry) (q : Request) (v u : World) : Prop :=
  match q with
  | .call f args => r.call f args v = .error (.error .cancelled) u
  | .resume id args => r.resume id args v = .error (.error .cancelled) u
  | .enter id code => r.enter id code v = .error (.error .cancelled) u
  | .host .. => False

/-- With another answer to a request, only what was cancelled by the first answer is different. -/
theorem paired_answering (hq : r.AnswersCancelled q v u)
    (a : EStateM.Result Stop World Value) :
    PairedQuietly (CancelledOr u) r (r.answering q v a) := by
  refine ⟨⟨regular_cancelledOr u, ?_, ?_, ?_⟩, fun _ => .refl _⟩
  · intro f args w
    by_cases h : q = .call f args ∧ w = v
    · obtain ⟨rfl, rfl⟩ := h
      exact .inr hq
    · exact .inl (if_neg h).symm
  · intro id args w
    by_cases h : q = .resume id args ∧ w = v
    · obtain ⟨rfl, rfl⟩ := h
      exact .inr hq
    · exact .inl (if_neg h).symm
  · intro id code w
    by_cases h : q = .enter id code ∧ w = v
    · obtain ⟨rfl, rfl⟩ := h
      exact .inr hq
    · exact .inl (if_neg h).symm

/-- What asks the machine for something and lets a cancellation pass is cancelled with the answer. -/
theorem asks_cancelled {x : Reentry → Exec α} (hasks : Asks x r w q v)
    (hq : r.AnswersCancelled q v u)
    (hx : ∀ r', PairedQuietly (CancelledOr u) r r' → CancelledOr u (x r) (x r')) :
    x r w = .error (.error .cancelled) u := by
  obtain ⟨a, ha⟩ := hasks
  exact (hx _ (paired_answering hq a) w).resolve_left fun h => ha h.symm

/-- Only what the machine answers can be asked of it from inside. -/
theorem not_asks_host {x : Reentry → Exec α} {token : Nat} {f : Value} {args : List Value} :
    ¬Asks x r w (.host token f args) v := by
  rintro ⟨a, ha⟩
  refine ha (congrArg (x · w) ?_)
  unfold answering
  simp

end Reentry

end LuaMachine
