import LuaMachine.Proofs.Cancellation.Enclosure
import LuaMachine.Proofs.Coroutine.Conversation

/-!
# What all visited worlds inherit

If closures are made of functions and coroutines can be resumed in a world, so it is in every world
that control comes to from there (`Inward.inherits`). Computations that return keep it. In the middle of one
that asks the machine for something, it holds because it holds wherever the machine can be asked: what
would happen with another answer is no different up to there.
-/

namespace LuaMachine

open Exec

namespace World

/-- What is known of the code, the closures and the coroutines in a world is known of them in another
one. Neither the processor nor the running script matters, nor what has been cancelled. -/
structure Inherits (w w' : World) : Prop where
  genuine : w'.Genuine → w.Genuine
  closed : w'.Genuine → w.Closed → w'.Closed
  resumable : w'.Genuine → w.Closed → w.Resumable → w'.Resumable

variable {w w' w'' : World}

theorem Follows.inherits (h : w.Follows w') : w.Inherits w' := ⟨h.later.genuine, h.closed, h.resumable⟩

theorem Inherits.refl (w : World) : w.Inherits w := (Follows.refl w).inherits

theorem Inherits.trans (h₁ : w.Inherits w') (h₂ : w'.Inherits w'') : w.Inherits w'' where
  genuine hg := h₁.genuine (h₂.genuine hg)
  closed hg hc := h₂.closed hg (h₁.closed (h₂.genuine hg) hc)
  resumable hg hc hr := h₂.resumable hg (h₁.closed (h₂.genuine hg) hc)
    (h₁.resumable (h₂.genuine hg) hc hr)

/-- Code, closures and coroutines are as they were. -/
theorem inherits_of_eq (hcode : w'.scripts.map (·.code) = w.scripts.map (·.code))
    (hclosures : w'.heap.closures = w.heap.closures)
    (hcoroutines : w'.heap.coroutines = w.heap.coroutines) : w.Inherits w' := by
  have hl := later_of_code hcode hcoroutines
  refine ⟨hl.genuine, fun _ hc i c hi => ?_, fun _ _ hr i c hi => ?_⟩
  · exact hl.hasHeader (hc i c (hclosures ▸ hi))
  · exact ((hr i c (hcoroutines ▸ hi)).of_active w'.active).mono hl

theorem Aside.inherits (h : w.Aside w') : w.Inherits w' := h.follows.inherits

end World

/-- A call stack can have any height. -/
theorem Processor.exists_bottom (depth : Nat) : ∃ bottom : Processor, bottom.frames.size = depth :=
  ⟨{ frames := Array.replicate depth default }, Array.size_replicate⟩

/-! ## Where the machine is asked -/

namespace Exec

variable {α : Type} {w : World}

theorem Keeps.leads {x : Exec α} {v : World} {P : Prop} {Q : α → World → Prop} {E : World → Prop}
    (hx : x.Keeps v P Q E) (hv : w.Inherits v) : x.Leads v (fun _ => w.Inherits) w.Inherits :=
  ⟨fun h => hv.trans (hx.ok h).1.inherits, fun h => hv.trans (hx.error h).1.inherits⟩

theorem Calm.agree {x : Exec α} (hx : Calm x) (w : World) : AgreeOn w.Inherits x x :=
  fun v hv => ⟨rfl, (hx v.processor v).leads hv⟩

/-- The library works on what inherits from a world. -/
theorem uniform_inherits (w : World) : Uniform (AgreeOn w.Inherits) where
  aside hx v hv := ⟨rfl, (Leads.of_ends hx v).mono (fun _ _ h => hv.trans h.inherits)
    fun _ h => hv.trans h.inherits⟩
  bind := World.Lasting.bind
  catchError := World.Lasting.catchError
  intruding {α x x'} hx v hv := by
    have hthread : ∀ (u : World) (thread : String), u.Inherits { u with thread } :=
      fun u thread => World.inherits_of_eq rfl rfl rfl
    obtain ⟨heq, hleads⟩ :=
      hx { v with thread := intruderThread } (hv.trans (hthread v _))
    have hafter := hleads.andFinally (fun u => { u with thread := v.thread })
      (fun _ u hu => hu.trans (hthread u _)) fun u hu => hu.trans (hthread u _)
    refine ⟨?_, hafter.ok, hafter.error⟩
    unfold Probe.intruding andFinally
    dsimp only
    rw [heq]
  loadString code env name := (calm_loadString code env name).agree w
  start f := (uniform_calm.start f).agree w

end Exec

namespace Reentry

variable {r : Reentry} {α : Type} {w v u : World} {q : Request}

/-- With another answer in a world that does not inherit from the one before, machines agree. -/
theorem Calm.alike_answering (hr : r.Calm) (hv : ¬w.Inherits v)
    (a : EStateM.Result Stop World Value) :
    Alike (AgreeOn w.Inherits) r (r.answering q v a) := by
  have hne : ∀ w', w.Inherits w' → w' ≠ v := by
    rintro w' hw' rfl
    exact hv hw'
  refine ⟨uniform_inherits w, ?_, ?_, ?_⟩
  · exact fun f args w' hw' =>
      ⟨(if_neg fun h => hne w' hw' h.2).symm, (hr.call f args w'.processor w').leads hw'⟩
  · exact fun id args w' hw' =>
      ⟨(if_neg fun h => hne w' hw' h.2).symm, (hr.resume id args w'.processor w').leads hw'⟩
  · exact fun id code w' hw' =>
      ⟨(if_neg fun h => hne w' hw' h.2).symm, (hr.enter id code w'.processor w').leads hw'⟩

/-- What a native function asks the machine for is asked in a world that inherits from the one in which
the function begins. -/
theorem Calm.asks_native (hr : r.Calm) {f : Native} {caller : Option Span} {args : Arguments}
    (hasks : Asks (f.run · caller args) r w q v) : w.Inherits v := by
  obtain ⟨a, ha⟩ := hasks
  by_contra hv
  exact ha (((hr.alike_answering hv a).native caller args f w (.refl w)).1).symm

/-- A machine that answers one request in one world with a cancellation, and leaves that world alone,
is calm. -/
theorem Calm.answering_cancelled (hr : r.Calm) (q : Request) (v : World) :
    (r.answering q v (.error (.error .cancelled) v)).Calm := by
  have hanswer : ∀ {p : Prop} {x x' : Exec Value}, Exec.Calm x →
      (∀ w, p ∧ w = v → x' w = .error (.error .cancelled) v) →
      (∀ w, ¬(p ∧ w = v) → x' w = x w) → Exec.Calm x' := by
    intro p x x' hx hthere helsewhere u w
    by_cases h : p ∧ w = v
    · have hx' := hthere w h
      obtain ⟨-, rfl⟩ := h
      exact .of_error hx' (.refl w) fun h => h
    · have hx' := helsewhere w h
      exact ⟨fun h => (hx u w).ok (hx'.symm.trans h), fun h => (hx u w).error (hx'.symm.trans h)⟩
  refine ⟨fun f args => ?_, fun id args => ?_, fun id code => ?_⟩
  · exact hanswer (hr.call f args) (fun _ h => if_pos h) fun _ h => if_neg h
  · exact hanswer (hr.resume id args) (fun _ h => if_pos h) fun _ h => if_neg h
  · exact hanswer (hr.enter id code) (fun _ h => if_pos h) fun _ h => if_neg h

/-- With another answer than the cancellation, only what was cancelled is different. -/
theorem paired_cancelled {r' : Reentry} (hr' : r' = r ∨ ∃ a, r' = r.answering q v a) :
    PairedQuietly (CancelledOr v) (r.answering q v (.error (.error .cancelled) v)) r' := by
  have hsame : ∀ {p : Prop} {w : World} {x x' x'' : EStateM.Result Stop World Value},
      (p ∧ w = v → x = .error (.error .cancelled) v) →
      (¬(p ∧ w = v) → x = x'') → (¬(p ∧ w = v) → x' = x'') →
      x = x' ∨ x = .error (.error .cancelled) v := by
    intro p w x x' x'' hthere h h'
    by_cases hp : p ∧ w = v
    · exact .inr (hthere hp)
    · exact .inl ((h hp).trans (h' hp).symm)
  refine ⟨⟨regular_cancelledOr v, fun f args w => ?_, fun id args w => ?_, fun id code w => ?_⟩,
    fun _ => .refl _⟩
  · refine hsame (fun h => if_pos h) (fun h => if_neg h) fun h => ?_
    rcases hr' with rfl | ⟨a, rfl⟩
    · rfl
    · exact if_neg h
  · refine hsame (fun h => if_pos h) (fun h => if_neg h) fun h => ?_
    rcases hr' with rfl | ⟨a, rfl⟩
    · rfl
    · exact if_neg h
  · refine hsame (fun h => if_pos h) (fun h => if_neg h) fun h => ?_
    rcases hr' with rfl | ⟨a, rfl⟩
    · rfl
    · exact if_neg h

/-- What asks the machine for something, and lets a cancellation pass, is left in the world where it
asks when the answer is a cancellation. -/
theorem cancelled_of_asks {x : Reentry → Exec α} (hasks : Asks x r w q v)
    (hx : ∀ {r' : Reentry}, (r' = r ∨ ∃ a, r' = r.answering q v a) →
      CancelledOr v (x (r.answering q v (.error (.error .cancelled) v))) (x r')) :
    x (r.answering q v (.error (.error .cancelled) v)) w = .error (.error .cancelled) v := by
  obtain ⟨a, ha⟩ := hasks
  rcases hx (.inl rfl) w with hself | hself
  · rcases hx (.inr ⟨a, rfl⟩) w with hother | hother
    · exact absurd (hother.symm.trans hself) ha
    · exact hother
  · exact hself

/-- What an instruction that calls nothing asks the machine for is asked in a world that inherits from
the one before: a cancellation would leave the instruction in that world. -/
theorem Calm.asks_step (hr : r.Calm) {depth x : Nat} {i : Instruction}
    (hi : w.ops x = some i.op) (hcall : ∀ argc, i.op ≠ .call argc)
    (hasks : Asks (·.step depth i) r w q v) : w.Inherits v := by
  have hcancelled := cancelled_of_asks hasks fun hr' => (paired_cancelled hr').step depth i hcall
  obtain ⟨bottom, rfl⟩ := Processor.exists_bottom depth
  exact ((keeps_step (hr.answering_cancelled q v) hi).error hcancelled).1.inherits

end Reentry

/-! ## What is visited -/

namespace World

variable (w : World)

theorem inherits_nested : w.Inherits w.nested := by
  have hfollows : w.Follows w.nested := follows_modifyScript fun _ _ => .refl _
  exact hfollows.inherits

theorem inherits_resuming (id : CoroutineId) (p : Processor) :
    w.Inherits (w.nested.resuming id p) :=
  w.inherits_nested.trans (Reentry.follows_resuming _ id p).inherits

theorem inherits_inside (c : Callback) (caller : Option Span) : w.Inherits (w.inside c caller) :=
  inherits_of_eq rfl rfl rfl

end World

variable {n : Nat} {spot : Spot} {chain : List (ScriptId × CoroutineId)} {w w' v : World}

theorem Exec.Calm.inherits {α : Type} {x : Exec α} (hx : Exec.Calm x) {a : α} (h : x w = .ok a w') :
    w.Inherits w' :=
  ((hx w.processor w).ok h).1.inherits

/-- On the way inwards a world inherits from the one before. -/
theorem Inward.inherits {spot between : Spot} {k : Nat} (h : Inward n spot w chain k between v) :
    w.Inherits v := by
  induction h with
  | @next n depth fuel w w₁ w₂ i hi hheard hstep =>
    have hfirst := ((Reentry.calm_hear _ i w.processor w).ok hheard).1
    obtain ⟨bottom, rfl⟩ := Processor.exists_bottom depth
    have hops := hfirst.later.ops (World.ops_of_instruction hi)
    have hsecond := ((Reentry.keeps_step (Reentry.calm_atDepth n) hops).ok hstep).1
    exact (hfirst.trans hsecond).inherits
  | @asked n depth fuel w w₁ u i q hi hheard hcall hasks =>
    have hfirst := ((Reentry.calm_hear _ i w.processor w).ok hheard).1
    have hops := hfirst.later.ops (World.ops_of_instruction hi)
    exact hfirst.inherits.trans ((Reentry.calm_atDepth (n + 1)).asks_step hops hcall hasks)
  | invoked hi hheard hcalled hyield hdepth =>
    refine ((Reentry.calm_hear _ _).inherits hheard).trans ?_
    rw [called_world hcalled]
    exact World.inherits_of_eq rfl rfl rfl
  | nativeAsked hf hasks => exact (Reentry.calm_atDepth _).asks_native hasks
  | closure hf henter =>
    have hfirst := (calm_resolveCallable _ _).inherits hf
    exact hfirst.trans ((Reentry.keeps_enterClosure _ _ _ _).ok henter).1.inherits
  | callback hf hyield hdepth =>
    exact ((calm_resolveCallable _ _).inherits hf).trans (World.inherits_inside _ _ none)
  | call hnest => exact World.inherits_nested _
  | start hc hbody => exact World.inherits_resuming _ _ _
  | again hc hbody hpush =>
    cases hpush
    exact (World.inherits_resuming _ _ _).trans (World.inherits_of_eq rfl rfl rfl)
  | @host n token f args w w₁ hacquire =>
    have hfirst := ((Reentry.keeps_acquire w.processor w).ok hacquire).1.inherits
    exact hfirst.trans (World.inherits_of_eq rfl rfl rfl)
  | @enter n token id code f w w₁ w₂ hid hload htoken =>
    have hactive : w.Inherits { w with active := id } := World.inherits_of_eq rfl rfl rfl
    have hloaded := (calm_loadString code none none).inherits hload
    exact (hactive.trans hloaded).trans (aside_newToken.calm.inherits htoken)

end LuaMachine
