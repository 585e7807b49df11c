import LuaMachine.Proofs.Coroutine.Suspension
import LuaMachine.Proofs.Machine.Running
import LuaMachine.Proofs.Machine.Transparency

/-!
# Conversations with a coroutine

A coroutine that is resumed again and again has a conversation with whoever resumes it: it says
something at each suspension, and hears something at each resumption. To the coroutine this looks
like a run without interruption in which every `coroutine.yield` is a native function that returns
what is heard (`Reentry.Uninterrupted`).

Main statement: `Reentry.yield_answered`.
-/

namespace LuaMachine

open Exec

namespace World

/-- A place where `coroutine.yield` is called and may suspend: the instruction, the world before it
when a debugger has heard of it, and the values it is called with in the world where the operands are
off the stack. -/
structure YieldPoint (w : World) where
  argc : Nat
  span : Option Span
  before : World
  callback : Callback
  args : List Value
  after : World
  code : (w.scripts.getD w.active.index default).code.instruction? w.processor.ip =
    some ⟨.call argc, span⟩
  heard : Reentry.hear (w.scripts.getD w.active.index default) ⟨.call argc, span⟩ w = .ok () before
  called : called argc before = .ok (.callback callback, args) after
  native : callback.native = .yield
  allowed : after.processor.canYield = true

/-- What a suspended coroutine keeps. -/
def YieldPoint.body {w : World} (y : w.YieldPoint) : CoroutineBody where
  processor := y.after.advanced.processor
  function := none

end World

/-- A resumption: the world in which it is asked for, and the values that it hands over. -/
structure Turn where
  world : World
  live : world.Live
  args : List Value

namespace Turn

/-- What the coroutine hears. -/
def heard (t : Turn) : Value := .ofList (Value.flatten t.args)

/-- The world in which a coroutine has been resumed, with its processor. -/
def inside (t : Turn) (id : CoroutineId) (p : Processor) : World := t.world.nested.resuming id p

/-- With what a resumed coroutine begins: it enters its function, or it hears what the suspension
waits for. -/
inductive Begins (t : Turn) (id : CoroutineId) : CoroutineBody → World → Prop where
  | function {p : Processor} {f : ClosureId} {s : World}
    (h : enterClosure f (Value.flatten t.args) none none (t.inside id p) = .ok () s) :
    Begins t id { processor := p, function := some (.function f) } s
  | suspension {p : Processor} {s : World} (h : push t.heard (t.inside id p) = .ok () s) :
    Begins t id { processor := p, function := none } s

theorem Begins.continueBody_eq {t : Turn} {id : CoroutineId} {body : CoroutineBody} {s : World}
    (h : t.Begins id body s) (r : Reentry) :
    r.continueBody body.function t.args (t.inside id body.processor) = r.run 0 stepLimit s := by
  cases h with
  | @function p f s h =>
    have hresolve : resolveCallable (.function f) (Value.flatten t.args) (t.inside id p) =
        .ok (.function f, Value.flatten t.args) (t.inside id p) := rfl
    exact (bind_ok hresolve).trans (bind_ok h)
  | suspension h => exact bind_ok h

end Turn

namespace Reentry

/-- A run without interruption. Each `coroutine.yield` on the way is given values, and is answered
like a call of a native function, in the world of the next turn with the processor as it was. -/
inductive Uninterrupted (r : Reentry) (id : CoroutineId) :
    World → List Turn → List Value → Except ScriptError Value → Prop where
  | returned {n : Nat} {w w' : World} {v : Value} (h : r.run 0 n w = .ok (.returned v) w') :
    Uninterrupted r id w [] [] (.ok v)
  | failed {n : Nat} {w w' : World} {e : ScriptError} (h : r.run 0 n w = .error (.error e) w') :
    Uninterrupted r id w [] [] (.error e)
  | answered {k : Nat} {w u : World} {t : Turn} {ts : List Turn} {vs : List Value}
    {out : Except ScriptError Value} (h : Passes r 0 k w u) (y : u.YieldPoint)
    (hrest : Uninterrupted r id ((t.inside id y.after.processor).answered t.heard) ts vs out) :
    Uninterrupted r id w (t :: ts) (.ofList y.args :: vs) out

/-- A coroutine is resumed in one turn after the other: what each resumption but the last returns,
and what comes of the last one. From one turn to the next the coroutine stays as it is. -/
inductive Conversation (r : Reentry) (id : CoroutineId) :
    Coroutine → List Turn → List Value → Except ScriptError Value → Prop where
  | returned {c c' : Coroutine} {t : Turn} {v : Value} {w' : World}
    (hmay : t.world.MayResume id c) (hresume : r.resumeCoroutine id t.args t.world = .ok v w')
    (hafter : w'.heap.coroutine? id = some c') (hdead : c'.state = .dead) :
    Conversation r id c [t] [] (.ok v)
  | failed {c : Coroutine} {t : Turn} {e : ScriptError} {w' : World}
    (hmay : t.world.MayResume id c)
    (hresume : r.resumeCoroutine id t.args t.world = .error (.error e) w') :
    Conversation r id c [t] [] (.error e)
  | suspended {c c' : Coroutine} {t : Turn} {ts : List Turn} {v : Value} {vs : List Value}
    {out : Except ScriptError Value} {w' : World}
    (hmay : t.world.MayResume id c) (hresume : r.resumeCoroutine id t.args t.world = .ok v w')
    (hafter : w'.heap.coroutine? id = some c') (hsuspended : c'.state = .suspended)
    (hrest : Conversation r id c' ts vs out) : Conversation r id c (t :: ts) (v :: vs) out

variable {r : Reentry} {w w' s u v : World} {k m n : Nat} {id : CoroutineId}

/-! ## Runs -/

/-- A call of `coroutine.yield` ends the run. -/
theorem run_yield (y : u.YieldPoint) (m : Nat) :
    r.run 0 (m + 1) u = .ok (.yielded (.ofList y.args)) y.after.advanced := by
  have hstep : r.step 0 ⟨.call y.argc, y.span⟩ y.before =
      .ok (some (.yielded (.ofList y.args))) y.after.advanced :=
    stepCall_yield y.called y.native y.allowed
  rw [Reentry.run_eq r 0 m y.code, bind_ok y.heard]
  unfold stepThen
  rw [hstep]

/-- A run that is suspended has come to a call of `coroutine.yield`. -/
theorem exists_of_run_yielded {x : Value} (h : r.run 0 n s = .ok (.yielded x) v) :
    ∃ k u, k < n ∧ r.Passes 0 k s u ∧
      ∃ y : u.YieldPoint, x = .ofList y.args ∧ v = y.after.advanced := by
  induction n generalizing s with
  | zero => cases h
  | succ n ih =>
    cases hi : (s.scripts.getD s.active.index default).code.instruction? s.processor.ip with
    | none =>
      rw [Reentry.run] at h
      simp only [hi] at h
      cases h
    | some i =>
      rw [Reentry.run_eq r 0 n hi] at h
      cases hheard : hear (s.scripts.getD s.active.index default) i s with
      | error stop w₁ =>
        rw [bind_error hheard] at h
        cases h
      | ok _ w₁ =>
        rw [bind_ok hheard] at h
        unfold stepThen at h
        split at h
        · next w₂ hstep =>
          obtain ⟨k, u, hk, hpasses, hy⟩ := ih h
          exact ⟨k + 1, u, Nat.succ_lt_succ hk, .step hi hheard hstep hpasses, hy⟩
        · next exit w₂ hstep =>
          cases h
          obtain ⟨argc, c, args, w₂, hop, hcalled, hyield, hallowed, rfl, rfl⟩ :=
            exists_of_step_yielded hstep
          obtain ⟨op, span⟩ := i
          cases hop
          let y : s.YieldPoint := ⟨argc, span, w₁, c, args, w₂, hi, hheard, hcalled, hyield, hallowed⟩
          exact ⟨0, s, Nat.succ_pos n, .refl, y, rfl, rfl⟩
        · next e w₂ hstep =>
          cases htrace : trace e i.span w₂ with
          | ok e w₃ =>
            rw [bind_ok htrace] at h
            cases h
          | error stop w₃ =>
            rw [bind_error htrace] at h
            cases h
        · cases h

/-! ## Resumptions -/

variable {t : Turn} {c : Coroutine} {body : CoroutineBody}

theorem coroutine?_stopping (hc : u.heap.coroutine? id = some c) (state : CoroutineState)
    (body : Option CoroutineBody) (p : Processor) :
    (u.stopping id state body p).heap.coroutine? id = some { c with state, body } := by
  unfold World.stopping
  rw [World.coroutine?_modify, if_pos rfl, hc]
  rfl

/-- A resumption is a run of instructions from a world: what comes of it is told by how the run
ends. -/
def RunsFrom (r : Reentry) (id : CoroutineId) (t : Turn) (s : World) : Prop :=
  r.resumeCoroutine id t.args t.world =
    andFinally (fun _ => concluding id t.world.processor (r.run 0 stepLimit s))
      (·.unnested t.world.active) t.world

theorem Tidy.runsFrom (hr : r.Tidy) (hmay : t.world.MayResume id c) (hbody : c.body = some body)
    (hbegins : t.Begins id body s) : r.RunsFrom id t s := by
  unfold RunsFrom
  rw [hr.resumeCoroutine_eq t.live hmay hbody t.args]
  unfold andFinally
  have hrun := hbegins.continueBody_eq r
  unfold Turn.inside at hrun
  dsimp only
  rw [hrun]
  rfl

/-- While its body runs, the coroutine is there. -/
theorem Tidy.exists_coroutine (hr : r.Tidy) (hmay : t.world.MayResume id c)
    (hbegins : t.Begins id body s) {exit : Exit} (h : r.run 0 stepLimit s = .ok exit u) :
    ∃ c', u.heap.coroutine? id = some c' := by
  have hnested := t.world.quiet_nested.live t.live
  have hinside : (t.inside id body.processor).Live :=
    hnested.resuming hmay.coroutine hmay.owner hmay.state body.processor
  have hrun := (hbegins.continueBody_eq r).trans h
  have hu := (hr.continueBody hinside body.function t.args).ok hrun
  have htop : id ∈ u.stack t.world.active := by
    rw [hu.stack]
    unfold Turn.inside
    have hstack : (t.world.nested.resuming id body.processor).stack t.world.active =
        id :: t.world.nested.stack t.world.active :=
      (World.stack_resuming hnested.active body.processor t.world.active).trans (if_pos rfl)
    rw [hstack]
    exact List.mem_cons_self
  obtain ⟨c', hc', -⟩ := hu.orderly.stacked htop
  exact ⟨c', hc'⟩

/-- A resumption that comes to a suspension returns what the coroutine says, and the coroutine keeps
the processor. -/
theorem Tidy.resume_yielded (hr : r.Tidy) (hmay : t.world.MayResume id c)
    (hbody : c.body = some body) (hbegins : t.Begins id body s) {x : Value}
    (h : r.run 0 stepLimit s = .ok (.yielded x) u) :
    ∃ w' c', r.resumeCoroutine id t.args t.world = .ok x w' ∧ w'.heap.coroutine? id = some c' ∧
      c'.state = .suspended ∧ c'.body = some { processor := u.processor, function := none } := by
  obtain ⟨c', hc'⟩ := hr.exists_coroutine hmay hbegins h
  have hstop := coroutine?_stopping hc' .suspended
    (some { processor := u.processor, function := none }) t.world.processor
  have hresume := hr.runsFrom hmay hbody hbegins
  unfold RunsFrom andFinally at hresume
  rw [h] at hresume
  exact ⟨_, _, hresume, hstop, rfl, rfl⟩

/-- A resumption in which the coroutine returns is its last one. -/
theorem Tidy.resume_returned (hr : r.Tidy) (hmay : t.world.MayResume id c)
    (hbody : c.body = some body) (hbegins : t.Begins id body s) {x : Value}
    (h : r.run 0 stepLimit s = .ok (.returned x) u) :
    ∃ w' c', r.resumeCoroutine id t.args t.world = .ok x w' ∧ w'.heap.coroutine? id = some c' ∧
      c'.state = .dead := by
  obtain ⟨c', hc'⟩ := hr.exists_coroutine hmay hbegins h
  have hstop := coroutine?_stopping hc' .dead none t.world.processor
  have hresume := hr.runsFrom hmay hbody hbegins
  unfold RunsFrom andFinally at hresume
  rw [h] at hresume
  exact ⟨_, _, hresume, hstop, rfl⟩

/-- A resumption fails as the run of the coroutine does. -/
theorem Tidy.resume_failed (hr : r.Tidy) (hmay : t.world.MayResume id c)
    (hbody : c.body = some body) (hbegins : t.Begins id body s) {stop : Stop}
    (h : r.run 0 stepLimit s = .error stop u) :
    ∃ w', r.resumeCoroutine id t.args t.world = .error stop w' := by
  have hresume := hr.runsFrom hmay hbody hbegins
  unfold RunsFrom andFinally at hresume
  rw [h] at hresume
  cases stop <;> exact ⟨_, hresume⟩

/-- A resumption that returns: the coroutine returned, or it was suspended. -/
theorem Tidy.run_of_resumed (hr : r.Tidy) (hmay : t.world.MayResume id c)
    (hbody : c.body = some body) (hbegins : t.Begins id body s) {x : Value} {c' : Coroutine}
    (h : r.resumeCoroutine id t.args t.world = .ok x w') (hc' : w'.heap.coroutine? id = some c') :
    ∃ u, r.run 0 stepLimit s = .ok (.returned x) u ∧ c'.state = .dead ∨
      r.run 0 stepLimit s = .ok (.yielded x) u ∧ c'.state = .suspended ∧
        c'.body = some { processor := u.processor, function := none } := by
  cases hrun : r.run 0 stepLimit s with
  | ok exit u =>
    cases exit with
    | returned y =>
      obtain ⟨w'', c'', hresume, hafter, hdead⟩ := hr.resume_returned hmay hbody hbegins hrun
      rw [h] at hresume
      cases hresume
      rw [hc'] at hafter
      cases hafter
      exact ⟨u, .inl ⟨rfl, hdead⟩⟩
    | yielded y =>
      obtain ⟨w'', c'', hresume, hafter, hsuspended⟩ := hr.resume_yielded hmay hbody hbegins hrun
      rw [h] at hresume
      cases hresume
      rw [hc'] at hafter
      cases hafter
      exact ⟨u, .inr ⟨rfl, hsuspended⟩⟩
  | error stop u =>
    obtain ⟨w'', hresume⟩ := hr.resume_failed hmay hbody hbegins hrun
    rw [h] at hresume
    cases hresume

/-- A resumption that fails: the run of the coroutine failed. -/
theorem Tidy.run_of_failed (hr : r.Tidy) (hmay : t.world.MayResume id c)
    (hbody : c.body = some body) (hbegins : t.Begins id body s) {e : ScriptError}
    (h : r.resumeCoroutine id t.args t.world = .error (.error e) w') :
    ∃ u, r.run 0 stepLimit s = .error (.error e) u := by
  cases hrun : r.run 0 stepLimit s with
  | ok exit u =>
    cases exit with
    | returned y =>
      obtain ⟨w'', c'', hresume, -⟩ := hr.resume_returned hmay hbody hbegins hrun
      rw [h] at hresume
      cases hresume
    | yielded y =>
      obtain ⟨w'', c'', hresume, -⟩ := hr.resume_yielded hmay hbody hbegins hrun
      rw [h] at hresume
      cases hresume
  | error stop u =>
    obtain ⟨w'', hresume⟩ := hr.resume_failed hmay hbody hbegins hrun
    rw [h] at hresume
    cases hresume
    exact ⟨u, rfl⟩

/-! ## Conversations -/

/-- What the coroutine hears stands in the place of the result of `coroutine.yield`. -/
theorem begins_suspension (y : u.YieldPoint) (t : Turn) (id : CoroutineId) :
    t.Begins id y.body ((t.inside id y.after.processor).answered t.heard) :=
  .suspension rfl

theorem Conversation.exists_turn {ts : List Turn} {vs : List Value} {out : Except ScriptError Value}
    (h : r.Conversation id c ts vs out) : ∃ t ts', ts = t :: ts' := by
  cases h with
  | returned => exact ⟨_, _, rfl⟩
  | failed => exact ⟨_, _, rfl⟩
  | suspended => exact ⟨_, _, rfl⟩

/-- To the coroutine a conversation is a run without interruption. -/
theorem Conversation.uninterrupted (hr : r.Tidy) {ts : List Turn} {vs : List Value}
    {out : Except ScriptError Value} (h : r.Conversation id c (t :: ts) vs out)
    (hbody : c.body = some body) (hbegins : t.Begins id body s) :
    r.Uninterrupted id s ts vs out := by
  generalize hturns : t :: ts = turns at h
  induction h generalizing t ts body s with
  | @returned c c' t' v w' hmay hresume hafter hdead =>
    cases hturns
    obtain ⟨u, ⟨hrun, -⟩ | ⟨-, hsuspended, -⟩⟩ :=
      hr.run_of_resumed hmay hbody hbegins hresume hafter
    · exact .returned hrun
    · rw [hdead] at hsuspended
      cases hsuspended
  | @failed c t' e w' hmay hresume =>
    cases hturns
    obtain ⟨u, hrun⟩ := hr.run_of_failed hmay hbody hbegins hresume
    exact .failed hrun
  | @suspended c c' t' ts' v vs out w' hmay hresume hafter hsuspended hrest ih =>
    cases hturns
    obtain ⟨u, ⟨-, hdead⟩ | ⟨hrun, -, hbody'⟩⟩ :=
      hr.run_of_resumed hmay hbody hbegins hresume hafter
    · rw [hsuspended] at hdead
      cases hdead
    · -- the next turn begins where the call of `coroutine.yield` is answered
      obtain ⟨k, v, -, hpasses, y, rfl, rfl⟩ := exists_of_run_yielded hrun
      obtain ⟨t', ts'', rfl⟩ := hrest.exists_turn
      exact .answered hpasses y (ih hbody' (begins_suspension y t' id) rfl)

/-! ## Native functions in the place of a suspension -/

/-- A resumed coroutine goes on without a body of its own. -/
theorem follows_resuming (w : World) (id : CoroutineId) (p : Processor) :
    w.Follows (w.resuming id p) := by
  have hstarted : w.Follows { w with
      heap := w.heap.modifyCoroutine id fun c => { c with state := .running, body := none } } :=
    (World.Follows.refl w).modifyCoroutine (fun _ _ => rfl) fun _ _ _ _ _ _ => .of_none rfl
  have hpushed : ∀ w : World, w.Follows { w with scripts := w.scripts.modify w.active.index fun s =>
      { s with running := id :: s.running } } := fun _ => World.follows_modifyScript fun _ _ => .refl _
  exact (hstarted.trans (hpushed _)).trans (World.follows_of_eq rfl)

theorem follows_begins (hbegins : t.Begins id body s) : t.world.Follows s := by
  have hnested : t.world.Follows t.world.nested := World.follows_modifyScript fun _ _ => .refl _
  have hinside : t.world.Follows (t.inside id body.processor) :=
    hnested.trans (follows_resuming _ id body.processor)
  cases hbegins with
  | function h => exact hinside.trans ((keeps_enterClosure _ _ _ _).ok h).1
  | suspension h =>
    cases h
    exact hinside.trans (World.follows_of_eq rfl)

theorem follows_yieldPoint (y : u.YieldPoint) : u.Follows y.after := by
  have hfirst : u.Follows y.before := ((calm_hear _ _ u.processor u).ok y.heard).1
  rw [called_world y.called]
  exact hfirst.trans (World.follows_of_eq rfl)

/-- If a native function stood in the place of `coroutine.yield` and returned, the processor would be
as it was, with the result on the stack, behind the call. -/
theorem step_native (hr : r.Calm) (y : u.YieldPoint) (hclosed : y.after.Closed) {f : Callback}
    (hf : f.native ≠ .yield) {x : Value}
    (hinvoke : invoke r f (Value.flatten (y.before.operands y.argc)) y.span y.after = .ok x v)
    (hgenuine : v.Genuine) :
    r.step 0 ⟨.call y.argc, y.span⟩ (y.before.calling y.argc (.callback f)) =
        .ok none (v.answered x) ∧ v.processor = y.after.processor := by
  have hcalled : called y.argc (y.before.calling y.argc (.callback f)) =
      .ok (.callback f, Value.flatten (y.before.operands y.argc)) y.after :=
    called_calling y.called (.callback f)
  refine ⟨stepCall_returned hcalled hf hinvoke, ?_⟩
  exact ((hr.invoke f _ y.span y.after.processor y.after).ok hinvoke).2 hgenuine hclosed rfl

/-- `coroutine.yield` is like a call that the next resumption answers. Wherever the run of a coroutine
comes to an allowed call of it, the resumption returns the values of the call; and when the coroutine
is resumed again, it goes on with the processor as it would be if a native function had returned the
values of that resumption in the place of the call. So to the coroutine a conversation is a run
without interruption, in which each call is answered by the next resumption. -/
theorem yield_answered (n : Nat) (hclosed : t.world.Closed) (hmay : t.world.MayResume id c)
    (hbody : c.body = some body) (hbegins : t.Begins id body s) :
    (∀ k u, k < stepLimit → (atDepth n).Passes 0 k s u → ∀ y : u.YieldPoint,
      (∃ w' c', (atDepth n).resumeCoroutine id t.args t.world = .ok (.ofList y.args) w' ∧
        w'.heap.coroutine? id = some c' ∧ c'.state = .suspended ∧ c'.body = some y.body) ∧
      ∀ (t' : Turn) (c' : Coroutine), t'.world.MayResume id c' → c'.body = some y.body →
        ∃ s', (atDepth n).RunsFrom id t' s' ∧
          ∀ (f : Callback) (v : World), f.native ≠ .yield → v.Compiled →
            invoke (atDepth n) f (Value.flatten (y.before.operands y.argc)) y.span y.after =
              .ok t'.heard v →
            ∃ v', (atDepth n).step 0 ⟨.call y.argc, y.span⟩
                (y.before.calling y.argc (.callback f)) = .ok none v' ∧
              s'.processor = v'.processor) ∧
      ∀ ts vs out, (atDepth n).Conversation id c (t :: ts) vs out →
        (atDepth n).Uninterrupted id s ts vs out := by
  have hcalm := calm_atDepth n
  have htidy := tidy_atDepth n
  constructor
  · intro k u hk hpasses y
    constructor
    · obtain ⟨m, hm⟩ : ∃ m, stepLimit = k + (m + 1) := ⟨stepLimit - k - 1, by omega⟩
      have hrun : (atDepth n).run 0 stepLimit s =
          .ok (.yielded (.ofList y.args)) y.after.advanced := by
        rw [hm, hpasses.run_eq]
        exact run_yield y m
      exact htidy.resume_yielded hmay hbody hbegins hrun
    · intro t' c' hmay' hbody'
      refine ⟨_, htidy.runsFrom hmay' hbody' (begins_suspension y t' id), ?_⟩
      intro f v hf hcompiled hinvoke
      have hfollows := ((follows_begins hbegins).trans (hpasses.follows hcalm {})).trans
        (follows_yieldPoint y)
      have hafter := ((hcalm.invoke f _ y.span y.after.processor y.after).ok hinvoke).1
      have hstep := step_native hcalm y
        (hfollows.closed (hafter.later.genuine hcompiled.genuine) hclosed) hf hinvoke
        hcompiled.genuine
      refine ⟨_, hstep.1, ?_⟩
      unfold World.answered
      rw [hstep.2]
      rfl
  · exact fun ts vs out h => h.uninterrupted htidy hbody hbegins

/-- A script of one function, and a coroutine with that function that has not started. -/
def soleCoroutine (entry : Nat) (code : Segment) : World :=
  { heap := { closures := #[⟨⟨0⟩, entry, #[]⟩], coroutines := #[
      { owner := ⟨0⟩, state := .notStarted,
        body := some { processor := { isCoroutine := true }, function := some (.function ⟨0⟩) } }] }
    scripts := #[{ options := {}, globals := ⟨0⟩, registry := ⟨1⟩, main := ⟨0⟩, code }] }

theorem live_soleCoroutine (entry : Nat) (code : Segment) : (soleCoroutine entry code).Live := by
  have hcoroutine : ∀ {id c}, (soleCoroutine entry code).heap.coroutine? id = some c →
      c.owner = ⟨0⟩ ∧ c.state = .notStarted ∧ c.body.isSome := by
    intro id c hc
    obtain ⟨hid, rfl⟩ := Array.getElem?_eq_some_iff.1 hc
    have hzero : id.index = 0 := Nat.lt_one_iff.1 hid
    simp [soleCoroutine, hzero]
  have hstack : ∀ i, (soleCoroutine entry code).stack i = [] := by
    intro i
    unfold World.stack
    rw [Array.getD_eq_getD_getElem?]
    cases hs : (soleCoroutine entry code).scripts[i.index]? with
    | none => rfl
    | some s =>
      obtain ⟨hi, rfl⟩ := Array.getElem?_eq_some_iff.1 hs
      have hzero : i.index = 0 := Nat.lt_one_iff.1 hi
      simp [soleCoroutine, hzero]
  refine ⟨⟨?_, ?_, ?_, ?_, ?_⟩, Nat.one_pos⟩
  · intro id c hc
    rw [(hcoroutine hc).1]
    exact Nat.one_pos
  · intro id c hc
    rw [hstack, (hcoroutine hc).2.1]
    simp
  · intro i id hid
    rw [hstack] at hid
    cases hid
  · intro i
    rw [hstack]
    exact List.nodup_nil
  · intro id c hc
    simp [(hcoroutine hc).2.1, (hcoroutine hc).2.2]

/-- What is checked of a coroutine with one function: resumed with `coroutine.yield` and `true` it
suspends with `true`, and resumed with `false` it returns `false`. -/
def answersOnce (source : String) : Bool :=
  match Segment.empty.compile { chunk := "c", source := 0 } source with
  | .ok (chunk, code) =>
    let w := soleCoroutine chunk.entry code
    let args := [.callback ⟨0, .yield⟩, .boolean true]
    match enterClosure ⟨0⟩ args none none (w.nested.resuming ⟨0⟩ { isCoroutine := true }) with
    | .ok _ _ => match (atDepth 0).resumeCoroutine ⟨0⟩ args w with
      | .ok (.boolean true) w' => match w'.heap.coroutine? ⟨0⟩ with
        | some { owner, state := .suspended, body := _ } =>
          let s := w'.scripts.getD w'.active.index default
          owner == w'.active && s.nesting < s.options.maxNestedCalls &&
            match (atDepth 0).resumeCoroutine ⟨0⟩ [.boolean false] w' with
            | .ok (.boolean false) w'' => (w''.heap.coroutine? ⟨0⟩).any (·.state == .dead)
            | _ => false
        | _ => false
      | _ => false
    | .error _ _ => false
  | .error _ => false

theorem yield_answered_once : ∃ (t t' : Turn) (c : Coroutine) (s : World),
    t.args = [.callback ⟨0, .yield⟩, .boolean true] ∧ t'.args = [.boolean false] ∧
      (atDepth 0).Conversation ⟨0⟩ c [t, t'] [.boolean true] (.ok (.boolean false)) ∧
      (atDepth 0).Uninterrupted ⟨0⟩ s [t'] [.boolean true] (.ok (.boolean false)) := by
  have hrun : answersOnce "local f, x = ... return f(x)" = true := by decide +kernel
  unfold answersOnce at hrun
  cases hc : Segment.empty.compile { chunk := "c", source := 0 } "local f, x = ... return f(x)" with
  | error e =>
    rw [hc] at hrun
    cases hrun
  | ok p =>
    obtain ⟨chunk, code⟩ := p
    simp only [hc] at hrun
    split at hrun
    · next u s henter =>
      split at hrun
      · next w' hfirst =>
        split at hrun
        · next owner body hc' =>
          simp only [Bool.and_eq_true, decide_eq_true_eq, beq_iff_eq] at hrun
          obtain ⟨⟨howner, hnest⟩, hrun⟩ := hrun
          split at hrun
          · next w'' hsecond =>
            obtain ⟨c'', hc'', hdead⟩ := (Option.any_eq_true _ _).1 hrun
            have hcode : code.Compiled := .compile .empty hc
            have hclosed : (soleCoroutine chunk.entry code).Closed := by
              intro i c hi s hs
              obtain ⟨hi', rfl⟩ := Array.getElem?_eq_some_iff.1 hi
              obtain rfl : i = 0 := Nat.lt_one_iff.1 hi'
              cases hs
              exact (Segment.hasHeader_compile hc).2
            have hlive := live_soleCoroutine chunk.entry code
            have hlive' : w'.Live := (((tidy_atDepth 0).resumeCoroutine hlive _ _).ok hfirst).live hlive
            let t : Turn := ⟨_, hlive, [.callback ⟨0, .yield⟩, .boolean true]⟩
            let t' : Turn := ⟨w', hlive', [.boolean false]⟩
            have hmay : t.world.MayResume ⟨0⟩ _ := ⟨rfl, rfl, .inl rfl, Nat.succ_pos _⟩
            have hmay' : t'.world.MayResume ⟨0⟩ _ := ⟨hc', howner, .inr rfl, hnest⟩
            have hconversation := Conversation.suspended hmay hfirst hc' rfl
              (.returned hmay' hsecond hc'' (by simpa using hdead))
            have hbegins : t.Begins ⟨0⟩ _ s := .function henter
            have hall := (yield_answered 0 hclosed hmay rfl hbegins).2 _ _ _ hconversation
            exact ⟨t, t', _, s, rfl, rfl, hconversation, hall⟩
          · cases hrun
        · cases hrun
      · cases hrun
    · cases hrun

end Reentry

end LuaMachine
