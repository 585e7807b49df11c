import LuaMachine.Proofs.Coroutine.Yieldable

/-!
# Going on after a suspension

A coroutine is suspended by a call of `coroutine.yield` in a script function, or by `coroutine.yield`
itself if it is the function that the coroutine was made of. After the former the next resumption goes
on behind the call, with its values as the result, and carries out instructions of the functions of the
coroutine only. After the latter there is no function to go on with: control begins at address zero
without a frame, and the resumption fails at the second instruction.

Main statement: `World.Reached.suspended_continues`.
-/

namespace LuaMachine

open Exec

/-! ## Worlds of a run -/

namespace World

/-- Something is asked for in a world, while a request of a host is in progress. -/
def Reached (u : World) : Prop :=
  ∃ w n m q q', w.Hosted ∧ w.active.index < w.scripts.size ∧ Comes n (.request q) w m (.request q') u

variable {u v w : World} {bottom : Processor}

theorem Reached.closed (h : u.Reached) (hg : u.Genuine) : u.Closed := by
  obtain ⟨w, n, m, q, q', hw, -, hcomes⟩ := h
  exact hcomes.inherits.closed hg (hw.sane (hcomes.inherits.genuine hg)).closed

theorem Reached.resumable (h : u.Reached) (hg : u.Genuine) : u.Resumable := by
  obtain ⟨w, n, m, q, q', hw, -, hcomes⟩ := h
  have hgw := hcomes.inherits.genuine hg
  have hsane := hw.sane hgw
  exact hcomes.inherits.resumable hg hsane.closed (hsane.resumable hgw)

/-- The next instruction is there. It belongs to the function of the innermost frame, and its operands
are above the base of that frame. -/
def Ready (v : World) : Prop :=
  ∃ (f : ScriptFrame) (name : String) (kind : HeaderKind) (n k : Nat) (op : OpCode),
    v.processor.frames.back? = some (.script f) ∧ f.closure.owner = v.active ∧
      v.ops f.closure.entry = some (.header name kind n) ∧
      Owns v.ops f.closure.entry n v.processor.ip ∧ v.ops v.processor.ip = some op ∧
      op.needs ≤ k ∧ v.processor.values.size = f.base + k

theorem Running.ready (h : v.Running bottom) (hg : v.Genuine)
    (hactive : v.active.index < v.scripts.size) : v.Ready := by
  obtain ⟨A, k, x, -, ⟨howner, hheader, hreaches, hbase⟩, f, own, ⟨hclosure, hf, -⟩, hk, hp⟩ := h
  have hs : v.scripts[v.active.index]? = some v.scripts[v.active.index] :=
    Array.getElem?_eq_getElem hactive
  have hops : v.ops = v.scripts[v.active.index].code.ops := by
    unfold ops
    rw [Array.getD_eq_getD_getElem?, hs]
    rfl
  rw [hops] at hreaches
  obtain ⟨name, kind, n, op, hentry, howns, hop, hneeds⟩ :=
    (hg _ _ hs).reaches (hheader _ (by rw [howner, hs])) hreaches
  rw [← hops] at hentry howns hop
  refine ⟨f, name, kind, n, k, op, ?_, ?_, ?_, ?_, ?_, hneeds, ?_⟩
  · rw [hp]
    exact Array.back?_push
  · rw [hclosure, howner]
  · rwa [hclosure]
  · rwa [hclosure, hp]
  · rwa [hp]
  · rw [hp, hf, hbase, ← hk]
    exact Array.size_append

/-- A function that waits for the value of its call goes on when it is there. -/
theorem Paused.push (h : w.Paused none bottom) (hl : w.Later v) {x : Value}
    (hp : v.processor = { w.processor with values := w.processor.values.push x }) :
    v.Running bottom := by
  obtain ⟨A, k, y, hwaits, hruns, hat⟩ := h
  exact ⟨A, k + 1, y, hwaits.mono hl, hruns.mono hl, hp ▸ hat.push x⟩

end World

/-! ## Loops that go on -/

namespace Reentry

variable {r : Reentry} {depth : Nat} {w w₁ u : World} {bottom : Processor} {i : Instruction}

/-- From one instruction of a function to the next. -/
theorem running_instruction (hr : r.Calm)
    (hi : (w.scripts.getD w.active.index default).code.instruction? w.processor.ip = some i)
    (hheard : hear (w.scripts.getD w.active.index default) i w = .ok () w₁)
    (hstep : r.step bottom.frames.size i w₁ = .ok none u) (hg : u.Genuine) (hc : w.Closed)
    (hrun : w.Running bottom) : u.Running bottom := by
  obtain ⟨hfirst, hq⟩ := (calm_hear _ i w.processor w).ok hheard
  have hops := hfirst.later.ops (World.ops_of_instruction hi)
  have hsecond := (keeps_step hr hops).ok hstep
  have hg₁ := hsecond.1.later.genuine hg
  have hp := hq hg₁ hc rfl
  have hrun₁ : w₁.Running bottom := World.RunsAbove.mono hfirst.later hp hrun
  exact hsecond.2 hg (hfirst.closed hg₁ hc) ⟨congrArg Processor.ip hp, hrun₁⟩

end Reentry

namespace World

variable {w w' : World}

theorem Aside.genuine (h : w.Aside w') (hg : w.Genuine) : w'.Genuine := by
  intro i s' hs'
  have hbare : (w'.scripts.map Script.bare)[i]? = (w.scripts.map Script.bare)[i]? := by rw [h.scripts]
  rw [Array.getElem?_map, Array.getElem?_map, hs'] at hbare
  obtain ⟨s, hs, heq⟩ := Option.map_eq_some_iff.1 hbare.symm
  have hcode : s.bare.code = s'.bare.code := congrArg Script.code heq
  have hcode : s.code = s'.code := hcode
  exact hcode ▸ hg i s hs

end World

namespace Reentry

variable {r : Reentry} {depth n : Nat} {w : World}

/-- A run without a frame fails: it comes to the beginning of a function, and there is none. -/
theorem run_adrift (r : Reentry) (depth n : Nat) (hg : w.Genuine) (h : w.Adrift) :
    ∃ stop w', r.run depth n w = .error stop w' := by
  induction n generalizing w with
  | zero => exact ⟨_, _, rfl⟩
  | succ n ih =>
    cases hi : (w.scripts.getD w.active.index default).code.instruction? w.processor.ip with
    | none =>
      refine ⟨.error (.ofFault (.invalidAddress w.processor.ip)), w, ?_⟩
      rw [run]
      simp only [hi]
    | some i =>
      rw [Reentry.run_eq r depth n hi]
      cases hheard : hear (w.scripts.getD w.active.index default) i w with
      | error stop w₁ => exact ⟨stop, w₁, bind_error hheard⟩
      | ok _ w₁ =>
        have haside := (aside_hear _ i).ok hheard
        have hl : w.Later w₁ := ((calm_hear _ i w.processor w).ok hheard).1.later
        have h₁ : w₁.Adrift := h.mono hl haside.processor
        have hg₁ := haside.genuine hg
        have hop : w₁.ops w₁.processor.ip = some i.op := by
          rw [haside.processor]
          exact hl.ops (World.ops_of_instruction hi)
        rw [bind_ok hheard]
        unfold stepThen
        obtain ⟨op, span⟩ := i
        rcases h₁.2 with hip | ⟨hip, locals, hbegin⟩
        · -- the header of the first function
          obtain ⟨s, hs, hops⟩ := World.exists_script_of_ops hop
          have hfirst := hop
          rw [hops, hip] at hfirst
          obtain ⟨⟨name, kind, m, hheader⟩, locals, hbegin⟩ := (hg₁ _ s hs).first hfirst
          obtain rfl : op = .header name kind m := hheader
          have hadvanced : w₁.advanced.Adrift := by
            refine ⟨h₁.1, .inr ⟨congrArg (· + 1) hip, locals, ?_⟩⟩
            change w₁.ops 1 = _
            rw [hops]
            exact hbegin
          exact ih hg₁ hadvanced
        · rw [hip, hbegin] at hop
          obtain rfl : OpCode.beginFn locals = op := Option.some_inj.1 hop
          have htop : topFrame w₁ = .error (.error (.ofFault .noFrame)) w₁ := by
            simp only [topFrame, topFrameOr, h₁.1]
            rfl
          have hstep : r.step depth ⟨.beginFn locals, span⟩ w₁ =
              .error (.error (.ofFault .noFrame)) w₁ := bind_error (bind_error htop)
          rw [hstep]
          exact exists_error_of_trace _ _ _

end Reentry

/-! ## Resumptions -/

section Serves

variable {m : Nat} {id : CoroutineId} {args : List Value} {spot : Spot} {u v w₁ : World}
  {c : Coroutine} {p : Processor} {x : Value}

/-- What a resumption of a suspended coroutine carries out is the loop that goes on, so what holds where
the loop begins and from one instruction to the next holds of all of it. -/
theorem Serves.of_suspended {I : World → Prop} (h : Serves m (.resume id args) u spot v)
    (hc : u.MayResume id c) (hbody : c.body = some { processor := p, function := none })
    (hstart : ∀ s, push (.ofList (Value.flatten args)) (u.nested.resuming id p) = .ok () s → I s)
    (hnext : ∀ {k depth fuel v v'}, I v → Inward m (.loop 0 k) v [] m (.loop depth fuel) v' → I v') :
    ∃ fuel, spot = .loop 0 fuel ∧ I v := by
  induction h with
  | entered h =>
    cases h with
    | start hc' hbody' =>
      obtain rfl := Option.some.inj (hc'.coroutine.symm.trans hc.coroutine)
      rw [hbody] at hbody'
      cases hbody'
    | again hc' hbody' hpush =>
      obtain rfl := Option.some.inj (hc'.coroutine.symm.trans hc.coroutine)
      rw [hbody] at hbody'
      cases hbody'
      exact ⟨stepLimit, rfl, hstart _ hpush⟩
  | onward _ _ hstep ih =>
    obtain ⟨fuel, rfl, hv⟩ := ih
    have hv' := hnext hv hstep
    cases hstep with
    | next hi hheard hstep => exact ⟨_, rfl, hv'⟩

/-- A resumption that goes on with functions of the coroutine carries out nothing else. -/
theorem Serves.running (h : Serves m (.resume id args) u spot v) (hc : u.MayResume id c)
    (hbody : c.body = some { processor := p, function := none })
    (hpaused : (u.on c.owner p).Paused none .ofCoroutine) (hg : v.Genuine) (hclosed : u.Closed) :
    ∃ fuel, spot = .loop 0 fuel ∧ v.Running .ofCoroutine := by
  have hnested : u.Follows u.nested := World.follows_modifyScript fun _ _ => .refl _
  have hall := h.of_suspended (I := fun v => u.Inherits v ∧ (v.Genuine → v.Running .ofCoroutine))
    hc hbody ?_ ?_
  · obtain ⟨fuel, hspot, -, hrun⟩ := hall
    exact ⟨fuel, hspot, hrun hg⟩
  · intro s hpush
    have hpushed : (u.nested.resuming id p).Follows s := by
      cases hpush
      exact World.follows_of_eq rfl
    have hfollows := (hnested.trans (Reentry.follows_resuming _ id p)).trans hpushed
    refine ⟨hfollows.inherits, fun _ => ?_⟩
    rw [hc.owner] at hpaused
    obtain ⟨hactive, hsize, hcode, howners⟩ := hfollows.later
    refine hpaused.push ⟨hactive, hsize, hcode, howners⟩ (x := .ofList (Value.flatten args)) ?_
    cases hpush
    rfl
  · rintro k depth fuel v v' ⟨hinherits, hrun⟩ hstep
    refine ⟨hinherits.trans hstep.inherits, fun hg' => ?_⟩
    have hg := hstep.inherits.genuine hg'
    cases hstep with
    | next hi hheard hstep =>
      exact Reentry.running_instruction (Reentry.calm_atDepth m) hi hheard hstep hg'
        (hinherits.closed hg hclosed) (hrun hg)

/-- A resumption that leaves the coroutine suspended ends with a suspension, and the coroutine keeps the
processor. -/
theorem Serves.exit_of_suspended (h : Serves m (.resume id args) u spot v) (hcode : spot.IsCode)
    (hu : u.Live) (hresume : (Reentry.atDepth m).resumeCoroutine id args u = .ok x w₁)
    (hc : w₁.heap.coroutine? id = some c) (hstate : c.state = .suspended) :
    ∃ v', spot.exit (Reentry.atDepth m) v = .ok (.yielded x) v' ∧
      c.body = some { processor := v'.processor, function := none } := by
  cases hexit : spot.exit (Reentry.atDepth m) v with
  | error stop v' =>
    have hall := h.resume_eq hcode hu
    unfold andFinally at hall
    rw [hexit, hresume] at hall
    cases stop <;> cases hall
  | ok exit v' =>
    cases exit with
    | yielded y =>
      obtain ⟨w', c', hyielded, hc', -, hbody⟩ := h.resume_yielded hcode hu hexit
      rw [hresume] at hyielded
      cases hyielded
      rw [hc] at hc'
      cases hc'
      exact ⟨v', rfl, hbody⟩
    | returned y =>
      have hall := h.resume_eq hcode hu
      unfold andFinally at hall
      rw [hexit, hresume] at hall
      cases hall
      have hdead : c.state = .dead := (Heap.of_coroutine_stopped hc).1
      rw [hstate] at hdead
      cases hdead

/-- A loop that ends with a suspension has come to a call of `coroutine.yield`. -/
theorem Serves.exists_yieldPoint {n : Nat} {v' : World}
    (h : Serves m (.resume id args) u (.loop 0 n) v)
    (hexit : (Reentry.atDepth m).run 0 n v = .ok (.yielded x) v') :
    ∃ fuel s, ∃ y : s.YieldPoint, Serves m (.resume id args) u (.loop 0 (fuel + 1)) s ∧
      x = .ofList y.args ∧ v' = y.after.advanced := by
  obtain ⟨k, s, hk, hpasses, y, hx, hv'⟩ := Reentry.exists_of_run_yielded hexit
  obtain ⟨fuel, rfl⟩ : ∃ fuel, n = k + (fuel + 1) := ⟨n - k - 1, by omega⟩
  exact ⟨fuel, s, y, h.passes hpasses, hx, hv'⟩

end Serves

/-! ## The next resumption -/

/-- The next resumption of a coroutine goes on behind a call of `coroutine.yield`, with its own values
as the result. It carries out instructions of functions that the coroutine has called, and nothing else;
each of them is there and has its operands, and no native function is in progress. -/
def World.YieldPoint.AnswersNext {v : World} (y : v.YieldPoint) (id : CoroutineId) (c : Coroutine) :
    Prop :=
  ∀ (m : Nat) (t : Turn) (c' : Coroutine), t.world.Reached → t.world.Genuine →
    t.world.MayResume id c' → c'.body = c.body →
      (Reentry.atDepth m).RunsFrom id t ((t.inside id y.after.processor).answered t.heard) ∧
        ∀ spot s, Serves m (.resume id t.args) t.world spot s → s.Genuine →
          s.Ready ∧ s.processor.hostDepth = 0

/-- The next resumption of a coroutine fails, and is its last one. -/
def Coroutine.FailsNext (id : CoroutineId) (c : Coroutine) : Prop :=
  ∀ (m : Nat) (t : Turn) (c' : Coroutine), t.world.Reached → t.world.Genuine →
    t.world.MayResume id c' → c'.body = c.body →
      ∃ stop w', (Reentry.atDepth m).resumeCoroutine id t.args t.world = .error stop w' ∧
        ∀ e, stop = .error e → ∃ d, w'.heap.coroutine? id = some d ∧ d.state = .dead

section Next

variable {m : Nat} {id : CoroutineId} {c : Coroutine} {v : World}

/-- A coroutine that stands behind a call of `coroutine.yield` goes on there. -/
theorem World.YieldPoint.answersNext (y : v.YieldPoint) (hbody : c.body = some y.body) :
    y.AnswersNext id c := by
  intro m t c' hreached hg hmay hsame
  have hbody' : c'.body = some y.body := hsame.trans hbody
  have hruns := (Reentry.tidy_atDepth m).runsFrom hmay hbody' (Reentry.begins_suspension y t id)
  refine ⟨hruns, fun spot s hserves hs => ?_⟩
  have hclosed := hreached.closed hg
  have hsuspended := ((hreached.resumable hg) _ _ hmay.coroutine).suspended _ hbody'
  have hpaused : (t.world.on c'.owner y.body.processor).Paused none .ofCoroutine := by
    refine hsuspended.resolve_left fun h => ?_
    have hip : y.after.processor.ip + 1 = 0 := congrArg Processor.ip h
    exact Nat.succ_ne_zero _ hip
  obtain ⟨fuel, rfl, hrun⟩ := hserves.running hmay hbody' hpaused hs hclosed
  refine ⟨hrun.ready hs (hserves.live t.live).active, ?_⟩
  have hyield : s.processor.canYield = true := hrun.canYield
  unfold Processor.canYield at hyield
  exact beq_iff_eq.1 (Bool.and_eq_true_iff.1 hyield).2

theorem World.Genuine.resuming {u : World} (hg : u.Genuine) (id : CoroutineId) (p : Processor) :
    (u.nested.resuming id p).Genuine := by
  have hnested : u.nested.Genuine := hg.modifyScript fun s hs => hg _ s hs
  exact World.Genuine.modifyScript (w := u.nested) hnested fun s hs => hnested _ s hs

/-- A coroutine that has no function to go on with fails. -/
theorem Coroutine.failsNext
    (hbody : c.body = some { processor := .ofCoroutine, function := none }) : c.FailsNext id := by
  intro m t c' hreached hg hmay hsame
  have hbody' := hsame.trans hbody
  let s : World := { t.inside id .ofCoroutine with
    processor := { Processor.ofCoroutine with values := Processor.ofCoroutine.values.push t.heard } }
  have hbegins : t.Begins id { processor := .ofCoroutine, function := none } s := .suspension rfl
  have hadrift : s.Adrift := ⟨rfl, .inl rfl⟩
  have hinside : s.Genuine := hg.resuming id .ofCoroutine
  obtain ⟨stop, w', hrun⟩ := Reentry.run_adrift (Reentry.atDepth m) 0 stepLimit hinside hadrift
  have htidy := Reentry.tidy_atDepth m
  have hresume := htidy.runsFrom hmay hbody' hbegins
  unfold Reentry.RunsFrom andFinally at hresume
  rw [hrun] at hresume
  cases stop with
  | error e =>
    refine ⟨_, _, hresume, fun _ _ => ?_⟩
    have hcontinues := (htidy.resumeCoroutine t.live id t.args).error hresume
    obtain ⟨d, hd⟩ := hcontinues.evolves.exists_coroutine hmay.coroutine
    exact ⟨d, hd, (Heap.of_coroutine_stopped hd).1⟩
  | panic message => exact ⟨_, _, hresume, nofun⟩
  | exhausted => exact ⟨_, _, hresume, nofun⟩

end Next

namespace World.Reached

variable {m : Nat} {id : CoroutineId} {c : Coroutine} {t : Turn} {x : Value} {w₁ : World}

/-- What becomes of a suspended coroutine. When a resumption in a run leaves a coroutine suspended, there
are two cases. Either it has come to a call of `coroutine.yield` in a function of the coroutine, and
returned the values of the call; then the next resumption goes on behind that call, with its values as
the result, and carries out instructions of functions of the coroutine only, which are there and have
their operands. Or the coroutine was made of `coroutine.yield` itself; then no function has been
entered, and the next resumption fails. -/
theorem suspended_continues (ht : t.world.Reached)
    (hresume : (Reentry.atDepth m).resumeCoroutine id t.args t.world = .ok x w₁)
    (hc : w₁.heap.coroutine? id = some c) (hstate : c.state = .suspended) :
    (∃ v fuel, ∃ y : v.YieldPoint,
      Serves m (.resume id t.args) t.world (.loop 0 (fuel + 1)) v ∧ x = .ofList y.args ∧
        c.body = some y.body ∧ y.AnswersNext id c) ∨
    ∃ f args v k as, Serves m (.resume id t.args) t.world (.function 0 f args) v ∧
      (Spot.function 0 f args).Calls v k as none v ∧ k.native = .yield ∧ x = .ofList as ∧
        (t.world.Genuine → c.FailsNext id) := by
  -- the resumption was accepted
  obtain ⟨c₀, hmay⟩ : ∃ c₀, t.world.MayResume id c₀ := by
    refine World.exists_mayResume fun hrejects => ?_
    obtain ⟨e, he⟩ := Reentry.resume_rejected (Reentry.atDepth m) hrejects t.args
    rw [hresume] at he
    cases he
  obtain ⟨⟨p, f?⟩, hbody₀⟩ := t.live.exists_body hmay
  have hloop : ∀ {v}, Serves m (.resume id t.args) t.world (.loop 0 stepLimit) v →
      ∃ v fuel, ∃ y : v.YieldPoint,
        Serves m (.resume id t.args) t.world (.loop 0 (fuel + 1)) v ∧ x = .ofList y.args ∧
          c.body = some y.body ∧ y.AnswersNext id c := by
    intro v hserves
    obtain ⟨v', hexit, hbody⟩ :=
      hserves.exit_of_suspended trivial t.live hresume hc hstate
    obtain ⟨fuel, s, y, hyields, hx, rfl⟩ := hserves.exists_yieldPoint hexit
    exact ⟨s, fuel, y, hyields, hx, hbody, y.answersNext hbody⟩
  cases f? with
  | none => exact .inl (hloop (.entered (.again hmay hbody₀ rfl)))
  | some f =>
    have hserves : Serves m (.resume id t.args) t.world (.function 0 f (Value.flatten t.args))
        (t.world.nested.resuming id p) := .entered (.start hmay hbody₀)
    obtain ⟨v', hexit, hbody⟩ :=
      hserves.exit_of_suspended trivial t.live hresume hc hstate
    have hexit : (Reentry.atDepth m).enterFunction 0 f (Value.flatten t.args)
        (t.world.nested.resuming id p) = .ok (.yielded x) v' := hexit
    unfold Reentry.enterFunction at hexit
    obtain ⟨⟨g, as⟩, v, hf, hexit⟩ := of_bind_ok hexit
    obtain rfl := followCall_world hf
    cases g with
    | function i =>
      obtain ⟨_, s, henter, -⟩ := of_bind_ok hexit
      exact .inl (hloop (hserves.onward trivial (.closure hf henter)))
    | callback k =>
      by_cases hyield : k.native = .yield
      · dsimp only at hexit
        rw [hyield] at hexit
        cases hexit
        refine .inr ⟨f, _, _, k, as, hserves, .function hf, hyield, rfl, fun hg => ?_⟩
        refine Coroutine.failsNext ?_
        rw [hbody]
        have hfresh := ((ht.resumable hg) _ _ hmay.coroutine).fresh _ _ hbody₀
        rw [← hfresh]
        rfl
      · -- another native function does not suspend
        have hother : (return .returned (← invoke (Reentry.atDepth m) k as none) : Exec Exit)
            (t.world.nested.resuming id p) = .ok (.yielded x) v' := by
          cases hn : k.native with
          | yield => exact absurd hn hyield
          | _ => simpa only [hn] using hexit
        obtain ⟨y, v₁, -, hreturned⟩ := of_bind_ok hother
        cases hreturned
    | _ => cases hexit

/-- A coroutine made of `coroutine.yield` is suspended with what its first resumption hands over, and
keeps address zero. -/
def suspendsAtZero : Bool :=
  match Script.create {} {} with
  | .ok _ w₀ => w₀.active.index < w₀.scripts.size &&
    match createCoroutine (.callback ⟨0, .yield⟩) w₀ with
    | .ok id w => w.active.index < w.scripts.size &&
      w.scripts.map (·.code.size) == w₀.scripts.map (·.code.size) &&
        match (Reentry.atDepth 0).resumeCoroutine id [.boolean true] w with
        | .ok (.boolean true) w₁ => match w₁.heap.coroutine? id with
          | some { owner := _, state := .suspended, body := some { processor := p, function := none } } =>
            p.ip == 0
          | _ => false
        | _ => false
    | .error _ _ => false
  | .error _ _ => false

/-- The next resumption of a coroutine made of `coroutine.yield` fails. -/
theorem suspended_continues_of_yield : ∃ (t : Turn) (id : CoroutineId) (c : Coroutine) (w₁ : World),
    t.world.Reached ∧ t.args = [.boolean true] ∧
      (Reentry.atDepth 0).resumeCoroutine id t.args t.world = .ok (.boolean true) w₁ ∧
      w₁.heap.coroutine? id = some c ∧ c.state = .suspended ∧ c.FailsNext id := by
  have hcheck : suspendsAtZero = true := by decide +kernel
  unfold suspendsAtZero at hcheck
  cases hscript : Script.create {} {} with
  | error s w => simp [hscript] at hcheck
  | ok i w₀ =>
    simp only [hscript, Bool.and_eq_true, decide_eq_true_eq] at hcheck
    obtain ⟨hactive₀, hcheck⟩ := hcheck
    have hw₀ : w₀.Hosted := .script (.empty rfl rfl rfl) hscript
    have hempty : World.Genuine {} := fun i s hs => by cases hs
    have hg₀ : w₀.Genuine := hempty.createScript hscript
    split at hcheck
    · next id w hcreate =>
      simp only [Bool.and_eq_true, decide_eq_true_eq, beq_iff_eq] at hcheck
      obtain ⟨⟨hactive, hsizes⟩, hcheck⟩ := hcheck
      have hw : w.Hosted := .coroutine hw₀ hactive₀ hcreate
      have hfollows := ((calm_createCoroutine (.callback ⟨0, .yield⟩) default w₀).ok hcreate).1
      have hg : w.Genuine := hg₀.of_sizes hfollows.later hsizes
      split at hcheck
      · next w₁ hresume =>
        split at hcheck
        · next owner p hc =>
          have hip : p.ip = 0 := beq_iff_eq.1 hcheck
          let t : Turn := ⟨w, ⟨hw.resting.orderly.1, hactive⟩, [.boolean true]⟩
          have ht : t.world.Reached := ⟨w, 0, 0, .resume id t.args, _, hw, hactive, .here⟩
          refine ⟨t, id, _, w₁, ht, rfl, hresume, hc, rfl, ?_⟩
          obtain ⟨v, fuel, y, -, -, hbody, -⟩ | ⟨f, args, v, k, as, -, -, -, -, hfails⟩ :=
            suspended_continues ht hresume hc rfl
          · -- behind a call the address is not zero
            have hafter : p = y.body.processor :=
              congrArg CoroutineBody.processor (Option.some.inj hbody)
            rw [hafter] at hip
            exact absurd hip (Nat.succ_ne_zero _)
          · exact hfails hg
        · cases hcheck
      · cases hcheck
    · cases hcheck

end World.Reached

end LuaMachine
