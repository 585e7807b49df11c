import LuaMachine.Proofs.Machine.Activation
import LuaMachine.Proofs.Machine.Aside

/-!
# Runs of instructions

Every instruction keeps activations above activations (`Reentry.keeps_step`), so a run of
instructions ends with the stacks that the call started with, or is suspended above them, or at least
leaves them below (`Reentry.keeps_run`). All of this holds provided that whatever re-enters the machine
on the way leaves the processor alone.

`Reentry.Passes` says that code goes on for some instructions. A run that passes some instructions
comes to what the rest of it comes to, so what is known of single instructions can be put together
to what is known of runs.
-/

namespace LuaMachine

open Exec

namespace Exec

/-- A triple may be shown under what holds while all code is compiled; that the world only grew has
to be shown in any case. -/
theorem Keeps.assume {α : Type} {e : Exec α} {w : World} {P P' : Prop} {Q Q' : α → World → Prop}
    {E E' : World → Prop} (hgrows : e.Keeps w P' Q' E')
    (h : w.Genuine → w.Closed → P → e.Keeps w True Q E) : e.Keeps w P Q E := by
  constructor
  · intro a w' hok
    have hf := (hgrows.ok hok).1
    refine ⟨hf, fun hc hw hp => ?_⟩
    exact ((h (hf.later.genuine hc) hw hp).ok hok).2 hc hw trivial
  · intro err w' herr
    have hf := (hgrows.error herr).1
    refine ⟨hf, fun hc hw hp => ?_⟩
    exact ((h (hf.later.genuine hc) hw hp).error herr).2 hc hw trivial

/-- That the world only grew may be used after the computation. -/
theorem Keeps.later {α : Type} {e : Exec α} {w : World} {P : Prop} {Q : α → World → Prop}
    {E : World → Prop} (h : e.Keeps w P Q E) :
    e.Keeps w P (fun a w' => w.Later w' ∧ Q a w') (fun w' => w.Later w' ∧ E w') := by
  constructor
  · intro a w' hok
    obtain ⟨hf, hq⟩ := h.ok hok
    exact ⟨hf, fun hc hw hp => ⟨hf.later, hq hc hw hp⟩⟩
  · intro err w' herr
    obtain ⟨hf, hq⟩ := h.error herr
    exact ⟨hf, fun hc hw hp => ⟨hf.later, hq hc hw hp⟩⟩

/-- A fact that has nothing to do with the world stays. -/
theorem Keeps.frame {α : Type} {e : Exec α} {w : World} {P : Prop} {Q : α → World → Prop}
    {E : World → Prop} (h : e.Keeps w P Q E) (C : Prop) :
    e.Keeps w (P ∧ C) (fun a w' => Q a w' ∧ C) (fun w' => E w' ∧ C) :=
  h.mono (·.1) (fun hp _ _ hq => ⟨hq, hp.2⟩) fun hp _ he => ⟨he, hp.2⟩

/-- That closures are made of functions may be used before the computation. -/
theorem Keeps.closed {α : Type} {e : Exec α} {w : World} {P : Prop} {Q : α → World → Prop}
    {E : World → Prop} (h : e.Keeps w (w.Closed ∧ P) Q E) : e.Keeps w P Q E := by
  constructor
  · intro a w' hok
    obtain ⟨hf, hq⟩ := h.ok hok
    exact ⟨hf, fun hc hw hp => hq hc hw ⟨hw, hp⟩⟩
  · intro err w' herr
    obtain ⟨hf, hq⟩ := h.error herr
    exact ⟨hf, fun hc hw hp => hq hc hw ⟨hw, hp⟩⟩

/-- Two triples about different cases. -/
theorem Keeps.or {α : Type} {e : Exec α} {w : World} {P P' : Prop} {Q : α → World → Prop}
    {E : World → Prop} (h : e.Keeps w P Q E) (h' : e.Keeps w P' Q E) : e.Keeps w (P ∨ P') Q E := by
  constructor
  · intro a w' hok
    exact ⟨(h.ok hok).1, fun hc hw hp => hp.elim ((h.ok hok).2 hc hw) ((h'.ok hok).2 hc hw)⟩
  · intro err w' herr
    exact ⟨(h.error herr).1, fun hc hw hp => hp.elim ((h.error herr).2 hc hw) ((h'.error herr).2 hc hw)⟩

end Exec

/-! ## Native functions -/

namespace Reentry

variable {r : Reentry}

theorem checkDepth_ok {w w₁ : World} {u : Unit} (h : checkDepth w = .ok u w₁) : w₁ = w := by
  unfold checkDepth at h
  change (if w.processor.frames.size ≥ (w.scripts.getD w.active.index default).options.callStackLimit
    then fail .stackOverflow else pure () : Exec Unit) w = _ at h
  split at h
  · cases h
  · cases h
    rfl

/-- A native function runs in a frame of its own, which is gone afterwards. -/
theorem Calm.invoke (hr : r.Calm) (c : Callback) (args : List Value) (caller : Option Span) :
    Exec.Calm (invoke r c args caller) := by
  intro p w
  refine (aside_checkDepth.calm p w).bind fun _ w₁ _ => .get_bind ?_
  refine .modify_bind (World.follows_of_eq rfl) ?_
  have hunder : w₁.processor.Under { w₁.processor with
      frames := w₁.processor.frames.push (.host c.name w₁.processor.values.size caller) } := by
    refine ⟨?_, List.prefix_rfl, rfl⟩
    rw [Array.toList_push]
    exact List.prefix_append _ _
  have hleave : ∀ w' : World, w'.Follows { w' with processor := { w'.processor.unwind
      w₁.processor.frames.size w₁.processor.values.size with ip := w₁.processor.ip } } :=
    fun _ => World.follows_of_eq rfl
  have hrun := (hr.alike.native caller ⟨args⟩ c.native).moves
    (fun q => w₁.processor = p ∧ w₁.processor.Under q)
    { w₁ with processor := { w₁.processor with
      frames := w₁.processor.frames.push (.host c.name w₁.processor.values.size caller) } }
  refine (hrun.mono (fun hp => ⟨hp, hunder⟩) (fun _ _ _ => id) fun _ _ => id).andSettle
    hleave hleave ?_ ?_
  · rintro a w' ⟨hp, hq⟩
    exact hq.unwind.trans hp
  · rintro w' ⟨hp, hq⟩
    exact hq.unwind.trans hp

end Reentry

/-! ## Activations above activations -/

/-- A loop of instructions was entered at a height of the call stack that is not above the bottom, and
below it if a function is to come back there. -/
def EnteredBelow (depth : Nat) (home : Option Nat) (bottom : Processor) : Prop :=
  match home with
  | none => depth ≤ bottom.frames.size
  | some _ => depth < bottom.frames.size

namespace Reentry

variable {r : Reentry} {A : Activation} {w : World} {home : Option Nat} {bottom : Processor}
  {depth k x : Nat} {op : OpCode}

/-- The activation that is about to carry out an instruction. -/
structure Before (w : World) (home : Option Nat) (bottom : Processor) (A : Activation) (k x : Nat)
    (op : OpCode) : Prop where
  waits : w.Waits home bottom A.outer A.returnAddress
  runs : w.Runs A k x
  code : w.ops x = some op

theorem Before.under (h : Before w home bottom A k x op) {p : Processor} (hp : A.outer.Under p) :
    bottom.Under p :=
  h.waits.under.trans hp

theorem Before.running (h : Before w home bottom A k x op) {w' : World} (hw' : w.Later w') {y d : Nat}
    (hnext : (y, d) ∈ op.next x k) (hat : A.At d y w'.processor) : w'.RunsAbove home bottom :=
  ⟨A, d, y, h.waits.mono hw', (h.runs.step h.code hnext).mono hw', hat⟩

/-- An instruction that keeps to its frame. -/
theorem keeps_of_stays {e : Exec (Option Exit)} (hs : A.Stays op k x e w) :
    e.Keeps w (A.At k x w.processor ∧ Before w home bottom A k x op)
      (fun exit w' => w'.SteppedAbove home bottom exit) (fun w' => bottom.Under w'.processor) := by
  refine (Keeps.later hs).mono (·.1) ?_ ?_
  · rintro ⟨-, hb⟩ exit w' ⟨hw', rfl, y, d, hnext, hat⟩
    exact .inl (hb.running hw' hnext hat)
  · rintro ⟨-, hb⟩ w' ⟨-, hremains⟩
    exact hb.under hremains.under

/-! ### Calls -/

/-- Entering a closure starts an activation above the processor as it is. -/
theorem keeps_enterClosure (f : ClosureId) (args : List Value) (address : Option Nat)
    (site : Option Span) :
    (enterClosure f args address site).Keeps w w.Closed
      (fun _ w' => ∃ c, w'.Runs (.above w.processor c address) 0 c.entry ∧
        (Activation.above w.processor c address).At 0 c.entry w'.processor)
      (fun w' => w'.processor = w.processor) := by
  unfold enterClosure
  refine .get_bind ?_
  cases hc : w.heap.closure? f with
  | none => exact .of_error rfl (.refl w) fun _ => rfl
  | some c =>
    dsimp only
    split
    · exact .of_error rfl (.refl w) fun _ => rfl
    · next howner =>
      have howner : c.owner = w.active := by simpa using howner
      have hdepth := (aside_checkDepth.calm w.processor w).frame (w.HasHeader c)
      refine (hdepth.mono ?_ (fun _ _ _ hq => hq) fun _ _ he => he.1).bind fun _ w₁ hw₁ => ?_
      · exact fun hclosed => ⟨rfl, hclosed _ c hc⟩
      · refine .processor_bind (.modify_bind (World.follows_of_eq rfl) ?_)
        refine .of_ok rfl (World.follows_of_eq rfl) ?_
        rintro ⟨hp, hheader⟩
        refine ⟨c, ⟨?_, hw₁.later.hasHeader hheader, .entry, rfl⟩, ?_⟩
        · exact howner.trans hw₁.later.active.symm
        · rw [← hp]
          refine ⟨{ closure := c, base := w₁.processor.values.size, returnAddress := address
                    pending := args, callSite := site }, #[], ⟨rfl, rfl, rfl⟩, rfl, ?_⟩
          simp only [Activation.above, Array.append_empty]

/-- A function has been entered above another one, which waits at the next address. -/
def Entered (A : Activation) (k x : Nat) (w : World) : Prop :=
  ∃ p c, A.At k x p ∧ w.Runs (.above p c (some (x + 1))) 0 c.entry ∧
    (Activation.above p c (some (x + 1))).At 0 c.entry w.processor

/-- After a call instruction of a function, without its operands: the result of the call is there, or
the function that was called runs above it; a call that was suspended has no result yet. -/
def Called (A : Activation) (k x : Nat) (w : World) : Option Exit → Prop
  | none => A.At (k + 1) (x + 1) w.processor ∨ Entered A k x w
  | some (.returned _) => False
  | some (.yielded _) => A.At k (x + 1) w.processor

/-- A function of the script is entered from an instruction. -/
theorem keeps_enter (f : ClosureId) (args : List Value) (span : Option Span) :
    (do
      enterClosure f args (some ((← address) + 1)) span
      return none : Exec (Option Exit)).Keeps w (A.At k x w.processor)
      (fun exit w' => Called A k x w' exit) (fun w' => A.Remains w'.processor) := by
  have henter : (enterClosure f args (some (w.processor.ip + 1)) span).Keeps w
      (A.At k x w.processor) (fun _ w' => Entered A k x w') (fun w' => A.Remains w'.processor) := by
    refine Keeps.closed (((keeps_enterClosure f args (some (w.processor.ip + 1)) span).frame
      (A.At k x w.processor)).mono id ?_ ?_)
    · rintro - - w' ⟨⟨c, hruns, hat⟩, hcaller⟩
      rw [hcaller.ip_eq] at hruns hat
      exact ⟨_, c, hcaller, hruns, hat⟩
    · rintro - w' ⟨hp, hcaller⟩
      exact hp ▸ hcaller.remains
  have hall : (enterClosure f args (some (w.processor.ip + 1)) span >>= fun _ =>
      (return none : Exec (Option Exit))).Keeps w (A.At k x w.processor)
      (fun exit w' => Called A k x w' exit) (fun w' => A.Remains w'.processor) :=
    henter.bind fun _ w' _ => .of_ok rfl (.refl w') .inr
  exact ⟨hall.ok, hall.error⟩

/-- A suspension from an instruction. -/
theorem moves_suspend (args : List Value) :
    Moves (A.At k x) (suspend args)
      (fun exit p => ∃ v, exit = some (.yielded v) ∧ A.At k (x + 1) p) A.Remains := by
  have hend : Moves (A.At k x) (do
      advance
      return some (.yielded (.ofList args)) : Exec (Option Exit))
      (fun exit p => ∃ v, exit = some (.yielded v) ∧ A.At k (x + 1) p) A.Remains :=
    Activation.moves_advance.bind fun _ w => .of_ok rfl (.refl w) fun h => ⟨_, rfl, h⟩
  have hfail : ∀ f, Moves (A.At k x) (fail f : Exec PUnit) (fun _ => A.At k x) A.Remains :=
    fun f => Activation.takes_of_calm (calm_fail f) x
  have hsecond : ∀ p : Processor, Moves (A.At k x) (do
      if !p.canYield then fail .yieldAcrossHost
      advance
      return some (.yielded (.ofList args)) : Exec (Option Exit))
      (fun exit p => ∃ v, exit = some (.yielded v) ∧ A.At k (x + 1) p) A.Remains := by
    intro p
    dsimp only
    split
    · exact (hfail _).bind fun _ => hend
    · exact hend
  refine (Activation.takes_of_calm calm_processor x).bind fun p => ?_
  dsimp only
  split
  · exact (hfail _).bind fun _ => hsecond p
  · exact hsecond p

/-- The function and the arguments of a call are taken off the stack. -/
theorem takes_called {argc : Nat} (hk : argc + 1 ≤ k) : A.Takes k (k - (argc + 1)) (called argc) := by
  have hrest : A.Takes k (k - (argc + 1)) (do
      let args := Value.flatten (← popMany argc)
      let f ← pop
      safepoint
      resolveCallable f args) := by
    refine (Activation.takes_popMany (by omega)).bind fun args => ?_
    refine (Activation.takes_pop (by omega)).bind fun f => ?_
    rw [Nat.sub_sub]
    exact (Activation.takes_of_calm aside_safepoint.calm).bind fun _ =>
      Activation.takes_of_calm (calm_resolveCallable f _)
  unfold called
  refine (Activation.takes_of_calm calm_processor).bind fun p => ?_
  dsimp only
  split
  · exact (Activation.takes_of_calm (calm_fail _)).bind fun _ => hrest
  · exact hrest

/-- A call instruction: a function of the script is entered, anything else is done at once. -/
theorem keeps_call (hr : r.Calm) {argc : Nat} (hk : argc + 1 ≤ k) (span : Option Span) :
    (r.stepCall argc span).Keeps w (A.At k x w.processor)
      (fun exit w' => Called A (k - (argc + 1)) x w' exit)
      (fun w' => A.Remains w'.processor) := by
  unfold stepCall
  refine (takes_called hk x w).bind fun call w₁ _ => ?_
  obtain ⟨f, args⟩ := call
  dsimp only
  split
  · exact keeps_enter _ args span
  · split
    · refine (moves_suspend args w₁).mono id ?_ fun _ _ => id
      rintro - exit w₂ ⟨v, rfl, hat⟩
      exact hat
    · refine (Activation.takes_of_calm (hr.invoke _ args span) x w₁).bind fun v w₂ _ => ?_
      refine (Activation.takes_push v x w₂).bind fun _ w₃ _ => ?_
      exact (Activation.moves_advance (ε := A.Remains) w₃).bind fun _ w₄ _ => .of_ok rfl (.refl w₄) .inl
  · exact .of_error rfl (.refl w₁) Activation.At.remains

/-- A call instruction of a function above the bottom. -/
theorem keeps_stepCall (hr : r.Calm) {argc : Nat} (hk : argc + 1 ≤ k) (span : Option Span) :
    (r.stepCall argc span).Keeps w
      (A.At k x w.processor ∧ Before w home bottom A k x (.call argc))
      (fun exit w' => w'.SteppedAbove home bottom exit) (fun w' => bottom.Under w'.processor) := by
  have hmem : (x + 1, k - (argc + 1) + 1) ∈ (OpCode.call argc).next x k := List.mem_singleton_self _
  refine ((keeps_call hr hk span).later.frame (Before w home bottom A k x (.call argc))).mono id ?_ ?_
  · rintro - exit w' ⟨⟨hw', hcalled⟩, hb⟩
    have hafter := (hb.runs.step hb.code hmem).mono hw'
    match exit, hcalled with
    | none, .inl hat => exact .inl (hb.running hw' hmem hat)
    | none, .inr ⟨p, c, hcaller, hruns, hat⟩ =>
      exact .inl ⟨_, _, _, .call (hb.waits.mono hw') hcaller hafter, hruns, hat⟩
    | some (.yielded _), hat => exact ⟨A, _, x + 1, hb.waits.mono hw', hafter, hat⟩
  · rintro - w' ⟨⟨-, hremains⟩, hb⟩
    exact hb.under hremains.under

/-! ### Returns -/

/-- Hand a result to the function that waits at an address, or out of the run. -/
def handBack (depth : Nat) (result : Value) : Option Nat → Exec (Option Exit)
  | some address => do
    if (← processor).frames.size > depth then
      goTo address
      push result
      return none
    else return some (.returned result)
  | none => return some (.returned result)

/-- A return with a result that is not on the stack any more. -/
def leaveWith (depth : Nat) (result : Value) : Exec (Option Exit) := do
  match (← processor).frames.back? with
  | none => fail .returnWithoutFrame
  | some frame =>
    modifyProcessor fun p => { p with frames := p.frames.pop }
    truncate frame.base
    handBack depth result frame.returnAddress

theorem leaveFrame_eq (depth values : Nat) :
    leaveFrame depth values =
      (if values == 0 then pure .void else pop : Exec Value) >>= leaveWith depth := by
  unfold leaveFrame leaveWith handBack
  dsimp only
  split <;> rfl

/-- A return, whatever the processor looks like. -/
theorem moves_leaveWith (depth : Nat) (result : Value) :
    Moves (fun _ => False) (leaveWith depth result) (fun _ _ => False) (fun _ => False) := by
  have hmodify : ∀ f, Moves (fun _ => False) (modifyProcessor f) (fun _ _ => False)
      (fun _ => False) := fun f => Activation.moves_modifyProcessor fun _ => id
  refine (calm_processor.moves _).bind fun p => ?_
  split
  · exact (calm_fail _).moves _
  · next frame _ =>
    refine (hmodify _).bind fun _ => (hmodify _).bind fun _ => ?_
    cases frame.returnAddress with
    | none => exact (calm_pure _).moves _
    | some address =>
      refine (calm_processor.moves _).bind fun p => ?_
      split
      · exact (hmodify _).bind fun _ => (hmodify _).bind fun _ => (calm_pure _).moves _
      · exact (calm_pure _).moves _

/-- With the stacks below an activation uncovered, its caller goes on. -/
theorem keeps_handBack {w' : World} (hw' : w.Later w') (hd : EnteredBelow depth home bottom)
    {address : Option Nat} {p : Processor} (hwaits : w.Waits home bottom p address)
    (hp : w'.processor = { p with ip := x }) (result : Value) :
    (handBack depth result address).Keeps w' True
      (fun exit w' => w'.SteppedAbove home bottom exit) (fun w' => bottom.Under w'.processor) := by
  cases address with
  | none =>
    refine .of_ok rfl (.refl w') fun _ => ?_
    obtain ⟨rfl, -⟩ := hwaits.eq_bottom
    change { w'.processor with ip := p.ip } = p
    rw [hp]
  | some y =>
    have hresumed := hwaits.resume result
      { w' with processor :=
        { w'.processor with ip := y, values := w'.processor.values.push result } }
      (hw'.elsewhere _ _) (by rw [hp])
    have hle : depth ≤ bottom.frames.size := by
      cases home with
      | none => exact hd
      | some _ => exact Nat.le_of_lt hd
    have hsize : depth < w'.processor.frames.size := by
      rw [hp]
      rcases hresumed with ⟨hlt, -⟩ | ⟨rfl, z, v, rfl, -⟩
      · exact Nat.lt_of_le_of_lt hle hlt
      · exact hd
    refine .processor_bind ?_
    rw [if_pos hsize]
    exact .of_ok rfl (World.follows_of_eq rfl) fun _ => hresumed.imp And.right And.right

/-- A return uncovers the stacks below the activation. -/
theorem keeps_leaveWith {w' : World} (hw' : w.Later w') (hd : EnteredBelow depth home bottom)
    (result : Value) :
    (leaveWith depth result).Keeps w'
      ((∃ j, A.At j x w'.processor) ∧ Before w home bottom A k x op)
      (fun exit w' => w'.SteppedAbove home bottom exit) (fun w' => bottom.Under w'.processor) := by
  refine .assume (moves_leaveWith _ result w') ?_
  rintro - - ⟨⟨j, f, own, ⟨-, hbase, hreturn⟩, hj, hp⟩, hb⟩
  refine .processor_bind ?_
  have hback : w'.processor.frames.back? = some (.script f) := by
    rw [hp]
    exact Array.back?_push
  have hstacks : { w'.processor with
      frames := w'.processor.frames.pop
      values := w'.processor.values.shrink f.base } = { A.outer with ip := x } := by
    rw [hp, hbase, hb.runs.base_eq]
    simp
  rw [hback]
  refine .modify_bind (World.follows_of_eq rfl) ?_
  refine .modify_bind (World.follows_of_eq rfl) ?_
  have hwaits := hb.waits
  rw [← hreturn] at hwaits
  refine keeps_handBack (w := w) (x := x) ?_ hd hwaits ?_ result
  · exact hw'.elsewhere _ _
  · exact hstacks

theorem keeps_leaveFrame (hd : EnteredBelow depth home bottom) {values : Nat}
    (hk : (OpCode.ret values).needs ≤ k) :
    (leaveFrame depth values).Keeps w
      (A.At k x w.processor ∧ Before w home bottom A k x (.ret values))
      (fun exit w' => w'.SteppedAbove home bottom exit) (fun w' => bottom.Under w'.processor) := by
  have hresult : Moves (A.At k x) (if values == 0 then pure .void else pop : Exec Value)
      (fun _ p => ∃ j, A.At j x p) A.Remains := by
    split
    · exact fun w => .of_ok rfl (.refl w) fun h => ⟨k, h⟩
    · next hvalues =>
      have hone : 1 ≤ k := by
        simp only [OpCode.needs] at hk
        split at hk
        · next hzero => simp [hzero] at hvalues
        · exact hk
      exact (Activation.takes_pop hone x).mono (fun _ => id) (fun _ _ h => ⟨_, h⟩) fun _ => id
  rw [leaveFrame_eq]
  refine (((hresult w).frame _).mono id (fun _ _ _ => id) ?_).bind fun result w₁ hw₁ => ?_
  · exact fun _ _ he => he.2.under he.1.under
  · exact keeps_leaveWith hw₁.later hd result

/-! ### Instructions and runs -/

/-- A closure instruction of genuine code makes a closure of a function. -/
theorem hasHeader_of_closure {a entry : Nat} {captures : List Symbol}
    (hi : w.ops a = some (.closure entry captures)) (hc : w.Genuine) (s : Script)
    (hs : w.scripts[w.active.index]? = some s) : s.code.HasHeader entry := by
  obtain ⟨s', hs', hops⟩ := World.exists_script_of_ops hi
  obtain rfl : s = s' := Option.some_inj.1 (hs.symm.trans hs')
  rw [hops] at hi
  exact (hc _ s hs).hasHeader_of_closure hi

/-- Every instruction keeps activations above activations, until a function comes back to the bottom. -/
theorem keeps_stepAbove (hr : r.Calm) (hd : EnteredBelow depth home bottom) {i : Instruction} {a : Nat}
    (hi : w.ops a = some i.op) :
    (r.step depth i).Keeps w (w.processor.ip = a ∧ w.RunsAbove home bottom)
      (fun exit w' => w'.SteppedAbove home bottom exit) (fun w' => bottom.Under w'.processor) := by
  have hall : ∀ {A : Activation} {k x : Nat}, i.op.needs ≤ k →
      (r.step depth i).Keeps w (A.At k x w.processor ∧ Before w home bottom A k x i.op)
        (fun exit w' => w'.SteppedAbove home bottom exit) (fun w' => bottom.Under w'.processor) := by
    intro A k x hneeds
    obtain ⟨op, span⟩ := i
    by_cases hcall : ∃ n, op = .call n
    · obtain ⟨n, rfl⟩ := hcall
      exact keeps_stepCall hr hneeds span
    · by_cases hret : ∃ n, op = .ret n
      · obtain ⟨n, rfl⟩ := hret
        exact keeps_leaveFrame hd hneeds
      · refine keeps_of_stays (Activation.stays_step hr _ _ hneeds ?_ ?_ ?_)
        · exact not_exists.1 hcall
        · exact not_exists.1 hret
        · rintro entry captures rfl hc s hs
          exact hasHeader_of_closure hi hc s hs
  refine .assume (hall (A := default) (x := 0) (Nat.le_refl _)) ?_
  rintro hc - ⟨hip, A, k, x, hwaits, hruns, hat⟩
  obtain rfl : a = x := hip.symm.trans hat.ip_eq
  refine (hall (A := A) (x := a) (hruns.operands hc hi)).mono ?_ (fun _ _ _ => id) fun _ _ => id
  exact fun _ => ⟨hat, hwaits, hruns, hi⟩

/-- Every instruction of a run for which the host waits keeps activations above activations. -/
theorem keeps_step (hr : r.Calm) {i : Instruction} {a : Nat} (hi : w.ops a = some i.op) :
    (r.step bottom.frames.size i).Keeps w (w.processor.ip = a ∧ w.Running bottom)
      (fun exit w' => w'.Stepped bottom exit) (fun w' => bottom.Under w'.processor) :=
  have hbelow : EnteredBelow bottom.frames.size none bottom := Nat.le_refl _
  (keeps_stepAbove hr hbelow hi).mono id
    (fun _ _ _ => World.SteppedAbove.stepped) fun _ _ => id

/-- Let a debugger that is attached to a script hear of an instruction. -/
def hear (s : Script) (i : Instruction) : Exec Unit :=
  if s.debug.isAttached then listen i.span else pure ()

theorem calm_hear (s : Script) (i : Instruction) : Exec.Calm (hear s i) := by
  unfold hear
  split
  · exact (aside_listen i.span).calm
  · exact calm_pure ()

/-- Carry out an instruction and go on; an error is completed on its way out. -/
def stepThen (r : Reentry) (depth : Nat) (i : Instruction) (rest : Exec Exit) : Exec Exit := fun w =>
  match r.step depth i w with
  | .ok none w => rest w
  | .ok (some exit) w => .ok exit w
  | .error (.error e) w => (trace e i.span >>= failWith) w
  | .error stop w => .error stop w

theorem stepThen_eq (r : Reentry) (depth : Nat) (i : Instruction) (rest : Exec Exit) (w : World) :
    (match r.step depth i w with
      | .ok none w => rest w
      | .ok (some exit) w => .ok exit w
      | .error (.error e) w => match trace e i.span w with
        | .ok e w => .error (.error e) w
        | .error stop w => .error stop w
      | .error stop w => .error stop w) = stepThen r depth i rest w := by
  unfold stepThen
  cases r.step depth i w with
  | ok exit w => cases exit <;> rfl
  | error stop w =>
    cases stop with
    | error e =>
      change _ = EStateM.bind (trace e i.span) failWith w
      unfold EStateM.bind
      dsimp only
      cases trace e i.span w <;> rfl
    | panic message => rfl
    | exhausted => rfl

theorem run_eq (r : Reentry) (depth n : Nat) {w : World} {i : Instruction}
    (hi : (w.scripts.getD w.active.index default).code.instruction? w.processor.ip = some i) :
    r.run depth (n + 1) w = (hear (w.scripts.getD w.active.index default) i >>= fun _ =>
      stepThen r depth i (r.run depth n)) w := by
  change _ = EStateM.bind _ _ w
  unfold EStateM.bind hear
  rw [run]
  simp only [hi]
  cases (w.scripts.getD w.active.index default).debug.isAttached with
  | true =>
    simp only [if_true]
    cases listen i.span w with
    | ok u w' => exact stepThen_eq r depth i _ w'
    | error stop w' => rfl
  | false => exact stepThen_eq r depth i _ w

/-- Where no debugger is attached, nothing hears of an instruction. -/
theorem hear_unattended {w : World}
    (h : (w.scripts.getD w.active.index default).debug.debugger = none) (i : Instruction) :
    hear (w.scripts.getD w.active.index default) i w = .ok () w := by
  have hnone : (w.scripts.getD w.active.index default).debug.isAttached = false :=
    congrArg Option.isSome h
  unfold hear
  rw [hnone]
  rfl

theorem keeps_stepThen {depth : Nat} {i : Instruction} {rest : Exec Exit} {P : Prop}
    {Q : Option Exit → World → Prop} {ε : Processor → Prop}
    (hstep : (r.step depth i).Keeps w P Q (fun w' => ε w'.processor))
    (hrest : ∀ w', rest.Keeps w' (Q none w') (fun exit w'' => Q (some exit) w'')
      (fun w'' => ε w''.processor)) :
    (r.stepThen depth i rest).Keeps w P (fun exit w' => Q (some exit) w')
      (fun w' => ε w'.processor) := by
  have htrace : ∀ (e : ScriptError) (w' : World), (trace e i.span >>= failWith).Keeps w'
      (ε w'.processor) (fun (exit : Exit) w'' => Q (some exit) w'') (fun w'' => ε w''.processor) :=
    fun e w' => ((aside_trace e i.span).calm.moves ε w').bind fun _ w'' _ => .of_error rfl (.refl w'') id
  constructor
  · intro exit w' hok
    unfold stepThen at hok
    split at hok
    · next w₁ h =>
      obtain ⟨hw₁, hq⟩ := hstep.ok h
      exact ((hrest w₁).after hw₁ hq).ok hok
    · next exit' w₁ h =>
      cases hok
      exact hstep.ok h
    · next e w₁ h =>
      obtain ⟨hw₁, hq⟩ := hstep.error h
      exact ((htrace e w₁).after hw₁ hq).ok hok
    · cases hok
  · intro err w' herr
    unfold stepThen at herr
    split at herr
    · next w₁ h =>
      obtain ⟨hw₁, hq⟩ := hstep.ok h
      exact ((hrest w₁).after hw₁ hq).error herr
    · cases herr
    · next e w₁ h =>
      obtain ⟨hw₁, hq⟩ := hstep.error h
      exact ((htrace e w₁).after hw₁ hq).error herr
    · next hnot _ =>
      cases herr
      exact absurd rfl (hnot err)

/-- What every instruction keeps, a run of instructions keeps. -/
theorem keeps_run_of_step {depth : Nat} {Q : Option Exit → World → Prop} {ε : Processor → Prop}
    (hmono : ∀ {w w' : World}, w.Later w' → w'.processor = w.processor → Q none w → Q none w')
    (hε : ∀ {w : World}, Q none w → ε w.processor)
    (hstep : ∀ {w : World} {i : Instruction} {a : Nat}, w.ops a = some i.op →
      (r.step depth i).Keeps w (w.processor.ip = a ∧ Q none w) Q fun w' => ε w'.processor)
    (n : Nat) (w : World) :
    (r.run depth n).Keeps w (Q none w) (fun exit w' => Q (some exit) w')
      fun w' => ε w'.processor := by
  induction n generalizing w with
  | zero =>
    constructor
    · intro exit w' h
      cases h
    · intro e w' h
      cases h
  | succ n ih =>
    cases hi : (w.scripts.getD w.active.index default).code.instruction? w.processor.ip with
    | none =>
      have hrun : r.run depth (n + 1) w =
          .error (.error (.ofFault (.invalidAddress w.processor.ip))) w := by
        rw [run]
        simp only [hi]
      exact .of_error hrun (.refl w) hε
    | some i =>
      have hheard : (hear (w.scripts.getD w.active.index default) i).Keeps w (Q none w)
          (fun _ w₁ => w₁.processor.ip = w.processor.ip ∧ Q none w₁)
          (fun w₁ => ε w₁.processor) := by
        refine ((calm_hear _ i w.processor w).later.frame (Q none w)).mono ?_ ?_ ?_
        · exact fun h => ⟨rfl, h⟩
        · rintro - - w₁ ⟨⟨hw₁, hp⟩, h⟩
          exact ⟨by rw [hp], hmono hw₁ hp h⟩
        · rintro - w₁ ⟨⟨-, hp⟩, h⟩
          rw [hp]
          exact hε h
      have hall := hheard.bind fun _ w₁ hw₁ => keeps_stepThen (hstep (hw₁.later.ops (World.ops_of_instruction hi))) ih
      exact ⟨fun h => hall.ok ((run_eq r _ n hi).symm.trans h),
        fun h => hall.error ((run_eq r _ n hi).symm.trans h)⟩

/-- A run of instructions ends with the stacks of the bottom, or above them. -/
theorem keeps_run (hr : r.Calm) (bottom : Processor) (n : Nat) (w : World) :
    (r.run bottom.frames.size n).Keeps w (w.Running bottom)
      (fun exit w' => w'.Stepped bottom (some exit)) (fun w' => bottom.Under w'.processor) :=
  keeps_run_of_step (Q := fun exit w' => w'.Stepped bottom exit)
    (fun hl hp h => World.RunsAbove.mono hl hp h) World.RunsAbove.under (keeps_step hr) n w

/-! ### Without a frame -/

/-- Without a frame control comes as far as the second instruction of the code, which fails. -/
theorem keeps_step_adrift (hr : r.Calm) {i : Instruction} {a : Nat} (hi : w.ops a = some i.op) :
    (r.step bottom.frames.size i).Keeps w (w.processor.ip = a ∧ w.Adrift)
      (fun exit w' => (exit = none ∧ a < w'.processor.ip) ∧ w'.Adrift) (fun _ => True) := by
  refine .assume (keeps_step hr hi) ?_
  rintro hc - ⟨rfl, hframes, hip⟩
  obtain ⟨op, span⟩ := i
  rcases hip with hip | ⟨hip, locals, hbegin⟩
  · obtain ⟨s, hs, hops⟩ := World.exists_script_of_ops hi
    rw [hops, hip] at hi
    obtain ⟨⟨name, kind, n, rfl⟩, locals, hbegin⟩ := (hc _ s hs).first hi
    refine .of_ok rfl (World.follows_of_eq rfl) fun _ => ?_
    refine ⟨⟨rfl, Nat.lt_succ_self _⟩, hframes, .inr ⟨congrArg (· + 1) hip, locals, ?_⟩⟩
    rw [← hbegin, ← hops]
    rfl
  · rw [hip, hbegin] at hi
    obtain rfl : OpCode.beginFn locals = op := Option.some_inj.1 hi
    have htop : topFrame w = .error (.error (.ofFault .noFrame)) w := by
      simp only [topFrame, topFrameOr, hframes]
      rfl
    refine .of_error (e := .ofFault .noFrame) ?_ (.refl w) fun _ => trivial
    change EStateM.bind _ _ w = _
    simp only [EStateM.bind, bind, htop]

/-- A run without a frame never returns a value. -/
theorem keeps_run_adrift (hr : r.Calm) (bottom : Processor) (n : Nat) (w : World) :
    (r.run bottom.frames.size n).Keeps w w.Adrift (fun _ _ => False) (fun _ => True) := by
  have hrun : (r.run bottom.frames.size n).Keeps w (none = none ∧ w.Adrift)
      (fun exit w' => some exit = none ∧ w'.Adrift) (fun _ => True) :=
    keeps_run_of_step (Q := fun exit w' => exit = none ∧ w'.Adrift) (ε := fun _ => True)
      (fun hl hp h => ⟨rfl, h.2.mono hl hp⟩) (fun _ => trivial) ?_ n w
  · refine hrun.mono (fun h => ⟨rfl, h⟩) ?_ fun _ _ _ => trivial
    rintro - exit w' ⟨hexit, -⟩
    cases hexit
  · intro w i a hi
    refine (keeps_step_adrift hr hi).mono (fun h => ⟨h.1, h.2.2⟩) ?_ fun _ _ _ => trivial
    exact fun _ exit w' h => ⟨h.1.1, h.2⟩

end Reentry

open Exec

namespace Reentry

variable {r : Reentry} {depth k m n : Nat} {w u v : World}

/-- Code goes on for some instructions, in a loop that was entered at a height of the call stack. -/
inductive Passes (r : Reentry) (depth : Nat) : Nat → World → World → Prop where
  | refl {w : World} : Passes r depth 0 w w
  | step {k : Nat} {w w₁ w₂ v : World} {i : Instruction}
    (hi : (w.scripts.getD w.active.index default).code.instruction? w.processor.ip = some i)
    (hheard : hear (w.scripts.getD w.active.index default) i w = .ok () w₁)
    (hstep : r.step depth i w₁ = .ok none w₂) (h : Passes r depth k w₂ v) :
    Passes r depth (k + 1) w v

/-- One instruction that goes on, where no debugger is attached. -/
theorem Passes.one {op : OpCode} (hw : (w.scripts.getD w.active.index default).debug.debugger = none)
    (hop : w.ops w.processor.ip = some op) (hstep : ∀ span, r.step depth ⟨op, span⟩ w = .ok none u) :
    r.Passes depth 1 w u := by
  obtain ⟨i, hi, rfl⟩ := Option.map_eq_some_iff.1 hop
  exact .step hi (hear_unattended hw i) (hstep i.span) .refl

/-- A function is entered at its code. -/
theorem enterFunction_function {id : ClosureId} {args : List Value}
    (henter : enterClosure id args none none w = .ok () u) :
    r.enterFunction depth (.function id) args w = r.run depth stepLimit u := by
  have hresolve : resolveCallable (.function id) args w = .ok (.function id, args) w := rfl
  unfold enterFunction
  rw [bind_ok hresolve]
  exact bind_ok henter

/-- The last instruction of a run, where no debugger is attached. -/
theorem run_last {op : OpCode} {exit : Exit}
    (hw : (w.scripts.getD w.active.index default).debug.debugger = none)
    (hop : w.ops w.processor.ip = some op)
    (hstep : ∀ span, r.step depth ⟨op, span⟩ w = .ok (some exit) u) :
    r.run depth (k + 1) w = .ok exit u := by
  obtain ⟨i, hi, rfl⟩ := Option.map_eq_some_iff.1 hop
  rw [run_eq r depth k hi, bind_ok (hear_unattended hw i)]
  unfold stepThen
  rw [hstep i.span]

theorem Passes.trans (h₁ : r.Passes depth k w u) (h₂ : r.Passes depth m u v) :
    r.Passes depth (k + m) w v := by
  induction h₁ with
  | refl => rw [Nat.zero_add]; exact h₂
  | step hi hheard hstep h ih =>
    rw [Nat.add_right_comm]
    exact .step hi hheard hstep (ih h₂)

/-- The rest of a run decides what comes of it. -/
theorem Passes.run_eq (h : r.Passes depth k w u) (m : Nat) :
    r.run depth (k + m) w = r.run depth m u := by
  induction h with
  | refl => rw [Nat.zero_add]
  | @step k w w₁ w₂ v i hi hheard hstep h ih =>
    have hthen : r.stepThen depth i (r.run depth (k + m)) w₁ = r.run depth (k + m) w₂ := by
      unfold stepThen
      rw [hstep]
    rw [Nat.add_right_comm, Reentry.run_eq r depth _ hi, bind_ok hheard, hthen, ih]

/-- A run that may go on for fewer instructions is not over by then. -/
theorem Passes.run_exhausted (h : r.Passes depth k w u) (hm : m ≤ k) :
    ∃ w', r.run depth m w = .error .exhausted w' := by
  induction h generalizing m with
  | @refl w =>
    obtain rfl := Nat.le_zero.1 hm
    exact ⟨w, rfl⟩
  | @step k w w₁ w₂ v i hi hheard hstep h ih =>
    cases m with
    | zero => exact ⟨w, rfl⟩
    | succ m =>
      obtain ⟨w', hw'⟩ := ih (Nat.le_of_succ_le_succ hm)
      refine ⟨w', ?_⟩
      rw [Reentry.run_eq r depth _ hi, bind_ok hheard]
      unfold stepThen
      rw [hstep]
      exact hw'

/-- A run that is over stays as it is when it is given more instructions. -/
theorem run_add (h : ∀ w', r.run depth n w ≠ .error .exhausted w') (m : Nat) :
    r.run depth (n + m) w = r.run depth n w := by
  induction n generalizing w with
  | zero => exact absurd rfl (h w)
  | succ n ih =>
    rw [Nat.add_right_comm]
    cases hi : (w.scripts.getD w.active.index default).code.instruction? w.processor.ip with
    | none =>
      rw [run, run]
      simp only [hi]
    | some i =>
      rw [Reentry.run_eq r depth _ hi, Reentry.run_eq r depth _ hi]
      rw [Reentry.run_eq r depth _ hi] at h
      cases hheard : hear (w.scripts.getD w.active.index default) i w with
      | error stop w₁ => rw [bind_error hheard, bind_error hheard]
      | ok _ w₁ =>
        rw [bind_ok hheard] at h
        rw [bind_ok hheard, bind_ok hheard]
        unfold stepThen at h ⊢
        cases hstep : r.step depth i w₁ with
        | error stop w₂ => cases stop <;> rfl
        | ok exit w₂ =>
          rw [hstep] at h
          cases exit with
          | some exit => rfl
          | none => exact ih h

/-- Two runs that are over come to the same. -/
theorem run_eq_of_over {m n : Nat} (hm : ∀ w', r.run depth m w ≠ .error .exhausted w')
    (hn : ∀ w', r.run depth n w ≠ .error .exhausted w') : r.run depth m w = r.run depth n w := by
  rw [← run_add hm n, ← run_add hn m, Nat.add_comm]

/-- From one instruction to the next the world only grows. -/
theorem Passes.follows (hr : r.Calm) (bottom : Processor)
    (h : r.Passes bottom.frames.size k w u) : w.Follows u := by
  induction h with
  | refl => exact .refl _
  | @step k w w₁ w₂ v i hi hheard hstep h ih =>
    have hfirst : w.Follows w₁ := ((calm_hear _ i w.processor w).ok hheard).1
    have hsecond := (keeps_step hr (hfirst.later.ops (World.ops_of_instruction hi))).ok hstep
    exact (hfirst.trans hsecond.1).trans ih

end Reentry

end LuaMachine
