import LuaMachine.Proofs.Flat.Instructions

/-!
# Runs of instructions, with shapes

Every instruction leads from the shapes that the code foresees to such shapes
(`Reentry.Sifting.step`), so a run of instructions ends with a flat result, or is suspended with a flat
one and can go on later (`Reentry.Sifting.run`).

Where the frames are and which stacks are below is known from `Reentry.keeps_step`; what is added here
is what lies on the stacks.
-/

namespace LuaMachine

open Exec

namespace Exec

variable {α : Type} {e : Exec α} {w : World} {P : Prop} {Q : α → World → Prop}

/-- A triple may be shown under what is known before; that the world only grew has to be shown in any
case. -/
theorem Sifts.assume {P' : Prop} {Q' : α → World → Prop} {E : World → Prop}
    (hgrows : e.Keeps w P' Q' E) (h : w.Genuine → w.Sane → P → e.Sifts w True Q) : e.Sifts w P Q := by
  constructor
  · intro a w' hok
    have hf := (hgrows.ok hok).1
    refine ⟨hf, fun hg hw hp => ?_⟩
    exact ((h (hf.later.genuine hg) hw hp).ok hok).2 hg hw trivial
  · intro err w' herr
    have hf := (hgrows.error herr).1
    refine ⟨hf, fun hg hw hp => ?_⟩
    exact ((h (hf.later.genuine hg) hw hp).error herr).2 hg hw trivial

theorem sifts_fail (f : Fault) : (fail f : Exec α).Sifts w P Q :=
  .of_error rfl (.refl w) fun _ hw _ => ⟨hw, rfl⟩

/-- That the world only grew may be used after the computation. -/
theorem Sifts.later (h : e.Sifts w P Q) : e.Sifts w P fun a w' => w.Later w' ∧ Q a w' := by
  refine ⟨?_, h.error⟩
  intro a w' hok
  obtain ⟨hf, hq⟩ := h.ok hok
  refine ⟨hf, fun hg hw hp => ?_⟩
  obtain ⟨hw', hq⟩ := hq hg hw hp
  exact ⟨hw', hf.later, hq⟩

end Exec

/-! ## Places and shapes together -/

namespace Activation

variable {A : Activation} {σ τ : Shape} {d x y : Nat} {p : Processor}

theorem At.length_stack (h : A.At d x p) : p.stack.length = A.outer.values.size + d := by
  obtain ⟨f, own, -, rfl, rfl⟩ := h
  rw [Processor.length_stack, Array.size_append]

/-- Where control is and what lies on the stack are known of the same activation. -/
theorem At.shows (h : A.At d y p) (hl : Lies A.outer.values.size τ x p) : A.Shows τ x p := by
  obtain rfl : y = x := h.ip_eq.symm.trans hl.ip
  have hd : d = τ.length := by
    have hlength := h.length_stack.symm.trans hl.tops.length
    omega
  exact ⟨hd ▸ h, hl.tops⟩

theorem At.shows_nil (h : A.At 0 x p) : A.Shows [] x p :=
  ⟨h, h.length_stack, nofun⟩

theorem Shows.lies (h : A.Shows σ x p) : Lies A.outer.values.size σ x p := ⟨h.place.ip_eq, h.tops⟩

end Activation

namespace Exec

variable {α : Type} {A : Activation} {σ τ : Shape} {k x : Nat} {w : World} {P : Prop} {Q : α → Prop}

/-- A computation in the frame of a function. -/
theorem Bears.shows {e : Exec α} (hb : Bears A.outer.values.size σ τ P e Q)
    (ht : A.Takes σ.length k e) (h : P → A.Shows σ x w.processor) :
    e.Sifts w P fun a w' => A.Shows τ x w'.processor ∧ Q a := by
  have hboth := (hb.start fun hp => (h hp).lies).and_keeps (ht x w) fun hp => (h hp).place
  exact hboth.mono id fun _ _ _ hq => ⟨hq.2.shows hq.1.1, hq.1.2⟩

/-- What leaves the processor alone. -/
theorem Sifting.shows {e : Exec α} (hs : Sifting P e Q) (hc : Calm e)
    (h : P → A.Shows σ x w.processor) :
    e.Sifts w P fun a w' => A.Shows σ x w'.processor ∧ Q a :=
  (bears_of_calm hc hs).shows (Activation.takes_of_calm hc) h

theorem sifts_proceed (h : P → A.Shows σ x w.processor) :
    advance.Sifts w P fun _ w' => A.Shows σ (x + 1) w'.processor := by
  have hmoves : Moves (A.At σ.length x) advance (fun _ => A.At σ.length (x + 1)) fun _ => True :=
    Activation.moves_advance
  have hboth := ((sifts_advance (P := P)).mono (fun hp => ⟨(h hp).lies, hp⟩)
    fun _ _ _ => id).and_keeps (hmoves w) fun hp => (h hp).place
  exact hboth.mono id fun _ _ _ hq => hq.2.shows hq.1

end Exec

namespace World

variable {w : World} {bottom : Processor}

/-- What there is after an instruction: a run above the bottom goes on, or it ended with a result, or
was suspended with one. -/
def Shown (w : World) (bottom : Processor) : Option Exit → Prop
  | none => w.Attended bottom
  | some (.returned v) => v.Flat
  | some (.yielded v) => v.Flat ∧ w.Halted bottom

end World

namespace Reentry

/-- The activation that is about to carry out an instruction, with its shape. -/
structure Ahead (w : World) (bottom : Processor) (A : Activation) (σ : Shape) (x : Nat) (op : OpCode) :
    Prop where
  attends : w.Attends bottom A.outer A.returnAddress
  traces : w.Traces A σ x
  code : w.ops x = some op

variable {w w' : World} {bottom : Processor} {A : Activation} {σ τ : Shape} {x y : Nat} {op : OpCode}

theorem Ahead.attended (h : Ahead w bottom A σ x op) (hl : w.Later w') (hpass : (y, τ) ∈ op.passes x σ)
    (hs : A.Shows τ y w'.processor) : w'.Attended bottom :=
  ⟨A, τ, y, h.attends.mono hl, (h.traces.step h.code hpass).mono hl, hs⟩

/-- An instruction that keeps to its frame. -/
theorem sifts_of_steps {e : Exec (Option Exit)} (hs : Steps A.outer.values.size σ x True op e w)
    (hk : A.Stays op σ.length x e w) (hb : Ahead w bottom A σ x op) :
    e.Sifts w (A.Shows σ x w.processor) fun exit w' => w'.Shown bottom exit := by
  have hstarts := Sifts.mono hs (fun h : A.Shows σ x w.processor => ⟨h.lies, trivial⟩) fun _ _ _ => id
  have hboth := hstarts.and_keeps hk fun h => h.place
  refine hboth.later.mono id ?_
  rintro - exit w' ⟨hw', ⟨rfl, y, τ, hpass, hlies⟩, -, z, d, -, hat⟩
  exact hb.attended hw' hpass (hat.shows hlies)

end Reentry

namespace Reentry.Sifting

variable {r : Reentry} {A : Activation} {w : World} {bottom : Processor} {σ : Shape} {k x : Nat}
  {op : OpCode} {P : Prop}

/-! ## Calls -/

theorem sifting_checkDepth : Exec.Sifting P checkDepth fun _ => True := by
  refine sifting_processor.bind fun p => sifting_script.bind fun s => ?_
  split
  · exact sifting_fail _
  · exact sifting_pure fun _ => trivial

/-- A native function runs on the arguments in a frame of its own. -/
theorem invoke (hr : r.Sifting) (c : Callback) {args : List Value} (caller : Option Span)
    (hargs : P → ∀ v ∈ args, v.Single) : Exec.Sifting P (invoke r c args caller) Value.Flat := by
  intro w
  refine (sifting_checkDepth w).bind fun _ w₁ _ => .get_bind ?_
  have hpush : w₁.Follows { w₁ with processor := { w₁.processor with
      frames := w₁.processor.frames.push (.host c.name w₁.processor.values.size caller) } } :=
    World.follows_of_eq rfl
  refine .modify_bind hpush (fun hg hw _ => ?_) ?_
  · refine hw.grow hpush hg rfl (hw.flat.withProcessor ⟨hw.flat.processor.values, fun f hf => ?_⟩)
    rcases Array.mem_push.1 hf with hf | hf
    · exact hw.flat.processor.frames f hf
    · cases hf
  have hleave : ∀ w' : World, w'.Follows { w' with processor := { w'.processor.unwind
      w₁.processor.frames.size w₁.processor.values.size with ip := w₁.processor.ip } } :=
    fun _ => World.follows_of_eq rfl
  have hsane : ∀ w' : World, World.Genuine { w' with processor := { w'.processor.unwind
      w₁.processor.frames.size w₁.processor.values.size with ip := w₁.processor.ip } } → w'.Sane →
      World.Sane { w' with processor := { w'.processor.unwind
        w₁.processor.frames.size w₁.processor.values.size with ip := w₁.processor.ip } } := by
    intro w' hg hw'
    refine hw'.grow (hleave w') hg rfl (hw'.flat.withProcessor ?_)
    exact (hw'.flat.processor.unwind _ _).of_eq rfl rfl
  have hrun : Exec.Sifting (P ∧ True) (c.native.run r caller ⟨args⟩) Value.Flat :=
    (hr.native caller c.native).weaken fun hp => hargs hp.1
  exact (hrun _).andSettle hleave hleave (fun _ w' _ hg hw' _ hq => ⟨hsane w' hg hw', hq⟩)
    fun w' _ hg hw' _ => hsane w' hg hw'

/-- Entering a closure starts an activation above the processor as it is. -/
theorem sifts_enterClosure (f : ClosureId) {args : List Value} (address : Option Nat)
    (site : Option Span) (hargs : P → ∀ v ∈ args, v.Single) :
    (enterClosure f args address site).Sifts w P
      (fun _ w' => ∃ c, w'.Traces (.above w.processor c address) [] c.entry ∧
        (Activation.above w.processor c address).Shows [] c.entry w'.processor) := by
  have hsane : (enterClosure f args address site).Sifts w P fun _ _ => True := by
    unfold enterClosure
    refine .get_bind ?_
    cases hc : w.heap.closure? f with
    | none => exact sifting_fail _ w
    | some c =>
      dsimp only
      split
      · exact sifting_fail _ w
      · refine (sifting_checkDepth w).bind fun _ w₁ _ => .processor_bind ?_
        have hentered := sifts_modifyProcessor (w := w₁) (P := P ∧ True) (Q := fun _ _ => True)
          (f := fun p => { p with frames := p.frames.push (.script {
            closure := c, base := w₁.processor.values.size, returnAddress := address
            pending := args, callSite := site }) }) fun hw hp => ⟨⟨hw.processor.values, ?_⟩, trivial⟩
        · refine hentered.bind fun _ w₂ _ => sifts_modifyProcessor fun hw _ => ⟨?_, trivial⟩
          exact hw.processor.of_eq rfl rfl
        · intro f' hf'
          rcases Array.mem_push.1 hf' with hf' | hf'
          · exact hw.processor.frames f' hf'
          · cases hf'
            exact ⟨fun v hv => absurd hv List.not_mem_nil, hargs hp.1⟩
  have hkeeps := (keeps_enterClosure (w := w) f args address site).mono
    (fun h : w.Closed ∧ True => h.1) (fun _ _ _ => id) fun _ _ => id
  refine (hsane.and_keeps hkeeps.closed fun _ => trivial).mono id ?_
  rintro - _ w' ⟨-, c, hruns, hat⟩
  exact ⟨c, ⟨hruns.owner, hruns.header, .entry, rfl⟩, hat.shows_nil⟩

/-- The function and the arguments of a call are taken off; all of them are single values. -/
theorem sifts_called {argc : Nat} (hn : argc + 1 ≤ σ.length) (h : P → A.Shows σ x w.processor) :
    (called argc).Sifts w P fun call w' => A.Shows (σ.drop (argc + 1)) x w'.processor ∧
      call.1.Single ∧ ∀ v ∈ call.2, v.Single := by
  unfold called
  refine (sifting_processor.shows calm_processor h).bind fun p w₀ _ => ?_
  dsimp only
  split
  · exact sifts_fail _
  · have hdrop : 1 ≤ (σ.drop argc).length := by
      rw [List.length_drop]
      omega
    refine ((bears_popMany (by omega)).shows (Activation.takes_popMany (by omega))
      fun hp => hp.2.1).bind fun args w₁ _ => ?_
    refine ((bears_pop hdrop).shows (Activation.takes_pop hdrop) fun hp => hp.2.1).bind
      fun f w₂ _ => ?_
    refine (sifting_safepoint.shows aside_safepoint.calm fun hp => hp.2.1).bind fun _ w₃ _ => ?_
    rw [List.drop_drop] at *
    refine (sifting_resolveCallable f fun _ _ => Value.single_of_mem_flatten).shows
      (calm_resolveCallable f _) fun hp => hp.2.1

/-- A function of the script is entered from an instruction. -/
theorem sifts_enter {argc : Nat} {w' : World} (hw' : w.Later w') (f : ClosureId) {args : List Value}
    (span : Option Span) (hb : Ahead w bottom A σ x (.call argc))
    (h : P → A.Shows (σ.drop (argc + 1)) x w'.processor ∧ ∀ v ∈ args, v.Single) :
    (do
      enterClosure f args (some ((← address) + 1)) span
      return none : Exec (Option Exit)).Sifts w' P fun exit w' => w'.Shown bottom exit := by
  have henter := (sifts_enterClosure (w := w') f (some (w'.processor.ip + 1)) span
    fun hp => (h hp).2).later
  have hall : (enterClosure f args (some (w'.processor.ip + 1)) span >>= fun _ =>
      (return none : Exec (Option Exit))).Sifts w' P fun exit w' => w'.Shown bottom exit := by
    refine henter.bind fun _ w'' _ => .of_ok rfl (.refl w'') fun _ hw hp => ⟨hw, ?_⟩
    obtain ⟨hp, hw'', c, htraces, hshows⟩ := hp
    obtain ⟨hcaller, -⟩ := h hp
    have hip : w'.processor.ip = x := hcaller.place.ip_eq
    have hafter := (hb.traces.step hb.code (List.mem_singleton_self _)).mono (hw'.trans hw'')
    rw [hip] at htraces hshows
    exact ⟨_, _, _, .call (hb.attends.mono (hw'.trans hw'')) hcaller hafter, htraces, hshows⟩
  exact ⟨hall.ok, hall.error⟩

/-- A suspension from an instruction. -/
theorem sifts_suspend {args : List Value} (hargs : P → ∀ v ∈ args, v.Single)
    (h : P → A.Shows σ x w.processor) :
    (suspend args).Sifts w P fun exit w' =>
      ∃ v, exit = some (.yielded v) ∧ v.Flat ∧ A.Shows σ (x + 1) w'.processor := by
  have hend : ∀ {P : Prop} {w : World}, (P → ∀ v ∈ args, v.Single) → (P → A.Shows σ x w.processor) →
      Exec.Sifts (do
        advance
        return some (.yielded (.ofList args)) : Exec (Option Exit)) w P fun exit w' =>
          ∃ v, exit = some (.yielded v) ∧ v.Flat ∧ A.Shows σ (x + 1) w'.processor :=
    fun hargs h => (sifts_proceed h).bind fun _ w' _ => .of_ok rfl (.refl w') fun _ hw hp =>
      ⟨hw, _, rfl, Value.flat_ofList (hargs hp.1), hp.2⟩
  have hsecond : ∀ {P : Prop} {w : World} (p : Processor), (P → ∀ v ∈ args, v.Single) →
      (P → A.Shows σ x w.processor) → Exec.Sifts (do
        if !p.canYield then fail .yieldAcrossHost
        advance
        return some (.yielded (.ofList args)) : Exec (Option Exit)) w P fun exit w' =>
          ∃ v, exit = some (.yielded v) ∧ v.Flat ∧ A.Shows σ (x + 1) w'.processor := by
    intro P w p hargs h
    dsimp only
    split
    · exact (sifts_fail _ (Q := fun _ w' => A.Shows σ x w'.processor)).bind fun _ _ _ =>
        hend (fun hp => hargs hp.1) fun hp => hp.2
    · exact hend hargs h
  refine .processor_bind ?_
  dsimp only
  split
  · exact (sifts_fail _ (Q := fun _ w' => A.Shows σ x w'.processor)).bind fun _ _ _ =>
      hsecond _ (fun hp => hargs hp.1) fun hp => hp.2
  · exact hsecond _ hargs h

/-- A call instruction: a function of the script is entered, anything else is done at once. -/
theorem stepCall (hc : r.Calm) (hr : r.Sifting) {argc : Nat} (hn : argc + 1 ≤ σ.length)
    (span : Option Span) (hb : Ahead w bottom A σ x (.call argc)) :
    (r.stepCall argc span).Sifts w (A.Shows σ x w.processor)
      fun exit w' => w'.Shown bottom exit := by
  unfold Reentry.stepCall
  refine (sifts_called hn id).bind fun call w₁ hw₁ => ?_
  obtain ⟨f, args⟩ := call
  dsimp only
  split
  · next id => exact sifts_enter hw₁.later id span hb fun hp => ⟨hp.2.1, hp.2.2.2⟩
  · next c =>
    split
    · refine (sifts_suspend (fun hp => hp.2.2.2) fun hp => hp.2.1).later.mono id ?_
      rintro - exit w₂ ⟨hw₂, v, rfl, hv, hshows⟩
      have hw₂ := hw₁.later.trans hw₂
      have htraces := hb.traces.step hb.code (List.mem_singleton_self _)
      exact ⟨hv, .inr ⟨A, _, x + 1, hb.attends.mono hw₂, htraces.mono hw₂, hshows⟩⟩
    · refine Sifts.bind (Q := fun v w' => A.Shows (σ.drop (argc + 1)) x w'.processor ∧ v.Flat)
        (Exec.Sifting.shows (hr.invoke c span ?_) (hc.invoke c args span) ?_) fun v w₂ hw₂ => ?_
      · exact fun hp => hp.2.2.2
      · exact fun hp => hp.2.1
      refine ((bears_push (b := false) (fun hp => hp.2.2) fun _ => nofun).shows (Activation.takes_push v)
        fun hp => hp.2.1).bind fun _ w₃ hw₃ => ?_
      refine (sifts_proceed fun hp => hp.2.1).bind fun _ w₄ hw₄ =>
        .of_ok rfl (.refl w₄) fun _ hw hp => ⟨hw, ?_⟩
      have hw₄ := ((hw₁.trans hw₂).trans hw₃).trans hw₄
      exact hb.attended hw₄.later (List.mem_singleton_self _) hp.2
  · exact sifts_fail _

/-! ## Returns -/

/-- With the stacks below an activation uncovered, its caller goes on. -/
theorem sifts_handBack {w' : World} (hw' : w.Later w') {address : Option Nat} {p : Processor}
    (hattends : w.Attends bottom p address) (hp : w'.processor = { p with ip := x }) {result : Value}
    (hresult : P → result.Flat) (depth : Nat) :
    (handBack depth result address).Sifts w' P fun exit w' => w'.Shown bottom exit := by
  cases address with
  | none => exact .of_ok rfl (.refl w') fun _ hw hp => ⟨hw, hresult hp⟩
  | some y =>
    refine .processor_bind ?_
    split
    · have hresumed : World.Attended { w' with processor :=
          { w'.processor with ip := y, values := w'.processor.values.push result } } bottom :=
        hattends.resume result (hw'.elsewhere _ _) (by rw [hp])
      have hf : w'.Follows { w' with processor :=
          { w'.processor with ip := y, values := w'.processor.values.push result } } :=
        World.follows_of_eq rfl
      refine .of_ok rfl hf fun hg hw hq => ⟨hw.grow hf hg rfl ?_, hresumed⟩
      exact hw.flat.withProcessor ((hw.flat.processor.push (hresult hq)).of_eq rfl rfl)
    · exact .of_ok rfl (.refl w') fun _ hw hp => ⟨hw, hresult hp⟩

/-- A return uncovers the stacks below the activation. -/
theorem sifts_leaveWith {w' : World} (hw' : w.Later w') {result : Value} (depth : Nat)
    (hb : Ahead w bottom A σ x op) (hresult : P → result.Flat)
    (h : P → ∃ j, A.At j x w'.processor) :
    (leaveWith depth result).Sifts w' P fun exit w' => w'.Shown bottom exit := by
  refine .assume (moves_leaveWith depth result w') fun _ _ hp => ?_
  obtain ⟨j, f, own, ⟨-, hbase, hreturn⟩, -, hprocessor⟩ := h hp
  refine .processor_bind ?_
  have hback : w'.processor.frames.back? = some (.script f) := by
    rw [hprocessor]
    exact Array.back?_push
  have hstacks : { w'.processor with
      frames := w'.processor.frames.pop
      values := w'.processor.values.shrink f.base } = { A.outer with ip := x } := by
    rw [hprocessor, hbase, hb.traces.base_eq]
    simp
  rw [hback]
  have hframes : w'.Follows { w' with processor :=
      { w'.processor with frames := w'.processor.frames.pop } } := World.follows_of_eq rfl
  refine .modify_bind hframes (fun hg hw _ => ?_) ?_
  · exact hw.grow hframes hg rfl (hw.flat.withProcessor hw.flat.processor.popFrame)
  · have hvalues : World.Follows { w' with processor :=
        { w'.processor with frames := w'.processor.frames.pop } } { w' with processor :=
        { w'.processor with
          frames := w'.processor.frames.pop
          values := w'.processor.values.shrink f.base } } := World.follows_of_eq rfl
    refine .modify_bind hvalues (fun hg hw _ => ?_) ?_
    · exact hw.grow hvalues hg rfl (hw.flat.withProcessor (hw.flat.processor.shrink _))
    · have hattends := hb.attends
      rw [← hreturn] at hattends
      exact sifts_handBack (hw'.elsewhere _ _) hattends hstacks (fun _ => hresult hp) depth

theorem leaveFrame {values : Nat} (hn : (OpCode.ret values).needs ≤ σ.length) (depth : Nat)
    (hb : Ahead w bottom A σ x (.ret values)) :
    (leaveFrame depth values).Sifts w (A.Shows σ x w.processor)
      fun exit w' => w'.Shown bottom exit := by
  have hresult : (if values == 0 then pure .void else pop : Exec Value).Sifts w
      (A.Shows σ x w.processor) fun v w' => (∃ j, A.At j x w'.processor) ∧ v.Flat := by
    split
    · exact .of_ok rfl (.refl w) fun _ hw h => ⟨hw, ⟨_, h.place⟩, Value.flat_void⟩
    · next hvalues =>
      have hone : 1 ≤ σ.length := by
        simp only [OpCode.needs] at hn
        split at hn
        · next hzero => simp [hzero] at hvalues
        · exact hn
      have hpop := (bears_pop (P := A.Shows σ x w.processor) hone).shows (Activation.takes_pop hone) id
      exact hpop.mono id fun _ _ _ h => ⟨⟨_, h.1.place⟩, h.2.1⟩
  rw [leaveFrame_eq]
  exact hresult.bind fun result w₁ hw₁ =>
    sifts_leaveWith hw₁.later depth hb (fun hp => hp.2.2) fun hp => hp.2.1

/-! ## Instructions and runs -/

/-- Every instruction leads from the shapes that the code foresees to such shapes. -/
theorem step (hc : r.Calm) (hr : r.Sifting) {i : Instruction} {a : Nat} (hi : w.ops a = some i.op) :
    (r.step bottom.frames.size i).Sifts w (w.processor.ip = a ∧ w.Attended bottom)
      fun exit w' => w'.Shown bottom exit := by
  refine .assume (keeps_step hc hi) ?_
  rintro hg - ⟨hip, A, σ, x, hattends, htraces, hshows⟩
  obtain rfl : a = x := hip.symm.trans hshows.place.ip_eq
  have hb : Ahead w bottom A σ a i.op := ⟨hattends, htraces, hi⟩
  have hadmits := htraces.admits hg hi
  have hclosure : ∀ entry captures, i.op = .closure entry captures → w.Genuine →
      ∀ s : Script, w.scripts[w.active.index]? = some s → s.code.HasHeader entry :=
    fun entry captures hop hg s hs => hasHeader_of_closure (hop ▸ hi) hg s hs
  suffices (r.step bottom.frames.size i).Sifts w (A.Shows σ a w.processor)
      fun exit w' => w'.Shown bottom exit from this.mono (fun _ => hshows) fun _ _ _ => id
  by_cases hcall : ∃ n, i.op = .call n
  · obtain ⟨op, span⟩ := i
    obtain ⟨n, rfl⟩ := hcall
    exact stepCall hc hr hadmits.1 span hb
  · by_cases hret : ∃ n, i.op = .ret n
    · obtain ⟨op, span⟩ := i
      obtain ⟨n, rfl⟩ := hret
      exact leaveFrame hadmits.1 _ hb
    · exact sifts_of_steps (hr.steps hc _ i hadmits (not_exists.1 hcall) (not_exists.1 hret) hclosure)
        (Activation.stays_step hc _ i hadmits.1 (not_exists.1 hcall) (not_exists.1 hret) hclosure) hb

theorem sifting_hear (s : Script) (i : Instruction) : Exec.Sifting P (hear s i) fun _ => True := by
  unfold hear
  split
  · exact sifting_listen i.span
  · exact sifting_pure fun _ => trivial

theorem sifts_stepThen {depth : Nat} {i : Instruction} {rest : Exec Exit}
    {Q : Option Exit → World → Prop} (hstep : (r.step depth i).Sifts w P Q)
    (hrest : ∀ w', rest.Sifts w' (Q none w') fun exit w'' => Q (some exit) w'') :
    (r.stepThen depth i rest).Sifts w P fun exit w' => Q (some exit) w' := by
  have htrace : ∀ (e : ScriptError) (w' : World), (trace e i.span >>= failWith).Sifts w' e.Single
      fun (exit : Exit) w'' => Q (some exit) w'' :=
    fun e w' => (sifting_trace e i.span w').bind fun e' w'' _ =>
      .of_error rfl (.refl w'') fun _ hw hp => ⟨hw, hp.2⟩
  constructor
  · intro exit w' hok
    unfold stepThen at hok
    split at hok
    · next w₁ h =>
      obtain ⟨hw₁, hq⟩ := hstep.ok h
      exact ((hrest w₁).after hw₁ hq).ok hok
    · next exit' w₁ h =>
      cases hok
      exact hstep.ok h
    · next e w₁ h =>
      obtain ⟨hw₁, hq⟩ := hstep.error h
      exact ((htrace e w₁).after hw₁ hq).ok hok
    · cases hok
  · intro err w' herr
    unfold stepThen at herr
    split at herr
    · next w₁ h =>
      obtain ⟨hw₁, hq⟩ := hstep.ok h
      exact ((hrest w₁).after hw₁ hq).error herr
    · cases herr
    · next e w₁ h =>
      obtain ⟨hw₁, hq⟩ := hstep.error h
      exact ((htrace e w₁).after hw₁ hq).error herr
    · next hnot _ =>
      cases herr
      exact absurd rfl (hnot err)

/-- What every instruction sifts, a run of instructions sifts. -/
theorem run_of_step {depth : Nat} {Q : Option Exit → World → Prop}
    (hmono : ∀ {w w' : World}, w.Later w' → w'.processor = w.processor → Q none w → Q none w')
    (hstep : ∀ {w : World} {i : Instruction} {a : Nat}, w.ops a = some i.op →
      (r.step depth i).Sifts w (w.processor.ip = a ∧ Q none w) Q) (n : Nat) (w : World) :
    (r.run depth n).Sifts w (Q none w) fun exit w' => Q (some exit) w' := by
  induction n generalizing w with
  | zero =>
    constructor
    · intro exit w' h
      cases h
    · intro e w' h
      cases h
  | succ n ih =>
    cases hi : (w.scripts.getD w.active.index default).code.instruction? w.processor.ip with
    | none =>
      have hrun : r.run depth (n + 1) w =
          .error (.error (.ofFault (.invalidAddress w.processor.ip))) w := by
        rw [Reentry.run]
        simp only [hi]
      exact .of_error hrun (.refl w) fun _ hw _ => ⟨hw, rfl⟩
    | some i =>
      have hheard : (hear (w.scripts.getD w.active.index default) i).Sifts w (Q none w)
          fun _ w₁ => w₁.processor.ip = w.processor.ip ∧ Q none w₁ := by
        refine ((sifting_hear _ i w).and_keeps (calm_hear _ i w.processor w) fun _ => rfl).later.mono
          id ?_
        rintro h - w₁ ⟨hw₁, -, hp⟩
        exact ⟨by rw [hp], hmono hw₁ hp h⟩
      have hall := hheard.bind fun _ w₁ hw₁ => (sifts_stepThen
        (hstep (hw₁.later.ops (World.ops_of_instruction hi))) ih).mono And.right fun _ _ _ => id
      exact ⟨fun h => hall.ok ((run_eq r _ n hi).symm.trans h),
        fun h => hall.error ((run_eq r _ n hi).symm.trans h)⟩

/-- A run of instructions ends with a flat result, or is suspended with one and can go on later. -/
theorem run (hc : r.Calm) (hr : r.Sifting) (bottom : Processor) (n : Nat) (w : World) :
    (r.run bottom.frames.size n).Sifts w (w.Attended bottom)
      fun exit w' => w'.Shown bottom (some exit) :=
  run_of_step (Q := fun exit w' => w'.Shown bottom exit) (fun hl hp h => World.Attended.mono hl hp h)
    (step hc hr) n w

/-- Without a frame control comes as far as the second instruction of the code, which fails. -/
theorem step_adrift (hc : r.Calm) {i : Instruction} {a : Nat} (hi : w.ops a = some i.op) :
    (r.step bottom.frames.size i).Sifts w (w.processor.ip = a ∧ w.Adrift)
      fun exit w' => exit = none ∧ w'.Adrift := by
  have hsane : (r.step bottom.frames.size i).Sifts w (w.processor.ip = a ∧ w.Adrift)
      fun _ _ => True := by
    refine .assume (keeps_step hc hi) ?_
    rintro hg - ⟨rfl, hframes, hip⟩
    obtain ⟨op, span⟩ := i
    rcases hip with hip | ⟨hip, locals, hbegin⟩
    · obtain ⟨s, hs, hops⟩ := World.exists_script_of_ops hi
      rw [hops, hip] at hi
      obtain ⟨⟨name, kind, n, rfl⟩, -⟩ := (hg _ s hs).first hi
      have hf : w.Follows { w with processor := { w.processor with ip := w.processor.ip + 1 } } :=
        World.follows_of_eq rfl
      refine .of_ok rfl hf fun hg hw _ => ⟨hw.grow hf hg rfl ?_, trivial⟩
      exact hw.flat.withProcessor (hw.flat.processor.of_eq rfl rfl)
    · rw [hip, hbegin] at hi
      obtain rfl : OpCode.beginFn locals = op := Option.some_inj.1 hi
      have htop : topFrame w = .error (.error (.ofFault .noFrame)) w := by
        simp only [topFrame, topFrameOr, hframes]
        rfl
      refine .of_error (e := .ofFault .noFrame) ?_ (.refl w) fun _ hw _ => ⟨hw, rfl⟩
      change EStateM.bind _ _ w = _
      simp only [EStateM.bind, bind, htop]
  exact (hsane.and_keeps (keeps_step_adrift hc hi) id).mono id fun _ _ _ h => ⟨h.2.1.1, h.2.2⟩

/-- Without a frame a run comes to an error. -/
theorem run_adrift (hc : r.Calm) (bottom : Processor) (n : Nat) (w : World) :
    (r.run bottom.frames.size n).Sifts w w.Adrift fun _ _ => False := by
  have hrun : (r.run bottom.frames.size n).Sifts w (none = none ∧ w.Adrift)
      fun exit w' => some exit = none ∧ w'.Adrift :=
    run_of_step (Q := fun exit w' => exit = none ∧ w'.Adrift)
      (fun hl hp h => ⟨rfl, h.2.mono hl hp⟩)
      (fun hi => (step_adrift hc hi).mono (fun h => ⟨h.1, h.2.2⟩) fun _ _ _ => id) n w
  refine hrun.mono (fun h => ⟨rfl, h⟩) ?_
  rintro - exit w' ⟨hexit, -⟩
  cases hexit

end Reentry.Sifting

end LuaMachine
