import LuaMachine.Proofs.Dump.Genuine
import LuaMachine.Machine.Run

/-!
# Frames above frames

Running scripts changes the world in few ways that matter to code in progress: code is only added
(`World.Later`), and every closure is made of a function that is there (`World.Closed`).

A script function runs in a frame of its own above the stacks of its caller. `Activation.At` says how
the processor looks while it does: the frame is the topmost one, some number of values lie above its
base, and the next instruction is at some address. While a function that the host called runs, the
frames above the bottom of the call are activations of verified functions, each of which waits for
the one above it (`World.Waits`, `World.Running`). A coroutine that is suspended waits in the same
way for the value that it is resumed with (`World.Suspended`, `World.Resumable`).
-/

namespace LuaMachine

namespace World

/-- The entry of a closure is a function of the script that it belongs to. -/
def HasHeader (w : World) (c : Closure) : Prop :=
  ∀ s : Script, w.scripts[c.owner.index]? = some s → s.code.HasHeader c.entry

/-- Every closure is made of a function. -/
def Closed (w : World) : Prop :=
  ∀ (i : Nat) (c : Closure), w.heap.closures[i]? = some c → w.HasHeader c

/-- Every closure belongs to a script that is there. -/
def Owned (w : World) : Prop :=
  ∀ (i : Nat) (c : Closure), w.heap.closures[i]? = some c → c.owner.index < w.scripts.size

/-- All code comes from the compiler. -/
def Compiled (w : World) : Prop :=
  ∀ (i : Nat) (s : Script), w.scripts[i]? = some s → s.code.Compiled

/-- All code comes from the compiler, directly or by way of dumps. -/
def Genuine (w : World) : Prop :=
  ∀ (i : Nat) (s : Script), w.scripts[i]? = some s → s.code.Genuine

theorem Compiled.genuine {w : World} (h : w.Compiled) : w.Genuine := fun i s hs => (h i s hs).genuine

/-- The same script is running, code was only added, and coroutines stayed with their scripts. -/
structure Later (w w' : World) : Prop where
  active : w'.active = w.active
  size : w'.scripts.size = w.scripts.size
  code : ∀ {i : Nat} {s s' : Script}, w.scripts[i]? = some s → w'.scripts[i]? = some s' →
    s.code.Grows s'.code
  owners : ∀ {i : Nat} {c : Coroutine}, w.heap.coroutines[i]? = some c →
    ∃ c', w'.heap.coroutines[i]? = some c' ∧ c'.owner = c.owner

namespace Later

variable {w w' w'' : World}

theorem refl (w : World) : w.Later w := by
  refine ⟨rfl, rfl, ?_, fun {i c} hc => ⟨c, hc, rfl⟩⟩
  intro i s s' hs hs'
  rw [hs] at hs'
  cases hs'
  exact .refl _

/-- Every script is there before and after. -/
theorem before (h : w.Later w') {i : Nat} {s' : Script} (hs : w'.scripts[i]? = some s') :
    ∃ s, w.scripts[i]? = some s := by
  obtain ⟨hi, -⟩ := Array.getElem?_eq_some_iff.1 hs
  exact ⟨_, Array.getElem?_eq_getElem (h.size ▸ hi)⟩

theorem after (h : w.Later w') {i : Nat} {s : Script} (hs : w.scripts[i]? = some s) :
    ∃ s', w'.scripts[i]? = some s' := by
  obtain ⟨hi, -⟩ := Array.getElem?_eq_some_iff.1 hs
  exact ⟨_, Array.getElem?_eq_getElem (h.size.symm ▸ hi)⟩

theorem trans (h₁ : w.Later w') (h₂ : w'.Later w'') : w.Later w'' := by
  refine ⟨h₂.active.trans h₁.active, h₂.size.trans h₁.size, ?_, ?_⟩
  · intro i s s'' hs hs''
    obtain ⟨s', hs'⟩ := h₁.after hs
    exact (h₁.code hs hs').trans (h₂.code hs' hs'')
  · intro i c hc
    obtain ⟨c', hc', ho'⟩ := h₁.owners hc
    obtain ⟨c'', hc'', ho''⟩ := h₂.owners hc'
    exact ⟨c'', hc'', ho''.trans ho'⟩

theorem genuine (h : w.Later w') (hc : w'.Genuine) : w.Genuine := by
  intro i s hs
  obtain ⟨s', hs'⟩ := h.after hs
  exact (h.code hs hs').genuine (hc i s' hs')

/-- Neither the processor nor the execution matters. -/
theorem elsewhere (h : w.Later w') (p : Processor) (token : Nat) :
    w.Later { w' with processor := p, token } :=
  ⟨h.active, h.size, h.code, h.owners⟩

theorem hasHeader (h : w.Later w') {c : Closure} (hc : w.HasHeader c) : w'.HasHeader c := by
  intro s' hs'
  obtain ⟨s, hs⟩ := h.before hs'
  exact (h.code hs hs').hasHeader (hc s hs)

end Later

end World

/-- The processor of a coroutine that has not started. -/
def Processor.ofCoroutine : Processor := { isCoroutine := true }

/-! ## Stacks above stacks -/

/-- The stacks of a processor are the lower parts of the stacks of another one. -/
structure Processor.Under (q p : Processor) : Prop where
  frames : q.frames.toList <+: p.frames.toList
  values : q.values.toList <+: p.values.toList
  isCoroutine : p.isCoroutine = q.isCoroutine

namespace Processor.Under

variable {p q s : Processor}

theorem refl (p : Processor) : p.Under p :=
  ⟨List.prefix_rfl, List.prefix_rfl, rfl⟩

theorem trans (h₁ : q.Under p) (h₂ : p.Under s) : q.Under s :=
  ⟨h₁.frames.trans h₂.frames, h₁.values.trans h₂.values, h₂.isCoroutine.trans h₁.isCoroutine⟩

theorem take_eq_of_prefix {α : Type} {as bs : Array α} (h : as.toList <+: bs.toList) :
    bs.take as.size = as := by
  obtain ⟨rest, hrest⟩ := h
  apply Array.toList_inj.1
  rw [Array.toList_extract, ← hrest]
  simp

/-- Cutting the stacks down gives back what was below. -/
theorem unwind (h : q.Under p) :
    { p.unwind q.frames.size q.values.size with ip := q.ip } = q := by
  have hframes := take_eq_of_prefix h.frames
  have hvalues := take_eq_of_prefix h.values
  unfold Processor.unwind
  rw [hframes, hvalues, h.isCoroutine]

end Processor.Under

/-! ## The processor of an activation -/

/-- A function that runs above the stacks of its caller. -/
structure Activation where
  /-- the processor when the function was entered -/
  outer : Processor
  closure : Closure
  returnAddress : Option Nat
  /-- the number of values that its return leaves on the stack -/
  base : Nat
deriving Inhabited

namespace Activation

/-- A function that is entered above a processor. -/
def above (p : Processor) (closure : Closure) (returnAddress : Option Nat) : Activation :=
  ⟨p, closure, returnAddress, p.values.size⟩

variable {A : Activation} {k k' x : Nat} {p : Processor} {α β : Type}

/-- The function is about to carry out the instruction at an address, with `k` values above its
base. -/
def At (A : Activation) (k x : Nat) (p : Processor) : Prop :=
  ∃ (f : ScriptFrame) (own : Array Value),
    (f.closure = A.closure ∧ f.base = A.base ∧ f.returnAddress = A.returnAddress) ∧
      own.size = k ∧
      p = { A.outer with
        values := A.outer.values ++ own, frames := A.outer.frames.push (.script f), ip := x }

theorem At.under (h : A.At k x p) : A.outer.Under p := by
  obtain ⟨f, own, -, -, rfl⟩ := h
  refine ⟨?_, ?_, rfl⟩
  · rw [Array.toList_push]
    exact List.prefix_append _ _
  · rw [Array.toList_append]
    exact List.prefix_append _ _

theorem At.ip_eq (h : A.At k x p) : p.ip = x := by
  obtain ⟨f, own, -, -, rfl⟩ := h
  rfl

/-- The function has as many frames below it as before. -/
theorem At.size_frames (h : A.At k x p) : p.frames.size = A.outer.frames.size + 1 := by
  obtain ⟨f, own, -, -, rfl⟩ := h
  rw [Array.size_push]

theorem At.goTo (h : A.At k x p) (y : Nat) : A.At k y { p with ip := y } := by
  obtain ⟨f, own, hf, hk, rfl⟩ := h
  exact ⟨f, own, hf, hk, rfl⟩

theorem At.push (h : A.At k x p) (v : Value) :
    A.At (k + 1) x { p with values := p.values.push v } := by
  obtain ⟨f, own, hf, hk, rfl⟩ := h
  refine ⟨f, own.push v, hf, by rw [Array.size_push, hk], ?_⟩
  rw [← Array.push_append]

end Activation

/-! ## Activations above activations -/

namespace World

/-- The operations of the running script. -/
def ops (w : World) : Listing := (w.scripts.getD w.active.index default).code.ops

theorem ops_of_instruction {w : World} {i : Instruction}
    (hi : (w.scripts.getD w.active.index default).code.instruction? w.processor.ip = some i) :
    w.ops w.processor.ip = some i.op := by
  unfold World.ops Segment.ops
  rw [hi]
  rfl

theorem exists_script_of_ops {w : World} {x : Nat} {op : OpCode} (h : w.ops x = some op) :
    ∃ s, w.scripts[w.active.index]? = some s ∧ w.ops = s.code.ops := by
  unfold ops at h ⊢
  rw [Array.getD_eq_getD_getElem?] at h ⊢
  cases hs : w.scripts[w.active.index]? with
  | none =>
    rw [hs] at h
    cases h
  | some s => exact ⟨s, rfl, rfl⟩

theorem Later.ops {w w' : World} (h : w.Later w') {x : Nat} {op : OpCode}
    (hx : w.ops x = some op) : w'.ops x = some op := by
  obtain ⟨s, hs, hops⟩ := exists_script_of_ops hx
  obtain ⟨s', hs'⟩ := h.after hs
  have hops' : w'.ops = s'.code.ops := by
    unfold World.ops
    rw [h.active, Array.getD_eq_getD_getElem?, hs']
    rfl
  rw [hops] at hx
  rw [hops']
  exact (h.code hs hs').ops hx

/-- The function of an activation can come to an address with `k` values above its base. -/
structure Runs (w : World) (A : Activation) (k x : Nat) : Prop where
  owner : A.closure.owner = w.active
  header : w.HasHeader A.closure
  reaches : Reaches w.ops A.closure.entry x k
  base_eq : A.base = A.outer.values.size

theorem Runs.mono {w w' : World} (h : w.Later w') {A : Activation} {k x : Nat}
    (hr : w.Runs A k x) : w'.Runs A k x :=
  ⟨hr.owner.trans h.active.symm, h.hasHeader hr.header, hr.reaches.mono fun _ _ => h.ops, hr.base_eq⟩

theorem Runs.step {w : World} {A : Activation} {k x : Nat} (hr : w.Runs A k x) {op : OpCode}
    (hop : w.ops x = some op) {y d : Nat} (hnext : (y, d) ∈ op.next x k) : w.Runs A d y :=
  ⟨hr.owner, hr.header, hr.reaches.step hop hnext, hr.base_eq⟩

/-- Wherever a function can come, the operands are there. -/
theorem Runs.operands {w : World} {A : Activation} {k x : Nat} (hr : w.Runs A k x)
    (hc : w.Genuine) {op : OpCode} (hop : w.ops x = some op) : op.needs ≤ k := by
  obtain ⟨s, hs, hops⟩ := exists_script_of_ops hop
  have hheader := hr.header s (by rw [hr.owner, hs])
  have hreaches := hr.reaches
  rw [hops] at hop hreaches
  exact (hc _ s hs).operands hheader hreaches hop

/-- A processor whose topmost activation waits for a function to return to an address. At the bottom
the host waits, or a function that is not looked at, which has an address to return to. -/
inductive Waits (w : World) (home : Option Nat) (bottom : Processor) :
    Processor → Option Nat → Prop where
  | base : Waits w home bottom bottom home
  | call {A : Activation} {k x y : Nat} {p : Processor} :
      Waits w home bottom A.outer A.returnAddress → A.At k x p → w.Runs A (k + 1) y →
      Waits w home bottom p (some y)

variable {home : Option Nat}

theorem Waits.mono {w w' : World} (h : w.Later w') {bottom p : Processor} {address : Option Nat}
    (hw : w.Waits home bottom p address) : w'.Waits home bottom p address := by
  induction hw with
  | base => exact .base
  | call _ hat hruns ih => exact .call ih hat (hruns.mono h)

theorem Waits.under {w : World} {bottom p : Processor} {address : Option Nat}
    (hw : w.Waits home bottom p address) : bottom.Under p := by
  induction hw with
  | base => exact .refl _
  | call _ hat _ ih => exact ih.trans hat.under

theorem Waits.eq_bottom {w : World} {bottom p : Processor} (hw : w.Waits home bottom p none) :
    p = bottom ∧ home = none := by
  cases hw with
  | base => exact ⟨rfl, rfl⟩

/-- A function above the bottom is about to carry out an instruction. -/
def RunsAbove (w : World) (home : Option Nat) (bottom : Processor) : Prop :=
  ∃ A k x, w.Waits home bottom A.outer A.returnAddress ∧ w.Runs A k x ∧ A.At k x w.processor

/-- A function above the bottom is about to carry out an instruction, and the host waits there. -/
abbrev Running (w : World) (bottom : Processor) : Prop := w.RunsAbove none bottom

/-- The function that was entered above the bottom has returned to its address. -/
def BackIn (w : World) (home : Option Nat) (bottom : Processor) : Prop :=
  ∃ y v, home = some y ∧ w.processor = { bottom with ip := y, values := bottom.values.push v }

/-- A function that another one waits for has returned with a result. -/
theorem Waits.resume {w : World} {bottom p : Processor} {y : Nat}
    (hw : w.Waits home bottom p (some y)) (result : Value) (w' : World) (h : w.Later w')
    (hp : w'.processor = { p with ip := y, values := p.values.push result }) :
    bottom.frames.size < p.frames.size ∧ w'.RunsAbove home bottom ∨
      p = bottom ∧ w'.BackIn home bottom := by
  cases hw with
  | base => exact .inr ⟨rfl, y, result, rfl, hp⟩
  | @call A k x y p hwaits hat hruns =>
    obtain ⟨f, own, hf, hk, rfl⟩ := hat
    have hle := hwaits.under.frames.length_le
    simp only [Array.length_toList] at hle
    refine .inl ⟨?_, A, k + 1, y, hwaits.mono h, hruns.mono h, f, own.push result, hf, ?_, ?_⟩
    · rw [Array.size_push]
      omega
    · rw [Array.size_push, hk]
    · rw [hp, ← Array.push_append]

theorem RunsAbove.under {w : World} {bottom : Processor} (h : w.RunsAbove home bottom) :
    bottom.Under w.processor := by
  obtain ⟨A, k, x, hwaits, -, hat⟩ := h
  exact hwaits.under.trans hat.under

/-- There is a frame above those of the bottom. -/
theorem RunsAbove.size_lt {w : World} {bottom : Processor} (h : w.RunsAbove home bottom) :
    bottom.frames.size < w.processor.frames.size := by
  obtain ⟨A, k, x, hwaits, -, f, own, -, -, hp⟩ := h
  have hle := hwaits.under.frames.length_le
  simp only [Array.length_toList] at hle
  rw [hp, Array.size_push]
  omega

theorem RunsAbove.mono {w w' : World} (h : w.Later w') (hp : w'.processor = w.processor)
    {bottom : Processor} (hr : w.RunsAbove home bottom) : w'.RunsAbove home bottom := by
  obtain ⟨A, k, x, hwaits, hruns, hat⟩ := hr
  exact ⟨A, k, x, hwaits.mono h, hruns.mono h, hp ▸ hat⟩

/-- A function above the bottom waits for the value of its call. -/
def Paused (w : World) (home : Option Nat) (bottom : Processor) : Prop :=
  ∃ A k x, w.Waits home bottom A.outer A.returnAddress ∧ w.Runs A (k + 1) x ∧ A.At k x w.processor

/-- A run above the bottom was suspended: a function waits for the value of its call, or none was
entered. -/
def Suspended (w : World) (bottom : Processor) : Prop :=
  w.processor = bottom ∨ w.Paused none bottom

theorem Suspended.under {w : World} {bottom : Processor} (h : w.Suspended bottom) :
    bottom.Under w.processor := by
  rcases h with h | ⟨A, k, x, hwaits, -, hat⟩
  · exact h ▸ .refl _
  · exact hwaits.under.trans hat.under

theorem Suspended.mono {w w' : World} (h : w.Later w') (hp : w'.processor = w.processor)
    {bottom : Processor} (hs : w.Suspended bottom) : w'.Suspended bottom := by
  rcases hs with hs | ⟨A, k, x, hwaits, hruns, hat⟩
  · exact .inl (hp.trans hs)
  · exact .inr ⟨A, k, x, hwaits.mono h, hruns.mono h, hp ▸ hat⟩

/-- No function was entered, and control is at the beginning of the code. This is how a coroutine that
consists of a suspension alone goes on. -/
def Adrift (w : World) : Prop :=
  w.processor.frames = #[] ∧ (w.processor.ip = 0 ∨
    w.processor.ip = 1 ∧ ∃ locals, w.ops 1 = some (.beginFn locals))

theorem Adrift.mono {w w' : World} (h : w.Later w') (hp : w'.processor = w.processor)
    (ha : w.Adrift) : w'.Adrift := by
  obtain ⟨hframes, hip⟩ := ha
  refine ⟨by rw [hp, hframes], ?_⟩
  rw [hp]
  exact hip.imp_right fun ⟨hip, locals, hop⟩ => ⟨hip, locals, h.ops hop⟩

/-- A suspended coroutine goes on with a value. -/
theorem Suspended.push {w : World} (h : w.Suspended .ofCoroutine) {w' : World} {v : Value}
    (hl : w.Later w')
    (hp : w'.processor = { w.processor with values := w.processor.values.push v }) :
    w'.Running .ofCoroutine ∨ w'.Adrift := by
  rcases h with h | ⟨A, k, x, hwaits, hruns, hat⟩
  · refine .inr ⟨?_, .inl ?_⟩
    · rw [hp, h]
      rfl
    · rw [hp, h]
      rfl
  · exact .inl ⟨A, k + 1, x, hwaits.mono hl, hruns.mono hl, hp ▸ hat.push v⟩

/-- The world after an instruction: the run above the bottom goes on or has come back there, or the
stacks are those of the bottom, or the run was suspended above them. -/
def SteppedAbove (w : World) (home : Option Nat) (bottom : Processor) : Option Exit → Prop
  | none => w.RunsAbove home bottom ∨ w.BackIn home bottom
  | some (.returned _) => { w.processor with ip := bottom.ip } = bottom
  | some (.yielded _) => w.Paused home bottom

/-- The world after an instruction of a run for which the host waits. -/
def Stepped (w : World) (bottom : Processor) : Option Exit → Prop
  | none => w.Running bottom
  | some (.returned _) => { w.processor with ip := bottom.ip } = bottom
  | some (.yielded _) => w.Suspended bottom

theorem SteppedAbove.stepped {w : World} {bottom : Processor} {exit : Option Exit}
    (h : w.SteppedAbove none bottom exit) : w.Stepped bottom exit := by
  match exit with
  | none =>
    rcases h with h | ⟨y, v, hhome, -⟩
    · exact h
    · cases hhome
  | some (.returned _) => exact h
  | some (.yielded _) => exact .inr h

end World

/-! ## Suspended coroutines -/

/-- A world with a script running on a processor. -/
def World.on (w : World) (id : ScriptId) (p : Processor) : World :=
  { w with active := id, processor := p }

theorem World.Later.on {w w' : World} (h : w.Later w') (id : ScriptId) (p : Processor) :
    (w.on id p).Later (w'.on id p) :=
  ⟨rfl, h.size, h.code, h.owners⟩

/-- A coroutine that has a body can be resumed from there: its processor is a new one, or the one on
which it was suspended. -/
structure Coroutine.Resumable (w : World) (c : Coroutine) : Prop where
  fresh : ∀ p f, c.body = some { processor := p, function := some f } → p = .ofCoroutine
  suspended : ∀ p, c.body = some { processor := p, function := none } →
    (w.on c.owner p).Suspended .ofCoroutine

namespace Coroutine.Resumable

variable {w w' : World} {c c' : Coroutine}

theorem mono (h : w.Later w') (hc : c.Resumable w) : c.Resumable w' :=
  ⟨hc.fresh, fun p hp => (hc.suspended p hp).mono (h.on c.owner p) rfl⟩

/-- The state of a coroutine does not matter. -/
theorem of_eq (hc : c.Resumable w) (ho : c'.owner = c.owner) (hb : c'.body = c.body) :
    c'.Resumable w :=
  ⟨fun p f hp => hc.fresh p f (hb ▸ hp), fun p hp => ho ▸ hc.suspended p (hb ▸ hp)⟩

/-- It does not matter which script is running. -/
theorem of_active (hc : c.Resumable w) (id : ScriptId) : c.Resumable { w with active := id } :=
  ⟨hc.fresh, hc.suspended⟩

theorem of_fresh {f : Value}
    (hb : c.body = some { processor := .ofCoroutine, function := some f }) : c.Resumable w := by
  constructor
  · intro p g hp
    rw [hb] at hp
    cases hp
    rfl
  · intro p hp
    rw [hb] at hp
    cases hp

theorem of_none (hb : c.body = none) : c.Resumable w := by
  constructor
  · intro p f hp
    rw [hb] at hp
    cases hp
  · intro p hp
    rw [hb] at hp
    cases hp

end Coroutine.Resumable

/-- Every coroutine that has a body can be resumed. -/
def World.Resumable (w : World) : Prop :=
  ∀ (i : Nat) (c : Coroutine), w.heap.coroutines[i]? = some c → c.Resumable w

end LuaMachine
