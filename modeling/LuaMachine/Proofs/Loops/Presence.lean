import LuaMachine.Proofs.Loops.Bounded

/-!
# Functions that stay on the call stack

A function is on the call stack as long as its frame is there, also while it waits for something that
it called (`Activation.OnStack`). What it calls on the same processor runs above it: functions, in the
loop that it runs in itself, and native functions, metamethods and whatever they call, in loops further
inside (`Activation.Carries`). Until it returns it stays where it is, under all of that
(`Activation.Carries.onStack`).
-/

namespace LuaMachine

open Exec

namespace Activation

variable {A : Activation} {p q : Processor} {k x : Nat}

/-- The function is running, or waits under what it has called. -/
def OnStack (A : Activation) (p : Processor) : Prop := ∃ q, A.Remains q ∧ q.Under p

theorem Remains.onStack (h : A.Remains p) : A.OnStack p := ⟨p, h, .refl p⟩

theorem OnStack.under (h : A.OnStack p) (hunder : p.Under q) : A.OnStack q := by
  obtain ⟨p', hremains, hunder'⟩ := h
  exact ⟨p', hremains, hunder'.trans hunder⟩

theorem Remains.size_frames (h : A.Remains p) : p.frames.size = A.outer.frames.size + 1 :=
  let ⟨_, _, hat⟩ := h
  hat.size_frames

theorem OnStack.size_lt (h : A.OnStack p) : A.outer.frames.size < p.frames.size := by
  obtain ⟨q, hremains, hunder⟩ := h
  have hle := hunder.frames.length_le
  have hsize := hremains.size_frames
  simp only [Array.length_toList] at hle
  omega

/-- With no frame above its own, the function is running. -/
theorem OnStack.remains (h : A.OnStack p) (hsize : p.frames.size ≤ A.outer.frames.size + 1) :
    A.Remains p := by
  obtain ⟨q, hremains, hunder⟩ := h
  have hle : p.frames.toList.length ≤ q.frames.toList.length := by
    rw [Array.length_toList, Array.length_toList, hremains.size_frames]
    exact hsize
  have hframes := hunder.frames.eq_of_length_le hle
  obtain ⟨values, hvalues⟩ := hunder.values
  obtain ⟨k, x, f, own, hf, hk, rfl⟩ := hremains
  refine ⟨_, p.ip, f, own ++ values.toArray, hf, rfl, ?_⟩
  have hp : p = { p with
      values := A.outer.values ++ (own ++ values.toArray), frames := A.outer.frames.push (.script f)
      isCoroutine := A.outer.isCoroutine } := by
    have hframes' : p.frames = A.outer.frames.push (.script f) := by
      apply Array.toList_inj.1
      exact hframes.symm
    have hvalues' : p.values = A.outer.values ++ (own ++ values.toArray) := by
      apply Array.toList_inj.1
      rw [← hvalues]
      simp
    rw [← hframes', ← hvalues', ← hunder.isCoroutine]
  exact hp

end Activation

/-! ## What belongs to a function -/

/-- A spot belongs to a function: control is in the function, or in something that it called on the same
processor. -/
inductive Spot.Belongs (A : Activation) (w : World) : Spot → Prop
  /-- the function runs in a loop that was entered below it -/
  | running {depth fuel k x : Nat} (hdepth : depth ≤ A.outer.frames.size) (hruns : w.Runs A k x)
    (hat : A.At k x w.processor) : Belongs A w (.loop depth fuel)
  /-- a function that it called runs; where that comes back in the same loop, the function goes on -/
  | waiting {depth fuel : Nat} {home : Option Nat} {bottom : Processor} (hon : A.OnStack bottom)
    (hdepth : EnteredBelow depth home bottom) (habove : w.RunsAbove home bottom)
    (hback : ∀ y, home = some y → ∃ k x, A.At k x bottom ∧ w.Runs A (k + 1) y) :
    Belongs A w (.loop depth fuel)
  | function {depth : Nat} {f : Value} {args : List Value} (hon : A.OnStack w.processor)
    (hdepth : depth = w.processor.frames.size) : Belongs A w (.function depth f args)
  | native {f : Native} {args : List Value} {caller : Option Span} (hon : A.OnStack w.processor) :
    Belongs A w (.native f args caller)
  | request {q : Request} (hon : A.OnStack w.processor) : Belongs A w (.request q)

variable {A : Activation} {n k m depth fuel x : Nat} {spot between inner : Spot}
  {w w₁ w₂ u v : World} {q : Request} {r : Reentry} {i : Instruction}

theorem Spot.Belongs.onStack (h : spot.Belongs A w) : A.OnStack w.processor := by
  cases h with
  | running hdepth hruns hat => exact hat.remains.onStack
  | waiting hon hdepth habove hback => exact hon.under habove.under
  | function hon hdepth => exact hon
  | native hon => exact hon
  | request hon => exact hon

/-- More code and another world are of no matter, as long as the processor is the same. -/
theorem Spot.Belongs.mono (h : spot.Belongs A w) (hl : w.Later w') (hp : w'.processor = w.processor) :
    spot.Belongs A w' := by
  cases h with
  | running hdepth hruns hat => exact .running hdepth (hruns.mono hl) (hp ▸ hat)
  | waiting hon hdepth habove hback =>
    refine .waiting hon hdepth (habove.mono hl hp) fun y hy => ?_
    obtain ⟨k, x, hat, hruns⟩ := hback y hy
    exact ⟨k, x, hat, hruns.mono hl⟩
  | function hon hdepth => exact .function (hp ▸ hon) (hp ▸ hdepth)
  | native hon => exact .native (hp ▸ hon)
  | request hon => exact .request (hp ▸ hon)

namespace Reentry

/-! ### Instructions -/

/-- An instruction of the function itself, unless the function returns. -/
theorem belongs_of_step (hr : r.Calm) (hi : w.ops x = some i.op)
    (hstep : r.step depth i w = .ok none u) (hg : u.Genuine) (hclosed : w.Closed)
    (hdepth : depth ≤ A.outer.frames.size) (hruns : w.Runs A k x) (hat : A.At k x w.processor)
    (hstays : A.outer.frames.size < u.processor.frames.size) :
    (Spot.loop depth fuel).Belongs A u := by
  obtain ⟨op, span⟩ := i
  obtain ⟨bottom, rfl⟩ := Processor.exists_bottom depth
  have hl := ((keeps_step hr hi).ok hstep).1.later
  have hneeds := hruns.operands (hl.genuine hg) hi
  by_cases hcall : ∃ n, op = .call n
  · obtain ⟨n, rfl⟩ := hcall
    have hnext : ∀ {d : Nat}, (x + 1, d) ∈ (OpCode.call n).next x k → u.Runs A d (x + 1) :=
      fun hmem => (hruns.step hi hmem).mono hl
    have hcalled : (r.stepCall n span).Keeps w _ _ _ := keeps_call (A := A) (x := x) hr hneeds span
    rcases (hcalled.ok hstep).2 hg hclosed hat with hdone | ⟨p, c, hcaller, hentered, hinside⟩
    · exact .running hdepth (hnext (List.mem_singleton_self _)) hdone
    · have hlow : bottom.frames.size < p.frames.size :=
        Nat.lt_of_le_of_lt hdepth (hcaller.size_frames ▸ Nat.lt_succ_self _)
      have hbelow : EnteredBelow bottom.frames.size (some (x + 1)) p := hlow
      refine .waiting hcaller.remains.onStack hbelow ⟨_, 0, c.entry, .base, hentered, hinside⟩ ?_
      rintro y hy
      cases hy
      exact ⟨_, x, hcaller, hnext (List.mem_singleton_self _)⟩
  · by_cases hret : ∃ n, op = .ret n
    · obtain ⟨n, rfl⟩ := hret
      obtain ⟨f, -, hframes, -⟩ := back_of_leaveFrame hstep
      rw [hframes, Array.size_pop, hat.size_frames] at hstays
      exact absurd hstays (Nat.lt_irrefl _)
    · have hclosure : ∀ entry captures, op = .closure entry captures → w.Genuine →
          ∀ s : Script, w.scripts[w.active.index]? = some s → s.code.HasHeader entry := by
        rintro entry captures rfl hg s hs
        exact hasHeader_of_closure hi hg s hs
      have hkeeps := Activation.stays_step (A := A) (x := x) hr bottom.frames.size ⟨op, span⟩ hneeds
        (not_exists.1 hcall) (not_exists.1 hret) hclosure
      obtain ⟨-, y, d, hmem, hat'⟩ := (hkeeps.ok hstep).2 hg hclosed hat
      exact .running hdepth ((hruns.step hi hmem).mono hl) hat'

/-- An instruction of a loop that belongs to a function, unless the function returns. -/
theorem belongs_of_instruction (hr : r.Calm) (h : (Spot.loop depth (fuel + 1)).Belongs A w)
    (hi : (w.scripts.getD w.active.index default).code.instruction? w.processor.ip = some i)
    (hheard : hear (w.scripts.getD w.active.index default) i w = .ok () w₁)
    (hstep : r.step depth i w₁ = .ok none u) (hg : u.Genuine) (hclosed : w.Closed)
    (hstays : A.outer.frames.size < u.processor.frames.size) :
    (Spot.loop depth fuel).Belongs A u := by
  obtain ⟨hfirst, hprocessor⟩ := (calm_hear _ i w.processor w).ok hheard
  have hops := hfirst.later.ops (World.ops_of_instruction hi)
  obtain ⟨anywhere, rfl⟩ := Processor.exists_bottom depth
  have hl : w₁.Later u := ((keeps_step hr hops).ok hstep).1.later
  have hg₁ := hl.genuine hg
  have hp := hprocessor hg₁ hclosed rfl
  have hclosed₁ := hfirst.closed hg₁ hclosed
  cases h.mono hfirst.later hp with
  | running hdepth hruns hat =>
    rw [← hp, hat.ip_eq] at hops
    exact belongs_of_step hr hops hstep hg hclosed₁ hdepth hruns hat hstays
  | waiting hon hdepth habove hback =>
    have hkeeps := (keeps_stepAbove hr hdepth hops).ok hstep
    rcases hkeeps.2 hg hclosed₁ ⟨congrArg (·.ip) hp, habove⟩ with habove' | ⟨y, v, hhome, hback'⟩
    · refine .waiting hon hdepth habove' fun y hy => ?_
      obtain ⟨k, x, hat, hruns⟩ := hback y hy
      exact ⟨k, x, hat, hruns.mono hl⟩
    · obtain ⟨k, x, hat, hruns⟩ := hback y hhome
      have hlow : anywhere.frames.size < _ := hhome ▸ hdepth
      rw [hat.size_frames] at hlow
      exact .running (Nat.le_of_lt_succ hlow) (hruns.mono hl) (hback' ▸ (hat.push v).goTo y)

/-! ### Where the machine is asked -/

/-- A return asks for nothing. -/
theorem not_asks_ret {values : Nat} {span : Option Span} :
    ¬Asks (·.step depth ⟨.ret values, span⟩) r w q v := by
  rintro ⟨a, ha⟩
  exact ha rfl

/-- What an instruction asks the machine for, unless it is a call, is asked above the function. -/
theorem onStack_of_asks_step (hr : r.Calm) (h : (Spot.loop depth fuel).Belongs A w)
    (hi : w.ops w.processor.ip = some i.op) (hcall : ∀ argc, i.op ≠ .call argc)
    (hasks : Asks (·.step depth i) r w q v) (hg : v.Genuine) (hclosed : w.Closed) :
    A.OnStack v.processor := by
  -- a cancellation would leave the instruction in the world where it asks
  have hcancelled := cancelled_of_asks hasks fun hr' => (paired_cancelled hr').step depth i hcall
  have hr' := hr.answering_cancelled q v
  have hret : ∀ n, i.op ≠ .ret n := by
    intro n hop
    obtain ⟨op, span⟩ := i
    obtain rfl : op = .ret n := hop
    exact not_asks_ret hasks
  cases h with
  | @running _ _ k x hdepth hruns hat =>
    rw [hat.ip_eq] at hi
    obtain ⟨bottom, rfl⟩ := Processor.exists_bottom depth
    have hlater : w.Later v := ((keeps_step hr' hi).error hcancelled).1.later
    have hneeds := hruns.operands (hlater.genuine hg) hi
    have hkeeps : A.Stays i.op k x _ w := Activation.stays_step hr' bottom.frames.size i hneeds hcall
      hret fun entry captures hop hg s hs => hasHeader_of_closure (hop ▸ hi) hg s hs
    exact ((hkeeps.error hcancelled).2 hg hclosed hat).onStack
  | waiting hon hdepth habove hback =>
    have hkeeps := (keeps_stepAbove hr' hdepth hi).error hcancelled
    exact hon.under (hkeeps.2 hg hclosed ⟨rfl, habove⟩)

/-- What a native function asks the machine for is asked with the processor as it was. -/
theorem processor_of_asks_native (hr : r.Calm) {f : Native} {caller : Option Span} {args : Arguments}
    (hf : f.LetsPass) (hasks : Asks (f.run · caller args) r w q v) (hg : v.Genuine)
    (hclosed : w.Closed) : v.processor = w.processor := by
  have hcancelled := cancelled_of_asks hasks fun hr' => (paired_cancelled hr').native caller args f hf
  have hcalm := (hr.answering_cancelled q v).alike.native caller args f
  exact ((hcalm w.processor w).error hcancelled).2 hg hclosed rfl

/-- A native function that is called from a loop runs above the function. -/
theorem onStack_of_called {argc : Nat} {call : Value × List Value}
    (h : (Spot.loop depth fuel).Belongs A w) (hi : w.ops w.processor.ip = some (.call argc))
    (hcalled : called argc w = .ok call w₁) (hg : w₁.Genuine) (hclosed : w.Closed) :
    A.OnStack w₁.processor := by
  have hw : w.Genuine := by
    rw [called_world hcalled] at hg
    exact hg
  have htaken : ∀ {B : Activation} {k x : Nat}, w.Runs B k x → B.At k x w.processor →
      B.Remains w₁.processor := by
    intro B k x hruns hat
    rw [hat.ip_eq] at hi
    have hneeds : argc + 1 ≤ k := hruns.operands hw hi
    exact (((takes_called hneeds x w).ok hcalled).2 hg hclosed hat).remains
  cases h with
  | running hdepth hruns hat => exact (htaken hruns hat).onStack
  | waiting hon hdepth habove hback =>
    obtain ⟨B, k, x, hwaits, hruns, hat⟩ := habove
    exact hon.under (hwaits.under.trans (htaken hruns hat).under)

end Reentry

/-! ## On the way inwards -/

/-- Neither a call from the host nor the entry of a script, which take another processor. -/
def Spot.StaysOn : Spot → Prop
  | .request (.host ..) | .request (.enter ..) => False
  | _ => True

theorem World.inside_under (w : World) (c : Callback) (caller : Option Span) :
    w.processor.Under (w.inside c caller).processor := by
  refine ⟨?_, List.prefix_rfl, rfl⟩
  exact Array.toList_push ▸ List.prefix_append _ _

/-- What is one step of control further inside belongs to the function too, unless the function
returns, a coroutine is resumed, or another processor is taken. -/
theorem Inward.belongs (h : Inward n spot w [] k between w₁) (hspot : spot.StaysOn)
    (hbelongs : spot.Belongs A w) (hg : w₁.Genuine) (hclosed : w.Closed)
    (hstays : A.outer.frames.size < w₁.processor.frames.size) : between.Belongs A w₁ := by
  have hon := hbelongs.onStack
  cases h with
  | next hi hheard hstep =>
    exact Reentry.belongs_of_instruction (Reentry.calm_atDepth _) hbelongs hi hheard hstep hg hclosed
      hstays
  | @asked _ _ _ _ w₂ _ i _ hi hheard hcall hasks =>
    obtain ⟨hfirst, hprocessor⟩ := (Reentry.calm_hear _ i w.processor w).ok hheard
    have hops := hfirst.later.ops (World.ops_of_instruction hi)
    have hg₂ := ((Reentry.calm_atDepth _).asks_step hops hcall hasks).genuine hg
    have hp := hprocessor hg₂ hclosed rfl
    rw [← hp] at hops
    exact .request (Reentry.onStack_of_asks_step (Reentry.calm_atDepth _)
      (hbelongs.mono hfirst.later hp) hops hcall hasks hg (hfirst.closed hg₂ hclosed))
  | @invoked _ _ _ argc _ w₂ w₃ span c args hi hheard hcalled hyield hdepth =>
    obtain ⟨hfirst, hprocessor⟩ := (Reentry.calm_hear _ _ w.processor w).ok hheard
    have hops := hfirst.later.ops (World.ops_of_instruction hi)
    have hg₃ : w₃.Genuine := hg
    have hg₂ : w₂.Genuine := by
      rw [called_world hcalled] at hg₃
      exact hg₃
    have hp := hprocessor hg₂ hclosed rfl
    rw [← hp] at hops
    have hcaller := Reentry.onStack_of_called (hbelongs.mono hfirst.later hp) hops hcalled hg₃
      (hfirst.closed hg₂ hclosed)
    exact .native (hcaller.under (World.inside_under _ _ _))
  | nativeAsked hf hasks =>
    have hp := Reentry.processor_of_asks_native (Reentry.calm_atDepth _) hf hasks hg hclosed
    exact .request (hp ▸ hon)
  | closure hf henter =>
    cases hbelongs with
    | function _ hdepth =>
      have hbelow : EnteredBelow _ none w.processor := Nat.le_of_eq hdepth
      exact .waiting hon hbelow (running_of_enters hf henter hg hclosed) nofun
  | @callback _ _ f args _ c _ w₂ hf hyield hdepth =>
    have hg₂ : w₂.Genuine := hg
    have hp := ((calm_resolveCallable f args w.processor w).ok hf).2 hg₂ hclosed rfl
    exact .native ((hp ▸ hon : A.OnStack w₂.processor).under (World.inside_under _ _ _))
  | call hnest => exact .function hon rfl
  | host hacquire => exact hspot.elim
  | enter hid hload htoken => exact hspot.elim

/-- From one spot to another control stays with a function: it does not return, and the processor stays
the same. Others may cancel executions at any time. -/
inductive Activation.Carries (A : Activation) : Nat → Spot → World → Nat → Spot → World → Prop
  | here {n : Nat} {spot : Spot} {w : World} : A.Carries n spot w n spot w
  | inward {n k m : Nat} {spot between inner : Spot} {w w₁ v : World}
    (hfirst : Inward n spot w [] k between w₁) (hspot : spot.StaysOn)
    (hstays : A.outer.frames.size < w₁.processor.frames.size)
    (hrest : A.Carries k between w₁ m inner v) : A.Carries n spot w m inner v
  | cancelled {n m token : Nat} {spot inner : Spot} {w w₁ v : World}
    (hcancel : Exec.cancel token w = .ok () w₁) (hrest : A.Carries n spot w₁ m inner v) :
    A.Carries n spot w m inner v

namespace Activation.Carries

theorem inherits (h : A.Carries n spot w m inner v) : w.Inherits v := by
  induction h with
  | here => exact .refl _
  | inward hfirst _ _ _ ih => exact hfirst.inherits.trans ih
  | cancelled hcancel _ ih => exact (inherits_cancel hcancel).trans ih

/-- Everything that control comes to belongs to the function. -/
theorem belongs (h : A.Carries n spot w m inner v) (hg : v.Genuine) (hclosed : w.Closed)
    (hbelongs : spot.Belongs A w) : inner.Belongs A v := by
  induction h with
  | here => exact hbelongs
  | inward hfirst hspot hstays hrest ih =>
    have hg₁ := hrest.inherits.genuine hg
    exact ih hg (hfirst.inherits.closed hg₁ hclosed)
      (hfirst.belongs hspot hbelongs hg₁ hclosed hstays)
  | cancelled hcancel hrest ih =>
    have hg₁ := hrest.inherits.genuine hg
    obtain ⟨hfollows, hp, -⟩ := Reentry.loop_cancel .ofCoroutine hcancel
    exact ih hg (hfollows.closed hg₁ hclosed) (hbelongs.mono hfollows.later hp)

end Activation.Carries

end LuaMachine
