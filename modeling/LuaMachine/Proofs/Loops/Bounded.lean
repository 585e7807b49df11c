import LuaMachine.Proofs.Cancellation.Propagation
import LuaMachine.Proofs.Coroutine.Suspension
import LuaMachine.Proofs.Loops.Advance
import LuaMachine.Proofs.Loops.Inherited

/-!
# Loops of a run

A loop of instructions has no more instructions between two checks than the functions on its call
stack have (`Reentry.Coasts.within`), whatever it was doing before. Once its execution has been cancelled
it passes no check (`Reentry.Proceeds.coasts`), and ends when it comes to one
(`Reentry.run_of_checks`).

Wherever control comes from a request, in a world in which closures are made of functions and
coroutines can be resumed, the loop that is under way carries out a function, one of whose callers the
loop was started for; or it resumed a coroutine that consists of a suspension alone, and there is no
function (`Comes.fits`). So all that is known of single loops holds of every loop of a run.

Main statement: `Comes.checks_bounded`.
-/

namespace LuaMachine

open Exec

/-! ## Every loop comes to a check -/

section Checks

variable {r : Reentry} {bottom : Processor} {depth k : Nat} {w w' w₁ u v : World} {i : Instruction}
  {s : Script}

namespace World

/-- A loop of instructions is under way above the bottom. -/
def InLoop (w : World) (bottom : Processor) : Prop := w.Running bottom ∨ w.Adrift

theorem InLoop.mono (h : w.InLoop bottom) (hl : w.Later w') (hp : w'.processor = w.processor) :
    w'.InLoop bottom :=
  h.imp (·.mono hl hp) (·.mono hl hp)

theorem Adrift.left_eq (h : w.Adrift) : w.left = 1 - w.processor.ip := by
  unfold left
  rw [h.1]
  rfl

/-- No more instructions than the functions on the call stack above a height are long; or a single one,
if there is no function. -/
def Within (w : World) (depth k : Nat) : Prop :=
  k ≤ w.lengths depth ∨ w.processor.frames = #[] ∧ k ≤ 1

theorem InLoop.within (h : w.InLoop bottom)
    (hs : w.scripts[w.active.index]? = some s) (hg : w.Genuine) (hk : k ≤ w.left) :
    w.Within bottom.frames.size k := by
  rcases h with hrunning | hadrift
  · exact .inl (Nat.le_trans hk (hrunning.left_le hs hg))
  · rw [hadrift.left_eq] at hk
    exact .inr ⟨hadrift.1, Nat.le_trans hk (Nat.sub_le _ _)⟩

theorem InLoop.left_eq (h : w.InLoop bottom) (hs : w.scripts[w.active.index]? = some s)
    (hl : w.Later w') (hp : w'.processor = w.processor) : w'.left = w.left := by
  rcases h with h | h
  · exact h.left_eq hs hl hp
  · rw [(h.mono hl hp).left_eq, h.left_eq, hp]

theorem Advances.congr (h : w.Advances v) (hw : w'.processor = w.processor)
    (hv : u.processor = v.processor) : w'.Advances u := by
  cases h with
  | ahead hframes hip => exact .ahead (by rw [hv, hw, hframes]) (by rwa [hv, hw])
  | back hf hframes hip => exact .back (by rw [hw, hf]) (by rw [hv, hw, hframes]) (by rw [hv, hip])

end World

namespace Reentry

/-- What an instruction that does not end the loop does to it. -/
theorem loop_step (hr : r.Calm) (hi : w.ops w.processor.ip = some i.op)
    (hstep : r.step bottom.frames.size i w = .ok none w') (hg : w'.Genuine) (hc : w.Closed)
    (hloop : w.InLoop bottom) : w'.InLoop bottom ∧
      (i.op.checks w.processor = false → w.Advances w' ∧ w'.left < w.left) := by
  rcases hloop with hrun | hadrift
  · have hafter := ((keeps_step hr hi).ok hstep).2 hg hc ⟨rfl, hrun⟩
    exact ⟨.inl hafter, fun hcheck => advances_step hr hi hcheck hstep hg hc hrun⟩
  · obtain ⟨⟨-, hlt⟩, hafter⟩ := ((keeps_step_adrift hr hi).ok hstep).2 hg hc ⟨rfl, hadrift⟩
    refine ⟨.inr hafter, fun _ => ⟨.ahead ?_ hlt, ?_⟩⟩
    · rw [hafter.1, hadrift.1]
    · rw [hafter.left_eq, hadrift.left_eq]
      rcases hafter.2 with h | ⟨h, -⟩ <;> omega

/-- From one instruction of a loop to the next. -/
theorem loop_instruction (hr : r.Calm)
    (hi : (w.scripts.getD w.active.index default).code.instruction? w.processor.ip = some i)
    (hheard : hear (w.scripts.getD w.active.index default) i w = .ok () w₁)
    (hstep : r.step bottom.frames.size i w₁ = .ok none u) (hg : u.Genuine) (hc : w.Closed)
    (hloop : w.InLoop bottom) : u.Closed ∧ u.InLoop bottom ∧
      (i.op.checks w₁.processor = false → w.Advances u ∧ u.left < w.left) := by
  obtain ⟨hfirst, hq⟩ := (calm_hear _ i w.processor w).ok hheard
  have hops := hfirst.later.ops (World.ops_of_instruction hi)
  have hsecond := ((keeps_step hr hops).ok hstep).1
  have hg₁ := hsecond.later.genuine hg
  have hp := hq hg₁ hc rfl
  have hc₁ := hfirst.closed hg₁ hc
  rw [← hp] at hops
  obtain ⟨hafter, hadvance⟩ :=
    loop_step hr hops hstep hg hc₁ (hloop.mono hfirst.later hp)
  refine ⟨hsecond.closed hg hc₁, hafter, fun hcheck => ?_⟩
  obtain ⟨s, hs, -⟩ := World.exists_script_of_ops (World.ops_of_instruction hi)
  obtain ⟨hadvance, hlt⟩ := hadvance hcheck
  rw [hloop.left_eq hs hfirst.later hp] at hlt
  exact ⟨hadvance.congr hp.symm rfl, hlt⟩

/-- When others cancel an execution, nothing happens to the loop. -/
theorem loop_cancel (bottom : Processor) {token : Nat} (hcancel : Exec.cancel token w = .ok () w₁) :
    w.Follows w₁ ∧ w₁.processor = w.processor ∧ w₁.left = w.left ∧
      (w.InLoop bottom → w₁.InLoop bottom) := by
  have hfollows := (((aside_cancel token).calm w.processor w).ok hcancel).1
  cases hcancel
  exact ⟨hfollows, rfl, rfl, fun h => h.mono hfollows.later rfl⟩

theorem Proceeds.follows (hr : r.Calm) (h : r.Proceeds bottom.frames.size k w u) :
    w.Follows u := by
  induction h with
  | refl => exact .refl _
  | @step k w w₁ w₂ v i hi hheard hstep _ ih =>
    have hfirst := ((calm_hear _ i w.processor w).ok hheard).1
    have hsecond := (keeps_step hr (hfirst.later.ops (World.ops_of_instruction hi))).ok hstep
    exact (hfirst.trans hsecond.1).trans ih
  | cancel hcancel _ ih => exact (loop_cancel bottom hcancel).1.trans ih

/-- What is known of a loop stays known. -/
theorem Proceeds.loop (hr : r.Calm) (h : r.Proceeds bottom.frames.size k w u) (hg : u.Genuine)
    (hc : w.Closed) (hloop : w.InLoop bottom) : u.Closed ∧ u.InLoop bottom := by
  induction h with
  | refl => exact ⟨hc, hloop⟩
  | step hi hheard hstep h ih =>
    have hg₂ := (h.follows hr).later.genuine hg
    obtain ⟨hc₂, hloop₂, -⟩ := loop_instruction hr hi hheard hstep hg₂ hc hloop
    exact ih hg hc₂ hloop₂
  | cancel hcancel h ih =>
    obtain ⟨hfollows, -, -, hmono⟩ := loop_cancel bottom hcancel
    exact ih hg (hfollows.closed ((h.follows hr).later.genuine hg) hc) (hmono hloop)

/-- Without an instruction, the processor stays as it is. -/
theorem Coasts.processor_eq (h : r.Coasts depth 0 w u) : u.processor = w.processor := by
  generalize hk : 0 = k at h
  induction h with
  | refl => rfl
  | step => cases hk
  | cancel hcancel _ ih =>
    cases hcancel
    exact ih hk

/-- Without a check, each instruction leaves less of the functions of the loop. -/
theorem Coasts.left_le (hr : r.Calm) (h : r.Coasts bottom.frames.size k w u) (hg : u.Genuine)
    (hc : w.Closed) (hloop : w.InLoop bottom) : k + u.left ≤ w.left := by
  induction h with
  | refl => exact Nat.le_of_eq (Nat.zero_add _)
  | step hi hheard hcheck hstep h ih =>
    have hg₂ := (h.proceeds.follows hr).later.genuine hg
    obtain ⟨hc₂, hloop₂, hadvance⟩ := loop_instruction hr hi hheard hstep hg₂ hc hloop
    have hrest := ih hg hc₂ hloop₂
    have hlt := (hadvance hcheck).2
    omega
  | cancel hcancel h ih =>
    obtain ⟨hfollows, -, hleft, hmono⟩ := loop_cancel bottom hcancel
    rw [← hleft]
    exact ih hg (hfollows.closed ((h.proceeds.follows hr).later.genuine hg) hc) (hmono hloop)

/-- A loop that goes on has a script that it is in. -/
theorem Coasts.exists_script (h : r.Coasts depth k w u) (hk : 0 < k) :
    ∃ s, w.scripts[w.active.index]? = some s := by
  induction h with
  | refl => exact absurd hk (Nat.lt_irrefl 0)
  | step hi _ _ _ _ _ =>
    obtain ⟨s, hs, -⟩ := World.exists_script_of_ops (World.ops_of_instruction hi)
    exact ⟨s, hs⟩
  | cancel hcancel _ ih =>
    cases hcancel
    exact ih hk

/-- There are no more instructions between two checks than the functions on the call stack are long. -/
theorem Coasts.within (hr : r.Calm) (h : r.Coasts bottom.frames.size k w u) (hg : u.Genuine)
    (hc : w.Closed) (hloop : w.InLoop bottom) : w.Within bottom.frames.size k := by
  rcases Nat.eq_zero_or_pos k with rfl | hk
  · exact .inl (Nat.zero_le _)
  · obtain ⟨s, hs⟩ := h.exists_script hk
    have hcount := h.left_le hr hg hc hloop
    exact hloop.within hs ((h.proceeds.follows hr).later.genuine hg) (by omega)

/-- An instruction without a check leads ahead or back to the caller. -/
theorem Coasts.advances (hr : r.Calm) (h : r.Coasts bottom.frames.size k w u) (hk : k = 1)
    (hg : u.Genuine) (hc : w.Closed) (hloop : w.InLoop bottom) : w.Advances u := by
  induction h with
  | refl => cases hk
  | step hi hheard hcheck hstep h _ =>
    obtain rfl := Nat.succ.inj hk
    have hg₂ := (h.proceeds.follows hr).later.genuine hg
    obtain ⟨-, -, hadvance⟩ := loop_instruction hr hi hheard hstep hg₂ hc hloop
    exact (hadvance hcheck).1.congr rfl h.processor_eq
  | cancel hcancel h ih =>
    obtain ⟨hfollows, hp, -, hmono⟩ := loop_cancel bottom hcancel
    have hc' := hfollows.closed ((h.proceeds.follows hr).later.genuine hg) hc
    exact (ih hk hg hc' (hmono hloop)).congr hp.symm rfl

/-- A jump that does not lead ahead stops when the execution has been cancelled. -/
theorem jump_cancelled {t : Nat} (ht : t ≤ w.processor.ip) (hcancelled : w.Cancelled) :
    jump t w = .error (.error .cancelled) w := by
  have haddress : address w = .ok w.processor.ip w := rfl
  have hsafe : safepoint w = .error (.error .cancelled) w := if_pos hcancelled
  unfold jump
  rw [bind_ok haddress, if_pos ht]
  exact bind_error hsafe

theorem pop_of_back? {a : Value} (h : w.processor.values.back? = some a) : pop w = .ok a
    { w with processor := { w.processor with values := w.processor.values.pop } } := by
  simp only [pop, h]

theorem peek_of_back? {a : Value} (h : w.processor.values.back? = some a) :
    peek 0 w = .ok a w := by
  have hget : w.processor.values[w.processor.values.size - 1]? = some a := by
    rw [← Array.back?_eq_getElem?, h]
  have hpos : 0 < w.processor.values.size := by
    have hlt := (Array.getElem?_eq_some_iff.1 hget).1
    omega
  unfold peek
  rw [if_pos hpos, Nat.sub_zero, hget]

/-- A check that finds the execution cancelled ends the instruction. -/
theorem step_of_checks (r : Reentry) (depth : Nat) (hcheck : i.op.checks w.processor = true)
    (hcancelled : w.Cancelled) :
    ∃ u, r.step depth i w = .error (.error .cancelled) u := by
  obtain ⟨op, span⟩ := i
  cases op with
  | call argc =>
    have hsize : argc < w.processor.values.size := by simpa [OpCode.checks] using hcheck
    have hsafe : safepoint (w.taken (argc + 1)) =
        .error (.error .cancelled) (w.taken (argc + 1)) := if_pos hcancelled
    have hcalled := called_eq hsize (Array.getElem?_eq_getElem (by omega))
    rw [bind_error hsafe] at hcalled
    exact ⟨_, bind_error hcalled⟩
  | jump t =>
    have ht : t ≤ w.processor.ip := by simpa [OpCode.checks] using hcheck
    exact ⟨w, bind_error (jump_cancelled ht hcancelled)⟩
  | jumpIfFalse t =>
    simp only [OpCode.checks, Bool.and_eq_true, decide_eq_true_eq, Option.any_eq_true,
      Bool.not_eq_true'] at hcheck
    obtain ⟨ht, a, ha, hfalse⟩ := hcheck
    refine ⟨{ w with processor := { w.processor with values := w.processor.values.pop } },
      (bind_ok (pop_of_back? ha)).trans ?_⟩
    simp only [hfalse, Bool.false_eq_true, if_false]
    exact bind_error (jump_cancelled ht hcancelled)
  | jumpFalseOrPop t =>
    simp only [OpCode.checks, Bool.and_eq_true, decide_eq_true_eq, Option.any_eq_true,
      Bool.not_eq_true'] at hcheck
    obtain ⟨ht, a, ha, hfalse⟩ := hcheck
    refine ⟨w, (bind_ok (peek_of_back? ha)).trans ?_⟩
    simp only [hfalse, Bool.false_eq_true, if_false]
    exact bind_error (jump_cancelled ht hcancelled)
  | jumpTrueOrPop t =>
    simp only [OpCode.checks, Bool.and_eq_true, decide_eq_true_eq, Option.any_eq_true] at hcheck
    obtain ⟨ht, a, ha, htrue⟩ := hcheck
    refine ⟨w, (bind_ok (peek_of_back? ha)).trans ?_⟩
    simp only [htrue, if_true]
    exact bind_error (jump_cancelled ht hcancelled)
  | _ => cases hcheck

/-- A loop that comes to a check when its execution has been cancelled ends with that. -/
theorem run_of_checks (hcheck : w.Checks) (hcancelled : w.Cancelled) (fuel : Nat) :
    ∃ u, r.run depth (fuel + 1) w = .error (.error .cancelled) u := by
  obtain ⟨i, w₁, hi, hheard, hcheck⟩ := hcheck
  have hfirst : w.Follows w₁ := ((calm_hear _ i w.processor w).ok hheard).1
  obtain ⟨u, hu⟩ := step_of_checks r depth hcheck (hfirst.isCancelled hcancelled)
  exact ⟨u, run_cancelled hi hheard hu⟩

/-- In an execution that has been cancelled, an instruction that makes a check does not pass. -/
theorem checks_eq_false (hheard : hear (w.scripts.getD w.active.index default) i w = .ok () w₁)
    (hstep : r.step depth i w₁ = .ok none u) (hcancelled : w.Cancelled) :
    i.op.checks w₁.processor = false := by
  rw [Bool.eq_false_iff]
  intro hcheck
  have hfirst : w.Follows w₁ := ((calm_hear _ i w.processor w).ok hheard).1
  obtain ⟨v, hv⟩ := step_of_checks r depth hcheck (hfirst.isCancelled hcancelled)
  rw [hstep] at hv
  cases hv

/-- An execution that has been cancelled passes no check. -/
theorem Proceeds.coasts (hr : r.Calm) (h : r.Proceeds bottom.frames.size k w u)
    (hcancelled : w.Cancelled) : r.Coasts bottom.frames.size k w u := by
  induction h with
  | refl => exact .refl
  | @step k w w₁ w₂ v i hi hheard hstep h ih =>
    have hpass : r.Proceeds bottom.frames.size 1 w w₂ := .step hi hheard hstep .refl
    have hcheck := checks_eq_false hheard hstep hcancelled
    exact .step hi hheard hcheck hstep (ih ((hpass.follows hr).isCancelled hcancelled))
  | cancel hcancel _ ih =>
    have hfollows := (loop_cancel bottom hcancel).1
    exact .cancel hcancel (ih (hfollows.isCancelled hcancelled))

end Reentry

end Checks

/-! ## Where control comes -/

/-- At a spot in a world, the machine at a depth comes to a spot in another world, also by way of the
probes that make a text of every error. Others may cancel executions at any time. -/
inductive Comes : Nat → Spot → World → Nat → Spot → World → Prop
  | here {n : Nat} {spot : Spot} {w : World} : Comes n spot w n spot w
  | inward {n k m : Nat} {spot between inner : Spot} {w w₁ v : World}
    {link : List (ScriptId × CoroutineId)} (hfirst : Inward n spot w link k between w₁)
    (hrest : Comes k between w₁ m inner v) : Comes n spot w m inner v
  | asked {n m : Nat} {f : Native} {args : List Value} {caller : Option Span} {w u v : World}
    {q : Request} {inner : Spot}
    (hasks : Reentry.Asks (f.run · caller ⟨args⟩) (Reentry.atDepth (n + 1)) w q u)
    (hrest : Comes n (.request q) u m inner v) : Comes (n + 1) (.native f args caller) w m inner v
  | cancelled {n m token : Nat} {spot inner : Spot} {w w₁ v : World}
    (hcancel : Exec.cancel token w = .ok () w₁) (hrest : Comes n spot w₁ m inner v) :
    Comes n spot w m inner v

/-- A loop is above the height of the call stack that it was entered at, and a function is entered at
the height of the call stack. -/
def Spot.Fits (w : World) : Spot → Prop
  | .loop depth _ => ∃ bottom : Processor, bottom.frames.size = depth ∧ w.InLoop bottom
  | .function depth _ _ => w.processor.frames.size = depth
  | .request _ | .native .. => True

variable {n k m depth fuel : Nat} {spot between inner : Spot} {w w₁ u v : World}
  {link : List (ScriptId × CoroutineId)}

/-- A function that is entered runs above the processor as it was. -/
theorem running_of_enters {f : Value} {args args' : List Value} {id : ClosureId} {w₂ : World}
    (hf : resolveCallable f args w = .ok (.function id, args') w₁)
    (henter : enterClosure id args' none none w₁ = .ok () w₂) (hg : w₂.Genuine) (hclosed : w.Closed) :
    w₂.Running w.processor := by
  obtain ⟨hfirst, hprocessor⟩ := (calm_resolveCallable f args w.processor w).ok hf
  obtain ⟨hsecond, hrunning⟩ := (Reentry.keeps_enterClosure id args' none none).ok henter
  have hg₁ := hsecond.later.genuine hg
  obtain ⟨c, hruns, hat⟩ := hrunning hg (hfirst.closed hg₁ hclosed) (hfirst.closed hg₁ hclosed)
  rw [← hprocessor hg₁ hclosed rfl]
  exact ⟨_, 0, c.entry, .base, hruns, hat⟩

/-- The loop of a function that is entered is above the processor as it was. -/
theorem inLoop_of_enters {f : Value} {args args' : List Value} {id : ClosureId} {w₂ : World}
    (hf : resolveCallable f args w = .ok (.function id, args') w₁)
    (henter : enterClosure id args' none none w₁ = .ok () w₂) (hg : w₂.Genuine) (hclosed : w.Closed) :
    w₂.InLoop w.processor :=
  .inl (running_of_enters hf henter hg hclosed)

/-- The loop of a coroutine that goes on is above the processor of a new one. -/
theorem inLoop_of_resumes {id : CoroutineId} {c : Coroutine} {p : Processor} {x : Value}
    (hresumable : w.Resumable) (hc : w.MayResume id c)
    (hbody : c.body = some { processor := p, function := none })
    (hpush : push x (w.nested.resuming id p) = .ok () w₁) : w₁.InLoop .ofCoroutine := by
  have hnested : w.Follows w.nested := World.follows_modifyScript fun _ _ => .refl _
  have hfollows := hnested.trans (Reentry.follows_resuming _ id p)
  have hsuspended := (hresumable _ _ hc.coroutine).suspended p hbody
  rw [hc.owner] at hsuspended
  have hpushed : (w.nested.resuming id p).Follows w₁ := by
    cases hpush
    exact World.follows_of_eq rfl
  have hprocessor : w₁.processor = { p with values := p.values.push x } := by
    cases hpush
    rfl
  obtain ⟨hactive, hsize, hcode, howners⟩ := (hfollows.trans hpushed).later
  exact hsuspended.push ⟨hactive, hsize, hcode, howners⟩ hprocessor

/-- What is under way fits, one step of control further inside. -/
theorem Inward.fits (h : Inward n spot w link k between w₁) (hg : w₁.Genuine) (hclosed : w.Closed)
    (hresumable : w.Resumable) (hfits : spot.Fits w) : between.Fits w₁ := by
  cases h with
  | next hi hheard hstep =>
    obtain ⟨bottom, rfl, hloop⟩ := hfits
    obtain ⟨-, hloop', -⟩ :=
      Reentry.loop_instruction (Reentry.calm_atDepth _) hi hheard hstep hg hclosed hloop
    exact ⟨bottom, rfl, hloop'⟩
  | closure hf henter => exact ⟨w.processor, hfits, inLoop_of_enters hf henter hg hclosed⟩
  | call hnest => rfl
  | start hc hbody =>
    have hfresh := (hresumable _ _ hc.coroutine).fresh _ _ hbody
    rw [hfresh]
    rfl
  | again hc hbody hpush =>
    exact ⟨.ofCoroutine, rfl, inLoop_of_resumes hresumable hc hbody hpush⟩
  | _ => trivial

theorem inherits_cancel {token : Nat} (hcancel : Exec.cancel token w = .ok () w₁) : w.Inherits w₁ :=
  (Reentry.loop_cancel .ofCoroutine hcancel).1.inherits

/-- What is under way is not affected when others cancel an execution. -/
theorem Spot.Fits.cancel {token : Nat} (hcancel : Exec.cancel token w = .ok () w₁)
    (hfits : spot.Fits w) : spot.Fits w₁ := by
  have hprocessor := (Reentry.loop_cancel .ofCoroutine hcancel).2.1
  cases spot with
  | loop depth fuel =>
    obtain ⟨bottom, hbottom, hloop⟩ := hfits
    exact ⟨bottom, hbottom, (Reentry.loop_cancel bottom hcancel).2.2.2 hloop⟩
  | function depth f args =>
    change w₁.processor.frames.size = depth
    rw [hprocessor]
    exact hfits
  | _ => trivial

theorem Comes.inherits (h : Comes n spot w m inner v) : w.Inherits v := by
  induction h with
  | here => exact .refl _
  | inward hfirst _ ih => exact hfirst.inherits.trans ih
  | asked hasks _ ih => exact ((Reentry.calm_atDepth _).asks_native hasks).trans ih
  | cancelled hcancel _ ih => exact (inherits_cancel hcancel).trans ih

/-- Wherever control comes, what is under way fits. -/
theorem Comes.fits (h : Comes n spot w m inner v) (hg : v.Genuine) (hclosed : w.Closed)
    (hresumable : w.Resumable) (hfits : spot.Fits w) : inner.Fits v := by
  induction h with
  | here => exact hfits
  | inward hfirst hrest ih =>
    have hinherits := hfirst.inherits
    have hg₁ := hrest.inherits.genuine hg
    exact ih hg (hinherits.closed hg₁ hclosed) (hinherits.resumable hg₁ hclosed hresumable)
      (hfirst.fits hg₁ hclosed hresumable hfits)
  | asked hasks hrest ih =>
    have hinherits := (Reentry.calm_atDepth _).asks_native hasks
    have hg₁ := hrest.inherits.genuine hg
    exact ih hg (hinherits.closed hg₁ hclosed) (hinherits.resumable hg₁ hclosed hresumable) trivial
  | cancelled hcancel hrest ih =>
    have hinherits := inherits_cancel hcancel
    have hg₁ := hrest.inherits.genuine hg
    exact ih hg (hinherits.closed hg₁ hclosed) (hinherits.resumable hg₁ hclosed hresumable)
      (hfits.cancel hcancel)

/-! ## The bound -/

namespace Reentry

variable {r : Reentry}

/-- The instruction that a run is about to carry out is its last one. -/
def Ends (r : Reentry) (depth : Nat) (w : World) : Prop := ∀ w', ¬r.Passes depth 1 w w'

/-- How a run ends does not depend on how far it might have gone on. -/
theorem Ends.run_eq (h : r.Ends depth w) (m : Nat) : r.run depth (m + 1) w = r.run depth 1 w := by
  cases hi : (w.scripts.getD w.active.index default).code.instruction? w.processor.ip with
  | none =>
    unfold run
    simp only [hi]
  | some i =>
    rw [Reentry.run_eq r depth _ hi, Reentry.run_eq r depth _ hi]
    cases hheard : hear (w.scripts.getD w.active.index default) i w with
    | error s w₁ => rw [bind_error hheard, bind_error hheard]
    | ok _ w₁ =>
      rw [bind_ok hheard, bind_ok hheard]
      unfold stepThen
      cases hstep : r.step depth i w₁ with
      | error s w₂ => cases s <;> rfl
      | ok exit w₂ =>
        cases exit with
        | some exit => rfl
        | none => exact absurd (.step hi hheard hstep .refl) (h w₂)

/-- A run that cannot go on for long comes to its last instruction. -/
theorem exists_ends {bound : Nat} (h : ∀ k u, r.Passes depth k w u → k ≤ bound) :
    ∃ k u, r.Passes depth k w u ∧ r.Ends depth u := by
  by_contra hnot
  push Not at hnot
  have hall : ∀ k, ∃ u, r.Passes depth k w u := by
    intro k
    induction k with
    | zero => exact ⟨w, .refl⟩
    | succ k ih =>
      obtain ⟨u, hu⟩ := ih
      have hgoes := hnot k u hu
      unfold Ends at hgoes
      push Not at hgoes
      obtain ⟨v, hv⟩ := hgoes
      exact ⟨v, hu.trans hv⟩
  obtain ⟨u, hu⟩ := hall (bound + 1)
  exact absurd (h _ u hu) (Nat.not_succ_le_self bound)

end Reentry

/-- Every loop comes to a check. In a run of code that comes from the compiler, directly or by way of
dumps, every loop that control comes to, whatever it has done so far, goes on between two checks like
this: each instruction leads ahead in its function, or back to the caller of one that returns, and
there are no more instructions than the functions on the call stack are long. If the execution has been
cancelled, the loop ends within that bound, and with the cancellation if it comes to a check. Others may
cancel executions at any time. -/
theorem Comes.checks_bounded {q : Request} (hclosed : w.Closed) (hresumable : w.Resumable)
    (h : Comes n (.request q) w m (.loop depth fuel) v) :
    (∀ k u, (Reentry.atDepth m).Coasts depth k v u → u.Genuine → v.Within depth k) ∧
      (∀ k u u', (Reentry.atDepth m).Coasts depth k v u → (Reentry.atDepth m).Coasts depth 1 u u' →
        u'.Genuine → u.Advances u') ∧
      (v.Cancelled → (∀ k u, (Reentry.atDepth m).Passes depth k v u → u.Genuine) →
        ∃ k u, v.Within depth k ∧ (Reentry.atDepth m).Passes depth k v u ∧
          (∀ j, (Reentry.atDepth m).run depth (k + (j + 1)) v = (Reentry.atDepth m).run depth 1 u) ∧
          (u.Checks → ∃ u', (Reentry.atDepth m).run depth 1 u = .error (.error .cancelled) u')) := by
  have hr := Reentry.calm_atDepth m
  have hat : v.Genuine → v.Closed ∧ ∃ bottom : Processor, bottom.frames.size = depth ∧
      v.InLoop bottom :=
    fun hg => ⟨h.inherits.closed hg hclosed, h.fits hg hclosed hresumable trivial⟩
  obtain ⟨anywhere, rfl⟩ := Processor.exists_bottom depth
  have hwithin : ∀ k u, (Reentry.atDepth m).Coasts anywhere.frames.size k v u → u.Genuine →
      v.Within anywhere.frames.size k := by
    intro k u hcoasts hg
    obtain ⟨hclosed', bottom, hbottom, hloop⟩ := hat ((hcoasts.proceeds.follows hr).later.genuine hg)
    rw [← hbottom] at hcoasts ⊢
    exact hcoasts.within hr hg hclosed' hloop
  refine ⟨hwithin, ?_, ?_⟩
  · intro k u u' hcoasts hlast hg
    have hg' := (hlast.proceeds.follows hr).later.genuine hg
    obtain ⟨hclosed', bottom, hbottom, hloop⟩ := hat ((hcoasts.proceeds.follows hr).later.genuine hg')
    rw [← hbottom] at hcoasts hlast
    obtain ⟨hclosed'', hloop'⟩ := hcoasts.proceeds.loop hr hg' hclosed' hloop
    exact hlast.advances hr rfl hg hclosed'' hloop'
  · intro hcancelled hgenuine
    have hpasses : ∀ k u, (Reentry.atDepth m).Passes anywhere.frames.size k v u →
        v.Within anywhere.frames.size k :=
      fun k u hk => hwithin k u (hk.proceeds.coasts hr hcancelled) (hgenuine k u hk)
    have hbound : ∀ k u, (Reentry.atDepth m).Passes anywhere.frames.size k v u →
        k ≤ max 1 (v.lengths anywhere.frames.size) := by
      intro k u hk
      rcases hpasses k u hk with hle | ⟨-, hle⟩ <;> omega
    obtain ⟨k, u, hk, hends⟩ := Reentry.exists_ends hbound
    refine ⟨k, u, hpasses k u hk, hk, fun j => ?_, fun hchecks => ?_⟩
    · rw [hk.run_eq, hends.run_eq]
    · have hcancelled' := (hk.proceeds.follows hr).isCancelled hcancelled
      exact Reentry.run_of_checks hchecks hcancelled' 0

/-- What is checked of a script of one function that is entered: its frame is the only one, and the
function has a number of instructions. -/
def entersAlone (source : String) (length : Nat) : Bool :=
  match Segment.empty.compile { chunk := "c", source := 0 } source with
  | .ok (chunk, code) =>
    match enterClosure ⟨0⟩ [] none none (Reentry.soleFunction chunk.entry code).nested with
    | .ok _ v => v.lengths 0 == length && v.processor.frames.size == 1
    | .error .. => false
  | .error _ => false

/-- A loop without end that is carried out above a value of the host. -/
theorem Comes.checks_bounded_endless : ∃ w v : World,
    Comes 1 (.request (.call (.function ⟨0⟩) [])) w 1 (.loop 0 stepLimit) v ∧ v.lengths 0 = 7 ∧
      ∀ k u, (Reentry.atDepth 1).Coasts 0 k v u → u.Genuine → k ≤ 7 := by
  have hcheck : entersAlone "while true do end" 7 = true := by decide +kernel
  unfold entersAlone at hcheck
  cases hcompile : Segment.empty.compile { chunk := "c", source := 0 } "while true do end" with
  | error e =>
    rw [hcompile] at hcheck
    cases hcheck
  | ok p =>
    obtain ⟨chunk, code⟩ := p
    simp only [hcompile] at hcheck
    split at hcheck
    · next v henter =>
      simp only [Bool.and_eq_true, beq_iff_eq] at hcheck
      obtain ⟨hlength, hframes⟩ := hcheck
      have hclosed : (Reentry.soleFunction chunk.entry code).Closed := by
        intro i c hi s hs
        obtain ⟨hi', rfl⟩ := Array.getElem?_eq_some_iff.1 hi
        obtain rfl : i = 0 := Nat.lt_one_iff.1 hi'
        cases hs
        exact (Segment.hasHeader_compile hcompile).2
      have hresumable : (Reentry.soleFunction chunk.entry code).Resumable := by
        intro i c hi
        cases hi
      have hnest : (Reentry.soleFunction chunk.entry code).MayNest := by
        change 0 < ({} : ScriptOptions).maxNestedCalls
        decide
      have hcomes : Comes 1 (.request (.call (.function ⟨0⟩) [])) (Reentry.soleFunction chunk.entry code)
          1 (.loop 0 stepLimit) v :=
        .inward (.call hnest) (.inward (.closure rfl henter) .here)
      refine ⟨_, v, hcomes, hlength, fun k u hcoasts hg => ?_⟩
      rcases (hcomes.checks_bounded hclosed hresumable).1 k u hcoasts hg with hle | ⟨hnone, -⟩
      · exact hlength ▸ hle
      · rw [hnone] at hframes
        cases hframes
    · cases hcheck

end LuaMachine
