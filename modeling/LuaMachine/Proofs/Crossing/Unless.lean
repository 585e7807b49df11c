import LuaMachine.Proofs.Flat.Hosting
import LuaMachine.Proofs.Machine.Running

/-!
# Code that stays within a function until it comes to a goal

A function that carries out a piece of its code is at one of the addresses of the piece, or it waits
there for a function that it called (`Activation.Inside`). `Reentry.Unless` says of a world that code
stays in such places until it comes to a goal. It need not come there: it may fail, be suspended, or go
on for ever, but it does not leave in another way. What holds of pieces that follow each other holds of
both together (`Unless.seq`).

Values that a piece has nothing to do with count among those that lie below the function
(`Activation.push`), so they are still there when the goal is reached.
-/

namespace LuaMachine

open Exec

/-- The running script has the code of a listing. -/
def World.Has (w : World) (code : Listing) : Prop :=
  ∀ {x : Nat} {op : OpCode}, code x = some op → w.ops x = some op

theorem World.Has.mono {w w' : World} {code : Listing} (h : w.Has code) (hl : w.Later w') :
    w'.Has code :=
  fun hx => hl.ops (h hx)

theorem World.has_ops (w : World) : w.Has w.ops := fun h => h

/-! ## Functions and the values below them -/

namespace Activation

variable {A : Activation} {k x a b a' b' : Nat} {v : Value} {p : Processor}

/-- The function with one more value below those that it works on. -/
def push (A : Activation) (v : Value) : Activation :=
  { A with outer := { A.outer with values := A.outer.values.push v } }

/-- The lowest of the values that a function works on may count among those below them. -/
theorem at_succ : A.At (k + 1) x p ↔ ∃ v, (A.push v).At k x p := by
  constructor
  · rintro ⟨f, own, hf, hk, rfl⟩
    obtain ⟨v, rest, hown⟩ := List.exists_cons_of_ne_nil (l := own.toList) (by
      intro h
      rw [← Array.length_toList, h] at hk
      cases hk)
    refine ⟨v, f, rest.toArray, hf, ?_, ?_⟩
    · rw [← Array.length_toList, hown] at hk
      simpa using hk
    · have hown : own = #[v] ++ rest.toArray := Array.toList_inj.1 (by simp [hown])
      rw [hown, ← Array.append_assoc]
      rfl
  · rintro ⟨v, f, own, hf, rfl, rfl⟩
    refine ⟨f, #[v] ++ own, hf, ?_, ?_⟩
    · rw [Array.size_append, Nat.add_comm]
      rfl
    · rw [← Array.append_assoc]
      rfl

theorem At.of_push (h : (A.push v).At k x p) : A.At (k + 1) x p := at_succ.2 ⟨v, h⟩

/-- The function that is running, as it is. -/
def ofFrame (p : Processor) (f : ScriptFrame) : Activation :=
  ⟨{ p with frames := p.frames.pop }, f.closure, f.returnAddress, f.base⟩

theorem at_ofFrame {f : ScriptFrame} (h : p.frames.back? = some (.script f)) :
    (ofFrame p f).At 0 p.ip p := by
  refine ⟨f, #[], ⟨rfl, rfl, rfl⟩, rfl, ?_⟩
  have hlast : p.frames.toList.getLast? = some (.script f) := by
    rw [Array.getLast?_toList]
    exact h
  have hframes : p.frames.pop.push (.script f) = p.frames := by
    apply Array.toList_inj.1
    rw [Array.toList_push, Array.toList_pop]
    exact List.dropLast_append_getLast? _ hlast
  simp only [ofFrame, hframes, Array.append_empty]

/-- The function is at one of some addresses, or waits there for a function that it called. -/
def Inside (A : Activation) (a b : Nat) (p : Processor) : Prop :=
  ∃ k x q, a ≤ x ∧ x < b ∧ A.At k x q ∧ (p = q ∨ q.Under p ∧ q.frames.size < p.frames.size)

theorem At.inside (h : A.At k x p) (ha : a ≤ x) (hb : x < b) : A.Inside a b p :=
  ⟨k, x, p, ha, hb, h, .inl rfl⟩

theorem Inside.mono (h : A.Inside a b p) (ha : a' ≤ a) (hb : b ≤ b') : A.Inside a' b' p := by
  obtain ⟨k, x, q, hlo, hhi, hat, hp⟩ := h
  exact ⟨k, x, q, Nat.le_trans ha hlo, Nat.lt_of_lt_of_le hhi hb, hat, hp⟩

theorem Inside.of_push (h : (A.push v).Inside a b p) : A.Inside a b p := by
  obtain ⟨k, x, q, hlo, hhi, hat, hp⟩ := h
  exact ⟨k + 1, x, q, hlo, hhi, hat.of_push, hp⟩

end Activation

/-! ## Until a goal is reached -/

namespace Reentry

variable {r : Reentry} {bottom : Processor} {stay stay' : Processor → Prop} {goal goal' : World → Prop}
  {w u v : World} {k m n : Nat}

/-- An instruction of a loop that is under way leads to a world that is under way. -/
theorem Passes.sane (hc : r.Calm) (hr : r.Sifting) (h : r.Passes bottom.frames.size k w u)
    (hg : u.Genuine) (hw : w.Sane) (ha : w.Attended bottom) : u.Sane ∧ u.Attended bottom := by
  induction h with
  | refl => exact ⟨hw, ha⟩
  | @step k w w₁ w₂ u i hi hheard hstep h ih =>
    have hg₂ := (h.follows hc bottom).later.genuine hg
    have hfirst : w.Follows w₁ := ((calm_hear _ i w.processor w).ok hheard).1
    have hi₁ := hfirst.later.ops (World.ops_of_instruction hi)
    have hg₁ := ((keeps_step hc hi₁).ok hstep).1.later.genuine hg₂
    obtain ⟨hw₁, hl, hp⟩ := sane_of_hear hheard hg₁ hw
    obtain ⟨hw₂, ha₂⟩ := ((hr.step hc hi₁).ok hstep).2 hg₂ hw₁
      ⟨congrArg (·.ip) hp, ha.mono hl hp⟩
    exact ih hg hw₂ ha₂

/-- The debugger leaves the processor alone before an instruction is carried out. -/
theorem Passes.exists_step (hc : r.Calm) {op : OpCode} (h : r.Passes bottom.frames.size 1 w u)
    (hg : u.Genuine) (hw : w.Sane) (hop : w.ops w.processor.ip = some op) :
    ∃ span w₁, w₁.processor = w.processor ∧
      r.step bottom.frames.size ⟨op, span⟩ w₁ = .ok none u := by
  cases h with
  | @step _ _ w₁ _ _ i hi hheard hstep hrest =>
    cases hrest
    obtain ⟨op', span⟩ := i
    obtain rfl : op = op' := Option.some_inj.1 (hop.symm.trans (World.ops_of_instruction hi))
    have hfirst : w.Follows w₁ := ((calm_hear _ _ w.processor w).ok hheard).1
    have hl := ((keeps_step hc (hfirst.later.ops hop)).ok hstep).1.later
    exact ⟨span, w₁, (sane_of_hear hheard (hl.genuine hg) hw).2.2, hstep⟩

/-- In a loop that was entered at a height of the call stack, code stays in some places until it comes to
a goal. -/
def Until (r : Reentry) (depth : Nat) (stay : Processor → Prop) (goal : World → Prop) (w : World) :
    Prop :=
  ∀ ⦃n u⦄, r.Passes depth n w u → u.Genuine →
    stay u.processor ∨ ∃ m k v, n = m + k ∧ r.Passes depth m w v ∧ r.Passes depth k v u ∧ goal v

/-- It does so if the loop is under way above the bottom. -/
def Unless (r : Reentry) (bottom : Processor) (stay : Processor → Prop) (goal : World → Prop)
    (w : World) : Prop :=
  w.Sane → w.Attended bottom → r.Until bottom.frames.size stay goal w

/-- What an instruction does, from where the debugger let it pass, leads to a world from which code stays
in some places until it comes to a goal. -/
def Leads (r : Reentry) (bottom : Processor) (stay : Processor → Prop) (goal : World → Prop)
    (op : OpCode) (w : World) : Prop :=
  ∀ span w₁ w₂, w.Later w₁ → w₁.processor = w.processor →
    r.step bottom.frames.size ⟨op, span⟩ w₁ = .ok none w₂ → w₂.Genuine → w₁.Sane → w₂.Sane →
      w₁.Attended bottom → r.Unless bottom stay goal w₂

/-- The next instruction does so. -/
def Next (r : Reentry) (bottom : Processor) (stay : Processor → Prop) (goal : World → Prop)
    (w : World) : Prop :=
  stay w.processor ∧ ∀ op, w.ops w.processor.ip = some op → r.Leads bottom stay goal op w

theorem Next.of_op {op : OpCode} (hop : w.ops w.processor.ip = some op) (hstay : stay w.processor)
    (h : r.Leads bottom stay goal op w) : r.Next bottom stay goal w := by
  refine ⟨hstay, fun op' hop' => ?_⟩
  rw [hop] at hop'
  cases hop'
  exact h

theorem Next.after {i : Instruction} {w₁ w₂ : World} (h : r.Next bottom stay goal w)
    (hc : r.Calm) (hr : r.Sifting)
    (hi : (w.scripts.getD w.active.index default).code.instruction? w.processor.ip = some i)
    (hheard : hear (w.scripts.getD w.active.index default) i w = .ok () w₁)
    (hstep : r.step bottom.frames.size i w₁ = .ok none w₂) (hf : w₂.Follows u) (hg : u.Genuine)
    (hw : w.Sane) (ha : w.Attended bottom) :
    r.Unless bottom stay goal w₂ ∧ w₂.Sane ∧ w₂.Attended bottom := by
  have hg₂ := hf.later.genuine hg
  have hop := World.ops_of_instruction hi
  have hfirst : w.Follows w₁ := ((calm_hear _ _ w.processor w).ok hheard).1
  have hi₁ := hfirst.later.ops hop
  have hg₁ := ((keeps_step hc hi₁).ok hstep).1.later.genuine hg₂
  obtain ⟨hw₁, hl, hp⟩ := sane_of_hear hheard hg₁ hw
  obtain ⟨hw₂, ha₂⟩ := ((hr.step hc hi₁).ok hstep).2 hg₂ hw₁ ⟨congrArg (·.ip) hp, ha.mono hl hp⟩
  exact ⟨h.2 i.op hop i.span w₁ w₂ hl hp hstep hg₂ hw₁ hw₂ (ha.mono hl hp), hw₂, ha₂⟩

theorem Next.mono (h : r.Next bottom stay goal w) (hstay : ∀ p, stay p → stay' p)
    (hgoal : ∀ v, goal v → goal' v) : r.Next bottom stay' goal' w := by
  refine ⟨hstay _ h.1, fun op hop span w₁ w₂ hl hp hstep hg hw₁ hw₂ ha => ?_⟩
  intro hw ha' n u hpasses hgu
  exact (h.2 op hop span w₁ w₂ hl hp hstep hg hw₁ hw₂ ha hw ha' hpasses hgu).imp (hstay _)
    fun ⟨m, k, v, hn, hm, hk, hv⟩ => ⟨m, k, v, hn, hm, hk, hgoal v hv⟩

/-- What is known of the world where the goal is reached. -/
theorem Unless.met (hc : r.Calm) (hr : r.Sifting) (h : r.Unless bottom stay goal w) :
    r.Unless bottom stay
      (fun v => w.Later v ∧ v.Genuine ∧ v.Sane ∧ v.Attended bottom ∧ goal v) w := by
  intro hw ha n u hpasses hg
  refine (h hw ha hpasses hg).imp id fun ⟨m, k, v, hn, hm, hk, hv⟩ => ⟨m, k, v, hn, hm, hk, ?_⟩
  have hgv := (hk.follows hc bottom).later.genuine hg
  obtain ⟨hwv, hav⟩ := hm.sane hc hr hgv hw ha
  exact ⟨(hm.follows hc bottom).later, hgv, hwv, hav, hv⟩

/-- The world only grows up to the goal. -/
theorem Next.later (hc : r.Calm) (hr : r.Sifting) (h : r.Next bottom stay goal w) :
    r.Next bottom stay (fun v => w.Later v ∧ goal v) w := by
  refine ⟨h.1, fun op hop span w₁ w₂ hl hp hstep hg hw₁ hw₂ ha => ?_⟩
  have hl₂ := ((keeps_step hc (i := ⟨op, span⟩) (hl.ops hop)).ok hstep).1.later
  intro hw ha' n u hpasses hgu
  exact ((h.2 op hop span w₁ w₂ hl hp hstep hg hw₁ hw₂ ha).met hc hr hw ha' hpasses hgu).imp id
    fun ⟨m, k, v, hn, hm, hk, hv⟩ =>
      ⟨m, k, v, hn, hm, hk, (hl.trans hl₂).trans hv.1, hv.2.2.2.2⟩

namespace Unless

theorem done (h : goal w) : r.Unless bottom stay goal w :=
  fun _ _ {n _} hpasses _ => .inr ⟨0, n, w, (Nat.zero_add n).symm, .refl, hpasses, h⟩

theorem mono (h : r.Unless bottom stay goal w) (hstay : ∀ p, stay p → stay' p)
    (hgoal : ∀ v, goal v → goal' v) : r.Unless bottom stay' goal' w := by
  intro hw ha n u hpasses hg
  exact (h hw ha hpasses hg).imp (hstay _) fun ⟨m, k, v, hn, hm, hk, hv⟩ =>
    ⟨m, k, v, hn, hm, hk, hgoal v hv⟩

/-- From one goal to the next. -/
theorem seq (hc : r.Calm) (hr : r.Sifting) (h : r.Unless bottom stay goal w)
    (hnext : ∀ k v, r.Passes bottom.frames.size k w v → w.Later v → v.Genuine → v.Sane → goal v →
      r.Unless bottom stay goal' v) : r.Unless bottom stay goal' w := by
  intro hw ha n u hpasses hg
  rcases h.met hc hr hw ha hpasses hg with hstay | ⟨m, k, v, rfl, hm, hk, hl, hgv, hwv, hav, hv⟩
  · exact .inl hstay
  · rcases hnext m v hm hl hgv hwv hv hwv hav hk hg with hstay | ⟨m', k', v', rfl, hm', hk', hv'⟩
    · exact .inl hstay
    · exact .inr ⟨m + m', k', v', (Nat.add_assoc m m' k').symm, hm.trans hm', hk', hv'⟩

/-- One instruction. -/
theorem of_next (hc : r.Calm) (hr : r.Sifting) (h : r.Next bottom stay goal w) :
    r.Unless bottom stay goal w := by
  intro hw ha n u hpasses hg
  cases hpasses with
  | refl => exact .inl h.1
  | @step n _ w₁ w₂ _ i hi hheard hstep hrest =>
    obtain ⟨hu, hw₂, ha₂⟩ := h.after hc hr hi hheard hstep (hrest.follows hc bottom) hg hw ha
    rcases hu hw₂ ha₂ hrest hg with hstay | ⟨m, k, v, rfl, hm, hk, hv⟩
    · exact .inl hstay
    · exact .inr ⟨m + 1, k, v, by omega, .step hi hheard hstep hm, hk, hv⟩

/-- Instruction after instruction: each one leads to the goal, or to where the next one can do so. -/
theorem rounds (hc : r.Calm) (hr : r.Sifting) (again : World → Prop) (h : again w)
    (hagain : ∀ v, again v → r.Next bottom stay (fun u => goal u ∨ again u) v) :
    r.Unless bottom stay goal w := by
  intro hw ha n u hpasses hg
  induction n using Nat.strongRecOn generalizing w with
  | ind n ih =>
    have hnext := hagain w h
    cases hpasses with
    | refl => exact .inl hnext.1
    | @step n _ w₁ w₂ _ i hi hheard hstep hrest =>
      obtain ⟨hu, hw₂, ha₂⟩ := hnext.after hc hr hi hheard hstep (hrest.follows hc bottom) hg hw ha
      rcases hu hw₂ ha₂ hrest hg with hstay | ⟨m, k, v, rfl, hm, hk, hgoal | hv⟩
      · exact .inl hstay
      · exact .inr ⟨m + 1, k, v, by omega, .step hi hheard hstep hm, hk, hgoal⟩
      · have hgv := (hk.follows hc bottom).later.genuine hg
        obtain ⟨hwv, hav⟩ := hm.sane hc hr hgv hw₂ ha₂
        rcases ih k (by omega) hv hwv hav hk with hstay | ⟨m', k', v', rfl, hm', hk', hv'⟩
        · exact .inl hstay
        · refine .inr ⟨m + m' + 1, k', v', by omega, ?_, hk', hv'⟩
          exact .step hi hheard hstep (hm.trans hm')

/-- A function that was entered above another one: it may go on for some time, and then it has come back
with a result. -/
theorem above (hc : r.Calm) (hr : r.Sifting) {p : Processor} {y : Nat}
    (hp : bottom.frames.size < p.frames.size) (habove : w.RunsAbove (some y) p)
    (hstay : ∀ q : Processor, p.Under q → p.frames.size < q.frames.size → stay q)
    (hback : ∀ v, w.Later v → v.BackIn (some y) p → r.Unless bottom stay goal v) :
    r.Unless bottom stay goal w := by
  have hrun : r.Unless bottom stay (fun v => w.Later v ∧ v.BackIn (some y) p) w := by
    refine rounds hc hr (fun v => w.Later v ∧ v.RunsAbove (some y) p) ⟨.refl w, habove⟩ ?_
    rintro v ⟨hlater, hv⟩
    refine ⟨hstay _ hv.under hv.size_lt, fun op hop span w₁ w₂ hl hsame hstep hg hw₁ _ _ => ?_⟩
    have hp' : EnteredBelow bottom.frames.size (some y) p := hp
    have hkeeps := (keeps_stepAbove hc hp' (i := ⟨op, span⟩) (hl.ops hop)).ok hstep
    have hlater' := (hlater.trans hl).trans hkeeps.1.later
    rcases hkeeps.2 hg hw₁.closed ⟨congrArg (·.ip) hsame, hv.mono hl hsame⟩ with hon | hdone
    · exact .done (.inr ⟨hlater', hon⟩)
    · exact .done (.inl ⟨hlater', hdone⟩)
  exact hrun.seq hc hr fun _ v _ _ _ _ hv => hback v hv.1 hv.2

end Unless

end Reentry

namespace World.Hosted

variable {n m depth fuel : Nat} {q : Request} {w v : World} {f : ScriptFrame}

/-- Wherever control comes to a script function while a request of a host is in progress, a loop of
instructions is under way there. -/
theorem attended (hw : w.Hosted) (h : Comes n (.request q) w m (.loop depth fuel) v) (hg : v.Genuine)
    (hf : v.processor.frames.back? = some (.script f)) :
    v.Sane ∧ ∃ bottom : Processor, bottom.frames.size = depth ∧ v.Attended bottom := by
  obtain ⟨hsane, bottom, hdepth, hattended | hadrift⟩ :=
    h.sane hg (hw.sane (h.inherits.genuine hg)) trivial
  · exact ⟨hsane, bottom, hdepth, hattended⟩
  · rw [hadrift.1] at hf
    cases hf

end World.Hosted

end LuaMachine
