import LuaMachine.Proofs.Crossing.Unless
import LuaMachine.Proofs.Loops.Advance

/-!
# What single instructions leave

An instruction of a function leads on within the function, or through the functions that it calls
(`Reentry.Unless`). Operators, accesses and literals leave single values, and instructions that only
look at the top of the stack leave it there.
-/

namespace LuaMachine

open Exec

namespace Activation

variable {A : Activation} {k x y : Nat} {v : Value} {p : Processor}

theorem At.values_eq (h : A.At 0 x p) : p.values = A.outer.values := by
  obtain ⟨f, own, -, hk, rfl⟩ := h
  obtain rfl := Array.eq_empty_of_size_eq_zero hk
  exact Array.append_empty

theorem At.stack_push (h : (A.push v).At 0 x p) : p.stack = v :: A.outer.stack := by
  rw [Processor.stack, h.values_eq]
  exact A.outer.stack_push v

/-- A value comes on top, and counts among those below the function. -/
theorem At.pushed (h : A.At 0 x p) (v : Value) :
    (A.push v).At 0 x { p with values := p.values.push v } := by
  obtain ⟨f, own, hf, hk, rfl⟩ := h
  obtain rfl := Array.eq_empty_of_size_eq_zero hk
  refine ⟨f, #[], hf, rfl, ?_⟩
  simp [Activation.push]

/-- The function with some more values below those that it works on. -/
def pushAll (A : Activation) (vs : List Value) : Activation :=
  { A with outer := { A.outer with values := A.outer.values ++ vs.toArray } }

@[simp] theorem pushAll_nil (A : Activation) : A.pushAll [] = A := by simp [pushAll]

theorem pushAll_push (A : Activation) (vs : List Value) (v : Value) :
    (A.pushAll vs).push v = A.pushAll (vs ++ [v]) := by
  have hvalues : (A.outer.values ++ vs.toArray).push v = A.outer.values ++ (vs ++ [v]).toArray :=
    Array.toList_inj.1 (by simp)
  simp only [pushAll, push, hvalues]

theorem push_pushAll (A : Activation) (v : Value) (vs : List Value) :
    (A.push v).pushAll vs = A.pushAll (v :: vs) := by
  have hvalues : A.outer.values.push v ++ vs.toArray = A.outer.values ++ (v :: vs).toArray :=
    Array.toList_inj.1 (by simp)
  simp only [pushAll, push, hvalues]

/-- The values that a function works on may count among those below them. -/
theorem At.exists_pushAll (h : A.At k x p) : ∃ vs, vs.length = k ∧ (A.pushAll vs).At 0 x p := by
  obtain ⟨f, own, hf, rfl, rfl⟩ := h
  exact ⟨own.toList, Array.length_toList, f, #[], hf, rfl, by simp [pushAll]⟩

theorem At.of_pushAll {vs : List Value} (h : (A.pushAll vs).At k x p) : A.At (vs.length + k) x p := by
  obtain ⟨f, own, hf, rfl, rfl⟩ := h
  refine ⟨f, vs.toArray ++ own, hf, by simp, ?_⟩
  simp [pushAll, Array.append_assoc]

theorem Inside.of_pushAll {vs : List Value} {a b : Nat} (h : (A.pushAll vs).Inside a b p) :
    A.Inside a b p := by
  obtain ⟨k, x, q, hlo, hhi, hat, hp⟩ := h
  exact ⟨_, x, q, hlo, hhi, hat.of_pushAll, hp⟩

/-- One of the topmost values is replaced. -/
theorem At.set {vs : List Value} {d : Nat} (h : (A.pushAll vs).At 0 x p) (hd : d < vs.length)
    (v : Value) : (A.pushAll (vs.set (vs.length - 1 - d) v)).At 0 x
      { p with values := p.values.setIfInBounds (p.values.size - 1 - d) v } := by
  have hvalues := h.values_eq
  obtain ⟨f, own, hf, hk, rfl⟩ := h
  obtain rfl := Array.eq_empty_of_size_eq_zero hk
  refine ⟨f, #[], hf, rfl, ?_⟩
  have hsize : (A.outer.values ++ vs.toArray).size = A.outer.values.size + vs.length :=
    Array.size_append
  have hplace : (A.outer.values ++ vs.toArray).size - 1 - d - A.outer.values.size =
      vs.length - 1 - d := by omega
  have hlo : A.outer.values.size ≤ (A.outer.values ++ vs.toArray).size - 1 - d := by omega
  simp only [pushAll, Array.append_empty]
  rw [Array.setIfInBounds_append_right hlo, hplace, List.setIfInBounds_toArray]

/-- The values below a function and those above them. -/
theorem At.lies (h : A.At k x p) : Lies A.outer.values.size (.any k) x p := by
  refine ⟨h.ip_eq, ?_, fun {i u} hi _ => ?_⟩
  · rw [h.length_stack, List.length_replicate]
  · rw [List.getElem?_replicate] at hi
    split at hi <;> cases hi

/-- The top comes off. -/
theorem At.pop (h : (A.push v).At 0 x p) : A.At 0 x { p with values := p.values.pop } := by
  obtain ⟨f, own, hf, hk, rfl⟩ := h
  obtain rfl := Array.eq_empty_of_size_eq_zero hk
  refine ⟨f, #[], hf, rfl, ?_⟩
  simp [Activation.push]

end Activation

namespace Exec

variable {A : Activation} {x : Nat} {v : Value} {w : World}

theorem pop_at (h : (A.push v).At 0 x w.processor) :
    pop w = .ok v { w with processor := { w.processor with values := w.processor.values.pop } } := by
  have hback : w.processor.values.back? = some v := by
    rw [h.values_eq]
    exact Array.back?_push
  simp only [pop, hback]

theorem peek_at (h : (A.push v).At 0 x w.processor) : peek 0 w = .ok v w := by
  have hvalues := h.values_eq
  unfold peek
  rw [hvalues]
  simp [Activation.push]

theorem peek_pushAll {vs : List Value} {d : Nat} (h : (A.pushAll vs).At 0 x w.processor)
    (hv : vs.reverse[d]? = some v) : peek d w = .ok v w := by
  have hvalues : w.processor.values = A.outer.values ++ vs.toArray := h.values_eq
  have hd : d < vs.length := by
    rw [← List.length_reverse]
    exact (List.getElem?_eq_some_iff.1 hv).1
  rw [List.getElem?_reverse hd] at hv
  have hsize : (A.outer.values ++ vs.toArray).size = A.outer.values.size + vs.length :=
    Array.size_append
  have hplace : (A.outer.values ++ vs.toArray).size - 1 - d - A.outer.values.size =
      vs.length - 1 - d := by omega
  unfold peek
  rw [hvalues, if_pos (by omega), Array.getElem?_append_right (by omega)]
  simp only [hplace, List.getElem?_toArray, hv]

theorem processor_of_jump {w' : World} {t : Nat} {u : Unit} (h : jump t w = .ok u w') :
    w'.processor = { w.processor with ip := t } := by
  obtain ⟨here, w₁, haddress, hrest⟩ := of_bind_ok h
  cases haddress
  dsimp only at hrest
  split at hrest
  · obtain ⟨_, w₂, hsafe, hgo⟩ := of_bind_ok hrest
    cases hgo
    unfold safepoint at hsafe
    split at hsafe
    · cases hsafe
    · cases hsafe
      rfl
  · cases hrest
    rfl

theorem onward_ok {x : Exec Unit} {w' : World} (h : x w = .ok () w') :
    (do x; advance; return none : Exec (Option Exit)) w =
      .ok none { w' with processor := { w'.processor with ip := w'.processor.ip + 1 } } :=
  (bind_ok h).trans rfl

end Exec

namespace OpCode

/-- The number of operands of an operation that leaves one single value. -/
def arity? : OpCode → Option Nat
  | literal _ | load _ | closure .. => some 0
  | not | neg | len => some 1
  | binary _ | index => some 2
  | _ => none

end OpCode

namespace Reentry

variable {r : Reentry} {bottom : Processor} {A : Activation} {w : World} {k x : Nat} {op : OpCode}

/-! ## Single results -/

namespace Sifting

variable {n : Nat} {σ τ : Shape} {P : Prop}

theorem sifts_ahead {body : Exec Unit} (hbody : Bears n σ τ P body fun _ => True) :
    (do body; advance; return none : Exec (Option Exit)).Sifts w (Lies n σ x w.processor ∧ P)
      fun _ w' => Lies n τ (x + 1) w'.processor := by
  refine (hbody x w).bind fun _ w₁ _ => Sifts.bind (Q := fun _ w' => Lies n τ (x + 1) w'.processor)
    ((sifts_advance (P := True)).mono (fun hp => ⟨hp.2.1, trivial⟩) fun _ _ _ => id) fun _ w₂ _ => ?_
  exact .of_ok rfl (.refl w₂) fun _ hw hp => ⟨hw, hp.2⟩

/-- Operators, accesses, literals and closures leave single values. -/
theorem leaves_single (hc : r.Calm) (hr : r.Sifting) (depth : Nat) {i : Instruction}
    (hi : i.op.arity? = some k) (hk : k ≤ σ.length)
    (hliteral : ∀ v, i.op = .literal v → v.Single)
    (hclosure : ∀ entry captures, i.op = .closure entry captures → w.Genuine →
      ∀ s : Script, w.scripts[w.active.index]? = some s → s.code.HasHeader entry) :
    (r.step depth i).Sifts w (Lies n σ x w.processor ∧ P)
      fun _ w' => Lies n (true :: σ.drop k) (x + 1) w'.processor := by
  obtain ⟨op, span⟩ := i
  have hresult : ∀ {e : Exec Value} {P : Prop} {σ : Shape}, Exec.Calm e →
      Exec.Sifting P e Value.Single → Bears n σ (true :: σ) P (e >>= push) fun _ => True :=
    fun hce he => (bears_of_calm hce he).bind fun v =>
      bears_push (fun hp => hp.2.flat) fun hp _ => hp.2
  cases op with
  | literal v =>
    cases hi
    have hv := hliteral v rfl
    exact sifts_ahead (bears_push (fun _ => hv.flat) fun _ _ => hv)
  | load s =>
    cases hi
    exact sifts_ahead (hresult (hc.alike.readSymbol s) (hr.readSymbol s))
  | closure entry captures =>
    cases hi
    have hmake := hr.sifts_makeClosure hc (n := n) (σ := σ) (P := P) (x := x) captures
      (hclosure entry captures rfl)
    have hpush := hmake.bind (R := fun _ w' => Lies n (true :: σ) x w'.processor ∧ True)
      fun v w' _ => (bears_push (fun hp => hp.2.2.flat) fun hp _ => hp.2.2).start fun hp => hp.2.1
    refine hpush.bind fun _ w₁ _ => Sifts.bind (Q := fun _ w' => Lies n (true :: σ) (x + 1) w'.processor)
      ((sifts_advance (P := True)).mono (fun hp => ⟨hp.2.1, trivial⟩) fun _ _ _ => id) fun _ w₂ _ => ?_
    exact .of_ok rfl (.refl w₂) fun _ hw hp => ⟨hw, hp.2⟩
  | not =>
    cases hi
    refine sifts_ahead ((bears_pop hk).bind fun v => ?_)
    exact bears_push (fun _ => Value.Single.flat rfl) fun _ _ => rfl
  | neg =>
    cases hi
    exact sifts_ahead ((bears_pop hk).bind fun v => hresult (hc.alike.negate v) (hr.negate v))
  | len =>
    cases hi
    exact sifts_ahead ((bears_pop hk).bind fun v => hresult (hc.alike.length v) (hr.length v))
  | binary op =>
    cases hi
    have hone : 1 ≤ (σ.drop 1).length := by simp; omega
    refine sifts_ahead ((bears_pop (by omega)).bind fun b => (bears_pop hone).bind fun a => ?_)
    rw [List.drop_drop]
    exact hresult (hc.alike.binary op a b) (hr.binary op a b)
  | index =>
    cases hi
    have hone : 1 ≤ (σ.drop 1).length := by simp; omega
    refine sifts_ahead ((bears_pop (by omega)).bind fun key => (bears_pop hone).bind fun object => ?_)
    rw [List.drop_drop]
    exact hresult (hc.alike.index object _) (hr.index object _)
  | _ => cases hi

end Sifting

/-! ## On to the next instruction -/

namespace Next

/-- An instruction that keeps to its frame. -/
theorem stays (hop : w.ops x = some op) (hat : A.At k x w.processor)
    (hstays : ∀ span w₁, w.Later w₁ → A.Stays op k x (r.step bottom.frames.size ⟨op, span⟩) w₁) :
    r.Next bottom (A.Inside x (x + 1))
      (fun u => ∃ y d, (y, d) ∈ op.next x k ∧ A.At d y u.processor) w := by
  refine .of_op (hat.ip_eq ▸ hop) (hat.inside (Nat.le_refl x) (Nat.lt_succ_self x)) ?_
  intro span w₁ w₂ hl hp hstep hg hw₁ _ _
  obtain ⟨-, y, d, hnext, hat'⟩ := ((hstays span w₁ hl).ok hstep).2 hg hw₁.closed (hp ▸ hat)
  exact .done ⟨y, d, hnext, hat'⟩

/-- An instruction other than a call or a return that finds its operands. -/
theorem stays_of_needs (hc : r.Calm) (hop : w.ops x = some op) (hneeds : op.needs ≤ k)
    (hcall : ∀ n, op ≠ .call n) (hret : ∀ n, op ≠ .ret n) (span : Option Span) {w₁ : World}
    (hl : w.Later w₁) : A.Stays op k x (r.step bottom.frames.size ⟨op, span⟩) w₁ := by
  refine Activation.stays_step hc _ _ hneeds hcall hret ?_
  rintro entry captures rfl hg s hs
  exact hasHeader_of_closure (hl.ops hop) hg s hs

/-- A call. -/
theorem call (hc : r.Calm) (hr : r.Sifting) {n : Nat} (hop : w.ops x = some (.call n))
    (hk : n + 1 ≤ k) (hat : A.At k x w.processor) :
    r.Next bottom (A.Inside x (x + 1)) (fun u => A.At (k - (n + 1) + 1) (x + 1) u.processor) w := by
  refine .of_op (hat.ip_eq ▸ hop) (hat.inside (Nat.le_refl x) (Nat.lt_succ_self x)) ?_
  intro span w₁ w₂ hl hp hstep hg hw₁ _ ha
  have hcall : (r.stepCall n span).Keeps w₁ _ _ _ := keeps_call (A := A) (x := x) hc hk span
  obtain ⟨hf, hcalled⟩ := hcall.ok hstep
  rcases hcalled hg hw₁.closed (hp ▸ hat) with hdone | ⟨p, c, hcaller, hruns, hentered⟩
  · exact .done hdone
  · have hsize : bottom.frames.size < p.frames.size := by
      have hlt := (ha.running (hf.later.genuine hg)).size_lt
      rw [hp, hat.size_frames] at hlt
      rw [hcaller.size_frames]
      exact hlt
    refine .above hc hr hsize ⟨_, 0, c.entry, .base, hruns, hentered⟩ ?_ ?_
    · exact fun q hunder hlt => ⟨_, x, p, Nat.le_refl x, Nat.lt_succ_self x, hcaller,
        .inr ⟨hunder, hlt⟩⟩
    · rintro v - ⟨y, result, hy, hv⟩
      cases hy
      refine .done ?_
      rw [hv]
      exact (hcaller.push result).goTo (x + 1)

/-- An instruction other than a return. -/
theorem flows (hc : r.Calm) (hr : r.Sifting) (hop : w.ops x = some op) (hneeds : op.needs ≤ k)
    (hret : ∀ n, op ≠ .ret n) (hat : A.At k x w.processor) :
    r.Next bottom (A.Inside x (x + 1))
      (fun u => ∃ y d, (y, d) ∈ op.next x k ∧ A.At d y u.processor) w := by
  by_cases hcall : ∃ n, op = .call n
  · obtain ⟨n, rfl⟩ := hcall
    refine (Next.call hc hr hop hneeds hat).mono (fun _ => id) fun u hu => ?_
    exact ⟨_, _, List.mem_singleton_self _, hu⟩
  · exact Next.stays hop hat fun span w₁ hl =>
      stays_of_needs hc hop hneeds (fun n h => hcall ⟨n, h⟩) hret span hl

/-- A return to a function below. -/
theorem ret {n : Nat} (hop : w.ops x = some (.ret n)) (hat : A.At k x w.processor) :
    r.Next bottom (A.Inside x (x + 1))
      (fun u => u.processor.frames.size = A.outer.frames.size) w := by
  refine .of_op (hat.ip_eq ▸ hop) (hat.inside (Nat.le_refl x) (Nat.lt_succ_self x)) ?_
  intro span w₁ w₂ _ hp hstep _ _ _ _
  obtain ⟨f, -, hframes, -⟩ := back_of_leaveFrame hstep
  refine .done ?_
  rw [hframes, Array.size_pop, hp, hat.size_frames, Nat.add_sub_cancel]

end Next

namespace Unless

/-- An instruction that keeps to its frame and goes on to the next one. -/
theorem onward (hc : r.Calm) (hr : r.Sifting) {d : Nat} (hop : w.ops x = some op)
    (hat : A.At k x w.processor) (hnext : op.next x k = [(x + 1, d)])
    (hstays : ∀ span w₁, w.Later w₁ → A.Stays op k x (r.step bottom.frames.size ⟨op, span⟩) w₁) :
    r.Unless bottom (A.Inside x (x + 1)) (fun u => A.At d (x + 1) u.processor) w := by
  refine .of_next hc hr ((Next.stays hop hat hstays).mono (fun _ => id) ?_)
  rintro u ⟨y, d', hmem, hat'⟩
  rw [hnext] at hmem
  cases List.mem_singleton.1 hmem
  exact hat'

/-- An operation that leaves one single value in the place of its operands. -/
theorem single (hc : r.Calm) (hr : r.Sifting) (hop : w.ops x = some op) (hk : op.arity? = some k)
    (hat : A.At k x w.processor) (hliteral : ∀ v, op = .literal v → v.Single) :
    r.Unless bottom (A.Inside x (x + 1))
      (fun u => ∃ v, (A.push v).At 0 (x + 1) u.processor ∧ v.Single) w := by
  refine .of_next hc hr (.of_op (hat.ip_eq ▸ hop) (hat.inside (Nat.le_refl x) (Nat.lt_succ_self x)) ?_)
  intro span w₁ w₂ hl hp hstep hg hw₁ _ _
  have hplain : op.needs ≤ k ∧ (∀ n, op ≠ .call n) ∧ (∀ n, op ≠ .ret n) ∧
      op.next x k = [(x + 1, 1)] := by
    cases op <;> cases hk <;> exact ⟨Nat.le_refl _, nofun, nofun, rfl⟩
  obtain ⟨hneeds, hcall, hret, hnext⟩ := hplain
  have hstays : A.Stays op k x (r.step bottom.frames.size ⟨op, span⟩) w₁ :=
    Next.stays_of_needs hc hop hneeds hcall hret span hl
  obtain ⟨-, y, d, hmem, hat'⟩ := (hstays.ok hstep).2 hg hw₁.closed (hp ▸ hat)
  rw [hnext] at hmem
  cases List.mem_singleton.1 hmem
  have hsingle := hr.leaves_single hc bottom.frames.size (i := ⟨op, span⟩) (w := w₁) (x := x)
    (n := A.outer.values.size) (σ := .any k) (k := k) (P := True) hk (Nat.le_of_eq List.length_replicate.symm)
    hliteral ?_
  · obtain ⟨-, hlies⟩ := (hsingle.ok hstep).2 hg hw₁ ⟨hp ▸ hat.lies, trivial⟩
    obtain ⟨v, hv⟩ := Activation.at_succ.1 hat'
    refine .done ⟨v, hv, hlies.tops.single (i := 0) rfl ?_⟩
    rw [hv.stack_push]
    rfl
  · rintro entry captures rfl hg s hs
    exact hasHeader_of_closure (hl.ops hop) hg s hs

/-- An instruction that is known by what it leaves. -/
theorem computes (hc : r.Calm) (hr : r.Sifting) {goal : World → Prop} (hop : w.ops x = some op)
    (hat : A.At k x w.processor)
    (hgoal : ∀ span w₁ w₂, w.Later w₁ → w₁.processor = w.processor →
      r.step bottom.frames.size ⟨op, span⟩ w₁ = .ok none w₂ → goal w₂) :
    r.Unless bottom (A.Inside x (x + 1)) goal w :=
  .of_next hc hr <| .of_op (hat.ip_eq ▸ hop) (hat.inside (Nat.le_refl x) (Nat.lt_succ_self x))
    fun span w₁ w₂ hl hp hstep _ _ _ _ => .done (hgoal span w₁ w₂ hl hp hstep)

/-- A value is cut down to one. -/
theorem scalar (hc : r.Calm) (hr : r.Sifting) {v : Value} (hop : w.ops x = some .scalar)
    (hat : (A.push v).At 0 x w.processor) :
    r.Unless bottom (A.Inside x (x + 1)) (fun u => (A.push v.scalar).At 0 (x + 1) u.processor) w := by
  refine computes hc hr hop hat.of_push fun span w₁ w₂ _ hp hstep => ?_
  rw [← hp] at hat
  have hbody := (bind_ok (f := fun u => push u.scalar) (pop_at hat)).trans rfl
  cases ((onward_ok hbody).symm.trans hstep)
  rw [← hat.ip_eq]
  exact (hat.pop.pushed v.scalar).goTo _

/-- A new table. -/
theorem newTable (hc : r.Calm) (hr : r.Sifting) (hop : w.ops x = some .newTable)
    (hat : A.At 0 x w.processor) :
    r.Unless bottom (A.Inside x (x + 1))
      (fun u => ∃ id, (A.push (.table id)).At 0 (x + 1) u.processor) w := by
  refine computes hc hr hop hat fun span w₁ w₂ _ hp hstep => ?_
  rw [← hp] at hat
  have hbody : (Exec.newTable {} >>= push) w₁ = _ := rfl
  cases ((onward_ok hbody).symm.trans hstep)
  rw [← hat.ip_eq]
  exact ⟨_, (hat.pushed _).goTo _⟩

/-- A jump. -/
theorem jump (hc : r.Calm) (hr : r.Sifting) {t : Nat} (hop : w.ops x = some (.jump t))
    (hat : A.At k x w.processor) :
    r.Unless bottom (A.Inside x (x + 1)) (fun u => A.At k t u.processor) w := by
  refine .of_next hc hr ((Next.flows hc hr hop (Nat.zero_le k) (fun _ h => by cases h) hat).mono
    (fun _ => id) ?_)
  rintro u ⟨y, d, hmem, hat'⟩
  cases List.mem_singleton.1 hmem
  exact hat'

/-- The left operand of a logical operation is kept behind a jump, or comes off. -/
theorem keepOrPop (hc : r.Calm) (hr : r.Sifting) {v : Value} {t : Nat}
    (hop : w.ops x = some (.jumpFalseOrPop t) ∨ w.ops x = some (.jumpTrueOrPop t))
    (hat : (A.push v).At 0 x w.processor) :
    r.Unless bottom (A.Inside x (x + 1))
      (fun u => (A.push v).At 0 t u.processor ∨ A.At 0 (x + 1) u.processor) w := by
  have hkeep : ∀ {w₁ w₂ : World}, (A.push v).At 0 x w₁.processor →
      (do Exec.jump t; return none : Exec (Option Exit)) w₁ = .ok none w₂ →
        (A.push v).At 0 t w₂.processor := by
    intro w₁ w₂ hat hstep
    obtain ⟨u, w', hjump, hrest⟩ := of_bind_ok hstep
    cases hrest
    rw [processor_of_jump hjump]
    exact hat.goTo t
  have hdrop : ∀ {w₁ w₂ : World}, (A.push v).At 0 x w₁.processor →
      (do let _ ← pop; advance; return none : Exec (Option Exit)) w₁ = .ok none w₂ →
        A.At 0 (x + 1) w₂.processor := by
    intro w₁ w₂ hat hstep
    rw [bind_ok (pop_at hat)] at hstep
    cases hstep
    rw [← hat.ip_eq]
    exact hat.pop.goTo _
  rcases hop with hop | hop
  · refine computes hc hr hop hat.of_push fun span w₁ w₂ _ hp hstep => ?_
    rw [← hp] at hat
    obtain ⟨a, w', hpeek, hrest⟩ := of_bind_ok hstep
    rw [peek_at hat] at hpeek
    cases hpeek
    cases hv : v.isTruthy with
    | true =>
      simp only [hv, if_true] at hrest
      exact .inr (hdrop hat hrest)
    | false =>
      simp only [hv, Bool.false_eq_true, if_false] at hrest
      exact .inl (hkeep hat hrest)
  · refine computes hc hr hop hat.of_push fun span w₁ w₂ _ hp hstep => ?_
    rw [← hp] at hat
    obtain ⟨a, w', hpeek, hrest⟩ := of_bind_ok hstep
    rw [peek_at hat] at hpeek
    cases hpeek
    cases hv : v.isTruthy with
    | true =>
      simp only [hv, if_true] at hrest
      exact .inl (hkeep hat hrest)
    | false =>
      simp only [hv, Bool.false_eq_true, if_false] at hrest
      exact .inr (hdrop hat hrest)

/-- A field of the table below is set. -/
theorem tableSet (hc : r.Calm) (hr : r.Sifting) (hop : w.ops x = some .tableSet)
    (hat : A.At 2 x w.processor) :
    r.Unless bottom (A.Inside x (x + 1)) (fun u => A.At 0 (x + 1) u.processor) w := by
  refine onward hc hr hop hat rfl fun span w₁ _ => ?_
  refine Activation.stays_onward ((Activation.takes_pop (Nat.le_succ 1)).bind fun value => ?_)
    (List.mem_singleton_self _)
  refine (Activation.takes_pop (Nat.le_refl 1)).bind fun key => ?_
  exact Activation.takes_of_calm (aside_tableOnTop.calm.bind fun id => (aside_setIndex id _ value).calm)

/-- Items are added to the table below. -/
theorem tableAppend (hc : r.Calm) (hr : r.Sifting) {i : Nat} {expand : Bool}
    (hop : w.ops x = some (.tableAppend i expand)) (hat : A.At 1 x w.processor) :
    r.Unless bottom (A.Inside x (x + 1)) (fun u => A.At 0 (x + 1) u.processor) w := by
  refine onward hc hr hop hat rfl fun span w₁ _ => ?_
  refine Activation.stays_onward ((Activation.takes_pop (Nat.le_refl 1)).bind fun value => ?_)
    (List.mem_singleton_self _)
  exact Activation.takes_of_calm (aside_tableOnTop.calm.bind fun id => (aside_storeItems id i _).calm)

/-- Pieces of code that follow each other. -/
theorem andThen (hc : r.Calm) (hr : r.Sifting) {goal goal' : World → Prop} {a b c : Nat}
    (h : r.Unless bottom (A.Inside a b) goal w) (hab : a ≤ b) (hbc : b ≤ c)
    (hnext : ∀ v, w.Later v → goal v → r.Unless bottom (A.Inside b c) goal' v) :
    r.Unless bottom (A.Inside a c) goal' w := by
  refine (h.mono (fun p hp => hp.mono (Nat.le_refl a) hbc) fun _ => id).seq hc hr
    fun _ v _ hl _ _ hv => ?_
  exact (hnext v hl hv).mono (fun p hp => hp.mono hab (Nat.le_refl c)) fun _ => id

end Unless

end Reentry

end LuaMachine
