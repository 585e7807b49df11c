import LuaMachine.Proofs.Machine.Running

/-!
# Between two checks

A loop of instructions checks whether its execution has been cancelled when it comes to a call, and
when a jump is taken that does not lead ahead (`OpCode.checks`). From one check to the next control
only moves ahead inside a function, or back to the caller of one that returns (`World.Advances`). So
the functions on the call stack have less and less left up to their ends
(`Reentry.advances_step`).
-/

namespace LuaMachine

open Exec

/-- As the processor stands, an operation comes to a check of the execution: a call does, and a jump
that is taken and does not lead ahead. -/
def OpCode.checks (op : OpCode) (p : Processor) : Bool :=
  match op with
  | .call argc => argc < p.values.size
  | .jump t => t ≤ p.ip
  | .jumpIfFalse t | .jumpFalseOrPop t => t ≤ p.ip && p.values.back?.any (!·.isTruthy)
  | .jumpTrueOrPop t => t ≤ p.ip && p.values.back?.any (·.isTruthy)
  | _ => false

/-- Where the function of a frame has its values, what it is made of and where it returns to. -/
def Frame.place : Frame → Option (Closure × Nat × Option Nat)
  | .script f => some (f.closure, f.base, f.returnAddress)
  | .host .. => none

/-- How many instructions the function at an entry has. -/
def functionLength (code : Listing) (a : Nat) : Nat :=
  match code a with
  | some (.header _ _ n) => n
  | _ => 0

/-- The lengths of the functions of some frames, taken together. -/
def lengthsOf (code : Listing) : List Frame → Nat
  | .script f :: rest => functionLength code f.closure.entry + lengthsOf code rest
  | .host .. :: rest => lengthsOf code rest
  | [] => 0

/-- How many instructions functions have left up to their ends. The topmost frame is at an address, and
each other one goes on where the one above it returns to. Without a frame only the first instruction of
the code can be carried out. -/
def leftOf (code : Listing) : Nat → List Frame → Nat
  | x, .script f :: rest =>
    f.closure.entry + functionLength code f.closure.entry - x +
      match f.returnAddress with
      | some y => leftOf code y rest
      | none => 0
  | _, .host .. :: _ => 0
  | x, [] => 1 - x

namespace World

/-- The instruction that a loop comes to next checks the execution. -/
def Checks (w : World) : Prop :=
  ∃ i w₁, (w.scripts.getD w.active.index default).code.instruction? w.processor.ip = some i ∧
    Reentry.hear (w.scripts.getD w.active.index default) i w = .ok () w₁ ∧
    i.op.checks w₁.processor = true

/-- Control moves ahead inside a function, or back to the caller of one that returns. -/
inductive Advances (w w' : World) : Prop where
  | ahead (hframes : w'.processor.frames.map Frame.place = w.processor.frames.map Frame.place)
    (hip : w.processor.ip < w'.processor.ip)
  | back {f : Frame} (hf : w.processor.frames.back? = some f)
    (hframes : w'.processor.frames = w.processor.frames.pop)
    (hip : f.returnAddress = some w'.processor.ip)

/-- The lengths of the functions on the call stack above a height, taken together. -/
def lengths (w : World) (depth : Nat) : Nat :=
  lengthsOf w.ops (w.processor.frames.toList.drop depth)

/-- How many instructions the functions of a loop have left up to their ends. -/
def left (w : World) : Nat := leftOf w.ops w.processor.ip w.processor.frames.toList.reverse

end World

namespace Reentry

/-- A loop goes on for some instructions. In between, others may cancel executions at any time. -/
inductive Proceeds (r : Reentry) (depth : Nat) : Nat → World → World → Prop where
  | refl {w : World} : Proceeds r depth 0 w w
  | step {k : Nat} {w w₁ w₂ v : World} {i : Instruction}
    (hi : (w.scripts.getD w.active.index default).code.instruction? w.processor.ip = some i)
    (hheard : hear (w.scripts.getD w.active.index default) i w = .ok () w₁)
    (hstep : r.step depth i w₁ = .ok none w₂) (h : Proceeds r depth k w₂ v) :
    Proceeds r depth (k + 1) w v
  | cancel {k token : Nat} {w w₁ v : World} (hcancel : Exec.cancel token w = .ok () w₁)
    (h : Proceeds r depth k w₁ v) : Proceeds r depth k w v

/-- A loop goes on for some instructions without a check, whoever cancels executions. -/
inductive Coasts (r : Reentry) (depth : Nat) : Nat → World → World → Prop where
  | refl {w : World} : Coasts r depth 0 w w
  | step {k : Nat} {w w₁ w₂ v : World} {i : Instruction}
    (hi : (w.scripts.getD w.active.index default).code.instruction? w.processor.ip = some i)
    (hheard : hear (w.scripts.getD w.active.index default) i w = .ok () w₁)
    (hcheck : i.op.checks w₁.processor = false)
    (hstep : r.step depth i w₁ = .ok none w₂) (h : Coasts r depth k w₂ v) :
    Coasts r depth (k + 1) w v
  | cancel {k token : Nat} {w w₁ v : World} (hcancel : Exec.cancel token w = .ok () w₁)
    (h : Coasts r depth k w₁ v) : Coasts r depth k w v

variable {r : Reentry} {depth k m : Nat} {w w' w₁ w₂ u v : World} {i : Instruction}

theorem Coasts.proceeds (h : r.Coasts depth k w v) : r.Proceeds depth k w v := by
  induction h with
  | refl => exact .refl
  | step hi hheard _ hstep _ ih => exact .step hi hheard hstep ih
  | cancel hcancel _ ih => exact .cancel hcancel ih

/-- Without others, a loop goes from one instruction to the next. -/
theorem Passes.proceeds (h : r.Passes depth k w v) : r.Proceeds depth k w v := by
  induction h with
  | refl => exact .refl
  | step hi hheard hstep _ ih => exact .step hi hheard hstep ih

/-! ## What single instructions do -/

/-- A jump that leads ahead makes no check. -/
theorem jump_ahead {t : Nat} (h : w.processor.ip < t) :
    jump t w = .ok () { w with processor := { w.processor with ip := t } } := by
  have haddress : address w = .ok w.processor.ip w := rfl
  unfold jump
  rw [bind_ok haddress, if_neg (Nat.not_le_of_lt h)]
  rfl

theorem pop_eq_ok {a : Value} (h : pop w = .ok a w') : w.processor.values.back? = some a ∧
    w' = { w with processor := { w.processor with values := w.processor.values.pop } } := by
  unfold pop at h
  split at h
  · next b hb =>
    cases h
    exact ⟨hb, rfl⟩
  · cases h

theorem peek_eq_ok {a : Value} (h : peek 0 w = .ok a w') :
    w.processor.values.back? = some a ∧ w' = w := by
  unfold peek at h
  split at h
  · split at h
    · next b hb =>
      cases h
      rw [Nat.sub_zero] at hb
      exact ⟨Array.back?_eq_getElem? .. ▸ hb, rfl⟩
    · cases h
  · cases h

/-- A jump that makes no check leads ahead, or is not taken. -/
theorem lt_of_step_jump {t : Nat} (ht : i.op.jumpTarget? = some t) (hexit : i.op.exit? = none)
    (hcheck : i.op.checks w.processor = false) (hstep : r.step depth i w = .ok none w') :
    w.processor.ip < w'.processor.ip := by
  obtain ⟨op, span⟩ := i
  have hahead : ∀ {u : World}, (do jump t; return none : Exec (Option Exit)) u = .ok none w' →
      u.processor.ip = w.processor.ip → w.processor.ip < t → w.processor.ip < w'.processor.ip := by
    intro u h hu hlt
    rw [bind_ok (jump_ahead (hu ▸ hlt))] at h
    cases h
    exact hlt
  have hnext : ∀ {u : World}, (do advance; return none : Exec (Option Exit)) u = .ok none w' →
      u.processor.ip = w.processor.ip → w.processor.ip < w'.processor.ip := by
    intro u h hu
    cases h
    exact Nat.lt_succ_of_le (Nat.le_of_eq hu.symm)
  cases op with
  | jump target =>
    cases ht
    have hlt : w.processor.ip < t := by simpa [OpCode.checks] using hcheck
    exact hahead hstep rfl hlt
  | jumpIfFalse target =>
    cases ht
    obtain ⟨a, w₁, hpop, hrest⟩ := of_bind_ok hstep
    obtain ⟨ha, rfl⟩ := pop_eq_ok hpop
    cases htruthy : a.isTruthy with
    | true =>
      simp only [htruthy, if_true] at hrest
      exact hnext hrest rfl
    | false =>
      simp only [htruthy, Bool.false_eq_true, if_false] at hrest
      have hlt : w.processor.ip < t := by simpa [OpCode.checks, ha, htruthy] using hcheck
      exact hahead hrest rfl hlt
  | jumpFalseOrPop target =>
    cases ht
    obtain ⟨a, w₁, hpeek, hrest⟩ := of_bind_ok hstep
    obtain ⟨ha, rfl⟩ := peek_eq_ok hpeek
    cases htruthy : a.isTruthy with
    | true =>
      simp only [htruthy, if_true] at hrest
      obtain ⟨b, w₂, hpop, hrest⟩ := of_bind_ok hrest
      obtain ⟨-, rfl⟩ := pop_eq_ok hpop
      exact hnext hrest rfl
    | false =>
      simp only [htruthy, Bool.false_eq_true, if_false] at hrest
      have hlt : w₁.processor.ip < t := by simpa [OpCode.checks, ha, htruthy] using hcheck
      exact hahead hrest rfl hlt
  | jumpTrueOrPop target =>
    cases ht
    obtain ⟨a, w₁, hpeek, hrest⟩ := of_bind_ok hstep
    obtain ⟨ha, rfl⟩ := peek_eq_ok hpeek
    cases htruthy : a.isTruthy with
    | true =>
      simp only [htruthy, if_true] at hrest
      have hlt : w₁.processor.ip < t := by simpa [OpCode.checks, ha, htruthy] using hcheck
      exact hahead hrest rfl hlt
    | false =>
      simp only [htruthy, Bool.false_eq_true, if_false] at hrest
      obtain ⟨b, w₂, hpop, hrest⟩ := of_bind_ok hrest
      obtain ⟨-, rfl⟩ := pop_eq_ok hpop
      exact hnext hrest rfl
  | forLoop target => cases hexit
  | iterCheck target => cases hexit
  | _ => cases ht

/-- All other instructions that keep to the frame go on with the next one, or leave a loop. -/
theorem lt_of_mem_next {op : OpCode} {x k y d : Nat} (hnext : (y, d) ∈ op.next x k)
    (hexit : ∀ t, op.exit? = some t → x < t) (hjump : op.jumpTarget? = none ∨ op.exit?.isSome) :
    x < y := by
  cases op <;> simp_all [OpCode.next, OpCode.exit?, OpCode.jumpTarget?] <;> omega

/-- A return that does not end the loop goes back to the caller. -/
theorem back_of_leaveFrame {values : Nat} (h : leaveFrame depth values w = .ok none w') :
    ∃ f, w.processor.frames.back? = some f ∧ w'.processor.frames = w.processor.frames.pop ∧
      f.returnAddress = some w'.processor.ip := by
  rw [leaveFrame_eq] at h
  obtain ⟨result, w₁, hresult, h⟩ := of_bind_ok h
  have hframes : w₁.processor.frames = w.processor.frames := by
    split at hresult
    · cases hresult
      rfl
    · obtain ⟨-, rfl⟩ := pop_eq_ok hresult
      rfl
  unfold leaveWith at h
  obtain ⟨p, w₂, hp, h⟩ := of_bind_ok h
  cases hp
  rw [← hframes]
  cases hf : w₁.processor.frames.back? with
  | none =>
    simp only [hf] at h
    cases h
  | some f =>
    simp only [hf] at h
    obtain ⟨u₁, w₃, hpop, h⟩ := of_bind_ok h
    cases hpop
    obtain ⟨u₂, w₄, htruncate, h⟩ := of_bind_ok h
    cases htruncate
    cases haddress : f.returnAddress with
    | none =>
      rw [haddress] at h
      cases h
    | some address =>
      rw [haddress] at h
      obtain ⟨p, w₅, hp, h⟩ := of_bind_ok h
      cases hp
      refine ⟨f, rfl, ?_⟩
      split at h
      · cases h
        exact ⟨rfl, haddress⟩
      · cases h

end Reentry

/-! ## What functions have left -/

/-- What the functions have left that wait for a function to return to an address. -/
def leftBehind (code : Listing) (p : Processor) : Option Nat → Nat
  | some y => leftOf code y p.frames.toList.reverse
  | none => 0

namespace World

variable {w w' : World} {A : Activation} {bottom p : Processor} {address : Option Nat}
  {k x y : Nat} {s : Script}

theorem leftOf_at (h : A.At k x p) (code : Listing) (y : Nat) :
    leftOf code y p.frames.toList.reverse =
      A.closure.entry + functionLength code A.closure.entry - y +
        leftBehind code A.outer A.returnAddress := by
  obtain ⟨f, own, ⟨hclosure, -, hreturn⟩, -, rfl⟩ := h
  simp only [Array.toList_push, List.reverse_append, List.reverse_singleton, List.singleton_append,
    leftOf, hclosure, hreturn]
  cases A.returnAddress <;> rfl

theorem Runs.exists_header (hr : w.Runs A k x) (hs : w.scripts[w.active.index]? = some s) :
    ∃ name kind n, w.ops A.closure.entry = some (.header name kind n) := by
  obtain ⟨name, kind, n, hheader⟩ := hr.header s (by rw [hr.owner, hs])
  refine ⟨name, kind, n, ?_⟩
  unfold ops
  rw [Array.getD_eq_getD_getElem?, hs]
  exact hheader

/-- The function of an activation stays as long as it is. -/
theorem Runs.functionLength_eq (hr : w.Runs A k x) (hs : w.scripts[w.active.index]? = some s)
    (h : w.Later w') :
    functionLength w'.ops A.closure.entry = functionLength w.ops A.closure.entry := by
  obtain ⟨name, kind, n, hheader⟩ := hr.exists_header hs
  unfold functionLength
  rw [hheader, h.ops hheader]

/-- Control stays inside the function. -/
theorem Runs.bounds (hr : w.Runs A k x) (hs : w.scripts[w.active.index]? = some s)
    (hg : w.Genuine) : A.closure.entry ≤ x ∧
      x < A.closure.entry + functionLength w.ops A.closure.entry := by
  have hops : w.ops = s.code.ops := by
    unfold ops
    rw [Array.getD_eq_getD_getElem?, hs]
    rfl
  have hreaches := hr.reaches
  rw [hops] at hreaches
  obtain ⟨name, kind, n, -, hheader, ⟨hle, hlt, -⟩, -⟩ :=
    (hg _ s hs).reaches (hr.header s (by rw [hr.owner, hs])) hreaches
  unfold functionLength
  rw [hops, hheader]
  exact ⟨hle, hlt⟩

theorem Waits.leftBehind_eq (hw : w.Waits none bottom p address)
    (hs : w.scripts[w.active.index]? = some s) (h : w.Later w') :
    leftBehind w'.ops p address = leftBehind w.ops p address := by
  induction hw with
  | base => rfl
  | call _ hat hruns ih =>
    unfold leftBehind at ih ⊢
    dsimp only
    rw [leftOf_at hat, leftOf_at hat, hruns.functionLength_eq hs h]
    unfold leftBehind
    rw [ih]

theorem lengthsOf_append (code : Listing) (frames frames' : List Frame) :
    lengthsOf code (frames ++ frames') = lengthsOf code frames + lengthsOf code frames' := by
  induction frames with
  | nil => exact (Nat.zero_add _).symm
  | cons f rest ih =>
    cases f with
    | script f =>
      rw [List.cons_append, lengthsOf, lengthsOf, ih, Nat.add_assoc]
    | host name base site =>
      rw [List.cons_append, lengthsOf, lengthsOf, ih]

/-- The frames of an activation are those below it, and its own. -/
theorem lengthsOf_at (h : A.At k x p) (code : Listing) {n : Nat} (hn : n ≤ A.outer.frames.size) :
    lengthsOf code (p.frames.toList.drop n) =
      lengthsOf code (A.outer.frames.toList.drop n) + functionLength code A.closure.entry := by
  obtain ⟨f, own, ⟨hclosure, -, -⟩, -, rfl⟩ := h
  rw [Array.toList_push, List.drop_append_of_le_length (by simpa using hn), lengthsOf_append,
    ← hclosure]
  simp [lengthsOf]

theorem Waits.leftBehind_le (hw : w.Waits none bottom p address)
    (hs : w.scripts[w.active.index]? = some s) (hg : w.Genuine) :
    leftBehind w.ops p address ≤ lengthsOf w.ops (p.frames.toList.drop bottom.frames.size) := by
  induction hw with
  | base => exact Nat.zero_le _
  | call hwaits hat hruns ih =>
    have hsize := hwaits.under.frames.length_le
    simp only [Array.length_toList] at hsize
    have hbounds := hruns.bounds hs hg
    rw [lengthsOf_at hat _ hsize]
    unfold leftBehind
    dsimp only
    rw [leftOf_at hat]
    omega

/-- The functions of a loop have no more left than they are long. -/
theorem Running.left_le (h : w.Running bottom) (hs : w.scripts[w.active.index]? = some s)
    (hg : w.Genuine) : w.left ≤ w.lengths bottom.frames.size := by
  obtain ⟨A, k, x, hwaits, hruns, hat⟩ := h
  have hsize := hwaits.under.frames.length_le
  simp only [Array.length_toList] at hsize
  have hbehind := hwaits.leftBehind_le hs hg
  have hbounds := hruns.bounds hs hg
  have hip : w.processor.ip = x := hat.ip_eq
  unfold left lengths
  rw [leftOf_at hat, lengthsOf_at hat _ hsize, hip]
  omega

/-- When only code is added, the functions of a loop have as much left as before. -/
theorem Running.left_eq (h : w.Running bottom) (hs : w.scripts[w.active.index]? = some s)
    (hl : w.Later w') (hp : w'.processor = w.processor) : w'.left = w.left := by
  obtain ⟨A, k, x, hwaits, hruns, hat⟩ := h
  unfold left
  rw [hp, leftOf_at hat, leftOf_at hat, hruns.functionLength_eq hs hl, hwaits.leftBehind_eq hs hl]

end World

namespace Reentry

variable {r : Reentry} {bottom : Processor} {depth k : Nat} {w w' w₁ u v : World} {i : Instruction}
  {A : Activation} {x y d : Nat} {s : Script}

/-- Ahead in a function less of it is left. -/
theorem left_lt_of_ahead (hwaits : w.Waits none bottom A.outer A.returnAddress) (hruns : w.Runs A k x)
    (hs : w.scripts[w.active.index]? = some s) (hg : w.Genuine) (hl : w.Later w')
    (hat : A.At k x w.processor) (hat' : A.At d y w'.processor) (hxy : x < y) : w'.left < w.left := by
  have hbounds := hruns.bounds hs hg
  unfold World.left
  rw [World.leftOf_at hat, World.leftOf_at hat', hat.ip_eq, hat'.ip_eq,
    hruns.functionLength_eq hs hl, hwaits.leftBehind_eq hs hl]
  omega

/-- Behind a function that returned, the others have as much left as before. -/
theorem left_lt_of_back (hwaits : w.Waits none bottom A.outer A.returnAddress) (hruns : w.Runs A k x)
    (hs : w.scripts[w.active.index]? = some s) (hg : w.Genuine) (hl : w.Later w')
    (hat : A.At k x w.processor) (hframes : w'.processor.frames = w.processor.frames.pop)
    (hreturn : A.returnAddress = some w'.processor.ip) : w'.left < w.left := by
  have hbounds := hruns.bounds hs hg
  have hbehind := hwaits.leftBehind_eq hs hl
  have hpop : w.processor.frames.pop = A.outer.frames := by
    obtain ⟨f, own, -, -, hp⟩ := hat
    rw [hp]
    exact Array.pop_push
  rw [hreturn] at hbehind
  unfold leftBehind at hbehind
  unfold World.left
  rw [World.leftOf_at hat, hat.ip_eq, hframes, hpop, hreturn]
  unfold leftBehind
  dsimp only at hbehind ⊢
  omega

/-- An instruction that keeps to its frame and makes no check leads ahead. -/
theorem lt_of_stays (hg : w.Genuine) (hi : w.ops w.processor.ip = some i.op)
    (hcheck : i.op.checks w.processor = false) (hstep : r.step depth i w = .ok none w')
    (hnext : (w'.processor.ip, d) ∈ i.op.next w.processor.ip k) :
    w.processor.ip < w'.processor.ip := by
  have hexit : ∀ t, i.op.exit? = some t → w.processor.ip < t := by
    obtain ⟨s, hs, hops⟩ := World.exists_script_of_ops hi
    rw [hops] at hi
    exact fun t ht => (hg _ s hs).exits hi ht
  by_cases hjump : i.op.jumpTarget? = none ∨ i.op.exit?.isSome
  · exact lt_of_mem_next hnext hexit hjump
  · rw [not_or] at hjump
    obtain ⟨t, ht⟩ := Option.ne_none_iff_exists'.1 hjump.1
    exact lt_of_step_jump ht (by simpa using hjump.2) hcheck hstep

/-- An instruction that makes no check and does not end the loop brings control ahead in its function,
or back to the caller. -/
theorem advances_step (hr : r.Calm) (hi : w.ops w.processor.ip = some i.op)
    (hcheck : i.op.checks w.processor = false)
    (hstep : r.step bottom.frames.size i w = .ok none w') (hg : w'.Genuine) (hc : w.Closed)
    (hrun : w.Running bottom) : w.Advances w' ∧ w'.left < w.left := by
  obtain ⟨A, k, x, hwaits, hruns, hat⟩ := hrun
  have hl := ((keeps_step hr hi).ok hstep).1.later
  have hg' := hl.genuine hg
  obtain ⟨s, hs, -⟩ := World.exists_script_of_ops hi
  have hip : w.processor.ip = x := hat.ip_eq
  rw [hip] at hi
  have hneeds := hruns.operands hg' hi
  obtain ⟨op, span⟩ := i
  by_cases hcall : ∃ n, op = .call n
  · -- the operands of a call are there, so it makes a check
    obtain ⟨n, rfl⟩ := hcall
    obtain ⟨f, own, -, hk, hp⟩ := hat
    have hsize : k ≤ w.processor.values.size := by
      rw [hp, Array.size_append, hk]
      exact Nat.le_add_left _ _
    simp only [OpCode.checks, decide_eq_false_iff_not] at hcheck
    exact absurd (Nat.lt_of_lt_of_le hneeds hsize) hcheck
  · by_cases hret : ∃ n, op = .ret n
    · obtain ⟨n, rfl⟩ := hret
      obtain ⟨f, hf, hframes, hreturn⟩ := back_of_leaveFrame hstep
      have hsame : A.returnAddress = f.returnAddress := by
        obtain ⟨f', own, ⟨-, -, hreturn'⟩, -, hp⟩ := hat
        rw [hp, Array.back?_push] at hf
        cases hf
        exact hreturn'.symm
      refine ⟨.back hf hframes hreturn, ?_⟩
      exact left_lt_of_back hwaits hruns hs hg' hl hat hframes (hsame.trans hreturn)
    · have hstays : A.Stays op k x (r.step bottom.frames.size ⟨op, span⟩) w := by
        refine Activation.stays_step hr _ _ hneeds (not_exists.1 hcall) (not_exists.1 hret) ?_
        rintro entry captures rfl hc s hs
        exact hasHeader_of_closure hi hc s hs
      obtain ⟨-, y, d, hnext, hat'⟩ := (hstays.ok hstep).2 hg hc hat
      have hip' : w'.processor.ip = y := hat'.ip_eq
      have hlt : w.processor.ip < w'.processor.ip := by
        refine lt_of_stays hg' (by rwa [hip]) hcheck hstep (d := d) (k := k) ?_
        rwa [hip, hip']
      refine ⟨.ahead ?_ hlt, ?_⟩
      · obtain ⟨f, own, ⟨hclosure, hbase, hreturn⟩, -, hp⟩ := hat
        obtain ⟨f', own', ⟨hclosure', hbase', hreturn'⟩, -, hp'⟩ := hat'
        rw [hp, hp', Array.map_push, Array.map_push]
        simp only [Frame.place, hclosure, hbase, hreturn, hclosure', hbase', hreturn']
      · rw [hip, hip'] at hlt
        exact left_lt_of_ahead hwaits hruns hs hg' hl hat hat' hlt

end Reentry

end LuaMachine
