import LuaMachine.Proofs.Coroutine.Resumption

/-!
# Suspensions

The only instruction that suspends a coroutine is a call of `coroutine.yield`. It leaves the loop with
the values that it was called with; the operands of the call are off the stack, and the processor
stands behind the call. A call of any other native function puts its result on the stack there and
goes on.
-/

namespace LuaMachine

open Exec

namespace Exec

variable {α : Type}

/-- However an instruction ends, it does not suspend. -/
structure NoYield (x : Exec (Option Exit)) : Prop where
  ne : ∀ {w v w'}, x w ≠ .ok (some (.yielded v)) w'

theorem NoYield.bind {x : Exec α} {f : α → Exec (Option Exit)} (hf : ∀ a, NoYield (f a)) :
    NoYield (x >>= f) := by
  constructor
  intro w v w' h
  cases hx : x w with
  | ok a w₁ =>
    rw [bind_ok hx] at h
    exact (hf a).ne h
  | error s w₁ =>
    rw [bind_error hx] at h
    cases h

theorem noYield_none : NoYield (pure none) := by
  constructor
  intro w v w' h
  cases h

theorem noYield_returned (v : Value) : NoYield (pure (some (.returned v))) := by
  constructor
  intro w v' w' h
  cases h

theorem noYield_fail (f : Fault) : NoYield (fail f) := by
  constructor
  intro w v w' h
  cases h

theorem noYield_leaveFrame (depth values : Nat) : NoYield (leaveFrame depth values) := by
  rw [Reentry.leaveFrame_eq]
  refine .bind fun result => .bind fun p => ?_
  split
  · exact noYield_fail _
  · next frame _ =>
    refine .bind fun _ => .bind fun _ => ?_
    cases frame.returnAddress with
    | none => exact noYield_returned _
    | some address =>
      refine .bind fun p => ?_
      split
      · exact .bind fun _ => .bind fun _ => noYield_none
      · exact noYield_returned _

/-- However an instruction ends, it does not leave the loop. -/
structure GoesOn (x : Exec (Option Exit)) : Prop where
  eq_none : ∀ {w exit w'}, x w = .ok exit w' → exit = none

theorem GoesOn.bind {x : Exec α} {f : α → Exec (Option Exit)} (hf : ∀ a, GoesOn (f a)) :
    GoesOn (x >>= f) := by
  constructor
  intro w exit w' h
  obtain ⟨a, w₁, -, ha⟩ := of_bind_ok h
  exact (hf a).eq_none ha

theorem goesOn_none : GoesOn (pure none) := by
  constructor
  intro w exit w' h
  cases h
  rfl

theorem goesOn_onward (x : Exec Unit) : GoesOn (do x; advance; return none) :=
  .bind fun _ => .bind fun _ => goesOn_none

theorem goesOn_jump (target : Nat) : GoesOn (do jump target; return none) :=
  .bind fun _ => goesOn_none

theorem GoesOn.noYield {x : Exec (Option Exit)} (hx : GoesOn x) : NoYield x := by
  constructor
  intro w v w' h
  cases hx.eq_none h

end Exec

namespace World

/-- The processor behind the instruction that it stands at. -/
def advanced (w : World) : World :=
  { w with processor := { w.processor with ip := w.processor.ip + 1 } }

/-- The result of a call on the stack, and the processor behind the call. -/
def answered (w : World) (v : Value) : World :=
  { w with processor := { w.processor with
      values := w.processor.values.push v
      ip := w.processor.ip + 1 } }

/-- The topmost operands off the stack. -/
def taken (w : World) (n : Nat) : World :=
  { w with processor := { w.processor with
      values := w.processor.values.shrink (w.processor.values.size - n) } }

/-- The topmost operands. -/
def operands (w : World) (n : Nat) : List Value :=
  (w.processor.values.extract (w.processor.values.size - n) w.processor.values.size).toList

/-- Another function below the arguments of a call. -/
def calling (w : World) (argc : Nat) (f : Value) : World :=
  { w with processor := { w.processor with
      values := w.processor.values.setIfInBounds (w.processor.values.size - (argc + 1)) f } }

variable {w : World} {argc : Nat}

theorem size_calling (f : Value) :
    (w.calling argc f).processor.values.size = w.processor.values.size :=
  Array.size_setIfInBounds

theorem getElem?_calling (h : argc + 1 ≤ w.processor.values.size) (f : Value) :
    (w.calling argc f).processor.values[w.processor.values.size - (argc + 1)]? = some f :=
  Array.getElem?_setIfInBounds_self_of_lt (by omega)

/-- The arguments are the same. -/
theorem operands_calling (h : argc + 1 ≤ w.processor.values.size) (f : Value) :
    (w.calling argc f).operands argc = w.operands argc := by
  have hlt : w.processor.values.size - (argc + 1) < w.processor.values.size - argc := by omega
  unfold operands
  rw [size_calling, Array.toList_extract, Array.toList_extract, List.extract_eq_take_drop,
    List.extract_eq_take_drop]
  unfold calling
  rw [Array.toList_setIfInBounds, List.drop_set_of_lt hlt]

/-- What is below is the same. -/
theorem taken_calling (w : World) (argc : Nat) (f : Value) :
    (w.calling argc f).taken (argc + 1) = w.taken (argc + 1) := by
  have hrest : (w.calling argc f).processor.values.shrink (w.processor.values.size - (argc + 1)) =
      w.processor.values.shrink (w.processor.values.size - (argc + 1)) := by
    apply Array.toList_inj.1
    rw [Array.toList_shrink, Array.toList_shrink]
    unfold calling
    rw [Array.toList_setIfInBounds, List.take_set_of_le (Nat.le_refl _)]
  unfold taken
  rw [size_calling, hrest]
  rfl

/-- The operand below the topmost ones. -/
theorem back?_taken (h : argc + 1 ≤ w.processor.values.size) :
    (w.taken argc).processor.values.back? =
      w.processor.values[w.processor.values.size - (argc + 1)]? := by
  have hlt : w.processor.values.size - (argc + 1) < w.processor.values.size - argc := by omega
  unfold taken
  rw [Array.back?_eq_getElem?, Array.size_shrink, Nat.min_eq_left (Nat.sub_le _ _), Nat.sub_sub,
    ← Array.getElem?_toList, Array.toList_shrink, List.getElem?_take_of_lt hlt,
    Array.getElem?_toList]

theorem pop_taken (w : World) (n : Nat) :
    (w.taken n).processor.values.pop = (w.taken (n + 1)).processor.values := by
  have hmin : min (min (w.processor.values.size - n) w.processor.values.size - 1)
      (w.processor.values.size - n) = w.processor.values.size - (n + 1) := by omega
  apply Array.toList_inj.1
  unfold taken
  rw [Array.toList_pop, Array.toList_shrink, Array.toList_shrink, List.dropLast_eq_take,
    List.take_take, List.length_take, Array.length_toList, hmin]

end World

namespace Exec

variable {w w' : World} {argc : Nat} {args : List Value}

/-! ## Calls -/

theorem followCall_world {n : Nat} {f : Value} {call : Value × List Value}
    (h : followCall n f args w = .ok call w') : w' = w := by
  induction n generalizing f args with
  | zero => cases h
  | succ n ih =>
    unfold followCall at h
    by_cases hf : f.isCallable = true
    · rw [if_pos hf] at h
      cases h
      rfl
    · rw [if_neg hf] at h
      have hhandler : metamethod? f "__call" w = .ok (w.heap.metamethod? f "__call") w := rfl
      rw [bind_ok hhandler] at h
      cases hm : w.heap.metamethod? f "__call" with
      | some handler =>
        rw [hm] at h
        exact ih h
      | none =>
        rw [hm] at h
        cases h

/-- What follows when a call has taken the function and the arguments off the stack. -/
theorem called_eq {f : Value} (hsize : argc + 1 ≤ w.processor.values.size)
    (hf : w.processor.values[w.processor.values.size - (argc + 1)]? = some f) :
    called argc w = (safepoint >>= fun _ => resolveCallable f (Value.flatten (w.operands argc)))
      (w.taken (argc + 1)) := by
  have hmany : popMany argc w = .ok (w.operands argc) (w.taken argc) := by
    unfold popMany
    exact if_pos (Nat.le_of_succ_le hsize)
  have hpop : pop (w.taken argc) = .ok f (w.taken (argc + 1)) := by
    unfold pop
    rw [World.back?_taken hsize, hf]
    dsimp only
    rw [World.pop_taken]
    rfl
  have hroom : ¬w.processor.values.size < argc + 1 := Nat.not_lt_of_le hsize
  unfold called
  rw [bind_ok (processor_eq _)]
  dsimp only
  rw [if_neg hroom, bind_ok hmany, bind_ok hpop]

theorem size_of_called {call : Value × List Value} (h : called argc w = .ok call w') :
    argc + 1 ≤ w.processor.values.size := by
  by_contra hsmall
  unfold called at h
  rw [bind_ok (processor_eq _)] at h
  dsimp only at h
  rw [if_pos (Nat.lt_of_not_le hsmall)] at h
  cases h

/-- A call that is about to begin has only taken its operands off the stack. -/
theorem called_world {call : Value × List Value} (h : called argc w = .ok call w') :
    w' = w.taken (argc + 1) := by
  have hsize := size_of_called h
  rw [called_eq hsize (Array.getElem?_eq_getElem (by omega))] at h
  cases hsafe : safepoint (w.taken (argc + 1)) with
  | error s w₁ =>
    rw [bind_error hsafe] at h
    cases h
  | ok u w₁ =>
    rw [bind_ok hsafe] at h
    rw [followCall_world h]
    unfold safepoint at hsafe
    split at hsafe
    · cases hsafe
    · cases hsafe
      rfl

/-- Another function in the place of the callee gets the arguments in the same world. -/
theorem called_calling {call : Value × List Value} (h : called argc w = .ok call w') (g : Value) :
    called argc (w.calling argc g) = resolveCallable g (Value.flatten (w.operands argc)) w' := by
  have hsize := size_of_called h
  have hcallee := World.getElem?_calling hsize g
  rw [called_eq hsize (Array.getElem?_eq_getElem (by omega))] at h
  rw [called_eq (by rw [World.size_calling]; exact hsize) (by rw [World.size_calling]; exact hcallee),
    World.operands_calling hsize, World.taken_calling]
  cases hsafe : safepoint (w.taken (argc + 1)) with
  | error s w₁ =>
    rw [bind_error hsafe] at h
    cases h
  | ok u w₁ =>
    rw [bind_ok hsafe] at h
    obtain rfl := followCall_world h
    exact bind_ok hsafe

theorem suspend_ok (h : w.processor.canYield = true) :
    suspend args w = .ok (some (.yielded (.ofList args))) w.advanced := by
  have hcoroutine : w.processor.isCoroutine = true := by
    unfold Processor.canYield at h
    exact (Bool.and_eq_true_iff.1 h).1
  unfold suspend
  rw [bind_ok (processor_eq _), hcoroutine, h]
  rfl

theorem exists_of_suspend_ok {exit : Option Exit} (h : suspend args w = .ok exit w') :
    w.processor.canYield = true ∧ exit = some (.yielded (.ofList args)) ∧ w' = w.advanced := by
  have hallowed : w.processor.canYield = true := by
    unfold suspend at h
    rw [bind_ok (processor_eq _)] at h
    by_contra hno
    rw [Bool.not_eq_true] at hno
    rw [hno] at h
    cases hcoroutine : w.processor.isCoroutine <;> rw [hcoroutine] at h <;> cases h
  rw [suspend_ok hallowed] at h
  cases h
  exact ⟨hallowed, rfl, rfl⟩

end Exec

namespace Reentry

variable {r : Reentry} {w w₁ w' : World} {depth argc : Nat} {span : Option Span} {c : Callback}
  {args : List Value} {v : Value}

/-- An allowed call of `coroutine.yield` leaves the loop with the values it was called with. -/
theorem stepCall_yield (hcalled : called argc w = .ok (.callback c, args) w₁)
    (hyield : c.native = .yield) (hallowed : w₁.processor.canYield = true) :
    r.stepCall argc span w = .ok (some (.yielded (.ofList args))) w₁.advanced := by
  unfold stepCall
  rw [bind_ok hcalled]
  dsimp only
  rw [hyield]
  exact suspend_ok hallowed

/-- What a call of a native function does that does not suspend. -/
theorem stepCall_native (hcalled : called argc w = .ok (.callback c, args) w₁)
    (hyield : c.native ≠ .yield) :
    r.stepCall argc span w = (do push (← invoke r c args span); advance; return none) w₁ := by
  unfold stepCall
  rw [bind_ok hcalled]
  dsimp only
  cases hn : c.native with
  | yield => exact absurd hn hyield
  | _ => rfl

/-- A native function that returns puts its result on the stack. -/
theorem stepCall_returned {w₂ : World} (hcalled : called argc w = .ok (.callback c, args) w₁)
    (hyield : c.native ≠ .yield) (hinvoke : invoke r c args span w₁ = .ok v w₂) :
    r.stepCall argc span w = .ok none (w₂.answered v) := by
  rw [stepCall_native hcalled hyield]
  exact bind_ok hinvoke

/-- A suspension is an allowed call of `coroutine.yield`. -/
theorem exists_of_stepCall_yielded
    (h : r.stepCall argc span w = .ok (some (.yielded v)) w') :
    ∃ c args w₁, called argc w = .ok (.callback c, args) w₁ ∧ c.native = .yield ∧
      w₁.processor.canYield = true ∧ v = .ofList args ∧ w' = w₁.advanced := by
  have hfunction : ∀ id args w₁, (do
      enterClosure id args (some ((← address) + 1)) span
      return none : Exec (Option Exit)) w₁ ≠ .ok (some (.yielded v)) w' := fun id args w₁ =>
    (NoYield.bind fun _ => .bind fun _ => noYield_none).ne
  have hnative : ∀ c args w₁, (do push (← invoke r c args span); advance; return none :
      Exec (Option Exit)) w₁ ≠ .ok (some (.yielded v)) w' := fun c args w₁ =>
    (NoYield.bind fun _ => .bind fun _ => .bind fun _ => noYield_none).ne
  cases hcalled : called argc w with
  | error s w₁ =>
    unfold stepCall at h
    rw [bind_error hcalled] at h
    cases h
  | ok call w₁ =>
    obtain ⟨f, args⟩ := call
    cases f with
    | callback c =>
      by_cases hyield : c.native = .yield
      · unfold stepCall at h
        rw [bind_ok hcalled] at h
        dsimp only at h
        rw [hyield] at h
        obtain ⟨hallowed, hexit, rfl⟩ := exists_of_suspend_ok h
        cases hexit
        exact ⟨c, args, w₁, rfl, hyield, hallowed, rfl, rfl⟩
      · rw [stepCall_native hcalled hyield] at h
        exact absurd h (hnative c args w₁)
    | function id =>
      unfold stepCall at h
      rw [bind_ok hcalled] at h
      exact absurd h (hfunction id args w₁)
    | _ =>
      unfold stepCall at h
      rw [bind_ok hcalled] at h
      cases h

/-! ## Instructions -/

/-- Only calls and returns leave the loop. -/
theorem goesOn_step {i : Instruction} (hcall : ∀ argc, i.op ≠ .call argc)
    (hret : ∀ values, i.op ≠ .ret values) : GoesOn (r.step depth i) := by
  obtain ⟨op, span⟩ := i
  have hif : ∀ {x y : Exec (Option Exit)} (b : Bool), GoesOn x → GoesOn y →
      GoesOn (if b then x else y) := by
    intro x y b hx hy
    cases b
    · exact hy
    · exact hx
  cases op with
  | call argc => exact absurd rfl (hcall argc)
  | ret values => exact absurd rfl (hret values)
  | jump target => exact goesOn_jump target
  | jumpIfFalse target =>
    exact .bind fun v => hif _ (.bind fun _ => goesOn_none) (goesOn_jump target)
  | jumpFalseOrPop target =>
    refine .bind fun v => hif _ ?_ (goesOn_jump target)
    exact .bind fun _ => .bind fun _ => goesOn_none
  | jumpTrueOrPop target =>
    refine .bind fun v => hif _ (goesOn_jump target) ?_
    exact .bind fun _ => .bind fun _ => goesOn_none
  | forLoop exit =>
    refine .bind fun state => ?_
    dsimp only
    split
    · exact .bind fun _ => goesOn_none
    · exact .bind fun _ => goesOn_none
  | iterCheck exit =>
    refine .bind fun result => hif _ (.bind fun _ => goesOn_none) ?_
    exact .bind fun _ => .bind fun _ => .bind fun _ => .bind fun _ => goesOn_none
  | _ => exact goesOn_onward _

/-- No other instruction than a call suspends. -/
theorem noYield_step {i : Instruction} (hcall : ∀ argc, i.op ≠ .call argc) :
    NoYield (r.step depth i) := by
  by_cases hret : ∃ values, i.op = .ret values
  · obtain ⟨op, span⟩ := i
    obtain ⟨values, rfl⟩ := hret
    exact noYield_leaveFrame depth values
  · exact (goesOn_step hcall (not_exists.1 hret)).noYield

/-- An instruction that suspends is an allowed call of `coroutine.yield`. -/
theorem exists_of_step_yielded {i : Instruction}
    (h : r.step depth i w = .ok (some (.yielded v)) w') :
    ∃ argc c args w₁, i.op = .call argc ∧ called argc w = .ok (.callback c, args) w₁ ∧
      c.native = .yield ∧ w₁.processor.canYield = true ∧ v = .ofList args ∧ w' = w₁.advanced := by
  by_cases hcall : ∃ argc, i.op = .call argc
  · obtain ⟨argc, hop⟩ := hcall
    obtain ⟨op, span⟩ := i
    cases hop
    obtain ⟨c, args, w₁, hcalled⟩ := exists_of_stepCall_yielded h
    exact ⟨argc, c, args, w₁, rfl, hcalled⟩
  · exact absurd h (noYield_step (not_exists.1 hcall)).ne

end Reentry

end LuaMachine
