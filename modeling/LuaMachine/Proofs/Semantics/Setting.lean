import LuaMachine.Machine.Operators
import LuaMachine.Proofs.Machine.Aside
import LuaMachine.Proofs.Machine.Running
import LuaMachine.Proofs.Semantics.Evaluation
import LuaMachine.Proofs.Semantics.Placement

/-!
# The machine while a plain chunk runs

The operators of the machine may call handlers. On values without an identity there are none to
call, and each operator comes to what it comes to in the semantics without calls, whatever the world
is (`Reentry.comes_binary`, `Reentry.comes_unary`).

A `Setting` is what a plain chunk does not touch: the world but for one processor's stacks and the
cells, and what lies below the chunk on those. What the chunk does touch is its slots, the values it
works on, the contents of its variables and the address it has got to; `Setting.state` is the world
for given ones. Each variable of the store is a cell above those that were there before.

The primitives of the machine are equations about `Setting.state` here, and every instruction of a
plain chunk takes one such world to another.
-/

namespace LuaMachine

open Exec

/-! ## Values without identity -/

namespace Datum

@[simp] theorem scalar_toValue (d : Datum) : d.toValue.scalar = d.toValue := by cases d <;> rfl

@[simp] theorem isTruthy_toValue (d : Datum) : d.toValue.isTruthy = d.isTruthy := by
  cases d <;> rfl

@[simp] theorem typeName_toValue (d : Datum) : d.toValue.typeName = d.typeName := by
  cases d <;> rfl

@[simp] theorem toNumber?_toValue (d : Datum) : d.toValue.toNumber? = d.toNumber? := by
  cases d <;> rfl

@[simp] theorem toConcatText?_toValue (d : Datum) : d.toValue.toConcatText? = d.toText? := by
  cases d <;> rfl

@[simp] theorem rawEquals_toValue (a b : Datum) : a.toValue.rawEquals b.toValue = a.equals b := by
  cases a <;> cases b <;> simp [toValue, Value.rawEquals, Value.scalar, Value.atomEquals, equals]

@[simp] theorem metamethod?_toValue (h : Heap) (d : Datum) (event : String) :
    h.metamethod? d.toValue event = none := by
  cases d <;> rfl

/-- The values of data, as operands. -/
theorem flatten_toValue (ds : List Datum) :
    Value.flatten (ds.map toValue) = ds.map toValue := by
  induction ds with
  | nil => rfl
  | cons d ds ih =>
    cases ds with
    | nil => cases d <;> rfl
    | cons d' ds =>
      simp only [List.map_cons] at ih ⊢
      rw [Value.flatten, scalar_toValue, ih] <;> simp

/-- An item of several values; there are `nil`s behind the last one. -/
theorem nth_ofList (ds : List Datum) (i : Nat) :
    (Value.ofList (ds.map toValue)).nth i = (ds.getD i .nil).toValue := by
  rcases ds with _ | ⟨d, _ | ⟨d', ds⟩⟩
  · simp [Value.ofList, Value.nth, Value.scalar, toValue]
  · cases i with
    | zero => cases d <;> rfl
    | succ i => cases d <;> rfl
  · have hnth : ∀ v : Option Datum, ((v.map toValue).getD .nil).scalar = (v.getD .nil).toValue := by
      rintro (_ | v)
      · rfl
      · exact scalar_toValue v
    simp only [List.map_cons, Value.ofList, Value.nth, List.getD_eq_getElem?_getD]
    rw [← hnth, ← List.getElem?_map]
    rfl

end Datum

/-! ## Operators -/

/-- What a computation comes to that neither changes the world nor depends on it. -/
def Exec.Comes (x : Exec Value) : Except Fault Datum → Prop
  | .ok d => ∀ w, x w = .ok d.toValue w
  | .error f => ∀ w, x w = .error (.error (.ofFault f)) w

namespace Reentry

variable (r : Reentry)

theorem handlerOf?_toValue (a b : Datum) (event : String) (w : World) :
    handlerOf? a.toValue b.toValue event w = .ok none w := by
  simp [handlerOf?]

/-- Without a handler an operation fails. -/
theorem comes_handlerOf {a b : Datum} {event : String} {handle : Option Value → Exec Value}
    {f : Fault} (hf : handle none = fail f) :
    Comes (handlerOf? a.toValue b.toValue event >>= handle) (.error f) := by
  intro w
  rw [bind_ok (handlerOf?_toValue a b event w), hf]
  rfl

theorem comes_arithmetic (event : String) (f : Number → Number → Number) (a b : Datum) :
    Comes (r.arithmetic event f a.toValue b.toValue) (a.arithmetic f b) := by
  unfold Reentry.arithmetic Datum.arithmetic
  simp only [Datum.toNumber?_toValue]
  cases ha : a.toNumber? with
  | none => exact comes_handlerOf (by simp)
  | some x =>
    cases hb : b.toNumber? with
    | none => exact comes_handlerOf (by simp)
    | some y => exact fun w => rfl

theorem comes_concat (a b : Datum) : Comes (r.concat a.toValue b.toValue) (a.concat b) := by
  unfold Reentry.concat Datum.concat
  simp only [Datum.toConcatText?_toValue]
  cases ha : a.toText? with
  | none => exact comes_handlerOf (by simp)
  | some x =>
    cases hb : b.toText? with
    | none => exact comes_handlerOf (by simp)
    | some y => exact fun w => rfl

theorem equals_toValue (a b : Datum) (w : World) :
    r.equals a.toValue b.toValue w = .ok (a.equals b) w := by
  unfold Reentry.equals
  simp only [Datum.rawEquals_toValue]
  cases h : a.equals b with
  | true => rfl
  | false => cases a <;> cases b <;> rfl

/-- What a comparison comes to, as `Comes` says it of values. -/
def Compares (x : Exec Bool) : Except Fault Bool → Prop
  | .ok b => ∀ w, x w = .ok b w
  | .error f => ∀ w, x w = .error (.error (.ofFault f)) w

theorem compares_lessThan (a b : Datum) :
    Compares (r.lessThan a.toValue b.toValue) (a.lessThan b) := by
  cases a <;> cases b <;> exact fun w => rfl

theorem compares_lessEqual (a b : Datum) :
    Compares (r.lessEqual a.toValue b.toValue) (a.lessEqual b) := by
  cases a <;> cases b <;> exact fun w => rfl

theorem Compares.comes {x : Exec Bool} {b : Except Fault Bool} (h : Compares x b) :
    Comes (do return .boolean (← x)) (.boolean <$> b) := by
  cases b with
  | ok b => exact fun w => bind_ok (h w)
  | error f => exact fun w => bind_error (h w)

theorem comes_binary (op : BinaryOp) (a b : Datum) :
    Comes (r.binary op a.toValue b.toValue) (op.apply a b) := by
  have hequals : ∀ negate : Bool → Bool, Comes
      (do return .boolean (negate (← r.equals a.toValue b.toValue)))
      (.ok (.boolean (negate (a.equals b)))) :=
    fun negate w => bind_ok (r.equals_toValue a b w)
  cases op with
  | add | sub | mul | div | mod | pow => exact comes_arithmetic r _ _ a b
  | concat => exact comes_concat r a b
  | eq => exact hequals id
  | ne => exact hequals not
  | lt => exact (compares_lessThan r a b).comes
  | le => exact (compares_lessEqual r a b).comes
  | gt => exact (compares_lessThan r b a).comes
  | ge => exact (compares_lessEqual r b a).comes

theorem metamethod?_toValue (d : Datum) (event : String) (w : World) :
    Exec.metamethod? d.toValue event w = .ok none w := by
  simp [Exec.metamethod?]

theorem comes_negate (d : Datum) : Comes (r.negate d.toValue) (UnaryOp.neg.apply d) := by
  unfold Reentry.negate UnaryOp.apply
  simp only [Datum.toNumber?_toValue]
  cases d.toNumber? with
  | some x => exact fun w => rfl
  | none =>
    intro w
    simp only
    rw [bind_ok (metamethod?_toValue d _ w), Datum.typeName_toValue]
    rfl

theorem comes_length (d : Datum) : Comes (r.length d.toValue) (UnaryOp.len.apply d) := by
  unfold Reentry.length
  cases d <;> exact fun w => bind_ok (metamethod?_toValue _ _ w)

end Reentry

open Exec

/-- The slots of a frame. -/
abbrev Slots := Array (Option CellId)

/-- What a plain chunk leaves as it is while it runs. -/
structure Setting where
  reentry : Reentry
  /-- the height of the call stack that the loop was entered at -/
  depth : Nat
  world : World
  /-- the frame of the chunk, but for its slots -/
  frame : ScriptFrame
  /-- the frames below it -/
  frames : Array Frame
  /-- the values below it -/
  values : Array Value
  /-- the cells that were there before -/
  cells : Array Value
  base : frame.base = values.size
  returnAddress : frame.returnAddress = none
  /-- no debugger, which may hold a script for ever -/
  unattended : (world.scripts.getD world.active.index default).debug.debugger = none
  uncancelled : world.cancelled.getD world.token false = false

theorem RuntimeError.message_decorate (e : RuntimeError) (location : Option Span) (place : String) :
    (e.decorate location place).message = e.message := by
  unfold decorate
  split <;> rfl

namespace Setting

variable (g : Setting)

/-- The value stack with values above those of the setting, topmost first. -/
def stack (g : Setting) : List Value → Array Value
  | [] => g.values
  | v :: vs => (g.stack vs).push v

/-- The world with given variables, slots, values and next address. -/
def state (σ : Store) (slots : Slots) (vs : List Value) (ip : Nat) : World :=
  { g.world with
    heap := { g.world.heap with cells := g.cells ++ (σ.map Datum.toValue).toArray }
    processor := { g.world.processor with
      values := g.stack vs
      frames := g.frames.push (.script { g.frame with locals := slots })
      ip } }

/-- The code that the chunk lies in. -/
def code : Listing := g.world.ops

/-- The cell of a variable. -/
def cell (i : Nat) : CellId := ⟨g.cells.size + i⟩

variable {g} {σ : Store} {slots : Slots} {v : Value} {vs : List Value} {ip : Nat}

/-! ## Values -/

@[simp] theorem size_stack (vs : List Value) : (g.stack vs).size = g.values.size + vs.length := by
  induction vs with
  | nil => rfl
  | cons v vs ih =>
    rw [stack, Array.size_push, ih, List.length_cons]
    omega

theorem toList_stack (vs : List Value) : (g.stack vs).toList = g.values.toList ++ vs.reverse := by
  induction vs with
  | nil => simp [stack]
  | cons v vs ih => rw [stack, Array.toList_push, ih, List.reverse_cons, List.append_assoc]

/-- Stacks are the same if their values are. -/
theorem stack_eq {xs : Array Value} (h : xs.toList = g.values.toList ++ vs.reverse) :
    xs = g.stack vs :=
  Array.toList_inj.1 (h.trans (toList_stack vs).symm)

theorem push_state : push v (g.state σ slots vs ip) = .ok () (g.state σ slots (v :: vs) ip) := rfl

theorem pop_state : pop (g.state σ slots (v :: vs) ip) = .ok v (g.state σ slots vs ip) := by
  simp [pop, state, stack]

theorem peek_state {d : Nat} (h : vs[d]? = some v) :
    peek d (g.state σ slots vs ip) = .ok v (g.state σ slots vs ip) := by
  obtain ⟨hd, rfl⟩ := List.getElem?_eq_some_iff.1 h
  have hget : (g.stack vs)[(g.stack vs).size - 1 - d]? = some vs[d] := by
    rw [← Array.getElem?_toList, toList_stack, size_stack, List.getElem?_append_right (by simp; omega)]
    rw [List.getElem?_reverse (by simp; omega), ← List.getElem?_eq_getElem hd]
    congr 1
    simp
    omega
  unfold peek
  have hlt : d < (g.state σ slots vs ip).processor.values.size := by
    simp only [state, size_stack]
    omega
  rw [if_pos hlt]
  simp only [state] at hget ⊢
  rw [hget]

theorem set_reverse {d : Nat} (h : d < vs.length) :
    vs.reverse.set (vs.length - 1 - d) v = (vs.set d v).reverse := by
  refine List.ext_getElem (by simp) fun i hi _ => ?_
  simp only [List.length_set, List.length_reverse] at hi
  simp only [List.getElem_set, List.getElem_reverse, List.length_set]
  by_cases hd : vs.length - 1 - d = i
  · rw [if_pos hd, if_pos (by omega)]
  · rw [if_neg hd, if_neg (by omega)]

theorem setPeek_state {d : Nat} (h : d < vs.length) :
    setPeek d v (g.state σ slots vs ip) = .ok () (g.state σ slots (vs.set d v) ip) := by
  have hstack : (g.stack vs).setIfInBounds ((g.stack vs).size - 1 - d) v = g.stack (vs.set d v) := by
    refine stack_eq ?_
    rw [Array.toList_setIfInBounds, toList_stack, size_stack,
      List.set_append_right _ _ (by simp; omega), ← set_reverse h]
    congr 2
    simp
    omega
  show EStateM.Result.ok () _ = _
  simp only [state, hstack]

theorem popMany_state (ws : List Value) :
    popMany ws.length (g.state σ slots (ws.reverse ++ vs) ip) = .ok ws (g.state σ slots vs ip) := by
  have hlist : (g.stack (ws.reverse ++ vs)).toList = (g.stack vs).toList ++ ws := by
    simp [toList_stack]
  have hsize : (g.stack (ws.reverse ++ vs)).size - ws.length = (g.stack vs).size := by
    simp
    omega
  have hitems : ((g.stack (ws.reverse ++ vs)).extract (g.stack vs).size
      (g.stack (ws.reverse ++ vs)).size).toList = ws := by
    rw [Array.toList_extract, hlist, List.extract_eq_take_drop, List.drop_left' (by simp),
      List.take_of_length_le (by simp; omega)]
  have hrest : (g.stack (ws.reverse ++ vs)).shrink (g.stack vs).size = g.stack vs := by
    rw [← Array.toList_inj, Array.toList_shrink, hlist, List.take_left' (by simp)]
  have hle : ws.length ≤ (g.stack (ws.reverse ++ vs)).size := by
    simp
    omega
  unfold popMany
  simp only [state, hsize, if_pos hle, hitems, hrest]

theorem truncate_state (ws : List Value) :
    truncate (g.values.size + vs.length) (g.state σ slots (ws ++ vs) ip) =
      .ok () (g.state σ slots vs ip) := by
  have hrest : (g.stack (ws ++ vs)).shrink (g.values.size + vs.length) = g.stack vs := by
    rw [← Array.toList_inj, Array.toList_shrink, toList_stack, List.reverse_append,
      ← List.append_assoc, List.take_left' (by simp), toList_stack]
  show EStateM.Result.ok () _ = _
  simp only [state, hrest]

/-! ## Variables -/

theorem newCell_state (d : Datum) :
    newCell d.toValue (g.state σ slots vs ip) =
      .ok (g.cell σ.length) (g.state (σ ++ [d]) slots vs ip) := by
  simp [newCell, state, cell, Heap.addCell]

theorem heap_cell_state (i : Nat) :
    (g.state σ slots vs ip).heap.cell (g.cell i) = (σ.getD i .nil).toValue := by
  have hget : (g.cells ++ (σ.map Datum.toValue).toArray)[g.cells.size + i]? =
      σ[i]?.map Datum.toValue := by
    rw [Array.getElem?_append_right (by omega)]
    simp
  simp only [Heap.cell, state, cell, Array.getD_eq_getD_getElem?, hget, List.getD_eq_getElem?_getD]
  cases σ[i]? <;> rfl

theorem setCell_state (i : Nat) (d : Datum) :
    modifyHeap (·.setCell (g.cell i) d.toValue) (g.state σ slots vs ip) =
      .ok () (g.state (σ.set i d) slots vs ip) := by
  have hset : (g.cells ++ (σ.map Datum.toValue).toArray).setIfInBounds (g.cells.size + i) d.toValue =
      g.cells ++ ((σ.set i d).map Datum.toValue).toArray := by
    rw [Array.setIfInBounds_append_right (by omega)]
    simp
  show EStateM.Result.ok () _ = _
  simp only [state, Heap.setCell, cell, hset]

theorem topFrameOr_state (missing : Fault) :
    topFrameOr missing (g.state σ slots vs ip) =
      .ok { g.frame with locals := slots } (g.state σ slots vs ip) := by
  simp [topFrameOr, state]

/-- Changing the innermost frame. -/
theorem modify_push (frames : Array Frame) (x : Frame) (f : Frame → Frame) :
    (frames.push x).modify ((frames.push x).size - 1) f = frames.push (f x) := by
  refine Array.ext_getElem? fun i => ?_
  rw [Array.getElem?_modify, Array.getElem?_push, Array.getElem?_push]
  by_cases hi : i = frames.size
  · simp [hi]
  · rw [if_neg (by simp; omega), if_neg hi, if_neg hi]

theorem setLocals_state (change : Slots → Slots) :
    modifyTopFrame (fun f => { f with locals := change f.locals }) (g.state σ slots vs ip) =
      .ok () (g.state σ (change slots) vs ip) := by
  show EStateM.Result.ok () _ = _
  simp only [state, modify_push]

theorem declareLocal_state (slot : Nat) (d : Datum) :
    declareLocal slot d.toValue (g.state σ slots vs ip) =
      .ok () (g.state (σ ++ [d]) (setSlot slots slot (g.cell σ.length)) vs ip) := by
  unfold declareLocal topFrame
  rw [bind_ok (topFrameOr_state _), bind_ok (newCell_state d)]
  exact setLocals_state (setSlot · slot (g.cell σ.length))

theorem localCell_state {slot : Nat} {cell : CellId} (missing : Fault)
    (h : slots[slot]? = some (some cell)) :
    localCell missing slot (g.state σ slots vs ip) = .ok cell (g.state σ slots vs ip) := by
  unfold localCell
  rw [bind_ok (topFrameOr_state missing)]
  simp only [h]
  rfl

/-- A slot holds the cell that it was given, and every other one what it held. -/
theorem getElem?_setSlot_self (slots : Slots) (slot : Nat) (cell : CellId) :
    (setSlot slots slot cell)[slot]? = some (some cell) := by
  unfold setSlot
  split
  · next h => exact Array.getElem?_setIfInBounds_self_of_lt h
  · next h =>
    have hsize : (slots ++ Array.replicate (slot - slots.size) none).size = slot := by
      simp
      omega
    rw [Array.getElem?_push, if_pos hsize.symm]

theorem getElem?_setSlot_of_ne {slots : Slots} {slot i : Nat} {c : CellId} (cell : CellId)
    (hne : i ≠ slot) (h : slots[i]? = some (some c)) :
    (setSlot slots slot cell)[i]? = some (some c) := by
  have hi : i < slots.size := (Array.getElem?_eq_some_iff.1 h).1
  unfold setSlot
  split
  · rw [Array.getElem?_setIfInBounds_ne hne.symm, h]
  · rw [Array.getElem?_push, if_neg (by simp; omega), Array.getElem?_append_left hi, h]

theorem scriptFrame?_state :
    (g.state σ slots vs ip).processor.scriptFrame? = some { g.frame with locals := slots } := by
  have hindex : (g.state σ slots vs ip).processor.scriptFrameIndex? = some g.frames.size := by
    simp [Processor.scriptFrameIndex?, state, Processor.scriptFrameIndex?.go]
  unfold Processor.scriptFrame?
  simp only [hindex]
  simp [state]

/-- A declared variable is read from its cell. -/
theorem readSymbol_state {name : String} {slot i : Nat}
    (h : slots[slot]? = some (some (g.cell i))) :
    g.reentry.readSymbol (.local name slot) (g.state σ slots vs ip) =
      .ok (σ.getD i .nil).toValue (g.state σ slots vs ip) := by
  have hcell : (g.state σ slots vs ip).cellOf? (.local name slot) = some (g.cell i) := by
    unfold World.cellOf?
    simp only [scriptFrame?_state, h]
  show EStateM.Result.ok _ _ = _
  simp only [World.readCell, hcell, heap_cell_state]

theorem assignSymbol_state {name : String} {slot i : Nat} (d : Datum)
    (h : slots[slot]? = some (some (g.cell i))) :
    g.reentry.assignSymbol (.local name slot) d.toValue (g.state σ slots vs ip) =
      .ok () (g.state (σ.set i d) slots vs ip) := by
  unfold Reentry.assignSymbol
  dsimp only
  rw [bind_ok (localCell_state _ h), Datum.scalar_toValue]
  exact setCell_state i d

/-! ## Instructions -/

/-- The chunk goes on for some instructions. -/
def Passes (g : Setting) (k : Nat) (w w' : World) : Prop := g.reentry.Passes g.depth k w w'

/-- The chunk fails with an error that has the message of a fault. -/
def Fails (g : Setting) (w : World) (f : Fault) : Prop :=
  ∃ k e w', g.reentry.run g.depth k w = .error (.error (.runtime e)) w' ∧ e.message = f.message

theorem exists_instruction (g : Setting) (σ : Store) (slots : Slots) (vs : List Value) {ip : Nat}
    {op : OpCode} (hop : g.code ip = some op) : ∃ span,
    ((g.state σ slots vs ip).scripts.getD (g.state σ slots vs ip).active.index default).code.instruction?
      (g.state σ slots vs ip).processor.ip = some ⟨op, span⟩ := by
  obtain ⟨i, hi, rfl⟩ := Option.map_eq_some_iff.1 hop
  exact ⟨i.span, hi⟩

theorem hear_state (i : Instruction) :
    Reentry.hear ((g.state σ slots vs ip).scripts.getD (g.state σ slots vs ip).active.index default) i
      (g.state σ slots vs ip) = .ok () (g.state σ slots vs ip) :=
  Reentry.hear_unattended (w := g.state σ slots vs ip) g.unattended i

theorem passes_step {op : OpCode} {w' : World} (hop : g.code ip = some op)
    (hstep : ∀ span, g.reentry.step g.depth ⟨op, span⟩ (g.state σ slots vs ip) = .ok none w') :
    g.Passes 1 (g.state σ slots vs ip) w' :=
  .one (w := g.state σ slots vs ip) g.unattended hop hstep

/-- A runtime error keeps its message on its way out. -/
theorem trace_state (g : Setting) (σ : Store) (slots : Slots) (vs : List Value) (ip : Nat) (e : RuntimeError)
    (place : Option Span) :
    ∃ e', trace (.runtime e) place (g.state σ slots vs ip) = .ok (.runtime e') (g.state σ slots vs ip) ∧
      e'.message = e.message := by
  have hscript : script (g.state σ slots vs ip) =
      .ok (g.world.scripts.getD g.world.active.index default) (g.state σ slots vs ip) := rfl
  unfold trace
  dsimp only
  rw [bind_ok hscript, bind_ok (processor_eq _)]
  simp only [g.unattended]
  refine ⟨_, rfl, ?_⟩
  have hmessage : ∀ e' : RuntimeError, ∀ names,
      (if e'.callStack.isEmpty = true then { e' with callStack := names } else e').message =
        e'.message := by
    intro e' names
    split <;> rfl
  rw [hmessage]
  cases place with
  | none => rfl
  | some span => exact e.message_decorate _ _

theorem fails_step {op : OpCode} {f : Fault} {vs' : List Value} (hop : g.code ip = some op)
    (hstep : ∀ span, g.reentry.step g.depth ⟨op, span⟩ (g.state σ slots vs ip) =
      .error (.error (.ofFault f)) (g.state σ slots vs' ip)) :
    g.Fails (g.state σ slots vs ip) f := by
  obtain ⟨span, hi⟩ := g.exists_instruction σ slots vs hop
  obtain ⟨e, he, hmessage⟩ := g.trace_state σ slots vs' ip (.ofFault f) span
  refine ⟨1, e, g.state σ slots vs' ip, ?_, hmessage⟩
  rw [Reentry.run_eq _ _ _ hi, bind_ok (hear_state _)]
  unfold Reentry.stepThen
  rw [hstep span]
  dsimp only
  exact bind_ok he

/-- Most instructions do something and go on to the next one. -/
theorem passes_onward {op : OpCode} {x : Exec Unit} {σ' : Store} {slots' : Slots} {vs' : List Value}
    (hop : g.code ip = some op)
    (hx : ∀ span, g.reentry.step g.depth ⟨op, span⟩ = (do x; advance; return none))
    (h : x (g.state σ slots vs ip) = .ok () (g.state σ' slots' vs' ip)) :
    g.Passes 1 (g.state σ slots vs ip) (g.state σ' slots' vs' (ip + 1)) := by
  refine passes_step hop fun span => ?_
  rw [hx, bind_ok h]
  rfl

theorem fails_onward {op : OpCode} {x : Exec Unit} {f : Fault} {vs' : List Value}
    (hop : g.code ip = some op)
    (hx : ∀ span, g.reentry.step g.depth ⟨op, span⟩ = (do x; advance; return none))
    (h : x (g.state σ slots vs ip) = .error (.error (.ofFault f)) (g.state σ slots vs' ip)) :
    g.Fails (g.state σ slots vs ip) f := by
  exact fails_step hop fun span => (congrFun (hx span) _).trans (bind_error h)

theorem passes_literal (d : Datum) (hop : g.code ip = some (.literal d.toValue)) :
    g.Passes 1 (g.state σ slots vs ip) (g.state σ slots (d.toValue :: vs) (ip + 1)) :=
  passes_onward hop (fun _ => rfl) push_state

theorem passes_load {name : String} {slot i : Nat} (hop : g.code ip = some (.load (.local name slot)))
    (h : slots[slot]? = some (some (g.cell i))) :
    g.Passes 1 (g.state σ slots vs ip)
      (g.state σ slots ((σ.getD i .nil).toValue :: vs) (ip + 1)) :=
  passes_onward hop (fun _ => rfl) ((bind_ok (readSymbol_state h)).trans push_state)

theorem passes_pop (ws : List Value) (hop : g.code ip = some (.pop ws.length)) :
    g.Passes 1 (g.state σ slots (ws ++ vs) ip) (g.state σ slots vs (ip + 1)) := by
  refine passes_onward hop (fun _ => rfl) ?_
  have hsize : (g.state σ slots (ws ++ vs) ip).processor.values.size =
      g.values.size + vs.length + ws.length := by
    simp only [state, size_stack, List.length_append]
    omega
  rw [bind_ok (processor_eq _)]
  dsimp only
  rw [hsize, Nat.add_sub_cancel]
  split
  · omega
  · exact truncate_state ws

theorem passes_makeTuple (ds : List Datum) (hop : g.code ip = some (.makeTuple ds.length)) :
    g.Passes 1 (g.state σ slots ((ds.map Datum.toValue).reverse ++ vs) ip)
      (g.state σ slots (.ofList (ds.map Datum.toValue) :: vs) (ip + 1)) := by
  refine passes_onward hop (fun _ => rfl) ?_
  have hmany : popMany (ds.map Datum.toValue).length
      (g.state σ slots ((ds.map Datum.toValue).reverse ++ vs) ip) = _ := popMany_state _
  rw [List.length_map] at hmany
  rw [bind_ok hmany, Datum.flatten_toValue]
  exact push_state

theorem passes_local {slot i : Nat} (ds : List Datum) (hop : g.code ip = some (.local slot i)) :
    g.Passes 1 (g.state σ slots (.ofList (ds.map Datum.toValue) :: vs) ip)
      (g.state (σ ++ [ds.getD i .nil]) (setSlot slots slot (g.cell σ.length))
        (.ofList (ds.map Datum.toValue) :: vs) (ip + 1)) := by
  refine passes_onward hop (fun _ => rfl) ?_
  rw [bind_ok (peek_state (d := 0) rfl), Datum.nth_ofList]
  exact declareLocal_state slot _

theorem passes_store {name : String} {slot i j : Nat} (ds : List Datum)
    (hop : g.code ip = some (.store (.local name slot) j))
    (h : slots[slot]? = some (some (g.cell i))) :
    g.Passes 1 (g.state σ slots (.ofList (ds.map Datum.toValue) :: vs) ip)
      (g.state (σ.set i (ds.getD j .nil)) slots (.ofList (ds.map Datum.toValue) :: vs) (ip + 1)) := by
  refine passes_onward hop (fun _ => rfl) ?_
  rw [bind_ok (peek_state (d := 0) rfl), Datum.nth_ofList]
  exact assignSymbol_state _ h

/-! ### Jumps -/

theorem jump_state (target : Nat) :
    jump target (g.state σ slots vs ip) = .ok () (g.state σ slots vs target) := by
  have hsafe : safepoint (g.state σ slots vs ip) = .ok () (g.state σ slots vs ip) := by
    unfold safepoint
    have huncancelled : (g.state σ slots vs ip).cancelled.getD (g.state σ slots vs ip).token false =
        false := g.uncancelled
    rw [huncancelled]
    rfl
  have haddress : address (g.state σ slots vs ip) = .ok ip (g.state σ slots vs ip) := rfl
  unfold jump
  rw [bind_ok haddress]
  split
  · rw [bind_ok hsafe]
    rfl
  · rfl

theorem passes_jump {target : Nat} (hop : g.code ip = some (.jump target)) :
    g.Passes 1 (g.state σ slots vs ip) (g.state σ slots vs target) :=
  passes_step hop fun _ => bind_ok (jump_state target)

theorem passes_jumpIfFalse {target : Nat} (d : Datum)
    (hop : g.code ip = some (.jumpIfFalse target)) :
    g.Passes 1 (g.state σ slots (d.toValue :: vs) ip)
      (g.state σ slots vs (if d.isTruthy then ip + 1 else target)) := by
  refine passes_step hop fun span => ?_
  refine (bind_ok pop_state).trans ?_
  rw [Datum.isTruthy_toValue]
  cases d.isTruthy with
  | true => rfl
  | false => exact bind_ok (jump_state target)

/-- An operand that decides stays on the stack, and the other one is passed over. -/
theorem passes_logical {op : LogicalOp} {target : Nat} (d : Datum)
    (hop : g.code ip = some (op.opCode target)) :
    g.Passes 1 (g.state σ slots (d.toValue :: vs) ip)
      (if op.decides d then g.state σ slots (d.toValue :: vs) target
        else g.state σ slots vs (ip + 1)) := by
  refine passes_step hop fun span => ?_
  cases op <;>
  · refine (bind_ok (peek_state (d := 0) rfl)).trans ?_
    rw [Datum.isTruthy_toValue]
    cases hd : d.isTruthy <;>
    · simp only [LogicalOp.decides, hd, Bool.not_true, Bool.not_false, Bool.false_eq_true, if_true,
        if_false]
      first
        | exact bind_ok (jump_state target)
        | exact (bind_ok pop_state).trans rfl

/-! ### Operators -/

/-- The chunk comes to a value on the stack, or it fails. -/
def Gives (g : Setting) (w : World) (σ : Store) (slots : Slots) (vs : List Value) (ip : Nat) :
    Except Fault Datum → Prop
  | .ok d => ∃ k, g.Passes k w (g.state σ slots (d.toValue :: vs) ip)
  | .error f => g.Fails w f

/-- An operation on the stack. -/
theorem gives_comes {op : OpCode} {x : Exec Value} {y : Exec Unit} {vs' : List Value}
    {result : Except Fault Datum} (hop : g.code ip = some op)
    (hy : ∀ span, g.reentry.step g.depth ⟨op, span⟩ = (do y; advance; return none))
    (hyx : y (g.state σ slots vs ip) = (x >>= push) (g.state σ slots vs' ip))
    (h : Comes x result) : g.Gives (g.state σ slots vs ip) σ slots vs' (ip + 1) result := by
  cases result with
  | ok d => exact ⟨1, passes_onward hop hy (hyx.trans ((bind_ok (h _)).trans push_state))⟩
  | error f => exact fails_onward hop hy (hyx.trans (bind_error (h _)))

theorem gives_binary {op : BinaryOp} (a b : Datum) (hop : g.code ip = some (.binary op)) :
    g.Gives (g.state σ slots (b.toValue :: a.toValue :: vs) ip) σ slots vs (ip + 1)
      (op.apply a b) :=
  gives_comes hop (fun _ => rfl) ((bind_ok pop_state).trans (bind_ok pop_state))
    (Reentry.comes_binary g.reentry op a b)

theorem gives_unary {op : UnaryOp} (d : Datum) (hop : g.code ip = some op.opCode) :
    g.Gives (g.state σ slots (d.toValue :: vs) ip) σ slots vs (ip + 1) (op.apply d) := by
  cases op with
  | not =>
    refine gives_comes hop (fun _ => rfl) (x := pure (.boolean !d.isTruthy)) ?_ fun _ => rfl
    refine (bind_ok pop_state).trans ?_
    rw [Datum.isTruthy_toValue]
    rfl
  | neg => exact gives_comes hop (fun _ => rfl) (bind_ok pop_state) (Reentry.comes_negate _ d)
  | len => exact gives_comes hop (fun _ => rfl) (bind_ok pop_state) (Reentry.comes_length _ d)

/-! ### Numeric loops -/

theorem loopNumber_state (g : Setting) (σ : Store) (slots : Slots) (ip : Nat) {i : Nat} {d : Datum}
    (what : String) (h : vs[i]? = some d.toValue) :
    loopNumber i what (g.state σ slots vs ip) = match d.control what with
      | .ok n => .ok n (g.state σ slots vs ip)
      | .error f => .error (.error (.ofFault f)) (g.state σ slots vs ip) := by
  unfold loopNumber Datum.control
  rw [bind_ok (peek_state h), Datum.toNumber?_toValue]
  cases d.toNumber? <;> rfl

variable {x y z : Number}

/-- The three numbers of a loop, on top of the stack. -/
theorem loopNumbers_state (g : Setting) (σ : Store) (slots : Slots) (vs : List Value) (ip : Nat)
    (a b c : Datum) (next : Number → Number → Number → Exec Unit) :
    (do
      let x ← loopNumber 2 "initial value"
      let y ← loopNumber 1 "limit"
      let z ← loopNumber 0 "step"
      next x y z) (g.state σ slots (c.toValue :: b.toValue :: a.toValue :: vs) ip) =
    match Datum.controls a b c with
    | .ok (x, y, z) => next x y z (g.state σ slots (c.toValue :: b.toValue :: a.toValue :: vs) ip)
    | .error f => .error (.error (.ofFault f))
        (g.state σ slots (c.toValue :: b.toValue :: a.toValue :: vs) ip) := by
  have hfirst := g.loopNumber_state σ slots ip "initial value"
    (show (c.toValue :: b.toValue :: a.toValue :: vs)[2]? = some a.toValue from rfl)
  have hlimit := g.loopNumber_state σ slots ip "limit"
    (show (c.toValue :: b.toValue :: a.toValue :: vs)[1]? = some b.toValue from rfl)
  have hstep := g.loopNumber_state σ slots ip "step"
    (show (c.toValue :: b.toValue :: a.toValue :: vs)[0]? = some c.toValue from rfl)
  unfold Datum.controls
  cases ha : a.control "initial value" with
  | error f =>
    rw [ha] at hfirst
    exact bind_error hfirst
  | ok x =>
    rw [ha] at hfirst
    refine (bind_ok hfirst).trans ?_
    cases hb : b.control "limit" with
    | error f =>
      rw [hb] at hlimit
      exact bind_error hlimit
    | ok y =>
      rw [hb] at hlimit
      refine (bind_ok hlimit).trans ?_
      cases hc : c.control "step" with
      | error f =>
        rw [hc] at hstep
        exact bind_error hstep
      | ok z =>
        rw [hc] at hstep
        exact bind_ok hstep

/-- A loop is prepared, or the chunk fails. -/
theorem passes_forPrep (σ : Store) (slots : Slots) (vs : List Value) (a b c : Datum) (hop : g.code ip = some .forPrep) :
    match Datum.controls a b c with
    | .ok (x, y, z) => g.Passes 1 (g.state σ slots (c.toValue :: b.toValue :: a.toValue :: vs) ip)
        (g.state σ slots (.number z :: .number y :: .number x :: vs) (ip + 1))
    | .error f => g.Fails (g.state σ slots (c.toValue :: b.toValue :: a.toValue :: vs) ip) f := by
  have hsize : ¬ (g.state σ slots (c.toValue :: b.toValue :: a.toValue :: vs)
      ip).processor.values.size < 3 := by
    simp only [state, size_stack, List.length_cons]
    omega
  have hnumbers := g.loopNumbers_state σ slots vs ip a b c fun x y z => do
      setPeek 2 (.number x)
      setPeek 1 (.number y)
      setPeek 0 (.number z)
  cases h : Datum.controls a b c with
  | error f =>
    rw [h] at hnumbers
    exact fails_onward hop (fun _ => rfl)
      ((bind_ok (processor_eq _)).trans ((congrFun (if_neg hsize) _).trans hnumbers))
  | ok p =>
    obtain ⟨x, y, z⟩ := p
    rw [h] at hnumbers
    refine passes_onward hop (fun _ => rfl)
      ((bind_ok (processor_eq _)).trans ((congrFun (if_neg hsize) _).trans (hnumbers.trans ?_)))
    dsimp only
    rw [bind_ok (setPeek_state (by simp)), bind_ok (setPeek_state (by simp))]
    exact setPeek_state (by simp)

theorem loopState_state :
    loopState (g.state σ slots (.number z :: .number y :: .number x :: vs) ip) =
      .ok (x, y, z) (g.state σ slots (.number z :: .number y :: .number x :: vs) ip) := by
  unfold loopState
  dsimp only
  rw [bind_ok (peek_state (d := 2) rfl), bind_ok (peek_state (d := 1) rfl),
    bind_ok (peek_state (d := 0) rfl)]
  rfl

theorem passes_forLoop {exit : Nat} (hop : g.code ip = some (.forLoop exit)) :
    g.Passes 1 (g.state σ slots (.number z :: .number y :: .number x :: vs) ip)
      (g.state σ slots (.number z :: .number y :: .number x :: vs)
        (if x.beyond y z then exit else ip + 1)) := by
  refine passes_step hop fun span => ?_
  refine (bind_ok loopState_state).trans ?_
  show (if x.beyond y z = true then _ else _ : Exec _) _ = _
  cases x.beyond y z <;> rfl

theorem passes_forVar {slot : Nat} (hop : g.code ip = some (.forVar slot)) :
    g.Passes 1 (g.state σ slots (.number z :: .number y :: .number x :: vs) ip)
      (g.state (σ ++ [.number x]) (setSlot slots slot (g.cell σ.length))
        (.number z :: .number y :: .number x :: vs) (ip + 1)) := by
  refine passes_onward hop (fun _ => rfl) ?_
  rw [bind_ok (peek_state (d := 2) rfl)]
  exact declareLocal_state slot (.number x)

theorem passes_forStep (hop : g.code ip = some .forStep) :
    g.Passes 1 (g.state σ slots (.number z :: .number y :: .number x :: vs) ip)
      (g.state σ slots (.number z :: .number y :: .number (x.add z) :: vs) (ip + 1)) := by
  refine passes_onward hop (fun _ => rfl) ?_
  rw [bind_ok loopState_state]
  exact setPeek_state (by simp)

/-! ### Returning -/

/-- The chunk returns some values. -/
def Returns (g : Setting) (w : World) (ds : List Datum) : Prop :=
  ∃ k w', g.reentry.run g.depth k w = .ok (.returned (.ofList (ds.map Datum.toValue))) w'

theorem leaveFrame_state {n : Nat} {v : Value} {vs' : List Value}
    (h : (if n == 0 then pure .void else pop) (g.state σ slots vs ip) =
      .ok v (g.state σ slots vs' ip)) :
    ∃ w', leaveFrame g.depth n (g.state σ slots vs ip) = .ok (some (.returned v)) w' := by
  have hback : (g.state σ slots vs' ip).processor.frames.back? =
      some (.script { g.frame with locals := slots }) := by
    simp [state]
  unfold leaveFrame
  cases hn : n == 0 <;>
  · simp only [hn, Bool.false_eq_true, if_false, if_true] at h ⊢
    rw [bind_ok h, bind_ok (processor_eq _)]
    simp only [hback, Frame.returnAddress, g.returnAddress]
    exact ⟨_, rfl⟩

theorem returns_ret {n : Nat} {vs' : List Value} (ds : List Datum)
    (hop : g.code ip = some (.ret n))
    (h : (if n == 0 then pure .void else pop) (g.state σ slots vs ip) =
      .ok (.ofList (ds.map Datum.toValue)) (g.state σ slots vs' ip)) :
    g.Returns (g.state σ slots vs ip) ds := by
  obtain ⟨span, hi⟩ := g.exists_instruction σ slots vs hop
  obtain ⟨w', hw'⟩ := leaveFrame_state h
  refine ⟨1, w', ?_⟩
  rw [Reentry.run_eq _ _ _ hi, bind_ok (hear_state _)]
  unfold Reentry.stepThen
  have hstep : g.reentry.step g.depth ⟨.ret n, span⟩ (g.state σ slots vs ip) =
      .ok (some (.returned (.ofList (ds.map Datum.toValue)))) w' := hw'
  rw [hstep]

/-- The last values of a chunk are on the stack. -/
theorem returns_top (ds : List Datum) (hop : g.code ip = some (.ret 1)) :
    g.Returns (g.state σ slots (.ofList (ds.map Datum.toValue) :: vs) ip) ds :=
  returns_ret ds hop pop_state

theorem returns_nothing (hop : g.code ip = some (.ret 0)) :
    g.Returns (g.state σ slots vs ip) [] :=
  returns_ret [] hop rfl

end Setting

end LuaMachine
