import LuaMachine.Proofs.Machine.Calm

/-!
# The activation of a function

A script function runs in a frame of its own above the stacks of its caller. `Activation.At` says how
the processor looks while it does: the frame is the topmost one, some number of values lie above its
base, and the next instruction is at some address. Each instruction is shown to keep to this, as the
verifier foresees: it finds its operands above the base and leaves the foreseen number of values
(`Activation.stays_step`). Only calls and returns change the frame.

An error leaves the activation where it is, with everything of the caller still below it
(`Activation.Remains`).
-/

namespace LuaMachine

open Exec

namespace Activation

variable {A : Activation} {k k' x : Nat} {p : Processor} {α β : Type}

/-- The function is running, wherever it is and however many values it has. -/
def Remains (A : Activation) (p : Processor) : Prop := ∃ k x, A.At k x p

theorem At.remains (h : A.At k x p) : A.Remains p := ⟨k, x, h⟩

theorem Remains.under (h : A.Remains p) : A.outer.Under p :=
  let ⟨_, _, hat⟩ := h
  hat.under

/-- A computation in the frame of the function takes the number of its values from `k` to `k'`. -/
def Takes (A : Activation) (k k' : Nat) (e : Exec α) : Prop :=
  ∀ x, Moves (A.At k x) e (fun _ => A.At k' x) A.Remains

theorem Takes.bind {j : Nat} {e : Exec α} {f : α → Exec β} (he : A.Takes k j e)
    (hf : ∀ a, A.Takes j k' (f a)) : A.Takes k k' (e >>= f) :=
  fun x => (he x).bind fun a => hf a x

theorem takes_of_calm {e : Exec α} (he : Calm e) : A.Takes k k e := fun x =>
  (he.moves (A.At k x)).mono (fun _ => id) (fun _ _ => id) fun _ => At.remains

theorem moves_modifyProcessor {φ ψ ε : Processor → Prop} {f : Processor → Processor}
    (hf : ∀ p, φ p → ψ (f p)) : Moves φ (modifyProcessor f) (fun _ => ψ) ε :=
  fun _ => .of_ok rfl (World.follows_of_eq rfl) (hf _)

/-- A change of the processor that keeps to the frame of the function. -/
theorem takes_modifyProcessor {f : Processor → Processor}
    (hf : ∀ x p, A.At k x p → A.At k' x (f p)) : A.Takes k k' (modifyProcessor f) :=
  fun x => moves_modifyProcessor (hf x)

/-! ### Values -/

theorem takes_push (v : Value) : A.Takes k (k + 1) (push v) :=
  takes_modifyProcessor fun _ _ h => h.push v

theorem takes_pushAll (vs : List Value) : A.Takes k (k + vs.length) (pushAll vs) := by
  induction vs generalizing k with
  | nil => exact takes_of_calm (calm_pure _)
  | cons v vs ih =>
    refine (takes_push v).bind fun _ => ?_
    rw [List.length_cons, Nat.add_comm vs.length, ← Nat.add_assoc]
    exact ih

/-- Dropping some of the function's own values. -/
theorem At.drop {n : Nat} (hn : n ≤ k) (h : A.At k x p) :
    A.At (k - n) x { p with values := p.values.shrink (p.values.size - n) } := by
  obtain ⟨f, own, hf, hk, rfl⟩ := h
  refine ⟨f, own.take (k - n), hf, ?_, ?_⟩
  · rw [Array.size_extract]
    omega
  · have hsize : (A.outer.values ++ own).size - n = A.outer.values.size + (k - n) := by
      rw [Array.size_append]
      omega
    have htake : (A.outer.values ++ own).take (A.outer.values.size + (k - n)) =
        A.outer.values ++ own.take (k - n) := by
      rw [Array.take, Array.extract_append, Array.extract_eq_self_of_le (by omega)]
      simp
    simp only [Array.shrink_eq_take, hsize, htake]

theorem takes_pop (hk : 1 ≤ k) : A.Takes k (k - 1) pop := by
  intro x w
  cases hv : w.processor.values.back? with
  | none =>
    have hpop : pop w = .error (.error (.ofFault .stackUnderflow)) w := by
      simp only [pop, hv]
    exact .of_error hpop (.refl w) At.remains
  | some v =>
    have hpop : pop w = .ok v { w with processor :=
        { w.processor with values := w.processor.values.pop } } := by
      simp only [pop, hv]
    refine .of_ok hpop (World.follows_of_eq rfl) fun h => ?_
    have hdrop := h.drop hk
    rw [Array.shrink_eq_take, Array.take, Array.extract_eq_pop rfl] at hdrop
    exact hdrop

theorem takes_popMany {n : Nat} (hn : n ≤ k) : A.Takes k (k - n) (popMany n) := by
  intro x w
  by_cases hsize : n ≤ w.processor.values.size
  · refine .of_ok (if_pos hsize) (World.follows_of_eq rfl) fun h => ?_
    exact h.drop hn
  · refine .of_error (if_neg hsize) (.refl w) At.remains

/-- Replacing one of the function's own values. -/
theorem takes_setPeek {n : Nat} (hn : n < k) (v : Value) : A.Takes k k (setPeek n v) := by
  refine takes_modifyProcessor fun x p => ?_
  rintro ⟨f, own, hf, hk, rfl⟩
  refine ⟨f, own.setIfInBounds (own.size - 1 - n) v, hf, by rw [Array.size_setIfInBounds, hk], ?_⟩
  have hplace : (A.outer.values ++ own).size - 1 - n - A.outer.values.size = own.size - 1 - n := by
    rw [Array.size_append]
    omega
  simp only
  rw [Array.setIfInBounds_append_right (by rw [Array.size_append]; omega), hplace]

/-! ### The frame -/

theorem modify_push (as : Array α) (a : α) (f : α → α) :
    (as.push a).modify as.size f = as.push (f a) := by
  apply Array.ext_getElem?
  intro i
  rw [Array.getElem?_modify, Array.getElem?_push, Array.getElem?_push]
  by_cases hi : i = as.size
  · simp [hi]
  · rw [if_neg hi, if_neg hi, if_neg (Ne.symm hi)]

theorem takes_modifyTopFrame {g : ScriptFrame → ScriptFrame}
    (hg : ∀ f, (g f).closure = f.closure ∧ (g f).base = f.base ∧
      (g f).returnAddress = f.returnAddress) : A.Takes k k (modifyTopFrame g) := by
  refine takes_modifyProcessor fun x p => ?_
  rintro ⟨f, own, ⟨hclosure, hbase, hreturn⟩, hk, rfl⟩
  obtain ⟨hc, hb, hr⟩ := hg f
  refine ⟨g f, own, ⟨hc.trans hclosure, hb.trans hbase, hr.trans hreturn⟩, hk, ?_⟩
  simp only [Array.size_push, Nat.add_sub_cancel, modify_push]

theorem takes_declareLocal (slot : Nat) (v : Value) : A.Takes k k (declareLocal slot v) := by
  refine (takes_of_calm (aside_topFrameOr _).calm).bind fun _ => ?_
  refine (takes_of_calm (calm_newCell v)).bind fun cell => ?_
  exact takes_modifyTopFrame fun f => ⟨rfl, rfl, rfl⟩

theorem takes_declareLocals (slot : Nat) (vs : List Value) :
    A.Takes k k (declareLocals slot vs) := by
  induction vs generalizing slot with
  | nil => exact takes_of_calm (calm_pure _)
  | cons v vs ih => exact (takes_declareLocal slot v).bind fun _ => ih (slot + 1)

theorem takes_localCell (missing : Fault) (slot : Nat) : A.Takes k k (localCell missing slot) := by
  unfold localCell
  refine (takes_of_calm (aside_topFrameOr missing).calm).bind fun f => ?_
  split
  · exact takes_of_calm (calm_pure _)
  · refine (takes_of_calm (calm_newCell .nil)).bind fun cell => ?_
    refine Takes.bind (takes_modifyTopFrame ?_) fun _ => takes_of_calm (calm_pure _)
    exact fun f => ⟨rfl, rfl, rfl⟩

theorem takes_bindArguments (params : Nat) (varargs : Bool) :
    A.Takes k k (bindArguments params varargs) := by
  unfold bindArguments
  refine (takes_of_calm (aside_topFrameOr _).calm).bind fun f => ?_
  refine Takes.bind (takes_modifyTopFrame ?_) fun _ => (takes_declareLocals _ _).bind fun _ => ?_
  · exact fun f => ⟨rfl, rfl, rfl⟩
  · split
    · exact takes_modifyTopFrame fun f => ⟨rfl, rfl, rfl⟩
    · exact takes_of_calm (calm_pure _)

/-! ### Variables -/

variable {r : Reentry} {w : World}

theorem calm_setCell (cell : CellId) (v : Value) : Calm (modifyHeap (·.setCell cell v)) :=
  calm_modifyHeap (fun _ => rfl) fun _ => rfl

theorem takes_assignSymbol (hr : r.Calm) (s : Symbol) (v : Value) :
    A.Takes k k (r.assignSymbol s v) := by
  cases s with
  | «local» name slot =>
    exact (takes_localCell _ slot).bind fun cell => takes_of_calm (calm_setCell cell _)
  | upvalue name i =>
    unfold Reentry.assignSymbol
    refine (takes_of_calm calm_get).bind fun w => ?_
    split
    · exact takes_of_calm (calm_setCell _ _)
    · exact takes_of_calm (calm_fail _)
  | global name env =>
    unfold Reentry.assignSymbol
    refine (takes_of_calm (hr.alike.readSymbol env)).bind fun v => ?_
    split
    · exact takes_of_calm (hr.alike.setIndex _ _ _)
    · exact takes_of_calm (calm_fail _)
  | defaultEnv => exact takes_of_calm (calm_fail _)

theorem takes_capture (hr : r.Calm) (s : Symbol) : A.Takes k k (r.capture s) := by
  cases s with
  | «local» name slot => exact takes_localCell _ slot
  | upvalue name i =>
    unfold Reentry.capture
    refine (takes_of_calm calm_get).bind fun w => ?_
    split
    · exact takes_of_calm (calm_pure _)
    · exact takes_of_calm (calm_fail _)
  | global name env =>
    exact (takes_of_calm (hr.alike.readSymbol _)).bind fun v => takes_of_calm (calm_newCell v)
  | defaultEnv => exact (takes_of_calm calm_get).bind fun w => takes_of_calm (calm_newCell _)

theorem takes_captures (hr : r.Calm) (captures : List Symbol) :
    A.Takes k k (captures.mapM fun s => do return (s.name, ← r.capture s)) := by
  induction captures with
  | nil => exact takes_of_calm (calm_pure _)
  | cons s captures ih =>
    rw [List.mapM_cons]
    refine Takes.bind ?_ fun _ => ih.bind fun _ => takes_of_calm (calm_pure _)
    exact (takes_capture hr s).bind fun _ => takes_of_calm (calm_pure _)

/-- A new closure of a function of the running script. -/
theorem keeps_makeClosure (hr : r.Calm) {entry : Nat} (captures : List Symbol)
    (hentry : w.Genuine → ∀ s : Script, w.scripts[w.active.index]? = some s →
      s.code.HasHeader entry) :
    (r.makeClosure entry captures).Keeps w (A.At k x w.processor)
      (fun _ w' => A.At k x w'.processor) (fun w' => A.Remains w'.processor) := by
  refine (takes_captures hr captures x w).bind fun cells w' hw' => .get_bind ?_
  refine .of_ok rfl (World.follows_addClosure rfl fun hc => ?_) id
  have hheader : w.HasHeader ⟨w'.active, entry, cells.toArray⟩ := by
    intro s hs
    rw [hw'.later.active] at hs
    exact hentry (hw'.later.genuine hc) s hs
  exact hw'.later.hasHeader hheader

/-! ### Tables and loops -/

theorem takes_prepareIteration (triple : Value) :
    A.Takes k (k + 3) (prepareIteration triple) := by
  unfold prepareIteration
  refine (takes_of_calm (aside_metamethod? _ _).calm).bind fun handler? => ?_
  split
  · exact (takes_of_calm (aside_newCallback _).calm).bind fun v => takes_pushAll _
  · exact takes_pushAll _

/-! ### Control -/

theorem moves_goTo (y : Nat) {ε : Processor → Prop} :
    Moves (A.At k x) (goTo y) (fun _ => A.At k y) ε := by
  refine moves_modifyProcessor ?_
  rintro _ ⟨f, own, hf, hk, rfl⟩
  exact ⟨f, own, hf, hk, rfl⟩

theorem moves_advance {ε : Processor → Prop} :
    Moves (A.At k x) advance (fun _ => A.At k (x + 1)) ε := by
  refine moves_modifyProcessor ?_
  rintro _ ⟨f, own, hf, hk, rfl⟩
  exact ⟨f, own, hf, hk, rfl⟩

theorem moves_jump (y : Nat) : Moves (A.At k x) (jump y) (fun _ => A.At k y) A.Remains := by
  have haddress : Calm address := calm_get.bind fun _ => calm_pure _
  have hsafe : A.Takes k k safepoint := takes_of_calm aside_safepoint.calm
  unfold jump
  refine (takes_of_calm haddress x).bind fun here => ?_
  dsimp only
  split
  · exact (hsafe x).bind fun _ => moves_goTo y
  · exact moves_goTo y

/-- An instruction keeps to the frame, and control passes on as the verifier foresees. -/
def Stays (A : Activation) (op : OpCode) (k x : Nat) (e : Exec (Option Exit)) (w : World) : Prop :=
  e.Keeps w (A.At k x w.processor)
    (fun exit w' => exit = none ∧ ∃ y d, (y, d) ∈ op.next x k ∧ A.At d y w'.processor)
    (fun w' => A.Remains w'.processor)

/-- The end of an instruction after which control is at an address. -/
theorem moves_done {op : OpCode} {y d : Nat} {ε : Processor → Prop}
    (hnext : (y, d) ∈ op.next x k) :
    Moves (A.At d y) (pure none : Exec (Option Exit))
      (fun exit p => exit = none ∧ ∃ y d, (y, d) ∈ op.next x k ∧ A.At d y p) ε :=
  fun w => .of_ok rfl (.refl w) fun h => ⟨rfl, y, d, hnext, h⟩

theorem moves_onward {op : OpCode} {d : Nat} {ε : Processor → Prop}
    (hnext : (x + 1, d) ∈ op.next x k) :
    Moves (A.At d x) (do advance; return none : Exec (Option Exit))
      (fun exit p => exit = none ∧ ∃ y d, (y, d) ∈ op.next x k ∧ A.At d y p) ε :=
  moves_advance.bind fun _ => moves_done hnext

theorem moves_away {op : OpCode} {y d : Nat} (hnext : (y, d) ∈ op.next x k) :
    Moves (A.At d x) (do jump y; return none : Exec (Option Exit))
      (fun exit p => exit = none ∧ ∃ y d, (y, d) ∈ op.next x k ∧ A.At d y p) A.Remains :=
  (moves_jump y).bind fun _ => moves_done hnext

theorem stays_onward {op : OpCode} {body : Exec Unit} (hbody : A.Takes k (op.leaves k) body)
    (hnext : (x + 1, op.leaves k) ∈ op.next x k) :
    A.Stays op k x (do body; advance; return none) w :=
  (hbody x w).bind fun _ w' _ => moves_onward hnext w'

theorem takes_drop {n : Nat} (hn : n ≤ k) : A.Takes k (k - n) (do
    let size := (← processor).values.size
    if size < n then fail .stackUnderflow
    truncate (size - n)) := by
  intro x w
  refine .processor_bind ?_
  have htruncate : (truncate (w.processor.values.size - n)).Keeps w (A.At k x w.processor)
      (fun _ w' => A.At (k - n) x w'.processor) (fun w' => A.Remains w'.processor) :=
    .of_ok rfl (World.follows_of_eq rfl) (·.drop hn)
  dsimp only
  split
  · exact .of_error rfl (.refl w) At.remains
  · exact htruncate

/-- The result of an operation takes the place of its last operand. -/
theorem takes_replace (v : Value) (hk : 1 ≤ k) : A.Takes (k - 1) k (push v) := by
  have hpush := takes_push (A := A) (k := k - 1) v
  rw [Nat.sub_add_cancel hk] at hpush
  exact hpush

theorem takes_forPrep (hk : 3 ≤ k) : A.Takes k k (do
    if (← processor).values.size < 3 then fail .stackUnderflow
    let first ← loopNumber 2 "initial value"
    let limit ← loopNumber 1 "limit"
    let step ← loopNumber 0 "step"
    setPeek 2 (.number first)
    setPeek 1 (.number limit)
    setPeek 0 (.number step)) := by
  have hbody : A.Takes k k (do
      let first ← loopNumber 2 "initial value"
      let limit ← loopNumber 1 "limit"
      let step ← loopNumber 0 "step"
      setPeek 2 (.number first)
      setPeek 1 (.number limit)
      setPeek 0 (.number step)) := by
    refine (takes_of_calm (aside_loopNumber 2 _).calm).bind fun first => ?_
    refine (takes_of_calm (aside_loopNumber 1 _).calm).bind fun limit => ?_
    refine (takes_of_calm (aside_loopNumber 0 _).calm).bind fun step => ?_
    refine (takes_setPeek (by omega) _).bind fun _ => (takes_setPeek (by omega) _).bind fun _ => ?_
    exact takes_setPeek (by omega) _
  refine (takes_of_calm calm_processor).bind fun p => ?_
  dsimp only
  split
  · exact (takes_of_calm (calm_fail _)).bind fun _ => hbody
  · exact hbody

/-- Every instruction but a call and a return keeps to the frame; a closure is to be made of a
function. -/
theorem stays_step (hr : r.Calm) (depth : Nat) (i : Instruction) (hneeds : i.op.needs ≤ k)
    (hcall : ∀ n, i.op ≠ .call n) (hret : ∀ n, i.op ≠ .ret n)
    (hclosure : ∀ entry captures, i.op = .closure entry captures → w.Genuine →
      ∀ s : Script, w.scripts[w.active.index]? = some s → s.code.HasHeader entry) :
    A.Stays i.op k x (r.step depth i) w := by
  obtain ⟨op, span⟩ := i
  have hnext : ∀ {y d : Nat}, y = x + 1 → d = op.leaves k → op.next x k = [(y, d)] →
      (x + 1, op.leaves k) ∈ op.next x k := by
    rintro y d rfl rfl h
    rw [h]
    exact List.mem_singleton_self _
  cases op with
  | call n => exact absurd rfl (hcall n)
  | ret n => exact absurd rfl (hret n)
  | closure entry captures =>
    have hmake := keeps_makeClosure (A := A) (k := k) (x := x) hr captures
      (hclosure entry captures rfl)
    refine (hmake.bind fun v w' _ => takes_push v x w').bind fun _ w' _ => ?_
    exact moves_onward (List.mem_singleton_self _) w'
  | nop => exact stays_onward (takes_of_calm (calm_pure ())) (hnext rfl rfl rfl)
  | header name kind n => exact stays_onward (takes_of_calm (calm_pure ())) (hnext rfl rfl rfl)
  | beginFn locals =>
    refine stays_onward ((takes_of_calm (aside_topFrameOr _).calm).bind fun _ => ?_) (hnext rfl rfl rfl)
    exact takes_modifyTopFrame fun f => ⟨rfl, rfl, rfl⟩
  | args params varargs =>
    exact stays_onward (takes_bindArguments params varargs) (hnext rfl rfl rfl)
  | literal v => exact stays_onward (takes_push v) (hnext rfl rfl rfl)
  | pop n => exact stays_onward (takes_drop hneeds) (hnext rfl rfl rfl)
  | copy n =>
    exact stays_onward ((takes_of_calm (aside_peek n).calm).bind takes_push) (hnext rfl rfl rfl)
  | load s =>
    exact stays_onward ((takes_of_calm (hr.alike.readSymbol s)).bind takes_push) (hnext rfl rfl rfl)
  | store s j =>
    refine stays_onward ((takes_of_calm (aside_peek 0).calm).bind fun v => ?_) (hnext rfl rfl rfl)
    exact takes_assignSymbol hr s _
  | «local» slot j =>
    refine stays_onward ((takes_of_calm (aside_peek 0).calm).bind fun v => ?_) (hnext rfl rfl rfl)
    exact takes_declareLocal slot _
  | varargs =>
    refine stays_onward ((takes_of_calm (aside_topFrameOr _).calm).bind fun f => ?_) (hnext rfl rfl rfl)
    exact takes_push _
  | method name =>
    refine stays_onward ((takes_pop hneeds).bind fun object => ?_) (hnext rfl rfl rfl)
    refine (takes_of_calm (hr.alike.index object _)).bind fun v => (takes_push v).bind fun _ => ?_
    have hone : k - 1 + 1 = k := Nat.sub_add_cancel hneeds
    rw [hone]
    exact takes_push object
  | jump t => exact moves_away (List.mem_singleton_self _) w
  | jumpIfFalse t =>
    refine (takes_pop hneeds x _).bind fun v w' _ => ?_
    dsimp only
    split
    · exact moves_onward (List.mem_cons_of_mem _ (List.mem_singleton_self _)) _
    · exact moves_away List.mem_cons_self _
  | jumpFalseOrPop t =>
    refine (takes_of_calm (aside_peek 0).calm x _).bind fun v w' _ => ?_
    dsimp only
    split
    · refine (takes_pop hneeds x _).bind fun _ w' _ => ?_
      exact moves_onward (List.mem_cons_of_mem _ (List.mem_singleton_self _)) _
    · exact moves_away List.mem_cons_self _
  | jumpTrueOrPop t =>
    refine (takes_of_calm (aside_peek 0).calm x _).bind fun v w' _ => ?_
    dsimp only
    split
    · exact moves_away List.mem_cons_self _
    · refine (takes_pop hneeds x _).bind fun _ w' _ => ?_
      exact moves_onward (List.mem_cons_of_mem _ (List.mem_singleton_self _)) _
  | binary op =>
    have htwo : 2 ≤ k := hneeds
    refine stays_onward ((takes_pop (by omega)).bind fun b => ?_) (hnext rfl rfl rfl)
    refine (takes_pop (by omega)).bind fun a => ?_
    exact (takes_of_calm (hr.alike.binary op a b)).bind fun v => takes_replace v (by omega)
  | not =>
    exact stays_onward ((takes_pop hneeds).bind fun v => takes_replace _ hneeds)
      (hnext rfl rfl rfl)
  | neg =>
    refine stays_onward ((takes_pop hneeds).bind fun v => ?_) (hnext rfl rfl rfl)
    exact (takes_of_calm (hr.alike.negate v)).bind fun v => takes_replace v hneeds
  | len =>
    refine stays_onward ((takes_pop hneeds).bind fun v => ?_) (hnext rfl rfl rfl)
    exact (takes_of_calm (hr.alike.length v)).bind fun v => takes_replace v hneeds
  | newTable =>
    exact stays_onward ((takes_of_calm (aside_newTable {}).calm).bind takes_push) (hnext rfl rfl rfl)
  | tableSet =>
    have hthree : 3 ≤ k := hneeds
    refine stays_onward ((takes_pop (by omega)).bind fun value => ?_) (hnext rfl rfl rfl)
    refine (takes_pop (by omega)).bind fun key => ?_
    exact takes_of_calm (aside_tableOnTop.calm.bind fun id => (aside_setIndex id _ value).calm)
  | tableAppend j expand =>
    have htwo : 2 ≤ k := hneeds
    refine stays_onward ((takes_pop (by omega)).bind fun value => ?_) (hnext rfl rfl rfl)
    exact takes_of_calm (aside_tableOnTop.calm.bind fun id => (aside_storeItems id j _).calm)
  | index =>
    have htwo : 2 ≤ k := hneeds
    refine stays_onward ((takes_pop (by omega)).bind fun key => ?_) (hnext rfl rfl rfl)
    refine (takes_pop (by omega)).bind fun object => ?_
    exact (takes_of_calm (hr.alike.index object _)).bind fun v => takes_replace v (by omega)
  | indexSet j =>
    have hthree : 3 ≤ k := hneeds
    refine stays_onward ((takes_pop (by omega)).bind fun key => ?_) (hnext rfl rfl rfl)
    refine (takes_pop (by omega)).bind fun object => ?_
    exact takes_of_calm ((aside_peek 0).calm.bind fun v => hr.alike.setIndex object _ _)
  | makeTuple n =>
    exact stays_onward ((takes_popMany hneeds).bind fun vs => takes_push _) (hnext rfl rfl rfl)
  | scalar =>
    exact stays_onward ((takes_pop hneeds).bind fun v => takes_replace _ hneeds)
      (hnext rfl rfl rfl)
  | forPrep =>
    have hthree : 3 ≤ k := hneeds
    exact stays_onward (takes_forPrep hthree) (hnext rfl rfl rfl)
  | forLoop exit =>
    refine (takes_of_calm aside_loopState.calm x _).bind fun state w' _ => ?_
    dsimp only
    split
    · exact (moves_goTo exit _).bind fun _ w' _ => moves_done List.mem_cons_self w'
    · exact moves_onward (List.mem_cons_of_mem _ (List.mem_singleton_self _)) _
  | forStep =>
    have hthree : 3 ≤ k := hneeds
    refine stays_onward ((takes_of_calm aside_loopState.calm).bind fun state => ?_) (hnext rfl rfl rfl)
    exact takes_setPeek (by omega) _
  | forVar slot =>
    refine stays_onward ((takes_of_calm (aside_peek 2).calm).bind fun v => ?_) (hnext rfl rfl rfl)
    exact takes_declareLocal slot v
  | iterPrep =>
    exact stays_onward ((takes_pop hneeds).bind takes_prepareIteration) (hnext rfl rfl rfl)
  | iterCheck exit =>
    have hfour : 4 ≤ k := hneeds
    refine (takes_pop (by omega) x _).bind fun result w' _ => ?_
    dsimp only
    split
    · exact (moves_goTo exit _).bind fun _ w' _ => moves_done List.mem_cons_self w'
    · refine (takes_of_calm (aside_peek 0).calm x _).bind fun _ w' _ => ?_
      refine (takes_setPeek (by omega) _ x _).bind fun _ w' _ => ?_
      refine (takes_replace result (by omega) x _).bind fun _ w' _ => ?_
      exact moves_onward (List.mem_cons_of_mem _ (List.mem_singleton_self _)) _

end Activation

end LuaMachine
