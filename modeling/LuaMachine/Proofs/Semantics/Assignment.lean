import LuaMachine.Proofs.Machine.Running
import LuaMachine.Proofs.Semantics.Generated
import LuaMachine.Proofs.Semantics.Setting

/-!
# Assignments to several targets

An assignment evaluates all its values first, and then it assigns them, target by target from the left.
What a target stands for, its variable or the table and the key, is found when it is its turn, after
the assignments to the targets in front of it (`Heap.assignInTurn`), and not before all of them
(`Heap.assignAtOnce`). The two differ where an assignment changes what a later target reads, as in
`i, a[i] = i + 1, 20` (`assignInTurn_ne_assignAtOnce`).

Values and targets are made of literals, local names, operators on values without identity, and
accesses to tables without metatables here (`Expr.Readable`), which call nothing.
-/

namespace LuaMachine

open Exec

/-! ## Meaning -/

/-- A value without an identity. -/
def Value.toDatum? : Value → Option Datum
  | .nil => some .nil
  | .boolean b => some (.boolean b)
  | .number n => some (.number n)
  | .string s => some (.string s)
  | _ => none

theorem Value.eq_toValue {v : Value} {d : Datum} (h : v.toDatum? = some d) : v = d.toValue := by
  cases v <;> cases h <;> rfl

/-- An expression of literals, visible names, operators and accesses to tables. -/
def Expr.Readable (names : List String) : Expr → Prop
  | nil | boolean _ | number _ | string _ => True
  | name n => n ∈ names
  | paren e => e.Readable names
  | binary _ left right => left.Readable names ∧ right.Readable names
  | index object key => object.Readable names ∧ key.Readable names
  | _ => False

/-- An assignment goes to a visible name or into a table. -/
def Expr.Assignable (names : List String) : Expr → Prop
  | name n => n ∈ names
  | index object key => object.Readable names ∧ key.Readable names
  | _ => False

/-- The cell of a visible name in a frame. -/
def Visible.cell? (vis : Visible) (locals : Slots) (name : String) : Option CellId := do
  let slot ← vis.slot? name
  locals[slot]?.join

namespace Heap

variable (ρ : String → Option CellId)

/-- What a table without a metatable has at a key. -/
def getPlain? (h : Heap) (key : Value) : Value → Option Value
  | .table id =>
    if (h.table id).metatable.isNone then
      some (if (h.getIndex id key).isNil then .nil else h.getIndex id key)
    else none
  | _ => none

/-- The value of an expression, where it is found without a call. -/
def read (h : Heap) : Expr → Option Value
  | .nil => some .nil
  | .boolean b => some (.boolean b)
  | .number n => some (.number n)
  | .string s => some (.string s)
  | .name n => (ρ n).map h.cell
  | .paren e => h.read e
  | .binary op left right => do
    let a ← (← h.read left).toDatum?
    let b ← (← h.read right).toDatum?
    (op.apply a b).toOption.map Datum.toValue
  | .index object key => do
    let o ← h.read object
    let k ← h.read key
    h.getPlain? k.scalar o
  | _ => none

/-- What an assignment goes to. -/
inductive Place where
  | variable (cell : CellId)
  | entry (id : TableId) (key : Value)

/-- What a target stands for. -/
def place? (h : Heap) : Expr → Option Place
  | .name n => (ρ n).map .variable
  | .index object key => do
    match ← h.read ρ object with
    | .table id => return .entry id (← h.read ρ key).scalar
    | _ => none
  | _ => none

/-- Assign to a variable, or into a table without a metatable. -/
def put? (h : Heap) (v : Value) : Place → Option Heap
  | .variable cell => some (h.setCell cell v.scalar)
  | .entry id key =>
    if (h.table id).metatable.isNone then (h.setIndex id key v).toOption else none

/-- Assign the items of a value to targets, each of which is looked at when it is its turn. -/
def assignInTurn (v : Value) : Nat → List Expr → Heap → Option Heap
  | _, [], h => some h
  | i, e :: rest, h => do
    let p ← h.place? ρ e
    let h' ← h.put? (v.nth i) p
    assignInTurn v (i + 1) rest h'

/-- Assign the items of a value to places. -/
def putAll (v : Value) : Nat → List Place → Heap → Option Heap
  | _, [], h => some h
  | i, p :: rest, h => do
    let h' ← h.put? (v.nth i) p
    putAll v (i + 1) rest h'

/-- Assign the items of a value to targets, all of which are looked at first. -/
def assignAtOnce (v : Value) (i : Nat) (targets : List Expr) (h : Heap) : Option Heap := do
  let ps ← targets.mapM (h.place? ρ)
  putAll v i ps h

end Heap

/-! ## The machine at work -/

namespace World

/-- The world with another heap, other values and another next address. -/
def placed (w : World) (h : Heap) (values : Array Value) (ip : Nat) : World :=
  { w with heap := h, processor := { w.processor with values, ip } }

/-- A world that runs code in a frame with given slots, and no debugger is there. -/
structure RunsIn (w : World) (code : Listing) (locals : Slots) : Prop where
  ops : w.ops = code
  unattended : (w.scripts.getD w.active.index default).debug.debugger = none
  frame : ∃ f, w.processor.frames.back? = some (.script f) ∧ f.locals = locals

end World

variable {w : World} {code : Listing} {locals : Slots} {h h' h'' : Heap} {stk stk' stk'' : Array Value}
  {a b d : Nat} {v : Value} {f : ScriptFrame}

theorem Processor.scriptFrame?_of_back? {p : Processor} (hback : p.frames.back? = some (.script f)) :
    p.scriptFrame? = some f := by
  have hsize : p.frames.size ≠ 0 := by
    intro hzero
    rw [Array.back?, Array.getElem?_eq_none (by omega)] at hback
    cases hback
  obtain ⟨n, hn⟩ := Nat.exists_eq_succ_of_ne_zero hsize
  have hget : p.frames[n]? = some (.script f) := by
    rw [Array.back?, hn] at hback
    exact hback
  unfold scriptFrame? scriptFrameIndex?
  rw [hn]
  simp only [scriptFrameIndex?.go, hget]

namespace World

theorem push_placed : push v (w.placed h stk a) = .ok () (w.placed h (stk.push v) a) := rfl

theorem pop_placed : pop (w.placed h (stk.push v) a) = .ok v (w.placed h stk a) := by
  simp [pop, placed]

theorem peek_placed : peek 0 (w.placed h (stk.push v) a) = .ok v (w.placed h (stk.push v) a) := by
  simp [peek, placed]

theorem popMany_placed (vs : List Value) :
    popMany vs.length (w.placed h (stk ++ vs.toArray) a) = .ok vs (w.placed h stk a) := by
  have hsize : (stk ++ vs.toArray).size - vs.length = stk.size := by simp
  have hle : vs.length ≤ (stk ++ vs.toArray).size := by simp
  have hitems : ((stk ++ vs.toArray).extract stk.size (stk ++ vs.toArray).size).toList = vs := by simp
  have hrest : (stk ++ vs.toArray).shrink stk.size = stk := by simp
  unfold popMany placed
  simp only [hsize, if_pos hle, hitems, hrest]

end World

/-- Running code takes a heap, the values on the stack and the next address to others, in whatever world
the code runs. -/
def Listing.Leads (code : Listing) (locals : Slots) (a : Nat) (h : Heap) (stk : Array Value) (b : Nat)
    (h' : Heap) (stk' : Array Value) : Prop :=
  ∀ (r : Reentry) (depth : Nat) (w : World), w.RunsIn code locals →
    ∃ k, r.Passes depth k (w.placed h stk a) (w.placed h' stk' b)

namespace Listing.Leads

theorem refl (code : Listing) (locals : Slots) (a : Nat) (h : Heap) (stk : Array Value) :
    code.Leads locals a h stk a h stk := fun _ _ _ _ => ⟨0, .refl⟩

theorem trans (h₁ : code.Leads locals a h stk b h' stk') (h₂ : code.Leads locals b h' stk' d h'' stk'') :
    code.Leads locals a h stk d h'' stk'' := by
  intro r depth w hw
  obtain ⟨k₁, hk₁⟩ := h₁ r depth w hw
  obtain ⟨k₂, hk₂⟩ := h₂ r depth w hw
  exact ⟨k₁ + k₂, hk₁.trans hk₂⟩

/-- One instruction, which goes on to the next one. -/
theorem onward {op : OpCode} {x : Reentry → Exec Unit} (hop : code a = some op)
    (hx : ∀ r depth span, Reentry.step r depth ⟨op, span⟩ = (do x r; advance; return none))
    (hdo : ∀ (r : Reentry) (w : World), w.RunsIn code locals →
      x r (w.placed h stk a) = .ok () (w.placed h' stk' a)) :
    code.Leads locals a h stk (a + 1) h' stk' := by
  intro r depth w hw
  have hcode : w.ops a = some op := hw.ops ▸ hop
  refine ⟨1, .one (w := w.placed h stk a) hw.unattended hcode fun span => ?_⟩
  rw [hx, bind_ok (hdo r w hw)]
  rfl

theorem literal (hop : code a = some (.literal v)) :
    code.Leads locals a h stk (a + 1) h (stk.push v) :=
  onward hop (fun _ _ _ => rfl) fun _ _ _ => World.push_placed

/-! ### Reading -/

theorem cellOf?_placed {vis : Visible} {name : String} {slot : Nat} {cell : CellId}
    (hw : w.RunsIn code locals) (hslot : vis.slot? name = some slot)
    (hcell : vis.cell? locals name = some cell) :
    (w.placed h stk a).cellOf? (.local name slot) = some cell := by
  obtain ⟨f, hback, rfl⟩ := hw.frame
  have hframe : (w.placed h stk a).processor.scriptFrame? = some f :=
    Processor.scriptFrame?_of_back? hback
  unfold Visible.cell? at hcell
  rw [hslot] at hcell
  replace hcell : f.locals[slot]?.join = some cell := hcell
  unfold World.cellOf?
  rw [hframe]
  dsimp only
  cases hget : f.locals[slot]? with
  | none =>
    rw [hget] at hcell
    cases hcell
  | some c =>
    rw [hget] at hcell
    exact hcell

theorem load {vis : Visible} {name : String} {slot : Nat} {cell : CellId}
    (hop : code a = some (.load (.local name slot))) (hslot : vis.slot? name = some slot)
    (hcell : vis.cell? locals name = some cell) :
    code.Leads locals a h stk (a + 1) h (stk.push (h.cell cell)) := by
  refine onward hop (fun _ _ _ => rfl) fun r w hw => ?_
  have hread : r.readSymbol (.local name slot) (w.placed h stk a) =
      .ok (h.cell cell) (w.placed h stk a) := by
    have hfound : (w.placed h stk a).cellOf? (.local name slot) = some cell :=
      cellOf?_placed hw hslot hcell
    change EStateM.Result.ok ((w.placed h stk a).readCell (.local name slot)) _ = _
    unfold World.readCell
    dsimp only
    rw [hfound]
    rfl
  exact (bind_ok hread).trans World.push_placed

theorem binary {op : BinaryOp} {x y d : Datum} (hop : code a = some (.binary op))
    (happly : op.apply x y = .ok d) :
    code.Leads locals a h ((stk.push x.toValue).push y.toValue) (a + 1) h (stk.push d.toValue) := by
  refine onward hop (fun _ _ _ => rfl) fun r w _ => ?_
  have hcomes := r.comes_binary op x y
  rw [happly] at hcomes
  exact (bind_ok World.pop_placed).trans ((bind_ok World.pop_placed).trans
    ((bind_ok (hcomes _)).trans World.push_placed))

theorem metamethod?_placed {id : TableId} (hplain : (h.table id).metatable.isNone = true)
    (event : String) :
    metamethod? (.table id) event (w.placed h stk a) = .ok none (w.placed h stk a) := by
  have hnone : (h.table id).metatable = none := Option.isNone_iff_eq_none.1 hplain
  have hmeta : h.metamethod? (.table id) event = none := by
    unfold Heap.metamethod?
    dsimp only
    rw [hnone]
  change EStateM.Result.ok (h.metamethod? (.table id) event) _ = _
  rw [hmeta]

theorem index {o k : Value} (hop : code a = some .index) (hget : h.getPlain? k.scalar o = some v) :
    code.Leads locals a h ((stk.push o).push k) (a + 1) h (stk.push v) := by
  refine onward hop (fun _ _ _ => rfl) fun r w _ => ?_
  refine (bind_ok World.pop_placed).trans ((bind_ok World.pop_placed).trans ?_)
  have hindex : r.index o k.scalar (w.placed h stk a) = .ok v (w.placed h stk a) := by
    cases o with
    | table id =>
      unfold Heap.getPlain? at hget
      dsimp only at hget
      split at hget
      · next hplain =>
        have hheap : heap (w.placed h stk a) = .ok h (w.placed h stk a) := rfl
        change r.indexFrom k.scalar 100 (.table id) (w.placed h stk a) = _
        unfold Reentry.indexFrom
        dsimp only
        rw [bind_ok hheap]
        cases hnil : (h.getIndex id k.scalar).isNil with
        | true =>
          rw [hnil] at hget
          cases hget
          exact bind_ok (metamethod?_placed hplain _)
        | false =>
          rw [hnil] at hget
          cases hget
          rfl
      · cases hget
    | _ => cases hget
  exact (bind_ok hindex).trans World.push_placed

/-! ### Assigning -/

theorem store {vis : Visible} {name : String} {slot i : Nat} {cell : CellId} {t : Value}
    (hop : code a = some (.store (.local name slot) i)) (hslot : vis.slot? name = some slot)
    (hcell : vis.cell? locals name = some cell) :
    code.Leads locals a h (stk.push t) (a + 1) (h.setCell cell (t.nth i).scalar) (stk.push t) := by
  refine onward hop (fun _ _ _ => rfl) fun r w hw => ?_
  refine (bind_ok World.peek_placed).trans ?_
  obtain ⟨f, hback, rfl⟩ := hw.frame
  have hback : (w.placed h (stk.push t) a).processor.frames.back? = some (.script f) := hback
  have hframe : topFrameOr .noScriptFrame (w.placed h (stk.push t) a) =
      .ok f (w.placed h (stk.push t) a) := by
    simp only [topFrameOr, hback]
  unfold Visible.cell? at hcell
  rw [hslot] at hcell
  replace hcell : f.locals[slot]?.join = some cell := hcell
  have hlocal : localCell .noScriptFrame slot (w.placed h (stk.push t) a) =
      .ok cell (w.placed h (stk.push t) a) := by
    unfold localCell
    rw [bind_ok hframe]
    rw [Option.join_eq_some_iff.1 hcell]
    rfl
  exact bind_ok hlocal

theorem indexSet {i : Nat} {o k t : Value} {id : TableId} (hop : code a = some (.indexSet i))
    (ho : o = .table id) (hput : h.put? (t.nth i) (.entry id k.scalar) = some h') :
    code.Leads locals a h (((stk.push t).push o).push k) (a + 1) h' (stk.push t) := by
  subst ho
  refine onward hop (fun _ _ _ => rfl) fun r w _ => ?_
  refine (bind_ok World.pop_placed).trans ((bind_ok World.pop_placed).trans
    ((bind_ok World.peek_placed).trans ?_))
  unfold Heap.put? at hput
  dsimp only at hput
  split at hput
  · next hplain =>
    have hset : Exec.setIndex id k.scalar (t.nth i) (w.placed h (stk.push t) a) =
        .ok () (w.placed h' (stk.push t) a) := by
      unfold Heap.setIndex at hput
      unfold Exec.setIndex
      cases hkey : Key.ofValue k.scalar with
      | error e =>
        rw [hkey] at hput
        cases hput
      | ok key =>
        rw [hkey] at hput
        cases hput
        rfl
    have hheap : heap (w.placed h (stk.push t) a) = .ok h (w.placed h (stk.push t) a) := rfl
    change r.setIndexFrom k.scalar (t.nth i) 100 (.table id) (w.placed h (stk.push t) a) = _
    unfold Reentry.setIndexFrom
    dsimp only
    rw [bind_ok hheap]
    split
    · exact hset
    · exact (bind_ok (metamethod?_placed hplain _)).trans hset
  · cases hput

theorem makeTuple {vs : List Value} (hop : code a = some (.makeTuple vs.length)) :
    code.Leads locals a h (stk ++ vs.toArray) (a + 1) h
      (stk.push (.ofList (Value.flatten vs))) :=
  onward hop (fun _ _ _ => rfl) fun _ _ _ =>
    (bind_ok (World.popMany_placed vs)).trans World.push_placed

theorem drop (hop : code a = some (.pop 1)) :
    code.Leads locals a h (stk.push v) (a + 1) h stk := by
  refine onward hop (fun _ _ _ => rfl) fun r w _ => ?_
  have hsize : (w.placed h (stk.push v) a).processor.values.size = stk.size + 1 := Array.size_push ..
  refine (bind_ok (processor_eq _)).trans ?_
  dsimp only
  rw [hsize, if_neg (by omega), Nat.add_sub_cancel]
  have hshrink : (stk.push v).shrink stk.size = stk := by simp
  change EStateM.Result.ok () (w.placed h ((stk.push v).shrink stk.size) a) = _
  rw [hshrink]

end Listing.Leads

/-! ## The code of assignments -/

namespace Gen

variable {α β : Type}

/-- A step succeeds from a site, and what it gives and the site it leaves satisfy `Q`. -/
def Yields (x : Gen α) (s : Site) (Q : α → Site → Prop) : Prop := ∃ a s', x s = .ok (a, s') ∧ Q a s'

theorem Yields.bind {x : Gen α} {f : α → Gen β} {s : Site} {P : α → Site → Prop}
    {Q : β → Site → Prop} (hx : x.Yields s P) (hf : ∀ a s', P a s' → (f a).Yields s' Q) :
    (x >>= f).Yields s Q := by
  obtain ⟨a, s₁, hok, hP⟩ := hx
  obtain ⟨b, s₂, hok', hQ⟩ := hf a s₁ hP
  refine ⟨b, s₂, ?_, hQ⟩
  change (x s >>= fun p => f p.1 p.2) = _
  rw [hok]
  exact hok'

theorem Yields.mono {x : Gen α} {s : Site} {P Q : α → Site → Prop} (hx : x.Yields s P)
    (hPQ : ∀ a s', P a s' → Q a s') : x.Yields s Q := by
  obtain ⟨a, s', hok, hP⟩ := hx
  exact ⟨a, s', hok, hPQ a s' hP⟩

theorem yields_pure {a : α} {s : Site} {Q : α → Site → Prop} (hQ : Q a s) :
    (pure a : Gen α).Yields s Q := ⟨a, s, rfl, hQ⟩

/-- Code of one instruction. -/
theorem yields_emit (op : OpCode) (s : Site) :
    (emit op).Yields s fun c s' => Pushes s c s' fun code =>
      code s.address = some op ∧ s'.address = s.address + 1 :=
  ⟨_, _, rfl, (Pushes.op s op).imp fun _ hop => ⟨hop, rfl⟩⟩

theorem yields_resolve {name : String} {s : Site} (hname : name ∈ s.names) :
    (resolve name).Yields s fun symbol s' => s' = s ∧
      ∃ slot, s.scopes.visible.slot? name = some slot ∧ symbol = .local name slot := by
  obtain ⟨slot, hslot, hresolve⟩ := ScopeStack.resolve_visible hname
  refine ⟨.local name slot, s, ?_, rfl, slot, hslot, rfl⟩
  unfold resolve
  rw [hresolve]

/-- The code from one address up to another reads an expression. -/
def Reads (vis : Visible) (e : Expr) (a b : Nat) (code : Listing) : Prop :=
  ∀ {locals : Slots} {h : Heap} {v : Value} (stk : Array Value),
    h.read (vis.cell? locals) e = some v → code.Leads locals a h stk b h (stk.push v)

theorem scalarAfter_readable {names : List String} {e : Expr} (he : e.Readable names) :
    scalarAfter e = pure [] := by
  have hone : e.isMultiValue = false := by
    cases e with
    | varargs | call | methodCall => cases he
    | _ => rfl
  rw [scalarAfter, hone]
  rfl

theorem yields_literal {e : Expr} {v : Value} (s : Site) (he : expr e = emit (.literal v))
    (hread : ∀ (ρ : String → Option CellId) (h : Heap), h.read ρ e = some v) :
    (expr e).Yields s fun c s' =>
      Pushes s c s' (Reads s.scopes.visible e s.address s'.address) := by
  rw [he]
  refine (yields_emit _ s).mono fun c s' h => h.imp ?_
  rintro code ⟨hop, hnext⟩ locals h v' stk hv
  rw [hread] at hv
  cases hv
  rw [hnext]
  exact .literal hop

theorem yields_name (n : String) (s : Site) (hn : n ∈ s.names) :
    (expr (.name n)).Yields s fun c s' =>
      Pushes s c s' (Reads s.scopes.visible (.name n) s.address s'.address) := by
  rw [expr]
  refine (yields_resolve hn).bind ?_
  rintro symbol s' ⟨rfl, slot, hslot, rfl⟩
  refine (yields_emit _ s').mono fun c s₁ h => h.imp ?_
  rintro code ⟨hop, hnext⟩ locals h v stk hv
  obtain ⟨cell, hcell, rfl⟩ := Option.map_eq_some_iff.1 hv
  rw [hnext]
  exact .load hop hslot hcell

/-- The code of an operation on two expressions. -/
def operation (e e' : Expr) (op : OpCode) : Gen Code := do
  let c ← expr e
  let c' ← expr e'
  return c ++ c' ++ (← emit op)

/-- An operation has two values on the stack. -/
theorem yields_operation {e e' : Expr} {s : Site} (op : OpCode)
    (he : (expr e).Yields s fun c s' =>
      Pushes s c s' (Reads s.scopes.visible e s.address s'.address))
    (he' : ∀ s₁ : Site, s₁.scopes = s.scopes → (expr e').Yields s₁ fun c s' =>
      Pushes s₁ c s' (Reads s₁.scopes.visible e' s₁.address s'.address)) :
    (operation e e' op).Yields s fun c s' => Pushes s c s' fun code =>
      ∃ m, code m = some op ∧ s'.address = m + 1 ∧
        ∀ {locals : Slots} {h : Heap} {v v' : Value} (stk : Array Value),
          h.read (s.scopes.visible.cell? locals) e = some v →
          h.read (s.scopes.visible.cell? locals) e' = some v' →
          code.Leads locals s.address h stk m h ((stk.push v).push v') := by
  refine he.bind fun c s₁ h₁ => (he' s₁ h₁.scopes).bind fun c' s₂ h₂ =>
    (yields_emit op s₂).bind fun c'' s₃ h₃ => yields_pure ?_
  rw [h₁.scopes] at h₂
  refine ((h₁.seq h₂).seq h₃).imp ?_
  rintro code ⟨⟨hread, hread'⟩, hop, hnext⟩
  refine ⟨s₂.address, hop, hnext, ?_⟩
  intro locals h v v' stk hv hv'
  exact (hread stk hv).trans (hread' (stk.push v) hv')

theorem yields_expr : ∀ (e : Expr) (s : Site), e.Readable s.names →
    (expr e).Yields s fun c s' =>
      Pushes s c s' (Reads s.scopes.visible e s.address s'.address)
  | .nil, s, _ => yields_literal s (by rw [expr]) fun _ _ => rfl
  | .boolean b, s, _ => yields_literal s (by rw [expr]) fun _ _ => rfl
  | .number n, s, _ => yields_literal s (by rw [expr]) fun _ _ => rfl
  | .string t, s, _ => yields_literal s (by rw [expr]) fun _ _ => rfl
  | .name n, s, hn => yields_name n s hn
  | .paren e, s, he => by
    have hinner : e.Readable s.names := he
    rw [expr, scalarAfter_readable hinner]
    simp only [pure_bind, List.append_nil]
    exact (yields_expr e s hinner).bind fun c s₁ h₁ => yields_pure (h₁.imp fun code hreads => hreads)
  | .binary op left right, s, ⟨hl, hr⟩ => by
    have hcode : expr (.binary op left right) = operation left right (.binary op) := by
      rw [expr, scalarAfter_readable hl, scalarAfter_readable hr]
      simp only [pure_bind, List.append_nil]
      rfl
    rw [hcode]
    refine (yields_operation (.binary op) (yields_expr left s hl) fun s₁ hs₁ =>
      yields_expr right s₁ (by rw [Site.names, hs₁]; exact hr)).mono fun c s' h => h.imp ?_
    rintro code ⟨m, hop, hnext, hleads⟩ locals h v stk hv
    obtain ⟨a, ha, hv⟩ := Option.bind_eq_some_iff.1 hv
    obtain ⟨x, hx, hv⟩ := Option.bind_eq_some_iff.1 hv
    obtain ⟨b, hb, hv⟩ := Option.bind_eq_some_iff.1 hv
    obtain ⟨y, hy, hv⟩ := Option.bind_eq_some_iff.1 hv
    have hstart := hleads stk ha hb
    rw [Value.eq_toValue hx, Value.eq_toValue hy] at hstart
    cases happly : op.apply x y with
    | error f =>
      rw [happly] at hv
      cases hv
    | ok d =>
      rw [happly] at hv
      cases hv
      rw [hnext]
      exact hstart.trans (.binary hop happly)
  | .index object key, s, ⟨ho, hk⟩ => by
    have hcode : expr (.index object key) = operation object key .index := by
      rw [expr, scalarAfter_readable ho, scalarAfter_readable hk]
      simp only [pure_bind, List.append_nil]
      rfl
    rw [hcode]
    refine (yields_operation .index (yields_expr object s ho) fun s₁ hs₁ =>
      yields_expr key s₁ (by rw [Site.names, hs₁]; exact hk)).mono fun c s' h => h.imp ?_
    rintro code ⟨m, hop, hnext, hleads⟩ locals h v stk hv
    obtain ⟨o, ho, hv⟩ := Option.bind_eq_some_iff.1 hv
    obtain ⟨k, hk, hv⟩ := Option.bind_eq_some_iff.1 hv
    rw [hnext]
    exact (hleads stk ho hk).trans (.index hop hv)

/-- Values are on the stack in their order. -/
theorem yields_exprs : ∀ (es : List Expr) (s : Site), (∀ e ∈ es, e.Readable s.names) →
    (exprs es).Yields s fun c s' => Pushes s c s' fun code =>
      ∀ {locals : Slots} {h : Heap} {vs : List Value} (stk : Array Value),
        es.mapM (h.read (s.scopes.visible.cell? locals)) = some vs →
        code.Leads locals s.address h stk s'.address h (stk ++ vs.toArray)
  | [], s, _ => by
    rw [exprs]
    refine yields_pure ((Pushes.nil s).imp fun code _ => ?_)
    intro locals h vs stk hvs
    rw [List.mapM_nil] at hvs
    cases hvs
    rw [Array.append_empty]
    exact .refl code locals s.address h stk
  | [e], s, hes => by
    rw [exprs]
    refine (yields_expr e s (hes e List.mem_cons_self)).mono fun c s' h => h.imp ?_
    intro code hreads locals h vs stk hvs
    rw [List.mapM_cons, List.mapM_nil] at hvs
    obtain ⟨v, hv, hvs⟩ := Option.bind_eq_some_iff.1 hvs
    cases hvs
    exact hreads stk hv
  | e :: e' :: rest, s, hes => by
    rw [exprs, scalarAfter_readable (hes e List.mem_cons_self)]
    simp only [pure_bind, List.append_nil]
    refine (yields_expr e s (hes e List.mem_cons_self)).bind fun c s₁ h₁ => ?_
    have hrest : ∀ x ∈ e' :: rest, x.Readable s₁.names := by
      intro x hx
      rw [Site.names, h₁.scopes]
      exact hes x (List.mem_cons_of_mem _ hx)
    refine (yields_exprs (e' :: rest) s₁ hrest).bind fun c' s₂ h₂ => yields_pure ?_
    rw [h₁.scopes] at h₂
    refine (h₁.seq h₂).imp ?_
    rintro code ⟨hread, hreads⟩ locals h vs stk hvs
    rw [List.mapM_cons] at hvs
    obtain ⟨v, hv, hvs⟩ := Option.bind_eq_some_iff.1 hvs
    obtain ⟨vs', hvs', hvs⟩ := Option.bind_eq_some_iff.1 hvs
    cases hvs
    have hpushed : stk.push v ++ vs'.toArray = stk ++ (v :: vs').toArray := by
      rw [← Array.toList_inj]
      simp
    exact hpushed ▸ (hread stk hv).trans (hreads (stk.push v) hvs')

theorem length_of_mapM {f : α → Option β} {as : List α} {bs : List β} (h : as.mapM f = some bs) :
    bs.length = as.length := by
  induction as generalizing bs with
  | nil =>
    rw [List.mapM_nil] at h
    cases h
    rfl
  | cons a as ih =>
    rw [List.mapM_cons] at h
    obtain ⟨b, -, h⟩ := Option.bind_eq_some_iff.1 h
    obtain ⟨bs', hbs', h⟩ := Option.bind_eq_some_iff.1 h
    cases h
    exact congrArg (· + 1) (ih hbs')

/-- The items of the top are assigned to one target after the other. -/
theorem yields_assignTo : ∀ (targets : List Expr) (i : Nat) (s : Site),
    (∀ e ∈ targets, e.Assignable s.names) → (assignTo targets i).Yields s fun c s' =>
      Pushes s c s' fun code => ∀ {locals : Slots} {h h' : Heap} {t : Value} (stk : Array Value),
        Heap.assignInTurn (s.scopes.visible.cell? locals) t i targets h = some h' →
        code.Leads locals s.address h (stk.push t) s'.address h' (stk.push t)
  | [], i, s, _ => by
    rw [assignTo]
    refine yields_pure ((Pushes.nil s).imp fun code _ => ?_)
    intro locals h h' t stk hassign
    cases hassign
    exact .refl code locals s.address h _
  | e :: rest, i, s, hp => by
    have he := hp e List.mem_cons_self
    have hrest : ∀ s₁ : Site, s₁.scopes = s.scopes → ∀ x ∈ rest, x.Assignable s₁.names := by
      intro s₁ hs₁ x hx
      rw [Site.names, hs₁]
      exact hp x (List.mem_cons_of_mem _ hx)
    cases e with
    | name n =>
      rw [assignTo]
      refine (yields_resolve he).bind ?_
      rintro symbol s₀ ⟨rfl, slot, hslot, rfl⟩
      refine (yields_emit _ s₀).bind fun c s₁ h₁ => ?_
      refine (yields_assignTo rest (i + 1) s₁ (hrest s₁ h₁.scopes)).bind fun cs s₂ h₂ =>
        yields_pure ?_
      rw [h₁.scopes] at h₂
      refine (h₁.seq h₂).imp ?_
      rintro code ⟨⟨hop, hnext⟩, hstores⟩ locals h h' t stk hassign
      obtain ⟨p, hp, hrest'⟩ := Option.bind_eq_some_iff.1 hassign
      obtain ⟨h₁, hput, hlater⟩ := Option.bind_eq_some_iff.1 hrest'
      obtain ⟨cell, hcell, rfl⟩ := Option.map_eq_some_iff.1 hp
      cases hput
      have hstore : code.Leads locals s₀.address h (stk.push t) (s₀.address + 1) _ (stk.push t) :=
        .store hop hslot hcell
      rw [← hnext] at hstore
      exact hstore.trans (hstores stk hlater)
    | index object key =>
      obtain ⟨ho, hk⟩ := he
      have hcode : assignTo (.index object key :: rest) i = (do
          let c ← operation object key (.indexSet i)
          return c ++ (← assignTo rest (i + 1))) := by
        rw [assignTo, scalarAfter_readable ho, scalarAfter_readable hk]
        simp only [operation, bind_assoc, pure_bind, List.append_nil]
      rw [hcode]
      refine (yields_operation (.indexSet i) (yields_expr object s ho) fun s₁ hs₁ =>
        yields_expr key s₁ (by rw [Site.names, hs₁]; exact hk)).bind fun c s₁ h₁ => ?_
      refine (yields_assignTo rest (i + 1) s₁ (hrest s₁ h₁.scopes)).bind fun cs s₂ h₂ =>
        yields_pure ?_
      rw [h₁.scopes] at h₂
      refine (h₁.seq h₂).imp ?_
      rintro code ⟨⟨m, hop, hnext, hleads⟩, hstores⟩ locals h h' t stk hassign
      obtain ⟨p, hp, hrest'⟩ := Option.bind_eq_some_iff.1 hassign
      obtain ⟨h₁, hput, hlater⟩ := Option.bind_eq_some_iff.1 hrest'
      obtain ⟨o, ho, hp⟩ := Option.bind_eq_some_iff.1 hp
      cases o with
      | table id =>
        obtain ⟨k, hk, hp⟩ := Option.bind_eq_some_iff.1 hp
        cases hp
        have hset : code.Leads locals m h (((stk.push t).push (.table id)).push k) (m + 1) h₁
          (stk.push t) := .indexSet hop rfl hput
        rw [← hnext] at hset
        exact ((hleads (stk.push t) ho hk).trans hset).trans (hstores stk hlater)
      | _ => cases hp
    | _ => exact he.elim

/-- The code of an assignment evaluates the values first, and then it assigns them to one target after
the other, each of which is looked at when it is its turn. -/
theorem assign_in_turn {targets values : List Expr} (extent : Extent) {s : Site}
    (htargets : ∀ e ∈ targets, e.Assignable s.names) (hvalues : ∀ e ∈ values, e.Readable s.names) :
    ∃ c s', stat (.assign targets values extent) s = .ok (c, s') ∧
      ∀ {code : Listing}, Holds code (fun _ => none) s.address c →
        ∀ {locals : Slots} {h h' : Heap} {vs : List Value} (stk : Array Value),
          values.mapM (h.read (s.scopes.visible.cell? locals)) = some vs →
          Heap.assignInTurn (s.scopes.visible.cell? locals) (.ofList (Value.flatten vs)) 0 targets h =
            some h' →
          code.Leads locals s.address h stk s'.address h' stk := by
  let s₀ := s.marked (s.spanOf extent)
  have hmark : (markExtent extent).Yields s fun _ s' => s' = s₀ := ⟨(), s₀, rfl, rfl⟩
  have hcode : (stat (.assign targets values extent)).Yields s fun c s' => Pushes s₀ c s' fun code =>
      ∀ {locals : Slots} {h h' : Heap} {vs : List Value} (stk : Array Value),
        values.mapM (h.read (s.scopes.visible.cell? locals)) = some vs →
        Heap.assignInTurn (s.scopes.visible.cell? locals) (.ofList (Value.flatten vs)) 0 targets h =
          some h' →
        code.Leads locals s.address h stk s'.address h' stk := by
    rw [stat]
    refine hmark.bind ?_
    rintro _ _ rfl
    refine (yields_exprs values s₀ hvalues).bind fun c₁ s₁ h₁ => ?_
    refine (yields_emit (.makeTuple values.length) s₁).bind fun c₂ s₂ h₂ => ?_
    have hscopes : s₂.scopes = s.scopes := h₂.scopes.trans h₁.scopes
    have hplaces : ∀ e ∈ targets, e.Assignable s₂.names := by
      intro e he
      rw [Site.names, hscopes]
      exact htargets e he
    refine (yields_assignTo targets 0 s₂ hplaces).bind fun c₃ s₃ h₃ => ?_
    refine (yields_emit (.pop 1) s₃).bind fun c₄ s₄ h₄ => yields_pure ?_
    rw [hscopes] at h₃
    refine (((h₁.seq h₂).seq h₃).seq h₄).imp ?_
    rintro code ⟨⟨⟨hreads, htuple, hnext₂⟩, hstores⟩, hdrop, hnext₄⟩ locals h h' vs stk hvs hassign
    rw [← length_of_mapM hvs] at htuple
    have hmade : code.Leads locals s₁.address h (stk ++ vs.toArray) s₂.address h
        (stk.push (.ofList (Value.flatten vs))) := hnext₂ ▸ .makeTuple htuple
    have hdropped : code.Leads locals s₃.address h' (stk.push (.ofList (Value.flatten vs))) s₄.address
        h' stk := hnext₄ ▸ .drop hdrop
    exact ((hreads stk hvs).trans hmade).trans ((hstores stk hassign).trans hdropped)
  obtain ⟨c, s', hok, hpushes⟩ := hcode
  refine ⟨c, s', hok, fun hholds => ?_⟩
  intro locals h h' vs stk hvs hassign
  exact hpushes.makes.unbroken (fun _ _ _ => rfl) hholds stk hvs hassign

end Gen

/-! ## When it makes a difference -/

namespace Heap

theorem mapM_congr {α β : Type} {f g : α → Option β} {as : List α} (h : ∀ a ∈ as, f a = g a) :
    as.mapM f = as.mapM g := by
  induction as with
  | nil => rfl
  | cons a as ih =>
    rw [List.mapM_cons, List.mapM_cons, h a List.mem_cons_self,
      ih fun a ha => h a (List.mem_cons_of_mem _ ha)]

/-- Targets that stand for the same whatever was assigned may as well be looked at first. -/
theorem assignInTurn_eq_assignAtOnce {ρ : String → Option CellId} (t : Value) {targets : List Expr}
    (hfixed : ∀ e ∈ targets, ∀ h h' : Heap, h.place? ρ e = h'.place? ρ e) (i : Nat) (h : Heap) :
    assignInTurn ρ t i targets h = assignAtOnce ρ t i targets h := by
  unfold assignAtOnce
  induction targets generalizing i h with
  | nil => rfl
  | cons e rest ih =>
    have hrest : ∀ e ∈ rest, ∀ h h' : Heap, h.place? ρ e = h'.place? ρ e :=
      fun e he => hfixed e (List.mem_cons_of_mem _ he)
    have hsame : ∀ h' : Heap, rest.mapM (h'.place? ρ) = rest.mapM (h.place? ρ) :=
      fun h' => mapM_congr fun e he => hrest e he h' h
    rw [List.mapM_cons, assignInTurn]
    cases h.place? ρ e with
    | none => rfl
    | some p =>
      have hlater : ∀ h', assignInTurn ρ t (i + 1) rest h' =
          (rest.mapM (h.place? ρ)).bind fun ps => putAll t (i + 1) ps h' := by
        intro h'
        rw [ih hrest, hsame h']
        rfl
      simp only [bind, Option.bind_some, hlater]
      cases rest.mapM (h.place? ρ) with
      | none => cases h.put? (t.nth i) p <;> rfl
      | some ps => rfl

/-- An assignment to names assigns all of them at once. -/
theorem assignInTurn_names (ρ : String → Option CellId) (t : Value) (names : List String) (i : Nat)
    (h : Heap) : assignInTurn ρ t i (names.map .name) h =
      assignAtOnce ρ t i (names.map .name) h := by
  refine assignInTurn_eq_assignAtOnce t ?_ i h
  intro e he
  obtain ⟨n, -, rfl⟩ := List.mem_map.1 he
  exact fun _ _ => rfl

/-- A heap with the variables `i`, which holds `x`, and `a`, which holds an empty table. -/
def pair : Heap := { cells := #[.string "x", .table ⟨0⟩], tables := #[{}] }

/-- The cells of the variables `i` and `a`. -/
def pairCell? (name : String) : Option CellId :=
  if name = "i" then some ⟨0⟩ else if name = "a" then some ⟨1⟩ else none

/-- The targets of `i, a[i] = ...`. -/
def pairTargets : List Expr := [.name "i", .index (.name "a") (.name "i")]

/-- The heap after an entry of the table was assigned. -/
def pairAfter (key : String) : Heap :=
  (pair.setCell ⟨0⟩ (.string "y")).modifyTable ⟨0⟩ (·.put (.string key) (.string "z"))

theorem getField_pairAfter (key key' : String) :
    (pairAfter key).getField ⟨0⟩ key' = if key = key' then .string "z" else .nil := by
  have hput : ({} : Table).put (.string key) (.string "z") =
      { entries := #[(.string key, .string "z")], index := ({} : Table).index.insert (.string key) 0 } := by
    simp [Table.put, Table.insertNew, Table.compact, Table.compactThreshold, Value.isNil]
  have hfield : (pairAfter key).getField ⟨0⟩ key' =
      (({} : Table).put (.string key) (.string "z")).find (.string key') := rfl
  rw [hfield, hput]
  unfold Table.find
  simp only [Std.HashMap.getElem?_insert, beq_iff_eq, Key.string.injEq]
  by_cases hkey : key = key' <;> simp [hkey]

/-- The assignment `i, a[i] = "y", "z"` goes to the new index, not to the old one. -/
theorem assignInTurn_ne_assignAtOnce :
    assignInTurn pairCell? (.tuple [.string "y", .string "z"]) 0 pairTargets pair =
        some (pairAfter "y") ∧
      assignAtOnce pairCell? (.tuple [.string "y", .string "z"]) 0 pairTargets pair =
        some (pairAfter "x") ∧
      (pairAfter "y").getField ⟨0⟩ "y" = .string "z" ∧
      (pairAfter "x").getField ⟨0⟩ "y" = .nil := by
  refine ⟨rfl, rfl, ?_, ?_⟩
  · rw [getField_pairAfter, if_pos rfl]
  · rw [getField_pairAfter, if_neg (by decide)]

end Heap

/-! ### In a world -/

namespace Gen

/-- Where `i` and `a` are the only variables. -/
def pairSite : Site :=
  { address := 0, scopes := ((ScopeStack.start true).declare "i").declare "a", source := 0 }

/-- A world in the middle of a function with the variables `i` and `a`. -/
def pairWorld (c : Code) : World :=
  { scripts := #[{ options := {}, globals := ⟨0⟩, registry := ⟨1⟩, main := ⟨0⟩
                   code := Segment.empty.append c }]
    processor := { frames := #[.script
      { closure := default, base := 0, returnAddress := none, callSite := none
        locals := #[some ⟨0⟩, some ⟨1⟩] }] } }

theorem assign_in_turn_pair : (∀ e ∈ Heap.pairTargets, e.Assignable pairSite.names) ∧
    (∀ e ∈ [Expr.string "y", Expr.string "z"], e.Readable pairSite.names) ∧
    ∃ c s', stat (.assign Heap.pairTargets [.string "y", .string "z"] default) pairSite =
        .ok (c, s') ∧ ∀ (r : Reentry) (depth : Nat), ∃ k, r.Passes depth k
          ((pairWorld c).placed Heap.pair #[] 0)
          ((pairWorld c).placed (Heap.pairAfter "y") #[] s'.address) := by
  have htargets : ∀ e ∈ Heap.pairTargets, e.Assignable pairSite.names := by
    have hi : "i" ∈ pairSite.names := by decide
    have ha : "a" ∈ pairSite.names := by decide
    simp only [Heap.pairTargets, List.forall_mem_cons]
    exact ⟨hi, ⟨ha, hi⟩, fun _ he => absurd he List.not_mem_nil⟩
  have hvalues : ∀ e ∈ [Expr.string "y", Expr.string "z"], e.Readable pairSite.names := by
    simp only [List.forall_mem_cons]
    exact ⟨trivial, trivial, fun _ he => absurd he List.not_mem_nil⟩
  obtain ⟨c, s', hok, hleads⟩ := assign_in_turn default htargets hvalues
  refine ⟨htargets, hvalues, c, s', hok, fun r depth => ?_⟩
  have hholds : Holds (pairWorld c).ops (fun _ => none) pairSite.address c := by
    intro x op hx
    exact (Segment.ops_append_of_le (Nat.zero_le x)).trans hx
  have hread : [Expr.string "y", Expr.string "z"].mapM (Heap.pair.read (pairSite.scopes.visible.cell?
      #[some ⟨0⟩, some ⟨1⟩])) = some [.string "y", .string "z"] := rfl
  exact hleads hholds #[] hread rfl r depth (pairWorld c) ⟨rfl, rfl, _, rfl, rfl⟩

end Gen

end LuaMachine
