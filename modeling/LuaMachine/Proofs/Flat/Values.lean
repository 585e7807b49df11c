import LuaMachine.Machine.World

/-!
# Where tuples are allowed

A value is single if it is no tuple, and flat if it has no tuple among its items. On a value stack
there are flat values; everywhere else there are single ones: in tables, cells and stores of shared
variables, and among the arguments and the variable arguments of a frame (`World.Flat`).

Main statements: a scalar, a position of a result and the operands of a call are single whatever they
were taken from (`Value.single_scalar`, `Value.single_nth`, `Value.single_of_mem_flatten`), and what is
read from flat data is single.
-/

namespace LuaMachine

namespace Value

/-- A value other than a tuple. -/
abbrev Single (v : Value) : Prop := v.isTuple = false

/-- A value without a tuple among its items. -/
def Flat (v : Value) : Prop := ∀ u ∈ v.toList, u.Single

variable {v : Value} {vs : List Value}

theorem single_scalar (v : Value) : v.scalar.Single := isTuple_scalar v

theorem Single.flat (h : v.Single) : v.Flat := by
  intro u hu
  cases v with
  | tuple vs => cases h
  | _ =>
    cases List.mem_singleton.1 hu
    rfl

theorem flat_tuple (h : ∀ v ∈ vs, v.Single) : (tuple vs).Flat := h

/-- Single values together are flat. -/
theorem flat_ofList (h : ∀ v ∈ vs, v.Single) : (ofList vs).Flat := by
  unfold ofList
  split
  · exact (h _ (List.mem_singleton_self _)).flat
  · exact flat_tuple h

theorem flat_void : void.Flat := flat_tuple fun _ h => absurd h List.not_mem_nil

theorem single_nth (v : Value) (i : Nat) : (v.nth i).Single := by
  unfold nth
  split
  · exact single_scalar _
  · next h =>
    cases v with
    | tuple vs => exact (h vs rfl).elim
    | _ => rfl
  · rfl

/-- What a list of operands stands for are single values. -/
theorem single_of_mem_flatten (h : v ∈ flatten vs) : v.Single := by
  fun_induction flatten vs with
  | case1 => cases h
  | case2 items =>
    obtain ⟨u, -, rfl⟩ := List.mem_map.1 h
    exact single_scalar u
  | case3 u hu =>
    rw [List.mem_singleton.1 h]
    cases u with
    | tuple items => exact (hu items rfl).elim
    | _ => rfl
  | case4 u rest _ _ ih =>
    rcases List.mem_cons.1 h with rfl | h
    · exact single_scalar u
    · exact ih h

end Value

theorem Key.single_toValue (k : Key) : k.toValue.Single := by
  cases k <;> rfl

/-! ## Tables -/

namespace Table

/-- Neither a key nor a value of the table is a tuple. -/
def Flat (t : Table) : Prop := ∀ e ∈ t.entries, e.1.toValue.Single ∧ e.2.Single

variable {t : Table} {k : Key} {v : Value}

theorem flat_empty : Flat {} := by
  intro e he
  cases he with
  | mk h => cases h

theorem Flat.of_entries {t' : Table} (h : t.Flat) (he : t'.entries = t.entries) : t'.Flat :=
  fun e hm => h e (he ▸ hm)

theorem Flat.find (h : t.Flat) (k : Key) : (t.find k).Single := by
  unfold Table.find
  split
  · split
    · next i _ k' v hi => exact (h (k', v) (Array.mem_of_getElem? hi)).2
    · rfl
  · rfl

theorem Flat.get (h : t.Flat) (key : Value) : (t.get key).Single := by
  unfold Table.get
  split
  · exact h.find _
  · rfl

theorem Flat.compact (h : t.Flat) : t.compact.Flat := by
  unfold Table.compact
  split
  · exact fun e he => h e (Array.mem_filter.1 he).1
  · exact h

theorem Flat.insertNew (h : t.Flat) (k : Key) (hv : v.Single) : (t.insertNew k v).Flat := by
  intro e he
  rcases Array.mem_push.1 he with he | rfl
  · exact h.compact e he
  · exact ⟨k.single_toValue, hv⟩

/-- An entry gets another value. -/
theorem Flat.modify {t' : Table} {i : Nat} (h : t.Flat) (hv : v.Single)
    (he : t'.entries = t.entries.modify i fun e => (e.1, v)) : t'.Flat := by
  intro e hm
  rw [he] at hm
  obtain ⟨j, hj⟩ := Array.getElem?_of_mem hm
  rw [Array.getElem?_modify] at hj
  split at hj
  · obtain ⟨e', -, rfl⟩ := Option.map_eq_some_iff.1 hj
    exact ⟨e'.1.single_toValue, hv⟩
  · exact h e (Array.mem_of_getElem? hj)

theorem Flat.put (h : t.Flat) (k : Key) (hv : v.Single) : (t.put k v).Flat := by
  unfold Table.put
  split
  · split
    · exact h
    · exact h.insertNew k hv
  · next i _ =>
    dsimp only
    split
    · -- the key is cleared, if it held a value
      have hclear : ∀ held : Bool, Flat (if held = true then
          { t with entries := t.entries.modify i fun e => (e.1, .nil), cleared := t.cleared + 1 }
          else t) := by
        intro held
        split
        · exact h.modify (v := .nil) rfl rfl
        · exact h
      exact hclear _
    · exact h.modify hv rfl

theorem Flat.liveFrom (h : t.Flat) (n i : Nat) {u v : Value} (hf : t.liveFrom n i = some (u, v)) :
    u.Single ∧ v.Single := by
  fun_induction Table.liveFrom t n i with
  | case1 => cases hf
  | case2 => cases hf
  | case3 n i k v hi hnil ih => exact ih hf
  | case4 n i k v hi hnil =>
    cases hf
    exact h (k, v) (Array.mem_of_getElem? hi)

/-- A traversal comes to single keys and values. -/
theorem Flat.next (h : t.Flat) {key u v : Value} (hn : t.next key = .ok (some (u, v))) :
    u.Single ∧ v.Single := by
  unfold Table.next at hn
  split at hn
  · exact h.liveFrom _ _ (Except.ok.inj hn)
  · split at hn
    · cases hn
    · split at hn
      · exact h.liveFrom _ _ (Except.ok.inj hn)
      · cases hn

end Table

/-! ## Shared variables -/

namespace VariableStore

/-- No shared variable is a tuple. -/
def Flat (s : VariableStore) : Prop := ∀ e ∈ s.entries, e.2.Single

variable {s : VariableStore}

theorem flat_empty : Flat {} := fun _ h => absurd h List.not_mem_nil

theorem Flat.get (h : s.Flat) (name : String) : (s.get name).Single := by
  unfold VariableStore.get VariableStore.get?
  cases hf : s.entries.find? (·.1 == name) with
  | none => rfl
  | some e => exact h e (List.mem_of_find?_eq_some hf)

theorem Flat.set (h : s.Flat) (name : String) (value : Value) : (s.set name value).Flat := by
  unfold VariableStore.set
  dsimp only
  split
  · exact fun e he => h e (List.mem_filter.1 he).1
  · split
    · intro e he
      obtain ⟨e', he', rfl⟩ := List.mem_map.1 he
      split
      · exact value.single_scalar
      · exact h e' he'
    · intro e he
      rcases List.mem_append.1 he with he | he
      · exact h e he
      · cases List.mem_singleton.1 he
        exact value.single_scalar

end VariableStore

/-! ## Processors -/

/-- Neither a variable argument nor an argument that is not bound yet is a tuple. -/
structure ScriptFrame.Flat (f : ScriptFrame) : Prop where
  varargs : ∀ v ∈ f.varargs, v.Single
  pending : ∀ v ∈ f.pending, v.Single

/-- The values on the stack are flat, and the frames have only single ones. -/
structure Processor.Flat (p : Processor) : Prop where
  values : ∀ v ∈ p.values, v.Flat
  frames : ∀ f, Frame.script f ∈ p.frames → f.Flat

/-- What waits in a coroutine is flat. -/
def Coroutine.Flat (c : Coroutine) : Prop :=
  ∀ b, c.body = some b → b.processor.Flat ∧ ∀ f, b.function = some f → f.Single

namespace Processor

variable {p p' : Processor}

theorem flat_empty : Flat {} := by
  constructor
  · intro v hv
    cases hv with
    | mk h => cases h
  · intro f hf
    cases hf with
    | mk h => cases h

theorem Flat.of_eq (h : p.Flat) (hv : p'.values = p.values) (hf : p'.frames = p.frames) : p'.Flat :=
  ⟨fun v hm => h.values v (hv ▸ hm), fun f hm => h.frames f (hf ▸ hm)⟩

/-- Parts of the stacks of a flat processor are flat. -/
theorem Flat.of_subset (h : p.Flat) (hv : ∀ v ∈ p'.values, v ∈ p.values)
    (hf : ∀ f ∈ p'.frames, f ∈ p.frames) : p'.Flat :=
  ⟨fun v hm => h.values v (hv v hm), fun f hm => h.frames f (hf _ hm)⟩

theorem Flat.push {v : Value} (h : p.Flat) (hv : v.Flat) :
    ({ p with values := p.values.push v } : Processor).Flat := by
  refine ⟨fun u hu => ?_, h.frames⟩
  rcases Array.mem_push.1 hu with hu | rfl
  · exact h.values u hu
  · exact hv

theorem mem_of_mem_extract {α : Type} {a : α} {as : Array α} {i j : Nat} (h : a ∈ as.extract i j) :
    a ∈ as := by
  rw [← Array.mem_toList_iff, Array.toList_extract] at h
  exact Array.mem_toList_iff.1 (List.mem_of_mem_drop (List.mem_of_mem_take h))

/-- Values may be dropped. -/
theorem Flat.shrink (h : p.Flat) (n : Nat) :
    ({ p with values := p.values.shrink n } : Processor).Flat := by
  refine h.of_subset (fun v hv => ?_) fun _ => id
  rw [Array.shrink_eq_take] at hv
  exact mem_of_mem_extract hv

theorem Flat.popValue (h : p.Flat) : ({ p with values := p.values.pop } : Processor).Flat := by
  refine h.of_subset (fun v hv => ?_) fun _ => id
  rw [← Array.extract_eq_pop rfl] at hv
  exact mem_of_mem_extract hv

theorem Flat.popFrame (h : p.Flat) : ({ p with frames := p.frames.pop } : Processor).Flat := by
  refine h.of_subset (fun _ => id) fun f hf => ?_
  rw [← Array.extract_eq_pop rfl] at hf
  exact mem_of_mem_extract hf

theorem Flat.unwind (h : p.Flat) (depth height : Nat) : (p.unwind depth height).Flat := by
  refine h.of_subset ?_ ?_
  · exact fun v hv => mem_of_mem_extract hv
  · exact fun f hf => mem_of_mem_extract hf

end Processor

/-! ## The heap -/

/-- There are tuples nowhere on the heap but on the value stacks of coroutines. -/
structure Heap.Flat (h : Heap) : Prop where
  tables : ∀ t ∈ h.tables, t.Flat
  cells : ∀ v ∈ h.cells, v.Single
  store : h.store.Flat
  former : ∀ s ∈ h.former, s.Flat
  coroutines : ∀ c ∈ h.coroutines, c.Flat

theorem Heap.flat_empty : Heap.Flat {} :=
  ⟨fun _ h => absurd h (Array.not_mem_empty _), fun _ h => absurd h (Array.not_mem_empty _),
    VariableStore.flat_empty, fun _ h => absurd h (Array.not_mem_empty _),
    fun _ h => absurd h (Array.not_mem_empty _)⟩

namespace Heap.Flat

variable {h h' : Heap}

theorem table (hh : h.Flat) (id : TableId) : (h.table id).Flat := by
  unfold Heap.table
  rw [Array.getD_eq_getD_getElem?]
  cases ht : h.tables[id.index]? with
  | none => exact Table.flat_empty
  | some t => exact hh.tables t (Array.mem_of_getElem? ht)

theorem cell (hh : h.Flat) (id : CellId) : (h.cell id).Single := by
  unfold Heap.cell
  rw [Array.getD_eq_getD_getElem?]
  cases hv : h.cells[id.index]? with
  | none => rfl
  | some v => exact hh.cells v (Array.mem_of_getElem? hv)

theorem getIndex (hh : h.Flat) (id : TableId) (key : Value) : (h.getIndex id key).Single :=
  (hh.table id).get key

theorem getField (hh : h.Flat) (id : TableId) (key : String) : (h.getField id key).Single :=
  (hh.table id).find _

/-- A handler is a single value. -/
theorem metamethod? (hh : h.Flat) {v : Value} {event : String} {handler : Value}
    (hm : h.metamethod? v event = some handler) : handler.Single := by
  unfold Heap.metamethod? at hm
  split at hm
  · split at hm
    · dsimp only at hm
      split at hm
      · cases hm
      · exact Option.some.inj hm ▸ hh.getField _ _
    · cases hm
  · cases hm

theorem storeOf (hh : h.Flat) (o : HostObject) : (h.storeOf o).Flat := by
  unfold Heap.storeOf
  split
  · next n =>
    rw [Array.getD_eq_getD_getElem?]
    cases hs : h.former[n]? with
    | none => exact VariableStore.flat_empty
    | some s => exact hh.former s (Array.mem_of_getElem? hs)
  · exact hh.store

theorem addTable (hh : h.Flat) {t : Table} (ht : t.Flat) : (h.addTable t).Flat := by
  refine { hh with tables := fun u hu => ?_ }
  rcases Array.mem_push.1 hu with hu | rfl
  · exact hh.tables u hu
  · exact ht

theorem modifyTable (hh : h.Flat) (id : TableId) {f : Table → Table}
    (hf : ∀ t : Table, t.Flat → (f t).Flat) : (h.modifyTable id f).Flat := by
  refine { hh with tables := fun t ht => ?_ }
  obtain ⟨i, hi⟩ := Array.getElem?_of_mem ht
  rw [Heap.modifyTable, Array.getElem?_modify] at hi
  split at hi
  · obtain ⟨t', ht', rfl⟩ := Option.map_eq_some_iff.1 hi
    exact hf t' (hh.tables t' (Array.mem_of_getElem? ht'))
  · exact hh.tables t (Array.mem_of_getElem? hi)

theorem setField (hh : h.Flat) (id : TableId) (key : String) (value : Value) :
    (h.setField id key value).Flat :=
  hh.modifyTable id fun _ ht => ht.put _ value.single_scalar

theorem addCell (hh : h.Flat) {v : Value} (hv : v.Single) : (h.addCell v).Flat := by
  refine { hh with cells := fun u hu => ?_ }
  rcases Array.mem_push.1 hu with hu | rfl
  · exact hh.cells u hu
  · exact hv

theorem setCell (hh : h.Flat) (id : CellId) {v : Value} (hv : v.Single) : (h.setCell id v).Flat := by
  refine { hh with cells := fun u hu => ?_ }
  rcases Array.mem_or_eq_of_mem_setIfInBounds hu with hu | rfl
  · exact hh.cells u hu
  · exact hv

theorem addCoroutine (hh : h.Flat) {c : Coroutine} (hc : c.Flat) : (h.addCoroutine c).Flat := by
  refine { hh with coroutines := fun c' hm => ?_ }
  rcases Array.mem_push.1 hm with hm | rfl
  · exact hh.coroutines c' hm
  · exact hc

theorem modifyCoroutine (hh : h.Flat) (id : CoroutineId) {f : Coroutine → Coroutine}
    (hf : ∀ c, h.coroutine? id = some c → (f c).Flat) : (h.modifyCoroutine id f).Flat := by
  refine { hh with coroutines := fun c hc => ?_ }
  obtain ⟨i, hi⟩ := Array.getElem?_of_mem hc
  rw [Heap.modifyCoroutine, Array.getElem?_modify] at hi
  split at hi
  · next hid =>
    subst hid
    obtain ⟨c', hc', rfl⟩ := Option.map_eq_some_iff.1 hi
    exact hf c' hc'
  · exact hh.coroutines c (Array.mem_of_getElem? hi)

end Heap.Flat

/-- There are tuples nowhere but on value stacks, and none of them is an item of another one. -/
structure World.Flat (w : World) : Prop where
  heap : w.heap.Flat
  processor : w.processor.Flat
  scripts : ∀ s ∈ w.scripts, s.processor.Flat

/-- The value that a runtime error carries is single. -/
def ScriptError.Single : ScriptError → Prop
  | runtime e => e.value.Single
  | _ => True

end LuaMachine
