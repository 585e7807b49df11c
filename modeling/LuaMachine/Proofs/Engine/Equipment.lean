import LuaMachine.Proofs.Engine.Working
import LuaMachine.Proofs.Flat.Hosting
import LuaMachine.Proofs.Table.Entries

/-!
# How instances are equipped

The script of a new instance has the library, the host objects under their names, and the store of
shared variables; nothing else (`Engine.setUp_ok`). What was bound last under a name counts
(`Table.getString_bind`), so the name of the store is always that of the store.
-/

namespace LuaMachine

open Exec

/-! ## Bindings -/

/-- Set string keys one after the other. -/
def Table.bind (t : Table) (bindings : List (String × Value)) : Table :=
  bindings.foldl (fun t b => t.setString b.1 b.2) t

/-- The value that was bound last under a name. -/
def boundLast (bindings : List (String × Value)) (name : String) : Option Value :=
  (bindings.reverse.find? (·.1 == name)).map (·.2.scalar)

namespace Table

variable {t : Table} {name : String} {v : Value} {bindings : List (String × Value)}

theorem Sound.setString (h : t.Sound) : (t.setString name v).Sound := h.put (Value.isTuple_scalar v)

theorem Sound.getString_setString (h : t.Sound) (name' : String) :
    (t.setString name v).getString name' = if name' = name then v.scalar else t.getString name' := by
  unfold Table.setString Table.getString
  rw [h.find_put (Value.isTuple_scalar v)]
  simp

theorem Sound.bind (h : t.Sound) : (t.bind bindings).Sound := by
  induction bindings generalizing t with
  | nil => exact h
  | cons b rest ih => exact ih h.setString

/-- What was bound last counts. -/
theorem Sound.getString_bind (h : t.Sound) (name : String) :
    (t.bind bindings).getString name = (boundLast bindings name).getD (t.getString name) := by
  induction bindings generalizing t with
  | nil => rfl
  | cons b rest ih =>
    have hfirst : (t.setString b.1 b.2).Sound := h.setString
    have hrest := ih hfirst
    rw [h.getString_setString] at hrest
    unfold boundLast at hrest ⊢
    rw [List.reverse_cons, List.find?_append]
    change (Table.bind (t.setString b.1 b.2) rest).getString name = _
    rw [hrest]
    cases hfound : rest.reverse.find? (·.1 == name) with
    | some found => rfl
    | none =>
      by_cases hname : name = b.1
      · simp [hname]
      · simp [hname, Ne.symm hname]

end Table

/-! ## Scripts that are made -/

namespace World

/-- A table is there, and its parts agree. -/
def HasTable (w : World) (id : TableId) : Prop :=
  id.index < w.heap.tables.size ∧ (w.heap.table id).Sound

theorem hasTable_addTable (w : World) :
    { w with heap := w.heap.addTable {} }.HasTable ⟨w.heap.tables.size⟩ := by
  refine ⟨?_, ?_⟩
  · change w.heap.tables.size < (w.heap.tables.push {}).size
    simp
  · have hnew : (w.heap.addTable {}).table ⟨w.heap.tables.size⟩ = {} := by
      simp [Heap.addTable, Heap.table]
    rw [hnew]
    exact Table.sound_empty

theorem HasTable.addTable {w : World} {id : TableId} (h : w.HasTable id) :
    { w with heap := w.heap.addTable {} }.HasTable id := by
  obtain ⟨hlt, hsound⟩ := h
  have hsame : (w.heap.addTable {}).table id = w.heap.table id := by
    unfold Heap.addTable Heap.table
    simp only [Array.getD_eq_getD_getElem?, Array.getElem?_push, Nat.ne_of_lt hlt, if_false]
  refine ⟨?_, hsame ▸ hsound⟩
  change id.index < (w.heap.tables.push {}).size
  rw [Array.size_push]
  exact Nat.lt_succ_of_lt hlt

/-- The table of an identity after a field of a table is set. -/
theorem table_setField {h : Heap} {id : TableId} (hlt : id.index < h.tables.size) (id' : TableId)
    (name : String) (v : Value) : (h.setField id' name v).table id =
      if id = id' then (h.table id).setString name v else h.table id := by
  unfold Heap.setField Heap.modifyTable Heap.table
  simp only [Array.getD_eq_getD_getElem?, Array.getElem?_modify]
  by_cases hid : id = id'
  · subst hid
    simp [hlt]
  · have hne : ¬id'.index = id.index := by
      intro hindex
      apply hid
      cases id
      cases id'
      exact congrArg _ hindex.symm
    simp [hid, hne]

theorem HasTable.setField {w : World} {id : TableId} (h : w.HasTable id) (id' : TableId)
    (name : String) (v : Value) : { w with heap := w.heap.setField id' name v }.HasTable id := by
  obtain ⟨hlt, hsound⟩ := h
  refine ⟨?_, ?_⟩
  · change id.index < (w.heap.tables.modify _ _).size
    rwa [Array.size_modify]
  · change ((w.heap.setField id' name v).table id).Sound
    rw [table_setField hlt]
    split
    · exact hsound.setString
    · exact hsound

end World

namespace Library

open World

/-- The library leaves tables as they should be. -/
abbrev KeepsTables {α : Type} (x : Exec α) : Prop :=
  x.Ends fun w w' => ∀ id, w.HasTable id → w'.HasTable id

theorem KeepsTables.bind {α β : Type} {x : Exec α} {f : α → Exec β} (hx : KeepsTables x)
    (hf : ∀ a, KeepsTables (f a)) : KeepsTables (x >>= f) :=
  Ends.bind (fun h₁ h₂ id h => h₂ id (h₁ id h)) hx hf

theorem keepsTables_setField (id : TableId) (name : String) (v : Value) :
    KeepsTables (setField id name v) :=
  .of_change (fun _ => rfl) fun _ _ h => h.setField id name v

theorem keepsTables_addFunctions (table : TableId) (fs : List Native) :
    KeepsTables (addFunctions table fs) := by
  induction fs with
  | nil => exact .of_change (fun _ => rfl) fun _ _ h => h
  | cons f rest ih =>
    have hnew : KeepsTables (newCallback f) := .of_change (fun _ => rfl) fun _ _ h => h
    exact hnew.bind fun v => (keepsTables_setField table _ v).bind fun _ => ih

theorem keepsTables_install (globals : TableId) : KeepsTables (install globals) := by
  have hget : KeepsTables heap := .of_change (fun _ => rfl) fun _ _ h => h
  have hnew : KeepsTables (newTable {}) := .of_change (fun _ => rfl) fun _ _ h => h.addTable
  refine (keepsTables_addFunctions globals _).bind fun _ => hget.bind fun h => ?_
  refine hnew.bind fun coroutine => (keepsTables_addFunctions _ _).bind fun _ => ?_
  refine (keepsTables_setField globals _ coroutine).bind fun _ => ?_
  exact (keepsTables_setField globals _ _).bind fun _ => keepsTables_setField globals _ _

end Library

namespace Script

/-- The script of an identity. -/
def At (w : World) (id : ScriptId) (s : Script) : Prop := w.scripts[id.index]? = some s

/-- The world with a new script, before the library is installed. -/
def made (w : World) (options : ScriptOptions) : World :=
  let h := (w.heap.addTable {}).addTable {}
  { w with
    heap := h.addCoroutine { owner := ⟨w.scripts.size⟩, state := .main, body := none }
    scripts := w.scripts.push
      { options, globals := ⟨w.heap.tables.size⟩, registry := ⟨(w.heap.addTable {}).tables.size⟩
        main := ⟨h.coroutines.size⟩ } }

theorem create_eq (options : ScriptOptions) (w : World) :
    create options w = (do
      Library.install ⟨w.heap.tables.size⟩
      return ⟨w.scripts.size⟩ : Exec ScriptId) (made w options) := by
  let w₁ : World := { w with heap := w.heap.addTable {} }
  let w₂ : World := { w with heap := w₁.heap.addTable {} }
  let c : Coroutine := { owner := ⟨w.scripts.size⟩, state := .main, body := none }
  have hglobals : newTable {} w = .ok (.table ⟨w.heap.tables.size⟩) w₁ := rfl
  have hregistry : newTable {} w₁ = .ok (.table ⟨w₁.heap.tables.size⟩) w₂ := rfl
  have hmain : newCoroutine c w₂ =
      .ok ⟨w₂.heap.coroutines.size⟩ { w₂ with heap := w₂.heap.addCoroutine c } := rfl
  unfold create
  rw [bind_ok (get_eq _), bind_ok hglobals, bind_ok (heap_eq _), bind_ok hregistry, bind_ok hmain]
  exact bind_ok rfl

theorem retaining_create (options : ScriptOptions) : Retaining (create options) := by
  have hmade : ∀ w : World, w.Retains (made w options) := by
    intro w
    refine ⟨?_, fun h => h⟩
    change w.scripts.size ≤ (w.scripts.push _).size
    rw [Array.size_push]
    exact Nat.le_succ _
  have hinstall : ∀ (globals : TableId) (id : ScriptId),
      Retaining (do Library.install globals; return id : Exec ScriptId) :=
    fun globals id => (Library.aside_install globals).retaining.bind fun _ => retaining_pure id
  constructor
  · intro w id w' h
    exact (hmade w).trans ((hinstall _ _).ok ((create_eq options w).symm.trans h))
  · intro w e w' h
    exact (hmade w).trans ((hinstall _ _).error ((create_eq options w).symm.trans h))

theorem At.aside {w w' : World} {id : ScriptId} {s : Script} (hs : At w id s) (h : w.Aside w') :
    ∃ s', At w' id s' ∧ s'.options = s.options ∧ s'.globals = s.globals := by
  have hbare := congrArg (·[id.index]?) h.scripts
  simp only [Array.getElem?_map] at hbare
  have hs : w.scripts[id.index]? = some s := hs
  rw [hs] at hbare
  obtain ⟨s', hs', hsame⟩ := Option.map_eq_some_iff.1 hbare
  exact ⟨s', hs', congrArg (·.options) hsame, congrArg (·.globals) hsame⟩

/-- A new script comes after the others. It has the options, and a global table of its own. -/
theorem create_ok {w w' : World} {options : ScriptOptions} {id : ScriptId}
    (hcreate : create options w = .ok id w') :
    id = ⟨w.scripts.size⟩ ∧ w'.scripts.size = w.scripts.size + 1 ∧
      ∃ s, At w' id s ∧ s.options = options ∧ w'.HasTable s.globals := by
  rw [create_eq] at hcreate
  obtain ⟨_, w₁, hinstall, hreturn⟩ := of_bind_ok hcreate
  cases hreturn
  have haside := (Library.aside_install _).ok hinstall
  have htable : (made w options).HasTable ⟨w.heap.tables.size⟩ := w.hasTable_addTable.addTable
  have hat : At (made w options) ⟨w.scripts.size⟩
      { options, globals := ⟨w.heap.tables.size⟩, registry := ⟨(w.heap.addTable {}).tables.size⟩
        main := ⟨((w.heap.addTable {}).addTable {}).coroutines.size⟩ } :=
    Array.getElem?_push_size
  obtain ⟨s, hs, hoptions, hglobals⟩ := hat.aside haside
  refine ⟨rfl, ?_, s, hs, hoptions, ?_⟩
  · rw [haside.quiet.size]
    exact Array.size_push _
  · rw [hglobals]
    exact (Library.keepsTables_install _).ok hinstall _ htable

variable {w w' : World} {s : Script} {name : String} {v : Value}

theorem setGlobal_eq (hs : At w w.active s) (name : String) (v : Value) :
    setGlobal name v w = .ok () { w with heap := w.heap.setField s.globals name v } := by
  have hscript : script w = .ok s w := by
    change EStateM.Result.ok (w.scripts.getD w.active.index default) w = _
    rw [Array.getD_eq_getD_getElem?, hs]
    rfl
  unfold setGlobal
  rw [bind_ok hscript]
  rfl

theorem forM_setGlobal (hs : At w w.active s) (bindings : List (String × Value)) :
    (bindings.forM fun b => setGlobal b.1 b.2) w = .ok () { w with
      heap := bindings.foldl (fun h b => h.setField s.globals b.1 b.2) w.heap } := by
  induction bindings generalizing w with
  | nil => rfl
  | cons b rest ih =>
    have hfirst := setGlobal_eq hs b.1 b.2
    exact (bind_ok hfirst).trans (ih hs)

theorem table_foldl_setField {h : Heap} {id : TableId} (hlt : id.index < h.tables.size)
    (bindings : List (String × Value)) :
    (bindings.foldl (fun h b => h.setField id b.1 b.2) h).table id = (h.table id).bind bindings ∧
      id.index < (bindings.foldl (fun h b => h.setField id b.1 b.2) h).tables.size := by
  induction bindings generalizing h with
  | nil => exact ⟨rfl, hlt⟩
  | cons b rest ih =>
    have hlt' : id.index < (h.setField id b.1 b.2).tables.size := by
      change id.index < (h.tables.modify _ _).size
      rwa [Array.size_modify]
    obtain ⟨htable, hrest⟩ := ih hlt'
    refine ⟨?_, hrest⟩
    rw [World.table_setField hlt, if_pos rfl] at htable
    exact htable

end Script

/-! ## The store -/

/-- The object that stands for the shared variables, if there is one. -/
def Heap.standing (h : Heap) : ObjectId := ⟨(h.objects.findIdx? (· == .store)).getD 0⟩

/-- The store is wrapped as the object that stands for the shared variables, which is made if there is
none yet. -/
theorem HostType.wrap_store {w w' : World} {v : Value} (hwrap : wrap .store w = .ok v w') :
    v = .userdata w'.heap.standing ∧ w'.heap.object? w'.heap.standing = some .store ∧
      w'.scripts = w.scripts ∧ w'.active = w.active ∧ w'.heap.tables = w.heap.tables := by
  unfold wrap at hwrap
  rw [bind_ok (get_eq _)] at hwrap
  dsimp only at hwrap
  split at hwrap
  · cases hwrap
  · obtain ⟨id, w₁, hstore, hreturn⟩ := of_bind_ok hwrap
    cases hreturn
    unfold storeObject at hstore
    rw [bind_ok (get_eq _)] at hstore
    cases hfound : w.heap.objects.findIdx? (· == .store) with
    | some i =>
      simp only [hfound] at hstore
      cases hstore
      obtain ⟨hlt, hi, -⟩ := Array.findIdx?_eq_some_iff_getElem.1 hfound
      refine ⟨?_, ?_, rfl, rfl, rfl⟩
      · simp [Heap.standing, hfound]
      · simp only [Heap.standing, hfound, Heap.object?]
        rw [Option.getD_some, Array.getElem?_eq_getElem hlt]
        exact congrArg some (beq_iff_eq.1 hi)
    | none =>
      simp only [hfound] at hstore
      cases hstore
      have hfound' : (w.heap.addObject .store).objects.findIdx? (· == .store) =
          some w.heap.objects.size := by
        unfold Heap.addObject
        rw [Array.findIdx?_push, hfound]
        simp
      have hstanding : (w.heap.addObject .store).standing = ⟨w.heap.objects.size⟩ := by
        unfold Heap.standing
        rw [hfound', Option.getD_some]
      refine ⟨?_, ?_, rfl, rfl, rfl⟩
      · exact congrArg Value.userdata hstanding.symm
      · change (w.heap.addObject .store).object? (w.heap.addObject .store).standing = _
        rw [hstanding]
        exact Array.getElem?_push_size

/-! ## Instances -/

theorem Exec.within_ok {α : Type} {x : Exec α} {id : ScriptId} {a : α} {w w' : World}
    (h : within id x w = .ok a w') :
    ∃ w₁, x { w with active := id } = .ok a w₁ ∧ w' = { w₁ with active := w.active } := by
  unfold within andFinally at h
  dsimp only at h
  split at h
  · next a' w₁ hx =>
    cases h
    exact ⟨w₁, hx, rfl⟩
  · cases h

theorem Exec.within_of_ok {α : Type} {x : Exec α} {id : ScriptId} {a : α} {w w' : World}
    (hx : x { w with active := id } = .ok a w') :
    within id x w = .ok a { w' with active := w.active } := andFinally_ok hx

theorem Hosting.inWorld_ok {α : Type} {x : Exec α} {a : α} {h h' : Host}
    (hx : inWorld x h = .ok a h') : ∃ w, x h.world = .ok a w ∧ h' = { h with world := w } := by
  unfold inWorld at hx
  split at hx
  · next a' w hok =>
    cases hx
    exact ⟨w, hok, rfl⟩
  · cases hx

namespace Engine

open Hosting

/-- What binds the globals of a new instance: the host objects, and then the store. -/
def bindings (objects : List (String × Value)) (store : ObjectId) : List (String × Value) :=
  objects ++ [(storeName, .userdata store)]

/-- How a new script is equipped: it has the options of the engine and prints to the sink, and each of
its globals is what was bound under that name, or else what the library has in a new script. -/
structure Equipped (config : EngineConfig) (sink : Nat) (objects : List (String × Value))
    (w w' : World) (id : ScriptId) : Prop where
  script : ∃ s, Script.At w' id s ∧ s.options = { config.scriptOptions with sink } ∧
    ∃ w₁ s₁, Script.create { config.scriptOptions with sink } w = .ok id w₁ ∧ Script.At w₁ id s₁ ∧
      ∀ name, w'.heap.getField s.globals name =
        (boundLast (bindings objects w'.heap.standing) name).getD (w₁.heap.getField s₁.globals name)
  store : w'.heap.object? w'.heap.standing = some .store

/-- What is done to the script of a new instance. -/
def equip (counting : Bool) (objects : List (String × Value)) : Exec Unit := do
  Script.switchCounters counting
  objects.forM fun (name, object) => Script.setGlobal name object
  Script.setGlobal storeName (← HostType.wrap .store)

theorem aside_equip (counting : Bool) (objects : List (String × Value)) :
    Exec.Aside (equip counting objects) := by
  have hswitch : Exec.Aside (Script.switchCounters counting) :=
    aside_modify fun w => .modifyScript w _ (fun _ => rfl) fun _ => .refl _
  have hall : Exec.Aside (objects.forM fun (name, object) => Script.setGlobal name object) := by
    induction objects with
    | nil => exact aside_pure _
    | cons b rest ih => exact (Script.aside_setGlobal b.1 b.2).bind fun _ => ih
  refine hswitch.bind fun _ => hall.bind fun _ => ?_
  exact (HostType.aside_wrap .store).bind fun v => Script.aside_setGlobal storeName v

theorem equip_ok {counting : Bool} {objects : List (String × Value)} {w w' : World} {s : Script}
    (hs : Script.At w w.active s) (htable : w.HasTable s.globals)
    (hequip : equip counting objects w = .ok () w') :
    ∃ s', Script.At w' w.active s' ∧ s'.options = s.options ∧ w'.active = w.active ∧
      w'.scripts.size = w.scripts.size ∧ w'.heap.object? w'.heap.standing = some .store ∧
      ∀ name, w'.heap.getField s'.globals name =
        (boundLast (bindings objects w'.heap.standing) name).getD (w.heap.getField s.globals name) := by
  obtain ⟨hlt, hsound⟩ := htable
  let s' : Script := { s with counters := s.counters.switch counting }
  let w₁ : World := { w with
    scripts := w.scripts.modify w.active.index fun s =>
      { s with counters := s.counters.switch counting } }
  have hs₁ : Script.At w₁ w₁.active s' := by
    change (w.scripts.modify _ _)[w.active.index]? = _
    have hs : w.scripts[w.active.index]? = some s := hs
    rw [Array.getElem?_modify, if_pos rfl, hs]
    rfl
  have hswitch : Script.switchCounters counting w = .ok () w₁ := rfl
  unfold equip at hequip
  rw [bind_ok hswitch, bind_ok (Script.forM_setGlobal hs₁ objects)] at hequip
  obtain ⟨v, w₂, hwrap, hset⟩ := of_bind_ok hequip
  obtain ⟨rfl, hstore, hscripts, hactive, htables⟩ := HostType.wrap_store hwrap
  obtain ⟨htable, hlt'⟩ := Script.table_foldl_setField hlt objects
  have hs₂ : Script.At w₂ w₂.active s' := by
    unfold Script.At
    rw [hscripts, hactive]
    exact hs₁
  rw [Script.setGlobal_eq hs₂] at hset
  cases hset
  refine ⟨s', ?_, rfl, hactive, ?_, hstore, fun name => ?_⟩
  · rw [← show w₂.active = w.active from hactive]
    exact hs₂
  · change w₂.scripts.size = _
    rw [hscripts]
    exact Array.size_modify
  · -- the store is bound behind the host objects
    have hlt₂ : s'.globals.index < w₂.heap.tables.size := htables.symm ▸ hlt'
    have htable₂ : w₂.heap.table s'.globals = (w.heap.table s.globals).bind objects := by
      rw [← htable]
      exact congrArg (fun ts : Array Table => ts.getD s.globals.index {}) htables
    change ((w₂.heap.setField s'.globals storeName _).table s'.globals).getString name = _
    rw [World.table_setField hlt₂, if_pos rfl, htable₂]
    have hbind : ((w.heap.table s.globals).bind objects).setString storeName
        (.userdata w₂.heap.standing) =
          (w.heap.table s.globals).bind (bindings objects w₂.heap.standing) := by
      unfold Table.bind bindings
      rw [List.foldl_append]
      rfl
    rw [hbind]
    exact hsound.getString_bind name

theorem setUp_eq (config : EngineConfig) (sink : Nat) (objects : List (String × Value)) :
    setUp config sink objects = (do
      let id ← inWorld (Script.create { config.scriptOptions with sink })
      onScript id (equip config.performanceCounters objects)
      return id) := rfl

theorem working_setUp (config : EngineConfig) (sink : Nat) (objects : List (String × Value)) :
    Working (setUp config sink objects) := by
  rw [setUp_eq]
  exact (working_inWorld (Script.retaining_create _)).bind fun id =>
    (working_onScript (aside_equip _ _).retaining id).bind fun _ => working_pure id

/-- A script that is set up is new, and equipped. -/
theorem setUp_ok {config : EngineConfig} {sink : Nat} {objects : List (String × Value)} {h h' : Host}
    {id : ScriptId} (hset : setUp config sink objects h = .ok id h') :
    Equipped config sink objects h.world h'.world id ∧ h'.engine = h.engine ∧
      id = ⟨h.world.scripts.size⟩ ∧ h'.world.scripts.size = h.world.scripts.size + 1 := by
  rw [setUp_eq] at hset
  obtain ⟨id, h₁, hfirst, hrest⟩ := exists_of_bind_ok hset
  obtain ⟨_, h₂, hsecond, hreturn⟩ := exists_of_bind_ok hrest
  cases hreturn
  obtain ⟨w₁, hcreate, rfl⟩ := inWorld_ok hfirst
  obtain ⟨w₂, hwithin, rfl⟩ := inWorld_ok hsecond
  obtain ⟨w₃, hequip, rfl⟩ := within_ok hwithin
  obtain ⟨hid, hsize, s₁, hs₁, hoptions, htable⟩ := Script.create_ok hcreate
  obtain ⟨s, hs, hoptions', hactive, hsize', hstore, hglobals⟩ :=
    equip_ok (w := { w₁ with active := id }) hs₁ htable hequip
  refine ⟨⟨⟨s, hs, hoptions'.trans hoptions, w₁, s₁, hcreate, hs₁, hglobals⟩, hstore⟩, rfl, hid, ?_⟩
  exact hsize'.trans hsize

end Engine

end LuaMachine
