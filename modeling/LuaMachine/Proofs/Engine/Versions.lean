import LuaMachine.Engine.Execution

/-!
# Versions of functions

An engine records for each instance which version of a function was defined there. What engines do
changes these records in two ways only: an instance gets the version of a cached function, and when
a new body is loaded its version is recorded for idle instances, or the record is erased. Scripts
change none of it.
-/

namespace LuaMachine

/-! ## The cache -/

namespace FunctionCache

variable {c : FunctionCache} {f g : CachedFunction} {name : String}

theorem get?_eq_find? (c : FunctionCache) (name : String) :
    c.get? name = c.functions.find? (·.name == name) := by
  unfold get? slot? functions
  rw [List.find?_map]
  rfl

theorem mem_of_get? (h : c.get? name = some f) : f ∈ c.functions ∧ f.name = name := by
  rw [get?_eq_find?] at h
  exact ⟨List.mem_of_find?_eq_some h, by simpa using List.find?_some h⟩

theorem functions_markExecuted (c : FunctionCache) (name hash : String) :
    (c.markExecuted name hash).functions = c.functions := by
  unfold functions markExecuted
  rw [List.map_map]
  refine List.map_congr_left fun s _ => ?_
  change (if _ then _ else s : CacheSlot).function = s.function
  split <;> rfl

/-- A function that is inserted takes the place of the one of that name, or comes last. -/
theorem functions_insert (c : FunctionCache) (f : CachedFunction) :
    (c.insert f).functions = if f.name ∈ c.names then
      c.functions.map fun g => if g.name = f.name then f else g
    else c.functions ++ [f] := by
  have hslot : (c.slot? f.name).isSome ↔ f.name ∈ c.names := by
    unfold slot? names functions
    simp
  unfold insert
  cases hs : c.slot? f.name with
  | none =>
    rw [if_neg (by simp [← hslot, hs])]
    simp [functions]
  | some old =>
    rw [if_pos (by simp [← hslot, hs])]
    unfold functions
    simp only [List.map_map]
    refine List.map_congr_left fun s _ => ?_
    simp only [Function.comp_apply, beq_iff_eq]
    split <;> rfl

theorem mem_functions_insert (h : g ∈ (c.insert f).functions) : g = f ∨ g ∈ c.functions := by
  rw [functions_insert] at h
  split at h
  · obtain ⟨g', hg', rfl⟩ := List.mem_map.1 h
    split
    · exact .inl rfl
    · exact .inr hg'
  · exact (List.mem_append.1 h).symm.imp (by simp) id

theorem get?_insert_self (c : FunctionCache) (f : CachedFunction) :
    (c.insert f).get? f.name = some f := by
  rw [get?_eq_find?, functions_insert]
  split
  · next hmem =>
    rw [List.find?_map]
    obtain ⟨g, hg, hname⟩ := List.mem_map.1 hmem
    have hfound : (c.functions.find? fun g => (if g.name = f.name then f else g).name == f.name)
        |>.isSome := by
      rw [List.find?_isSome]
      exact ⟨g, hg, by simp [hname]⟩
    obtain ⟨g', hg'⟩ := Option.isSome_iff_exists.1 hfound
    have hg'' := List.find?_some hg'
    change (c.functions.find? fun g => (if g.name = f.name then f else g).name == f.name).map _ = _
    rw [hg', Option.map_some]
    by_cases hn : g'.name = f.name
    · rw [if_pos hn]
    · simp [hn] at hg''
  · next hmem =>
    have hnone : c.functions.find? (·.name == f.name) = none := by
      rw [List.find?_eq_none]
      intro g hg hname
      exact hmem (List.mem_map.2 ⟨g, hg, by simpa using hname⟩)
    rw [List.find?_append, hnone]
    simp

theorem get?_insert_of_ne (h : name ≠ f.name) : (c.insert f).get? name = c.get? name := by
  rw [get?_eq_find?, get?_eq_find?, functions_insert]
  split
  · rw [List.find?_map]
    have hsame : (fun g : CachedFunction => (if g.name = f.name then f else g).name == name) =
        (·.name == name) := by
      funext g
      by_cases hg : g.name = f.name
      · simp [hg]
      · simp [hg]
    change (c.functions.find? fun g => (if g.name = f.name then f else g).name == name).map _ = _
    rw [hsame]
    cases hfind : c.functions.find? (·.name == name) with
    | none => rfl
    | some g =>
      have hg : g.name = name := by simpa using List.find?_some hfind
      rw [Option.map_some, if_neg (by rw [hg]; exact h)]
  · rw [List.find?_append, List.find?_singleton]
    simp [h.symm]

/-- Names stay different from each other. -/
theorem nodup_names_insert (h : c.names.Nodup) : (c.insert f).names.Nodup := by
  unfold names
  rw [functions_insert]
  split
  · have hsame : (c.functions.map fun g => if g.name = f.name then f else g).map (·.name) =
        c.names := by
      unfold names
      rw [List.map_map]
      refine List.map_congr_left fun g _ => ?_
      simp only [Function.comp_apply]
      split
      · next hg => exact hg.symm
      · rfl
    rwa [hsame]
  · next hmem =>
    rw [List.map_append, List.nodup_append]
    refine ⟨h, by simp, ?_⟩
    intro a ha b hb hab
    rw [List.map_singleton, List.mem_singleton] at hb
    exact hmem (hb ▸ hab ▸ ha)

/-- With different names, a cached function is the one of its name. -/
theorem get?_of_mem (h : c.names.Nodup) (hf : f ∈ c.functions) : c.get? f.name = some f := by
  rw [get?_eq_find?]
  unfold names at h
  generalize c.functions = fs at h hf
  induction fs with
  | nil => cases hf
  | cons g rest ih =>
    rw [List.map_cons, List.nodup_cons] at h
    rcases List.mem_cons.1 hf with rfl | hf
    · simp
    · have hne : g.name ≠ f.name := fun hname => h.1 (hname ▸ List.mem_map_of_mem hf)
      rw [List.find?_cons_of_neg (by simpa using hne)]
      exact ih h.2 hf

end FunctionCache

/-! ## Records -/

namespace Engine

variable {e e' e'' : Engine} {id id' : ScriptId} {name name' hash : String}

theorem version?_eraseVersion_of_ne (h : (id', name') ≠ (id, name)) :
    (e.eraseVersion id name).version? id' name' = e.version? id' name' := by
  unfold version? eraseVersion
  rw [List.find?_filter]
  congr 2
  funext v
  by_cases hv : v.1 = (id', name')
  · simp [hv, h]
  · simp [hv]

theorem version?_setVersion_of_ne (h : (id', name') ≠ (id, name)) :
    (e.setVersion id name hash).version? id' name' = e.version? id' name' := by
  rw [← version?_eraseVersion_of_ne (e := e) h]
  unfold version? setVersion
  rw [List.find?_cons_of_neg]
  simpa using h.symm

end Engine

/-! ## What computations leave of an engine -/

namespace Hosting

variable {α β : Type} {h : Host}

/-- What holds of the value and the engine if a computation succeeds, and of the engine otherwise. -/
structure Leaves (x : Hosting α) (h : Host) (Q : α → Engine → Prop) (E : Engine → Prop) : Prop where
  ok : ∀ {a h'}, x h = .ok a h' → Q a h'.engine
  error : ∀ {s h'}, x h = .error s h' → E h'.engine

variable {Q Q' : α → Engine → Prop} {R : β → Engine → Prop} {E E' : Engine → Prop}
  {x : Hosting α} {f : α → Hosting β}

theorem Leaves.mono (hx : x.Leaves h Q E) (hq : ∀ a e, Q a e → Q' a e) (he : ∀ e, E e → E' e) :
    x.Leaves h Q' E' :=
  ⟨fun hx' => hq _ _ (hx.ok hx'), fun hx' => he _ (hx.error hx')⟩

theorem Leaves.bind (hx : x.Leaves h Q E) (hf : ∀ a h', x h = .ok a h' → Q a h'.engine →
    (f a).Leaves h' R E) : (x >>= f).Leaves h R E := by
  have heq : (x >>= f) h = EStateM.bind x f h := rfl
  unfold EStateM.bind at heq
  constructor
  · intro b h'' hok
    rw [heq] at hok
    split at hok
    · next a h' ha => exact (hf a h' ha (hx.ok ha)).ok hok
    · cases hok
  · intro s h'' herr
    rw [heq] at herr
    split at herr
    · next a h' ha => exact (hf a h' ha (hx.ok ha)).error herr
    · next s' h' hs =>
      cases herr
      exact hx.error hs

theorem Leaves.of_ok {a : α} {h' : Host} (hx : x h = .ok a h') (hq : Q a h'.engine) :
    x.Leaves h Q E := by
  constructor
  · intro b h'' hok
    rw [hx] at hok
    cases hok
    exact hq
  · intro s h'' herr
    rw [hx] at herr
    cases herr

theorem Leaves.pure (a : α) (hq : Q a h.engine) : (pure a : Hosting α).Leaves h Q E :=
  .of_ok rfl hq

theorem Leaves.throw (s : Stop) (he : E h.engine) : (throw s : Hosting α).Leaves h Q E := by
  constructor
  · intro a h' hok
    cases hok
  · intro s' h' herr
    cases herr
    exact he

/-- What happens in the world of the scripts leaves the engine as it is. -/
theorem leaves_inWorld (x : Exec α) (h : Host) :
    (inWorld x).Leaves h (fun _ e => e = h.engine) (fun e => e = h.engine) := by
  constructor
  · intro a h' hok
    unfold inWorld at hok
    split at hok
    · cases hok
      rfl
    · cases hok
  · intro s h' herr
    unfold inWorld at herr
    split at herr
    · cases herr
    · cases herr
      rfl

theorem Leaves.inWorld_bind {x : Exec α} (hf : ∀ a h', inWorld x h = .ok a h' →
    h'.engine = h.engine → (f a).Leaves h' R E) (he : E h.engine) :
    (inWorld x >>= f).Leaves h R E :=
  ((leaves_inWorld x h).mono (fun _ _ => id) fun _ heq => heq ▸ he).bind hf

theorem Leaves.engine_bind {f : Engine → Hosting β} (hf : (f h.engine).Leaves h R E) :
    (engine >>= f).Leaves h R E :=
  ⟨hf.ok, hf.error⟩

theorem Leaves.modifyEngine_bind {g : Engine → Engine} {f : Unit → Hosting β}
    (hf : (f ()).Leaves { h with engine := g h.engine } R E) :
    (modifyEngine g >>= f).Leaves h R E :=
  ⟨hf.ok, hf.error⟩

theorem Leaves.modifyEngine {g : Engine → Engine} {Q : Unit → Engine → Prop}
    (hq : Q () (g h.engine)) : (modifyEngine g).Leaves h Q E :=
  .of_ok (a := ()) rfl hq

/-- Something is done for each item of a list, one after the other. -/
theorem Leaves.forM {f : α → Hosting Unit} {I : List α → Engine → Prop} (as : List α)
    (hf : ∀ done a h', a ∈ as → I done h'.engine →
      (f a).Leaves h' (fun _ => I (done ++ [a])) E) (hI : I [] h.engine) :
    (as.forM f).Leaves h (fun _ => I as) E := by
  suffices hall : ∀ todo done h', as = done ++ todo → I done h'.engine →
      (todo.forM f).Leaves h' (fun _ => I as) E from hall as [] h rfl hI
  intro todo
  induction todo with
  | nil =>
    intro done h' has hdone
    rw [List.append_nil] at has
    exact .pure () (has ▸ hdone)
  | cons a rest ih =>
    intro done h' has hdone
    change (f a >>= fun _ => rest.forM f).Leaves h' _ E
    have hmem : a ∈ as := has ▸ List.mem_append_right done List.mem_cons_self
    refine (hf done a h' hmem hdone).bind fun _ h'' _ hstep => ?_
    exact ih (done ++ [a]) h'' (by rw [has, List.append_assoc]; rfl) hstep

theorem bind_of_ok {h h' : Host} {a : α} (hx : x h = .ok a h') : (x >>= f) h = f a h' := by
  change EStateM.bind x f h = _
  unfold EStateM.bind
  rw [hx]

theorem bind_of_error {h h' : Host} {s : Stop} (hx : x h = .error s h') :
    (x >>= f) h = .error s h' := by
  change EStateM.bind x f h = _
  unfold EStateM.bind
  rw [hx]

theorem engine_eq (h : Host) : engine h = .ok h.engine h := rfl

theorem inWorld_of_ok {h : Host} {x : Exec α} {a : α} {w : World} (hx : x h.world = .ok a w) :
    inWorld x h = .ok a { h with world := w } := by
  unfold inWorld
  rw [hx]

theorem observe_of_ok {h h' : Host} {a : α} (hx : x h = .ok a h') :
    observe x h = .ok (.ok a) h' := by
  unfold observe
  rw [hx]

theorem observe_of_error {h h' : Host} {s : Stop} (hx : x h = .error s h') :
    observe x h = .ok (.error s) h' := by
  unfold observe
  rw [hx]

theorem exists_of_bind_ok {b : β} {h' : Host} (hok : (x >>= f) h = .ok b h') :
    ∃ a h₁, x h = .ok a h₁ ∧ f a h₁ = .ok b h' := by
  change EStateM.bind x f h = _ at hok
  unfold EStateM.bind at hok
  split at hok
  · next a h₁ ha => exact ⟨a, h₁, ha, hok⟩
  · cases hok

theorem leaves_mapM_onScript {ids : List ScriptId} {x : ScriptId → Exec α} (h : Host) :
    (ids.mapM fun id => onScript id (x id)).Leaves h (fun _ e => e = h.engine)
      (fun e => e = h.engine) := by
  induction ids generalizing h with
  | nil => exact .pure [] rfl
  | cons id rest ih =>
    rw [List.mapM_cons]
    refine .inWorld_bind (fun a h₁ _ he₁ => ?_) rfl
    rw [← he₁]
    exact (ih h₁).bind fun as h₂ _ he₂ => .pure _ he₂

end Hosting

/-! ## Definitions -/

namespace Engine

open Hosting

/-- Some instances got versions of functions that are cached, and no instance became idle. -/
structure Defines (e e' : Engine) : Prop where
  functions : e'.functions = e.functions
  items : e'.pool.items ⊆ e.pool.items
  generation : e'.generation = e.generation
  versions : ∀ id name, e'.version? id name = e.version? id name ∨
    ∃ f ∈ e.functions.functions, f.name = name ∧ e'.version? id name = some f.hash

variable {e e' e'' : Engine} {id : ScriptId} {f : CachedFunction} {h : Host}

theorem Defines.refl (e : Engine) : e.Defines e := ⟨rfl, List.Subset.refl _, rfl, fun _ _ => .inl rfl⟩

theorem Defines.trans (h₁ : e.Defines e') (h₂ : e'.Defines e'') : e.Defines e'' := by
  refine ⟨h₂.functions.trans h₁.functions, List.Subset.trans h₂.items h₁.items,
    h₂.generation.trans h₁.generation, fun id name => ?_⟩
  rcases h₂.versions id name with hsame | hnew
  · rw [hsame]
    exact h₁.versions id name
  · rw [h₁.functions] at hnew
    exact .inr hnew

/-- An instance got one version of a function. -/
structure DefinesOne (id : ScriptId) (f : CachedFunction) (e e' : Engine) : Prop where
  functions : e'.functions = e.functions
  items : e'.pool.items = e.pool.items
  generation : e'.generation = e.generation
  others : ∀ id' name, (id', name) ≠ (id, f.name) → e'.version? id' name = e.version? id' name
  version : e'.version? id f.name = some f.hash

/-- A definition that fails leaves the engine as it is. -/
theorem leaves_define (id : ScriptId) (f : CachedFunction) (h : Host) :
    (define id f).Leaves h (fun _ => DefinesOne id f h.engine) (fun e => e = h.engine) := by
  unfold define
  refine .inWorld_bind (fun chunk h₁ _ he₁ => ?_) rfl
  refine .inWorld_bind (fun _ h₂ _ he₂ => ?_) he₁
  have he₂ := he₂.trans he₁
  refine .inWorld_bind (fun v h₃ _ he₃ => ?_) he₂
  have he₃ := he₃.trans he₂
  refine .modifyEngine_bind (.modifyEngine ?_)
  rw [he₃]
  exact ⟨rfl, rfl, rfl, fun id' name hne => version?_setVersion_of_ne hne,
    version?_setVersion_self _ _ _ _⟩

theorem DefinesOne.defines (hone : DefinesOne id f e e') (hf : f ∈ e.functions.functions) :
    e.Defines e' := by
  refine ⟨hone.functions, hone.items ▸ List.Subset.refl _, hone.generation, fun id' name => ?_⟩
  by_cases heq : (id', name) = (id, f.name)
  · cases heq
    exact .inr ⟨f, hf, rfl, hone.version⟩
  · exact .inl (hone.others id' name heq)

theorem leaves_setUp (config : EngineConfig) (sink : Nat) (objects : List (String × Value))
    (h : Host) : (setUp config sink objects).Leaves h (fun _ e => e = h.engine)
      (fun e => e = h.engine) := by
  unfold setUp
  refine .inWorld_bind (fun id h₁ _ he₁ => ?_) rfl
  refine .inWorld_bind (fun _ h₂ _ he₂ => ?_) he₁
  exact .pure _ (he₂.trans he₁)

/-- A new instance has the versions of all cached functions. -/
theorem leaves_newInstance (h : Host) :
    newInstance.Leaves h (fun i e => h.engine.Defines e ∧ i.generation = h.engine.generation ∧
      ∀ f ∈ h.engine.functions.functions, ∃ g ∈ h.engine.functions.functions,
        g.name = f.name ∧ e.version? i.script f.name = some g.hash)
      (h.engine.Defines) := by
  unfold newInstance
  refine .engine_bind ?_
  refine ((leaves_setUp _ _ _ h).mono (fun _ _ => id) fun e he => he ▸ .refl _).bind
    fun id h₂ _ he₂ => ?_
  -- the functions so far have the version of a cached function of that name
  let I (done : List CachedFunction) (e : Engine) : Prop := h.engine.Defines e ∧
    ∀ f ∈ done, ∃ g ∈ h.engine.functions.functions, g.name = f.name ∧
      e.version? id f.name = some g.hash
  have hall := Leaves.forM (h := h₂) (I := I) (E := h.engine.Defines) h.engine.functions.functions
    (f := define id) ?_ ⟨he₂ ▸ .refl _, by simp⟩
  · refine hall.bind fun _ h₃ _ hI => ?_
    obtain ⟨hdefines, hdone⟩ := hI
    refine .modifyEngine_bind (.pure _ ⟨?_, rfl, hdone⟩)
    exact ⟨hdefines.functions, hdefines.items, hdefines.generation, hdefines.versions⟩
  · rintro done f h' hf ⟨hdefines, hdone⟩
    refine (leaves_define id f h').mono (fun _ e hone => ?_) fun e he => he ▸ hdefines
    have hstep := hone.defines (hdefines.functions ▸ hf)
    refine ⟨hdefines.trans hstep, fun g hg => ?_⟩
    by_cases hname : g.name = f.name
    · exact ⟨f, hf, hname.symm, hname ▸ hone.version⟩
    · rcases List.mem_append.1 hg with hg | hg
      · obtain ⟨g', hg', hname', hversion⟩ := hdone g hg
        refine ⟨g', hg', hname', ?_⟩
        rw [hone.others id g.name (by simpa using hname), hversion]
      · exact absurd (by rw [List.mem_singleton.1 hg]) hname

/-! ## Leases -/

/-- What is first among the idle instances is of the current generation. -/
theorem firstCurrent_some {generation : Nat} {items rest : List Instance} {i : Instance}
    (h : firstCurrent generation items = (some i, rest)) :
    i ∈ items ∧ i.generation = generation ∧ rest ⊆ items := by
  induction items with
  | nil => cases h
  | cons j items ih =>
    unfold firstCurrent at h
    split at h
    · next hj =>
      cases h
      exact ⟨List.mem_cons_self, by simpa using hj, List.subset_cons_self _ _⟩
    · obtain ⟨hmem, hgeneration, hrest⟩ := ih h
      refine ⟨List.mem_cons_of_mem j hmem, hgeneration, ?_⟩
      exact List.Subset.trans hrest (List.subset_cons_self _ _)

theorem firstCurrent_none {generation : Nat} {items rest : List Instance}
    (h : firstCurrent generation items = (none, rest)) : rest = [] := by
  induction items with
  | nil =>
    cases h
    rfl
  | cons j items ih =>
    unfold firstCurrent at h
    split at h
    · cases h
    · exact ih h

/-- An instance that is leased was idle, or is new and has the versions of all cached functions. -/
theorem leaves_lease (h : Host) :
    lease.Leaves h (fun leased e => h.engine.Defines e ∧
      (leased.2 = false → leased.1 ∈ h.engine.pool.items ∧
        ∀ id name, e.version? id name = h.engine.version? id name) ∧
      (leased.2 = true → ∀ f ∈ h.engine.functions.functions, ∃ g ∈ h.engine.functions.functions,
        g.name = f.name ∧ e.version? leased.1.script f.name = some g.hash))
      (h.engine.Defines) := by
  unfold lease
  refine .engine_bind ?_
  dsimp only
  cases hfirst : firstCurrent h.engine.generation h.engine.pool.items with
  | mk found rest =>
    refine .modifyEngine_bind ?_
    dsimp only
    cases found with
    | some i =>
      obtain ⟨hmem, -, hrest⟩ := firstCurrent_some hfirst
      exact .pure _ ⟨⟨rfl, hrest, rfl, fun _ _ => .inl rfl⟩, fun _ => ⟨hmem, fun _ _ => rfl⟩,
        fun hnew => by cases hnew⟩
    | none =>
      have hdropped : h.engine.Defines { h.engine with pool := { h.engine.pool with items := rest } } := by
        rw [firstCurrent_none hfirst]
        exact ⟨rfl, by simp, rfl, fun _ _ => .inl rfl⟩
      refine ((leaves_newInstance _).mono (fun _ _ => id) fun e he => hdropped.trans he).bind ?_
      rintro i h' - ⟨hdefines, -, hnew⟩
      refine .pure _ ⟨hdropped.trans hdefines, ?_, fun _ => hnew⟩
      intro hfalse
      cases hfalse

/-- What is given back becomes idle or is dropped. -/
theorem leaves_release (i : Instance) (h : Host) :
    (release i).Leaves h (fun _ e => e.functions = h.engine.functions ∧
      e.pool.items ⊆ i :: h.engine.pool.items ∧ e.versions = h.engine.versions)
      (fun e => e = h.engine) := by
  unfold release
  refine .inWorld_bind (fun isIdle h' _ he => ?_) rfl
  split
  · unfold discard count
    refine .modifyEngine ?_
    rw [he]
    exact ⟨rfl, List.subset_cons_self _ _, rfl⟩
  · refine .modifyEngine ?_
    rw [he]
    split
    · exact ⟨rfl, List.subset_cons_self _ _, rfl⟩
    · refine ⟨rfl, ?_, rfl⟩
      unfold Pool.put?
      split
      · exact List.Subset.refl _
      · exact List.subset_cons_self _ _

/-! ## Loads -/

/-- The body of a function was loaded, or part of the way to it was gone: some instances got its
version, and some have none. -/
structure Loads (f : CachedFunction) (e e' : Engine) : Prop where
  functions : e'.functions = e.functions ∨ e'.functions = e.functions.insert f
  items : e'.pool.items = e.pool.items
  versions : ∀ id name, e'.version? id name = e.version? id name ∨
    f.name = name ∧ (e'.version? id name = none ∨ e'.version? id name = some f.hash)

theorem Loads.insert {f : CachedFunction} {e e' : Engine} (h : Loads f e e')
    (hfunctions : e'.functions = e.functions) :
    Loads f e { e' with functions := e'.functions.insert f } :=
  ⟨.inr (congrArg (·.insert f) hfunctions), h.items, h.versions⟩

/-- In one instance the version of a function is recorded, or none is. -/
theorem leaves_redefine (f : CachedFunction) (id : ScriptId) (chunk : Value) (h : Host) :
    (redefine f id chunk).Leaves h (fun _ e => e.functions = h.engine.functions ∧
      Loads f h.engine e) (fun e => e = h.engine) := by
  unfold redefine
  refine .inWorld_bind (fun _ h₁ _ he₁ => ?_) rfl
  have hcall := leaves_inWorld (Exec.within id (Script.call chunk [])) h₁
  have hobserve : (observe (onScript id (Script.call chunk []))).Leaves h₁
      (fun _ e => e = h.engine) (fun e => e = h.engine) := by
    constructor
    · intro outcome h' hok
      unfold observe at hok
      split at hok
      · next hv =>
        cases hok
        exact (hcall.ok hv).trans he₁
      · next hs =>
        cases hok
        exact (hcall.error hs).trans he₁
    · intro s h' herr
      unfold observe at herr
      split at herr <;> cases herr
  have hothers : ∀ {e : Engine}, (∀ id' name, (id', name) ≠ (id, f.name) →
      e.version? id' name = h.engine.version? id' name) →
      (e.version? id f.name = none ∨ e.version? id f.name = some f.hash) →
      ∀ id' name, e.version? id' name = h.engine.version? id' name ∨
        f.name = name ∧ (e.version? id' name = none ∨ e.version? id' name = some f.hash) := by
    intro e hothers hself id' name
    by_cases heq : (id', name) = (id, f.name)
    · cases heq
      exact .inr ⟨rfl, hself⟩
    · exact .inl (hothers id' name heq)
  refine hobserve.bind fun outcome h₂ _ he₂ => ?_
  match outcome with
  | .ok v =>
    refine .modifyEngine_bind (.modifyEngine ?_)
    rw [he₂]
    exact ⟨rfl, .inl rfl, rfl, hothers (fun _ _ hne => version?_setVersion_of_ne hne)
      (.inr (version?_setVersion_self _ _ _ _))⟩
  | .error (.error err) =>
    refine .modifyEngine ?_
    rw [he₂]
    exact ⟨rfl, .inl rfl, rfl, hothers (fun _ _ hne => version?_eraseVersion_of_ne hne)
      (.inl (version?_eraseVersion_self _ _ _))⟩
  | .error (.panic _) => exact .throw _ he₂
  | .error .exhausted => exact .throw _ he₂

theorem leaves_checkLoad (code name : String) (h : Host) :
    (checkLoad code name).Leaves h (fun _ e => e = h.engine) (fun e => e = h.engine) := by
  unfold checkLoad onTrial
  constructor
  · intro a h' hok
    split at hok <;> cases hok
    rfl
  · intro s h' herr
    split at herr <;> cases herr
    rfl

theorem Loads.trans {f : CachedFunction} {e e' e'' : Engine} (h₁ : Loads f e e')
    (hfunctions : e'.functions = e.functions) (h₂ : Loads f e' e'') : Loads f e e'' := by
  refine ⟨hfunctions ▸ h₂.functions, h₂.items.trans h₁.items, fun id name => ?_⟩
  rcases h₂.versions id name with hsame | hnew
  · rw [hsame]
    exact h₁.versions id name
  · exact .inr hnew

/-- A body that was not cached yet is cached when loading it succeeds. -/
theorem leaves_loadFunction (name code : String) (h : Host) :
    let f := CachedFunction.ofSource name code
    (loadFunction name code).Leaves h (fun _ e => Loads f h.engine e ∧
        (h.engine.functions.hashOf? name ≠ some f.hash →
          e.functions = h.engine.functions.insert f))
      (Loads f h.engine) := by
  intro f
  have hrefl : Loads f h.engine h.engine := ⟨.inl rfl, rfl, fun _ _ => .inl rfl⟩
  unfold loadFunction
  refine .engine_bind ?_
  dsimp only
  split
  · next hsame =>
    refine .pure () ⟨hrefl, fun hchanged => absurd ?_ hchanged⟩
    simpa using hsame
  · split
    · refine ((leaves_checkLoad _ _ h).mono (fun _ _ => id) fun e he => he ▸ hrefl).bind
        fun _ h₁ _ he₁ => .modifyEngine ?_
      rw [he₁]
      exact ⟨hrefl.insert rfl, fun _ => rfl⟩
    · have hchunks : ((h.engine.pool.idle.map (·.script)).mapM fun id =>
          onScript id (Exec.loadString f.definition none name)).Leaves h
          (fun _ e => e = h.engine) (fun e => e = h.engine) := leaves_mapM_onScript h
      refine (hchunks.mono (fun _ _ => id) fun e he => he ▸ hrefl).bind fun chunks h₁ _ he₁ => ?_
      have hall := Leaves.forM (h := h₁) (E := Loads f h.engine)
        (I := fun _ e => e.functions = h.engine.functions ∧ Loads f h.engine e)
        ((h.engine.pool.idle.map (·.script)).zip chunks) (f := fun p => redefine f p.1 p.2)
        ?_ ⟨congrArg (·.functions) he₁, he₁.symm ▸ hrefl⟩
      · refine hall.bind fun _ h₂ _ hI => .modifyEngine ?_
        exact ⟨hI.2.insert hI.1, fun _ => congrArg (·.insert f) hI.1⟩
      · rintro _ p h' - ⟨hfunctions, hloads⟩
        refine (leaves_redefine f p.1 p.2 h').mono ?_ fun e he => he ▸ hloads
        rintro - e ⟨hfunctions', hloads'⟩
        exact ⟨hfunctions'.trans hfunctions, hloads.trans hfunctions hloads'⟩

/-- A body that is cached already is not loaded again. -/
theorem loadFunction_cached {name code : String} {h : Host}
    (hsame : h.engine.functions.hashOf? name = some (CachedFunction.ofSource name code).hash) :
    loadFunction name code h = .ok () h := by
  have hengine : engine h = .ok h.engine h := rfl
  unfold loadFunction
  change EStateM.bind engine _ h = _
  unfold EStateM.bind
  rw [hengine]
  dsimp only
  rw [if_pos (by simpa using hsame)]
  rfl

end Engine

end LuaMachine
