import LuaMachine.Proofs.Engine.Deeds

/-!
# Executions and loads, in any order

Executions lease instances and give them back, and functions are loaded in between. `Engine.Step` is
one step of an engine and the instances that are leased: a lease, the end of one, the definition of a
function by an execution that finds another version, a load, or whatever scripts and the host do
otherwise. So the steps of executions that overlap may come in any order. `Engine.Chronicle` tells of
a run what every step did in the instances.

A function that was loaded is received by the instances that are idle then and by all new ones, until
the next load of that name. What was leased during the load is another matter: it comes back as it is
(`Engine.Run.not_always_current`), and nobody compares versions when an instance is leased or given
back. A call of the function by its name does.

Main statement: `Engine.Run.load_observed`.
-/

namespace LuaMachine

namespace Engine

open Hosting

/-! ## Calls by name -/

/-- Define a cached function in an instance that has another version of it; tells whether it had. -/
def refresh (id : ScriptId) (name : String) (cached : Option CachedFunction) : Hosting Bool := do
  let version := (← engine).version? id name
  let stale := cached.any fun f => version != some f.hash
  if stale then cached.forM (define id)
  return stale

/-- A call by name reads the cache, leases an instance, and refreshes the function there. -/
theorem executeFunction_eq (token : Nat) (name : String) (args : List Value) :
    executeFunction token name args = counted (do
      let cached := (← engine).functions.get? name
      withInstance fun i isNew => do
        let stale ← refresh i.script name cached
        let f ← onScript i.script (Script.getGlobal name)
        if !f.isCallable then throw (.error (.functionNotFound name))
        cached.forM fun f => noteRun f (!isNew && !stale)
        onScript i.script (Script.callWith token f args)) := by
  unfold executeFunction refresh
  simp only [bind_assoc]
  congr 2
  funext e
  congr 1
  funext i isNew
  congr 1
  funext e'
  split
  · simp only [bind_assoc, pure_bind]
  · simp only [pure_bind]

/-- After a refresh an instance has the version that was in the cache, from before or defined now. -/
theorem leaves_refresh (id : ScriptId) (f : CachedFunction) (h : Host) :
    (refresh id f.name (some f)).Leaves h (fun _ e => e.version? id f.name = some f.hash ∧
      (e = h.engine ∨ DefinesOne id f h.engine e)) (fun e => e = h.engine) := by
  unfold refresh
  refine .engine_bind ?_
  dsimp only [Option.any, Option.forM]
  split
  · exact (leaves_define id f h).bind fun _ h' _ hone => .pure _ ⟨hone.version, .inr hone⟩
  · next hsame => exact .pure _ ⟨by simpa using hsame, .inl rfl⟩

/-- With the version in the cache already, nothing is done. -/
theorem refresh_of_version {id : ScriptId} {name : String} {f : CachedFunction} {h : Host}
    (hversion : h.engine.version? id name = some f.hash) :
    refresh id name (some f) h = .ok false h := by
  have hfresh : (some f).any (fun f' => some f.hash != some f'.hash) = false := by simp
  unfold refresh
  rw [bind_of_ok (engine_eq _), hversion, hfresh]
  rfl

/-- With another version, the one in the cache is defined. -/
theorem tells_refresh {id : ScriptId} {f : CachedFunction} {stale : Bool} {h h' : Host}
    (hright : f = .ofSource f.name f.code) (hok : refresh id f.name (some f) h = .ok stale h') :
    ∃ ds, Course h ds h' ∧ if stale then h'.engine.Has ds id f else h' = h := by
  by_cases hversion : h.engine.version? id f.name = some f.hash
  · rw [refresh_of_version hversion] at hok
    cases hok
    exact ⟨[], .start, rfl⟩
  · have hengine : engine h = .ok h.engine h := rfl
    have hstale : (some f).any (fun f' => h.engine.version? id f.name != some f'.hash) = true := by
      simpa using hversion
    unfold refresh at hok
    rw [bind_of_ok hengine, hstale] at hok
    obtain ⟨_, h₁, hdefine, hok⟩ := exists_of_bind_ok hok
    cases hok
    obtain ⟨ds, ht, chunk, hds⟩ :=
      (tells_define (P := fun _ => True) (.start h) fun _ _ => trivial).ok hdefine
    refine ⟨ds, ht.course, ((leaves_define id f h).ok hdefine).version, ?_⟩
    exact hds ▸ definedSince_now rfl rfl hright List.mem_cons_self

/-! ## Steps -/

/-- An engine and the instances that executions have leased. -/
structure Traffic where
  host : Host
  leased : List Instance

/-- What happens to an engine that matters to its functions. -/
inductive Event where
  | lease (i : Instance)
  /-- no instance can be made -/
  | noLease
  /-- a leased instance is given back or dropped -/
  | finish (i : Instance)
  /-- an execution defines a function in its instance, or tries to -/
  | define (i : Instance) (name code : String)
  | load (name code : String)
  /-- scripts run, and the host changes settings -/
  | other

/-- One step of an engine and the executions in progress. -/
inductive Step : Event → Traffic → Traffic → Prop
  | lease {t : Traffic} {i : Instance} {isNew : Bool} {h : Host}
    (hlease : Engine.lease t.host = .ok (i, isNew) h) : Step (.lease i) t ⟨h, i :: t.leased⟩
  | noLease {t : Traffic} {s : Stop} {h : Host} (hlease : Engine.lease t.host = .error s h) :
    Step .noLease t ⟨h, t.leased⟩
  | release {t : Traffic} {i : Instance} {h : Host} (hi : i ∈ t.leased)
    (hrelease : Engine.release i t.host = .ok () h) : Step (.finish i) t ⟨h, t.leased.erase i⟩
  | discard {t : Traffic} {i : Instance} {h : Host} (hi : i ∈ t.leased)
    (hdiscard : Engine.discard i t.host = .ok () h) : Step (.finish i) t ⟨h, t.leased.erase i⟩
  | define {t : Traffic} {i : Instance} {name code : String} {h : Host} (hi : i ∈ t.leased)
    (hdefine : Engine.define i.script (.ofSource name code) t.host = .ok () h) :
    Step (.define i name code) t ⟨h, t.leased⟩
  | noDefine {t : Traffic} {i : Instance} {name code : String} {s : Stop} {h : Host}
    (hi : i ∈ t.leased)
    (hdefine : Engine.define i.script (.ofSource name code) t.host = .error s h) :
    Step (.define i name code) t ⟨h, t.leased⟩
  | load {t : Traffic} {name code : String} {h : Host}
    (hload : Engine.loadFunction name code t.host = .ok () h) :
    Step (.load name code) t ⟨h, t.leased⟩
  | noLoad {t : Traffic} {name code : String} {s : Stop} {h : Host}
    (hload : Engine.loadFunction name code t.host = .error s h) :
    Step (.load name code) t ⟨h, t.leased⟩
  | other {t : Traffic} {h : Host}
    (hfunctions : h.engine.functions.functions = t.host.engine.functions.functions)
    (hversions : h.engine.versions = t.host.engine.versions)
    (hitems : h.engine.pool.items ⊆ t.host.engine.pool.items) : Step .other t ⟨h, t.leased⟩

/-- Steps one after the other. -/
inductive Run : List Event → Traffic → Traffic → Prop
  | nil {t : Traffic} : Run [] t t
  | cons {event : Event} {events : List Event} {t t₁ t' : Traffic} (hstep : Step event t t₁)
    (hrun : Run events t₁ t') : Run (event :: events) t t'

theorem Run.append {events events' : List Event} {t t₁ t' : Traffic} (h : Run events t t₁)
    (h' : Run events' t₁ t') : Run (events ++ events') t t' := by
  induction h with
  | nil => exact h'
  | cons hstep _ ih => exact .cons hstep (ih h')

/-- An event is what these deeds make of an engine. Scripts give instances no functions that an
engine knows of. -/
def Event.Course (h : Host) (ds : List Deed) (h' : Host) : Event → Prop
  | .other => ds = []
  | _ => Engine.Course h ds h'

/-- A run, with what is done in instances, the latest deed first. -/
inductive Chronicle : List Event → List Deed → Traffic → Traffic → Prop
  | nil {t : Traffic} : Chronicle [] [] t t
  | cons {event : Event} {events : List Event} {ds ds' : List Deed} {t t₁ t' : Traffic}
    (hstep : Step event t t₁) (hcourse : event.Course t.host ds t₁.host)
    (hrest : Chronicle events ds' t₁ t') : Chronicle (event :: events) (ds' ++ ds) t t'

/-- A new engine. -/
def Traffic.start (config : EngineConfig) : Traffic := ⟨Host.create config, []⟩

/-- What can become of a new engine. -/
def Traffic.Reachable (t : Traffic) : Prop := ∃ config events, Run events (.start config) t

/-! ## What is so in every state -/

/-- The names of cached functions are different from each other, and their digests are right. -/
structure Sound (e : Engine) : Prop where
  names : e.functions.names.Nodup
  hashes : ∀ f ∈ e.functions.functions, f = .ofSource f.name f.code

variable {e e' : Engine} {f : CachedFunction} {t t' : Traffic} {event : Event} {events : List Event}
  {ds ds' : List Deed} {id : ScriptId}

theorem Sound.create (config : EngineConfig) : (Host.create config).engine.Sound :=
  ⟨List.nodup_nil, by simp [Host.create, FunctionCache.functions]⟩

/-- Only a load changes which functions are cached, and an instance that is idle or leased after a step
was so before, but for one that is new. -/
theorem Step.changes (h : Step event t t') :
    (t'.host.engine.functions.functions = t.host.engine.functions.functions ∨
      ∃ name code, event = .load name code ∧
        t'.host.engine.functions = t.host.engine.functions.insert (.ofSource name code)) ∧
    ∀ i ∈ t'.host.engine.pool.items ++ t'.leased,
      i ∈ t.host.engine.pool.items ++ t.leased ∨ event = .lease i := by
  have hkept : ∀ {items : List Instance} {i : Instance}, items ⊆ t.host.engine.pool.items →
      i ∈ items ++ t.leased → i ∈ t.host.engine.pool.items ++ t.leased :=
    fun hitems hi => List.mem_append.2 ((List.mem_append.1 hi).imp_left (hitems ·))
  have hloads : ∀ {name code : String} {e : Engine}, Loads (.ofSource name code) t.host.engine e →
      e.functions.functions = t.host.engine.functions.functions ∨ ∃ name' code',
        Event.load name code = .load name' code' ∧
          e.functions = t.host.engine.functions.insert (.ofSource name' code') :=
    fun hloads => hloads.functions.imp (congrArg _) fun hinsert => ⟨_, _, rfl, hinsert⟩
  cases h with
  | @lease _ i isNew h hlease =>
    obtain ⟨hd, -⟩ := (leaves_lease _).ok hlease
    refine ⟨.inl (congrArg _ hd.functions), fun j hj => ?_⟩
    rcases List.mem_append.1 hj with hj | hj
    · exact .inl (List.mem_append_left _ (hd.items hj))
    · rcases List.mem_cons.1 hj with rfl | hj
      · exact .inr rfl
      · exact .inl (List.mem_append_right _ hj)
  | noLease hlease =>
    have hd := (leaves_lease _).error hlease
    exact ⟨.inl (congrArg _ hd.functions), fun j hj => .inl (hkept hd.items hj)⟩
  | @release _ i h hi hrelease =>
    obtain ⟨hfunctions, hitems, -⟩ := (leaves_release _ _).ok hrelease
    refine ⟨.inl (congrArg _ hfunctions), fun j hj => .inl ?_⟩
    rcases List.mem_append.1 hj with hj | hj
    · rcases List.mem_cons.1 (hitems hj) with rfl | hj
      · exact List.mem_append_right _ hi
      · exact List.mem_append_left _ hj
    · exact List.mem_append_right _ (List.mem_of_mem_erase hj)
  | discard hi hdiscard =>
    cases hdiscard
    exact ⟨.inl rfl, fun j hj => .inl
      (List.mem_append.2 ((List.mem_append.1 hj).imp_right List.mem_of_mem_erase))⟩
  | define _ hdefine =>
    have hone := (leaves_define _ _ _).ok hdefine
    exact ⟨.inl (congrArg _ hone.functions), fun j hj => .inl (hone.items ▸ hj)⟩
  | noDefine _ hdefine =>
    have hsame := (leaves_define _ _ _).error hdefine
    exact ⟨.inl (hsame ▸ rfl), fun j hj => .inl (hsame ▸ hj)⟩
  | load hload =>
    obtain ⟨h, -⟩ := (leaves_loadFunction _ _ _).ok hload
    exact ⟨hloads h, fun j hj => .inl (h.items ▸ hj)⟩
  | noLoad hload =>
    have h := (leaves_loadFunction _ _ _).error hload
    exact ⟨hloads h, fun j hj => .inl (h.items ▸ hj)⟩
  | other hfunctions _ hitems => exact ⟨.inl hfunctions, fun j hj => .inl (hkept hitems hj)⟩

theorem Sound.insert {name code : String} (hs : e.Sound)
    (hinsert : e'.functions = e.functions.insert (.ofSource name code)) : e'.Sound := by
  refine ⟨hinsert ▸ FunctionCache.nodup_names_insert hs.names, fun g hg => ?_⟩
  rw [hinsert] at hg
  rcases FunctionCache.mem_functions_insert hg with rfl | hg
  · rfl
  · exact hs.hashes g hg

theorem Step.sound (h : Step event t t') (hs : t.host.engine.Sound) : t'.host.engine.Sound := by
  rcases h.changes.1 with hsame | ⟨name, code, -, hinsert⟩
  · have hnames : t'.host.engine.functions.names = t.host.engine.functions.names :=
      congrArg (List.map _) hsame
    exact ⟨hnames ▸ hs.names, hsame ▸ hs.hashes⟩
  · exact hs.insert hinsert

theorem Run.sound (h : Run events t t') (hs : t.host.engine.Sound) : t'.host.engine.Sound := by
  induction h with
  | nil => exact hs
  | cons hstep _ ih => exact ih (hstep.sound hs)

/-- With different names, the digest of a cached function is that of its name. -/
theorem Sound.hash_eq {g : CachedFunction} (hs : e.Sound)
    (hcached : e.functions.hashOf? f.name = some f.hash) (hg : g ∈ e.functions.functions)
    (hname : g.name = f.name) : g.hash = f.hash := by
  unfold FunctionCache.hashOf? at hcached
  rw [← hname, FunctionCache.get?_of_mem hs.names hg] at hcached
  exact Option.some.inj hcached

/-! ## What steps do in instances -/

theorem Sound.has_of_equipped (hs : e.Sound) (hcached : e.functions.hashOf? f.name = some f.hash)
    (hequipped : ∀ g ∈ e.functions.functions,
      ∃ g' ∈ e.functions.functions, g'.name = g.name ∧ e'.Has ds id g') : e'.Has ds id f := by
  obtain ⟨g, hget, -⟩ := Option.map_eq_some_iff.1 hcached
  obtain ⟨hg, hname⟩ := FunctionCache.mem_of_get? hget
  obtain ⟨g', hg', hname', hhas⟩ := hequipped g hg
  exact hhas.of_eq (hname'.trans hname) (hs.hash_eq hcached hg' (hname'.trans hname))

/-- What an event may do in an instance, given the functions that are cached before. -/
def Event.Allows (e : Engine) (event : Event) (d : Deed) : Prop :=
  match event with
  | .lease _ | .noLease =>
    d.function ∈ e.functions.functions ∧ ∀ chunk err, d.outcome ≠ .refused chunk err
  | .define i name code => d.script = i.script ∧ d.function = .ofSource name code ∧
    ∀ chunk err, d.outcome ≠ .refused chunk err
  | .load name code => d.function = .ofSource name code ∧
    e.functions.hashOf? name ≠ some (CachedFunction.ofSource name code).hash
  | .finish _ | .other => False

theorem Event.Allows.right {d : Deed} (h : event.Allows e d) (hs : e.Sound) : d.Right := by
  cases event with
  | lease => exact hs.hashes _ h.1
  | noLease => exact hs.hashes _ h.1
  | finish => exact h.elim
  | define =>
    unfold Deed.Right
    rw [h.2.1]
    rfl
  | load =>
    unfold Deed.Right
    rw [h.1]
    rfl
  | other => exact h.elim

/-- An instance that is leased was idle, or it has cached versions of all functions. -/
def Event.Equips (e : Engine) (ds : List Deed) (e' : Engine) : Event → Prop
  | .lease i => i ∈ e.pool.items ∨ ∀ f ∈ e.functions.functions,
    ∃ g ∈ e.functions.functions, g.name = f.name ∧ e'.Has ds i.script g
  | _ => True

theorem lease_told {h h' : Host} {i : Instance} {isNew : Bool} (hs : h.engine.Sound)
    (hlease : lease h = .ok (i, isNew) h') :
    ∃ ds, Engine.Course h ds h' ∧ (∀ d ∈ ds, (Event.lease i).Allows h.engine d) ∧
      (isNew = false → i ∈ h.engine.pool.items) ∧
      (isNew = true → ∀ f ∈ h.engine.functions.functions,
        ∃ g ∈ h.engine.functions.functions, g.name = f.name ∧ h'.engine.Has ds i.script g) := by
  have htells := tells_lease (P := (Event.lease i).Allows h.engine) (.start h) hs.hashes
    fun f hf id o ho => ⟨hf, ho⟩
  obtain ⟨ds, ht, hnew⟩ := htells.ok hlease
  exact ⟨ds, ht.course, ht.all, fun hold => (((leaves_lease _).ok hlease).2.1 hold).1, hnew⟩

theorem Step.told (h : Step event t t') (hs : t.host.engine.Sound) :
    ∃ ds, event.Course t.host ds t'.host ∧ (∀ d ∈ ds, event.Allows t.host.engine d) ∧
      event.Equips t.host.engine ds t'.host.engine := by
  cases h with
  | @lease _ i isNew h hlease =>
    obtain ⟨ds, hcourse, hallows, hold, hnew⟩ := lease_told hs hlease
    cases isNew with
    | false => exact ⟨ds, hcourse, hallows, .inl (hold rfl)⟩
    | true => exact ⟨ds, hcourse, hallows, .inr (hnew rfl)⟩
  | noLease hlease =>
    have htells := tells_lease (P := Event.noLease.Allows t.host.engine) (.start t.host) hs.hashes
      fun f hf id o ho => ⟨hf, ho⟩
    obtain ⟨ds, ht⟩ := htells.error hlease
    exact ⟨ds, ht.course, ht.all, trivial⟩
  | @release _ i h _ hrelease =>
    obtain ⟨-, -, hversions⟩ := (leaves_release _ _).ok hrelease
    -- Giving an instance back runs nothing in it.
    have hworld : h.world = t.host.world := by
      unfold Engine.release at hrelease
      obtain ⟨isIdle, h₁, hidle, hrelease⟩ := exists_of_bind_ok hrelease
      cases hidle
      split at hrelease <;> cases hrelease <;> rfl
    exact ⟨[], .book .start hversions hworld, by simp, trivial⟩
  | discard _ hdiscard =>
    cases hdiscard
    exact ⟨[], .book .start rfl rfl, by simp, trivial⟩
  | @define _ i name code h _ hdefine =>
    have htells := tells_define (P := (Event.define i name code).Allows t.host.engine)
      (.start t.host) fun _ ho => ⟨rfl, rfl, ho⟩
    obtain ⟨ds, ht, -⟩ := htells.ok hdefine
    exact ⟨ds, ht.course, ht.all, trivial⟩
  | @noDefine _ i name code s h _ hdefine =>
    have htells := tells_define (P := (Event.define i name code).Allows t.host.engine)
      (.start t.host) fun _ ho => ⟨rfl, rfl, ho⟩
    obtain ⟨ds, ht⟩ := htells.error hdefine
    exact ⟨ds, ht.course, ht.all, trivial⟩
  | @load _ name code h hload =>
    have htells := tells_loadFunction (P := (Event.load name code).Allows t.host.engine) name code
      (.start t.host) fun hnew _ _ => ⟨rfl, hnew⟩
    obtain ⟨ds, ht, -⟩ := htells.ok hload
    exact ⟨ds, ht.course, ht.all, trivial⟩
  | @noLoad _ name code s h hload =>
    have htells := tells_loadFunction (P := (Event.load name code).Allows t.host.engine) name code
      (.start t.host) fun hnew _ _ => ⟨rfl, hnew⟩
    obtain ⟨ds, ht⟩ := htells.error hload
    exact ⟨ds, ht.course, ht.all, trivial⟩
  | other => exact ⟨[], rfl, by simp, trivial⟩

theorem Step.recorded (h : Step event t t') (hcourse : event.Course t.host ds' t'.host)
    (hright : ∀ d ∈ ds', d.Right) (hstart : t.host.engine.Recorded ds id f) :
    t'.host.engine.Recorded (ds' ++ ds) id f := by
  cases h with
  | other _ hversions _ =>
    obtain rfl : ds' = [] := hcourse
    intro hversion
    rw [version?_congr hversions] at hversion
    exact hstart hversion
  | _ => exact Course.recorded hcourse hstart hright

/-- Every version that is recorded was defined where it is recorded. -/
theorem Chronicle.recorded (h : Chronicle events ds' t t') (hright : ∀ d ∈ ds', d.Right)
    (hstart : t.host.engine.Recorded ds id f) : t'.host.engine.Recorded (ds' ++ ds) id f := by
  induction h generalizing ds with
  | nil => exact hstart
  | cons hstep hcourse _ ih =>
    obtain ⟨hlater, hnow⟩ := List.forall_mem_append.1 hright
    rw [List.append_assoc]
    exact ih hlater (hstep.recorded hcourse hnow hstart)

/-! ## After a load -/

/-- A function is cached, and all instances but some that missed it are settled. -/
structure Observed (f : CachedFunction) (missed : ScriptId → Prop) (ds : List Deed) (t : Traffic) :
    Prop where
  cached : t.host.engine.functions.hashOf? f.name = some f.hash
  settled : ∀ i ∈ t.host.engine.pool.items ++ t.leased,
    missed i.script ∨ t.host.engine.Settled ds i.script f

variable {missed : ScriptId → Prop}

/-- A load that succeeds with a new body is observed by everything that is not leased. -/
theorem observed_of_load {name code : String} {h : Host}
    (hload : loadFunction name code t.host = .ok () h)
    (hnew : t.host.engine.functions.hashOf? name ≠ some (CachedFunction.ofSource name code).hash) :
    ∃ ds, Course t.host ds h ∧ (∀ d ∈ ds, d.Right) ∧
      Observed (.ofSource name code) (fun id => ∃ i ∈ t.leased, i.script = id) ds ⟨h, t.leased⟩ := by
  obtain ⟨hloads, hfunctions⟩ := (leaves_loadFunction name code t.host).ok hload
  have htells := tells_loadFunction (P := Deed.Right) name code (.start t.host) fun _ _ _ => rfl
  obtain ⟨ds, ht, hsettled⟩ := htells.ok hload
  refine ⟨ds, ht.course, ht.all, ?_, fun i hi => ?_⟩
  · unfold FunctionCache.hashOf?
    rw [hfunctions hnew]
    exact congrArg (Option.map _) (FunctionCache.get?_insert_self _ (.ofSource name code))
  · rcases List.mem_append.1 hi with hi | hi
    · exact .inr (hsettled hnew i (hloads.items ▸ hi))
    · exact .inl ⟨i, hi, rfl⟩

theorem Observed.mono {missed' : ScriptId → Prop} (h : Observed f missed ds t)
    (hm : ∀ id, missed id → missed' id) : Observed f missed' ds t :=
  ⟨h.cached, fun i hi => (h.settled i hi).imp_left (hm _)⟩

/-- An event says nothing new about a function, other than in instances that missed it. -/
def Event.Agrees (f : CachedFunction) (missed : ScriptId → Prop) : Event → Prop
  | .load name code => name = f.name → (CachedFunction.ofSource name code).hash = f.hash
  | .define i name code =>
    name = f.name → (CachedFunction.ofSource name code).hash ≠ f.hash → missed i.script
  | _ => True

/-- Then nothing but this version is defined in an instance that did not miss it. -/
theorem Event.Agrees.renews {d : Deed} (hagrees : event.Agrees f missed)
    (hallows : event.Allows e d) (hs : e.Sound)
    (hcached : e.functions.hashOf? f.name = some f.hash) (hmissed : ¬missed d.script) :
    d.Renews f := by
  intro hname
  cases event with
  | lease => exact ⟨hs.hash_eq hcached hallows.1 hname, hallows.2⟩
  | noLease => exact ⟨hs.hash_eq hcached hallows.1 hname, hallows.2⟩
  | finish => exact hallows.elim
  | define i name code =>
    obtain ⟨hscript, hfunction, hrefused⟩ := hallows
    rw [hfunction] at hname ⊢
    refine ⟨Decidable.byContradiction fun hhash => hmissed ?_, hrefused⟩
    exact hscript ▸ hagrees hname hhash
  | load name code =>
    obtain ⟨hfunction, hnew⟩ := hallows
    rw [hfunction] at hname
    obtain rfl : name = f.name := hname
    exact absurd (hagrees rfl ▸ hcached) hnew
  | other => exact hallows.elim

/-- A step keeps the version that is cached. -/
theorem Step.cached (h : Step event t t')
    (hcached : t.host.engine.functions.hashOf? f.name = some f.hash)
    (hagrees : event.Agrees f missed) : t'.host.engine.functions.hashOf? f.name = some f.hash := by
  unfold FunctionCache.hashOf? at hcached ⊢
  rcases h.changes.1 with hsame | ⟨name, code, rfl, hinsert⟩
  · rwa [FunctionCache.get?_eq_find?, hsame, ← FunctionCache.get?_eq_find?]
  rw [hinsert]
  by_cases hname : name = f.name
  · subst hname
    have hget := FunctionCache.get?_insert_self t.host.engine.functions (.ofSource f.name code)
    exact (congrArg (Option.map _) hget).trans (congrArg some (hagrees rfl))
  · rwa [FunctionCache.get?_insert_of_ne (Ne.symm hname)]

/-- In an instance what is settled stays so. -/
theorem Step.settled (h : Step event t t') (hcourse : event.Course t.host ds' t'.host)
    (hright : ∀ d ∈ ds', d.Right) (hrenews : ∀ d ∈ ds', d.script = id → d.Renews f)
    (hstart : t.host.engine.Settled ds id f) : t'.host.engine.Settled (ds' ++ ds) id f := by
  cases h with
  | other _ hversions _ =>
    obtain rfl : ds' = [] := hcourse
    unfold Settled Has at hstart ⊢
    rwa [version?_congr hversions]
  | _ => exact Course.settled hcourse hstart hright hrenews

/-- A step keeps what was observed. -/
theorem Step.observed (h : Step event t t') (hs : t.host.engine.Sound)
    (hcourse : event.Course t.host ds' t'.host)
    (hallows : ∀ d ∈ ds', event.Allows t.host.engine d)
    (hequips : event.Equips t.host.engine ds' t'.host.engine)
    (hobserved : Observed f missed ds t) (hagrees : event.Agrees f missed) :
    Observed f missed (ds' ++ ds) t' := by
  have hcached := hobserved.cached
  have hkept : ∀ i ∈ t.host.engine.pool.items ++ t.leased,
      missed i.script ∨ t'.host.engine.Settled (ds' ++ ds) i.script f := by
    intro i hi
    by_cases hmissed : missed i.script
    · exact .inl hmissed
    · refine .inr (h.settled hcourse (fun d hd => (hallows d hd).right hs) ?_
        ((hobserved.settled i hi).resolve_left hmissed))
      exact fun d hd hid => hagrees.renews (hallows d hd) hs hcached (hid ▸ hmissed)
  -- Only a lease brings in an instance that was neither idle nor leased.
  refine ⟨h.cached hcached hagrees, fun i hi => ?_⟩
  rcases h.changes.2 i hi with hi | rfl
  · exact hkept i hi
  rcases hequips with hi | hnew
  · exact hkept i (List.mem_append_left _ hi)
  · exact .inr (.inl ((hs.has_of_equipped hcached hnew).append ds))

/-- A run is told by a chronicle, on which what was observed stays so. -/
theorem Run.told (h : Run events t t') (hs : t.host.engine.Sound) :
    ∃ ds', Chronicle events ds' t t' ∧ (∀ d ∈ ds', d.Right) ∧
      ∀ {f : CachedFunction} {missed : ScriptId → Prop} {ds : List Deed}, Observed f missed ds t →
        (∀ event ∈ events, event.Agrees f missed) → Observed f missed (ds' ++ ds) t' := by
  -- The deeds before the run stay arbitrary: its rest starts behind those of its first step.
  induction h with
  | nil => exact ⟨[], .nil, by simp, fun hobserved _ => hobserved⟩
  | cons hstep _ ih =>
    obtain ⟨now, hcourse, hallows, hequips⟩ := hstep.told hs
    obtain ⟨later, hchronicle, hright, hlater⟩ := ih (hstep.sound hs)
    refine ⟨later ++ now, .cons hstep hcourse hchronicle, ?_, fun hobserved hagrees => ?_⟩
    · exact List.forall_mem_append.2 ⟨hright, fun d hd => (hallows d hd).right hs⟩
    · obtain ⟨hfirst, hagrees⟩ := List.forall_mem_cons.1 hagrees
      rw [List.append_assoc]
      exact hlater (hstep.observed hs hcourse hallows hequips hobserved hfirst) hagrees

/-- An instance missed a load: it was leased then, or an execution that knew only another version
defined that since, or tried to. -/
def Missed (f : CachedFunction) (leased : List Instance) (events : List Event) (id : ScriptId) :
    Prop :=
  (∃ i ∈ leased, i.script = id) ∨ ∃ i code, Event.define i f.name code ∈ events ∧ i.script = id ∧
    (CachedFunction.ofSource f.name code).hash ≠ f.hash

/-- A new body is observed by later executions. The history of the engine tells what was done in its
instances up to the load, by the load, and later. From the load on, until another body is loaded
under that name, all instances but those that missed it are settled: they have the new version, and
its definition was the latest there to run under that name; or they have none, since the definition
ran there and failed. So are instances that are leased then, and one that is made for a lease has the
new version for sure. A call by name that reads the cache then defines the new version in its
instance, whichever that is, or finds it recorded there, which it is where it was defined. -/
theorem Run.load_observed {config : EngineConfig} {before : List Event} {name code : String} {h : Host}
    (hbefore : Run before (.start config) t) (hload : loadFunction name code t.host = .ok () h)
    (hnew : t.host.engine.functions.hashOf? name ≠ some (CachedFunction.ofSource name code).hash)
    (hrun : Run events ⟨h, t.leased⟩ t')
    (hlast : ∀ code', Event.load name code' ∈ events →
      (CachedFunction.ofSource name code').hash = (CachedFunction.ofSource name code).hash) :
    let f := CachedFunction.ofSource name code
    ∃ past loading later, Chronicle before past (.start config) t ∧ Course t.host loading h ∧
      Chronicle events later ⟨h, t.leased⟩ t' ∧
      t'.host.engine.functions.hashOf? name = some f.hash ∧
      (∀ i ∈ t'.host.engine.pool.items ++ t'.leased, Missed f t.leased events i.script ∨
        t'.host.engine.Settled (later ++ loading) i.script f) ∧
      (∀ i isNew h', lease t'.host = .ok (i, isNew) h' → ∃ leasing, Course t'.host leasing h' ∧
        (Missed f t.leased events i.script ∨
          h'.engine.Settled (leasing ++ (later ++ loading)) i.script f) ∧
        (isNew = true → h'.engine.Has leasing i.script f)) ∧
      ∀ id stale h', refresh id name (t'.host.engine.functions.get? name) t'.host = .ok stale h' →
        ∃ refreshing, Course t'.host refreshing h' ∧
          h'.engine.version? id name = some f.hash ∧
          if stale then h'.engine.Has refreshing id f else h' = t'.host ∧
            DefinedSince (·.KeepsRecord id f) (later ++ (loading ++ past)) id f := by
  intro f
  have hs := hbefore.sound (.create config)
  obtain ⟨past, hpast, hright, -⟩ := hbefore.told (.create config)
  obtain ⟨loading, hloading, hright', hloaded⟩ := observed_of_load hload hnew
  have hs' : h.engine.Sound := (Step.load hload).sound hs
  obtain ⟨later, hlater, hright'', hkept⟩ := hrun.told hs'
  have hobserved : Observed f (Missed f t.leased events) (later ++ loading) t' := by
    refine hkept (hloaded.mono fun _ => .inl) ?_
    rintro (_ | _ | _ | ⟨i, name', code'⟩ | ⟨name', code'⟩ | _) hevent
    case define =>
      rintro rfl hhash
      exact .inr ⟨i, code', hevent, rfl, hhash⟩
    case load =>
      rintro rfl
      exact hlast code' hevent
    all_goals trivial
  have hsound := hrun.sound hs'
  refine ⟨past, loading, later, hpast, hloading, hlater, hobserved.cached, hobserved.settled, ?_, ?_⟩
  · intro i isNew h' hlease
    obtain ⟨leasing, hcourse, hallows, hold, hmade⟩ := lease_told hsound hlease
    have hequips : (Event.lease i).Equips t'.host.engine leasing h'.engine := by
      cases isNew with
      | false => exact .inl (hold rfl)
      | true => exact .inr (hmade rfl)
    have hleased := (Step.lease hlease).observed hsound hcourse hallows hequips hobserved trivial
    refine ⟨leasing, hcourse, ?_, fun hisNew => hsound.has_of_equipped hobserved.cached (hmade hisNew)⟩
    exact hleased.settled i (List.mem_append_right _ List.mem_cons_self)
  · intro id stale h' hrefresh
    obtain ⟨g, hget, hhash⟩ := Option.map_eq_some_iff.1 hobserved.cached
    obtain ⟨hg, hname⟩ := FunctionCache.mem_of_get? hget
    have hrefresh' : refresh id g.name (some g) t'.host = .ok stale h' := by
      rw [← hget, hname]
      exact hrefresh
    obtain ⟨refreshing, hcourse, hends⟩ := tells_refresh (hsound.hashes g hg) hrefresh'
    have hversion : h'.engine.version? id f.name = some f.hash := by
      rw [← hname, ← hhash]
      exact ((leaves_refresh id g _).ok hrefresh').1
    refine ⟨refreshing, hcourse, hversion, ?_⟩
    cases stale with
    | true => exact Has.of_eq hends hname hhash
    | false =>
      -- Nothing ran now, so the deeds since the making of the engine tell where the record is from.
      obtain rfl : h' = t'.host := hends
      refine ⟨rfl, ?_⟩
      have hstart : (Host.create config).engine.Recorded [] id f := nofun
      have hbefore' := hpast.recorded hright hstart
      rw [List.append_nil] at hbefore'
      exact hlater.recorded hright'' (hloading.recorded hbefore' hright') hversion

/-- What is checked of a load when one instance is idle and another is leased: it succeeds, and both
are idle afterwards, of which only the one that was idle has the function. -/
def loadsWhileLeased : Bool :=
  match lease (Host.create {}) with
  | .ok (i, _) h₁ => match lease h₁ with
    | .ok (j, _) h₂ => match release j h₂ with
      | .ok _ h₃ => match loadFunction "_ENV" "return 1" h₃ with
        | .ok _ h₄ => match release i h₄ with
          | .ok _ h₅ => h₅.engine.pool.items == [i, j] && i.script != j.script &&
              (h₅.engine.version? i.script "_ENV").isNone && (h₅.engine.version? j.script "_ENV").isSome &&
              (h₅.engine.functions.get? "_ENV").isSome && (h₃.engine.functions.hashOf? "_ENV").isNone
          | .error _ _ => false
        | .error _ _ => false
      | .error _ _ => false
    | .error _ _ => false
  | .error _ _ => false

/-- A function is loaded while the first of two instances is leased, which is given back then. -/
theorem exists_loadsWhileLeased : ∃ t t' : Traffic, ∃ h i j, i.script ≠ j.script ∧
    Run [.lease i, .lease j, .finish j] (.start {}) t ∧ t.leased = [i] ∧
    loadFunction "_ENV" "return 1" t.host = .ok () h ∧
    t.host.engine.functions.hashOf? "_ENV" = none ∧ Run [.finish i] ⟨h, t.leased⟩ t' ∧
    t'.host.engine.pool.items = [i, j] ∧ t'.host.engine.version? i.script "_ENV" = none ∧
    (t'.host.engine.version? j.script "_ENV").isSome ∧ (t'.host.engine.functions.get? "_ENV").isSome := by
  have hcheck : loadsWhileLeased = true := by decide +kernel
  unfold loadsWhileLeased at hcheck
  split at hcheck
  case h_2 => cases hcheck
  next i _ h₁ hlease =>
  split at hcheck
  case h_2 => cases hcheck
  next j _ h₂ hlease' =>
  split at hcheck
  case h_2 => cases hcheck
  next h₃ hrelease =>
  split at hcheck
  case h_2 => cases hcheck
  next h₄ hload =>
  split at hcheck
  case h_2 => cases hcheck
  next h₅ hrelease' =>
  simp only [Bool.and_eq_true, beq_iff_eq, bne_iff_ne, Option.isNone_iff_eq_none] at hcheck
  obtain ⟨⟨⟨⟨⟨hitems, hne⟩, hmissing⟩, hhas⟩, hcached⟩, hnew⟩ := hcheck
  refine ⟨⟨h₃, [j, i].erase j⟩, ⟨h₅, [i].erase i⟩, h₄, i, j, hne, ?_, by simp, hload, hnew, ?_,
    hitems, hmissing, hhas, hcached⟩
  · exact .cons (.lease hlease) (.cons (.lease hlease') (.cons (.release (by simp) hrelease) .nil))
  · rw [List.erase_cons_head]
    exact .cons (.release (by simp) hrelease') .nil

/-- The instance that was idle during a load has the function, and its body was defined there. -/
theorem Run.load_observed_leased : ∃ t t' : Traffic, ∃ h i j ds, t.leased = [i] ∧
    loadFunction "_ENV" "return 1" t.host = .ok () h ∧ Run [.finish i] ⟨h, t.leased⟩ t' ∧
    t'.host.engine.pool.items = [i, j] ∧ t'.host.engine.version? i.script "_ENV" = none ∧
    t'.host.engine.Has ds j.script (.ofSource "_ENV" "return 1") := by
  obtain ⟨t, t', h, i, j, hne, hbefore, hleased, hload, hnew, hrun, hitems, hmissing, hhas, -⟩ :=
    exists_loadsWhileLeased
  obtain ⟨past, loading, later, -, -, -, -, hsettled, -⟩ :=
    Run.load_observed hbefore hload (by simp [hnew]) hrun (by simp)
  refine ⟨t, t', h, i, j, later ++ loading, hleased, hload, hrun, hitems, hmissing, ?_⟩
  rcases hsettled j (by simp [hitems]) with hmissed | hhas' | ⟨hnone, -⟩
  · simp [Missed, hleased, hne] at hmissed
  · exact hhas'
  · rw [show (CachedFunction.ofSource "_ENV" "return 1").name = "_ENV" from rfl] at hnone
    simp [hnone] at hhas

/-- It is not so that all idle instances always have the versions of all cached functions: one that
was leased while a function was loaded is idle again without it. -/
theorem Run.not_always_current : ¬∀ t : Traffic, t.Reachable → ∀ i ∈ t.host.engine.pool.items,
    ∀ f, t.host.engine.functions.get? f.name = some f →
      t.host.engine.version? i.script f.name = some f.hash := by
  intro hall
  obtain ⟨t, t', h, i, j, -, hbefore, -, hload, -, hrun, hitems, hmissing, -, hcached⟩ :=
    exists_loadsWhileLeased
  have hreach : t'.Reachable := ⟨{}, _, hbefore.append (.cons (.load hload) hrun)⟩
  obtain ⟨f, hf⟩ := Option.isSome_iff_exists.1 hcached
  obtain ⟨-, hname⟩ := FunctionCache.mem_of_get? hf
  have hversion := hall t' hreach i (hitems ▸ List.mem_cons_self) f (hname.symm ▸ hf)
  rw [hname, hmissing] at hversion
  cases hversion

end Engine

end LuaMachine
