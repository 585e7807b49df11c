import LuaMachine.Proofs.Engine.Accounting
import LuaMachine.Proofs.Engine.Equipment
import LuaMachine.Proofs.Engine.Lookup
import LuaMachine.Proofs.Engine.Refusal
import LuaMachine.Proofs.Machine.Idle

/-!
# Calls that are served from the cache

An engine is told one thing after the other: to load a function, to call one by its name, to run a text.
Each is over before the next begins, so no script is in the middle of a call then, and the instance that
the last execution used is idle again (`Engine.Ready`). It is the only one, and every later execution
leases it. It has the current version of each function that has been executed since its body changed,
so whether a call is served from the cache depends on what the engine was told so far, and on whether
the call finds its function (`Engine.Session.served`).
-/

namespace LuaMachine

/-! ## Which functions ran -/

namespace FunctionCache

variable {c : FunctionCache} {f : CachedFunction} {name : String}

/-- Whether the version of a function that is cached has been executed. -/
def ran (c : FunctionCache) (name : String) : Bool := (c.slot? name).any (·.executed)

theorem exists_slot (h : c.get? name = some f) :
    ∃ s, c.slot? name = some s ∧ s.function = f ∧ f.name = name := by
  obtain ⟨s, hs, rfl⟩ := Option.map_eq_some_iff.1 h
  exact ⟨s, hs, rfl, by simpa using List.find?_some hs⟩

theorem hasExecuted_of_get? (h : c.get? name = some f) :
    c.hasExecuted f.name f.hash = c.ran name := by
  obtain ⟨s, hs, rfl, hname⟩ := exists_slot h
  unfold hasExecuted ran
  rw [hname, hs]
  simp

/-- Slots that change keep their names. -/
theorem slot?_map (c : FunctionCache) (name : String) {g : CacheSlot → CacheSlot}
    (hg : ∀ s, (g s).function.name = s.function.name) :
    slot? ⟨c.slots.map g⟩ name = (c.slot? name).map g := by
  unfold slot?
  rw [List.find?_map]
  congr 2
  funext s
  exact congrArg (· == name) (hg s)

theorem get?_markExecuted (c : FunctionCache) (name hash : String) :
    (c.markExecuted name hash).get? = c.get? := by
  funext name'
  rw [get?_eq_find?, get?_eq_find?, functions_markExecuted]

theorem ran_markExecuted (h : c.get? name = some f) (name' : String) :
    (c.markExecuted f.name f.hash).ran name' = (c.ran name' || name' == name) := by
  obtain ⟨s, hs, rfl, hname⟩ := exists_slot h
  unfold ran markExecuted
  rw [slot?_map]
  · by_cases heq : name' = name
    · rw [heq, hs]
      simp
    · cases hs' : c.slot? name' with
      | none => simp [heq]
      | some s' =>
        have hname' : s'.function.name = name' := by simpa using List.find?_some hs'
        have hne : s'.function.name ≠ s.function.name := by
          rw [hname', hname]
          exact heq
        simp [hne, heq]
  · intro s'
    split <;> rfl

/-- A body that is new has not been executed. -/
theorem ran_insert (hnew : c.hashOf? f.name ≠ some f.hash) (name : String) :
    (c.insert f).ran name = (c.ran name && name != f.name) := by
  unfold ran insert
  cases hslot : c.slot? f.name with
  | none =>
    dsimp only
    by_cases heq : name = f.name
    · rw [heq, hslot]
      have hnone : c.slots.find? (·.function.name == f.name) = none := hslot
      simp [slot?, List.find?_append, hnone]
    · have hother : (List.find? (·.function.name == name) [(⟨f, false⟩ : CacheSlot)]) = none := by
        simp [Ne.symm heq]
      simp [slot?, List.find?_append, hother, heq]
  | some old =>
    have hold : (old.function.hash == f.hash) = false := by
      rw [beq_eq_false_iff_ne]
      intro hsame
      refine hnew ?_
      simp [hashOf?, get?, hslot, hsame]
    have hname : old.function.name = f.name := by simpa using List.find?_some hslot
    dsimp only
    rw [hold, Bool.and_false, slot?_map]
    · cases hs : c.slot? name with
      | none => rfl
      | some s =>
        have hs' : s.function.name = name := by simpa using List.find?_some hs
        by_cases heq : name = f.name
        · simp [hs', heq]
        · simp [hs', heq]
    · intro s
      split
      · next hs => exact (by simpa using hs : s.function.name = f.name).symm
      · rfl

end FunctionCache

/-! ## Scripts at rest -/

namespace Script

open Exec

theorem balanced_create (options : ScriptOptions) : (create options).Balanced := by
  intro w
  have hmade : w.Balanced (made w options) := by
    refine ⟨rfl, fun hidle p hp => ?_⟩
    obtain ⟨s, hs, rfl⟩ := Array.mem_map.1 hp
    rcases Array.mem_push.1 hs with hs | rfl
    · exact hidle _ (Array.mem_map.2 ⟨s, hs, rfl⟩)
    · rfl
  have hinstall := ((stepwise_balanced.aside (Library.aside_install ⟨w.heap.tables.size⟩)).bind
    fun _ => stepwise_balanced.pure (⟨w.scripts.size⟩ : ScriptId)) (made w options)
  exact ⟨fun h => hmade.trans (hinstall.ok ((create_eq options w).symm.trans h)),
    fun h => hmade.trans (hinstall.error ((create_eq options w).symm.trans h))⟩

end Script

/-! ## What computations return -/

namespace Hosting

variable {α β : Type} {h : Host} {x : Hosting α} {f : α → Hosting β} {Q Q' : α → Host → Prop}
  {R : β → Host → Prop} {E E' : ScriptError → Host → Prop}

/-- What holds when a computation returns: after a value, and after an error. -/
structure Returns (x : Hosting α) (h : Host) (Q : α → Host → Prop) (E : ScriptError → Host → Prop) :
    Prop where
  ok : ∀ {a h'}, x h = .ok a h' → Q a h'
  error : ∀ {e h'}, x h = .error (.error e) h' → E e h'

theorem Returns.mono (hx : x.Returns h Q E) (hq : ∀ a h', Q a h' → Q' a h')
    (he : ∀ e h', E e h' → E' e h') : x.Returns h Q' E' :=
  ⟨fun hok => hq _ _ (hx.ok hok), fun herror => he _ _ (hx.error herror)⟩

theorem Returns.bind (hx : x.Returns h Q E)
    (hf : ∀ a h', x h = .ok a h' → Q a h' → (f a).Returns h' R E) : (x >>= f).Returns h R E := by
  cases hresult : x h with
  | ok a h' =>
    have hrest := hf a h' hresult (hx.ok hresult)
    exact ⟨fun hok => hrest.ok ((bind_of_ok hresult).symm.trans hok),
      fun herror => hrest.error ((bind_of_ok hresult).symm.trans herror)⟩
  | error s h' =>
    refine ⟨fun hok => ?_, fun herror => ?_⟩
    · cases (bind_of_error hresult).symm.trans hok
    · cases (bind_of_error hresult).symm.trans herror
      exact hx.error hresult

theorem Returns.of_ok {a : α} {h' : Host} (hx : x h = .ok a h') (hq : Q a h') : x.Returns h Q E := by
  refine ⟨fun hok => ?_, fun herror => ?_⟩
  · cases hx.symm.trans hok
    exact hq
  · cases hx.symm.trans herror

theorem Returns.of_error {e : ScriptError} {h' : Host} (hx : x h = .error (.error e) h')
    (he : E e h') : x.Returns h Q E := by
  refine ⟨fun hok => ?_, fun herror => ?_⟩
  · cases hx.symm.trans hok
  · cases hx.symm.trans herror
    exact he

/-- A computation that stops without an error does not return. -/
theorem Returns.of_stop {s : Stop} {h' : Host} (hx : x h = .error s h') (hs : ∀ e, s ≠ .error e) :
    x.Returns h Q E := by
  refine ⟨fun hok => ?_, fun herror => ?_⟩
  · cases hx.symm.trans hok
  · cases hx.symm.trans herror
    exact absurd rfl (hs _)

theorem Returns.ok_bind {a : α} {h' : Host} (hx : x h = .ok a h') (hf : (f a).Returns h' R E) :
    (x >>= f).Returns h R E :=
  ⟨fun hok => hf.ok ((bind_of_ok hx).symm.trans hok),
    fun herror => hf.error ((bind_of_ok hx).symm.trans herror)⟩

/-- The outcome is looked at, whatever it is. -/
theorem Returns.observe_bind {f : Except Stop α → Hosting β} (hx : x.Returns h Q E)
    (hok : ∀ a h', x h = .ok a h' → Q a h' → (f (.ok a)).Returns h' R E')
    (herror : ∀ e h', x h = .error (.error e) h' → E e h' →
      (f (.error (.error e))).Returns h' R E')
    (hstop : ∀ s h', (∀ e, s ≠ .error e) → (f (.error s)).Returns h' R E') :
    (observe x >>= f).Returns h R E' := by
  rcases observe_eq x h with ⟨a, ha, hobserve⟩ | ⟨s, hs, hobserve⟩
  · exact .ok_bind hobserve (hok a _ ha (hx.ok ha))
  · refine .ok_bind hobserve ?_
    cases s with
    | error e => exact herror e _ hs (hx.error hs)
    | panic message => exact hstop _ _ nofun
    | exhausted => exact hstop _ _ nofun

/-! ### Scripts at rest -/

/-- Scripts that are idle are idle when a computation returns. -/
def Rests (x : Hosting α) : Prop := ∀ h, x.Returns h (fun _ h' => h.world.Idle → h'.world.Idle)
  fun _ h' => h.world.Idle → h'.world.Idle

theorem rests_of_world (hx : ∀ h, (x.after h).world = h.world) : Rests x := by
  refine fun h => ⟨fun hok hidle => ?_, fun herror hidle => ?_⟩
  · rw [← after_ok hok, hx]
    exact hidle
  · rw [← after_error herror, hx]
    exact hidle

theorem rests_pure (a : α) : Rests (pure a) := rests_of_world fun _ => rfl

theorem rests_engine : Rests engine := rests_of_world fun _ => rfl

theorem rests_modifyEngine (g : Engine → Engine) : Rests (modifyEngine g) :=
  rests_of_world fun _ => rfl

theorem rests_onTrial (y : Exec α) : Rests (onTrial y) := by
  refine rests_of_world fun h => ?_
  rw [after_onTrial]

theorem rests_inWorld {y : Exec α} (hy : y.Balanced) : Rests (inWorld y) := by
  refine fun h => ⟨fun hok => ?_, fun herror => ?_⟩
  · unfold inWorld at hok
    split at hok
    · next hrun =>
      cases hok
      exact ((hy _).ok hrun).idle
    · cases hok
  · unfold inWorld at herror
    split at herror
    · cases herror
    · next hrun =>
      cases herror
      exact ((hy _).error hrun).idle

theorem rests_onScript {y : Exec α} (hy : y.Balanced) (id : ScriptId) : Rests (onScript id y) :=
  rests_inWorld (Reentry.balanced_within hy id)

theorem Rests.after (hx : Rests x) {h₀ : Host} (hidle : h₀.world.Idle → h.world.Idle) :
    x.Returns h (fun _ h' => h₀.world.Idle → h'.world.Idle) fun _ h' => h₀.world.Idle → h'.world.Idle :=
  (hx h).mono (fun _ _ hrest h => hrest (hidle h)) fun _ _ hrest h => hrest (hidle h)

theorem Rests.bind (hx : Rests x) (hf : ∀ a, Rests (f a)) : Rests (x >>= f) :=
  fun h => (hx h).bind fun a _ _ hidle => (hf a).after hidle

/-- The outcome is looked at, and what stopped without an error stops again. -/
theorem Rests.observe_bind {f : Except Stop α → Hosting β} (hx : Rests x)
    (hok : ∀ a, Rests (f (.ok a))) (herror : ∀ e, Rests (f (.error (.error e))))
    (hstop : ∀ s, (∀ e, s ≠ .error e) → f (.error s) = throw s) : Rests (observe x >>= f) := fun h =>
  (hx h).observe_bind (fun a _ _ hidle => (hok a).after hidle) (fun e _ _ hidle => (herror e).after hidle)
    fun s _ hs => .of_stop (congrFun (hstop s hs) _) hs

theorem rests_forM {f : α → Hosting Unit} (as : List α) (hf : ∀ a, Rests (f a)) :
    Rests (as.forM f) := by
  induction as with
  | nil => exact rests_pure ()
  | cons a rest ih => exact (hf a).bind fun _ => ih

theorem rests_mapM {f : α → Hosting β} (as : List α) (hf : ∀ a, Rests (f a)) :
    Rests (as.mapM f) := by
  induction as with
  | nil => exact rests_pure []
  | cons a rest ih =>
    rw [List.mapM_cons]
    exact (hf a).bind fun _ => ih.bind fun _ => rests_pure _

end Hosting

namespace Engine

open Hosting Exec

/-! ### What rests -/

theorem rests_loadString (id : ScriptId) (code : String) (name : Option String) :
    Rests (onScript id (loadString code none name)) :=
  rests_onScript (stepwise_balanced.loadString code none name) id

theorem rests_setGlobal (id : ScriptId) (name : String) (v : Value) :
    Rests (onScript id (Script.setGlobal name v)) :=
  rests_onScript (stepwise_balanced.aside (Script.aside_setGlobal name v)) id

theorem rests_define (id : ScriptId) (f : CachedFunction) : Rests (define id f) :=
  (rests_loadString id _ _).bind fun chunk => (rests_setGlobal id _ _).bind fun _ =>
    (rests_onScript (Script.balanced_call chunk []) id).bind fun _ =>
    (rests_modifyEngine _).bind fun _ => rests_modifyEngine _

theorem rests_setUp (config : EngineConfig) (sink : Nat) (objects : List (String × Value)) :
    Rests (setUp config sink objects) := by
  rw [setUp_eq]
  refine (rests_inWorld (Script.balanced_create _)).bind fun id => ?_
  exact (rests_onScript (stepwise_balanced.aside (aside_equip _ _)) id).bind fun _ => rests_pure id

theorem rests_newInstance : Rests newInstance :=
  rests_engine.bind fun e => (rests_setUp e.config e.sink e.objects).bind fun id =>
    (rests_forM _ (rests_define id)).bind fun _ => (rests_modifyEngine _).bind fun _ => rests_pure _

theorem rests_refresh (id : ScriptId) (name : String) (cached : Option CachedFunction) :
    Rests (refresh id name cached) := by
  refine rests_engine.bind fun e => ?_
  dsimp only
  split
  · cases cached with
    | none => exact rests_pure _
    | some f => exact (rests_define id f).bind fun _ => rests_pure _
  · exact rests_pure _

theorem rests_redefine (f : CachedFunction) (id : ScriptId) (chunk : Value) :
    Rests (redefine f id chunk) := by
  refine (rests_setGlobal id _ _).bind fun _ => ?_
  refine (rests_onScript (Script.balanced_call chunk []) id).observe_bind ?_ ?_ ?_
  · exact fun _ => (rests_modifyEngine _).bind fun _ => rests_modifyEngine _
  · exact fun _ => rests_modifyEngine _
  · intro s hs
    cases s with
    | error e => exact absurd rfl (hs e)
    | panic message => rfl
    | exhausted => rfl

theorem rests_loadFunction (name code : String) : Rests (loadFunction name code) := by
  unfold loadFunction
  generalize CachedFunction.ofSource name code = f
  have hinsert : Rests (modifyEngine fun e => { e with functions := e.functions.insert f }) :=
    rests_modifyEngine _
  have hcheck : Rests (checkLoad f.definition name) := rests_onTrial _
  have hloads : ∀ ids : List ScriptId, Rests (ids.mapM fun id =>
      onScript id (loadString f.definition none name)) :=
    fun ids => rests_mapM ids fun id => rests_loadString id _ _
  have hredefined : ∀ ps : List (ScriptId × Value), Rests (ps.forM fun p => redefine f p.1 p.2) :=
    fun ps => rests_forM ps fun p => rests_redefine f p.1 p.2
  refine rests_engine.bind fun e => ?_
  dsimp only
  split
  · exact rests_pure ()
  · split
    · exact hcheck.bind fun _ => hinsert
    · exact (hloads _).bind fun chunks => (hredefined _).bind fun _ => hinsert

theorem rests_runGlobalScript (id : ScriptId) (token : Nat) : Rests (runGlobalScript id token) := by
  unfold runGlobalScript
  refine rests_engine.bind fun e => ?_
  cases e.globalScript with
  | none => exact rests_pure ()
  | some code =>
    dsimp only
    split
    · exact rests_pure ()
    · have hrun : (do Script.callWith token (← loadString code none "global script") [] :
          Exec Value).Balanced :=
        (stepwise_balanced.loadString code none _).bind fun f => Script.balanced_callWith token f []
      refine (rests_onScript hrun id).observe_bind (fun _ => rests_pure ()) (fun err => ?_) ?_
      · cases err with
        | cancelled => exact rests_of_world fun _ => rfl
        | _ => exact rests_modifyEngine _
      · intro s hs
        cases s with
        | error e => exact absurd rfl (hs e)
        | panic message => rfl
        | exhausted => rfl

/-! ## The instance of a session -/

/-- An instance has the cached version of each function that has been executed. -/
def CurrentIn (e : Engine) (id : ScriptId) : Prop :=
  ∀ name f, e.functions.get? name = some f → e.functions.ran name = true →
    e.version? id name = some f.hash

/-- Nothing is executed. If a function has been, then one instance is idle, and it is current. -/
structure Ready (e : Engine) : Prop where
  room : 0 < e.pool.maxIdle
  idle : (e.pool.items = [] ∧ ∀ name, e.functions.ran name = false) ∨
    ∃ i, e.pool.items = [i] ∧ i.generation = e.generation ∧ e.CurrentIn i.script

/-- One instance is leased, and it is current. -/
structure Leased (e : Engine) (i : Instance) : Prop where
  room : 0 < e.pool.maxIdle
  items : e.pool.items = []
  generation : i.generation = e.generation
  current : e.CurrentIn i.script

end Engine

/-- The functions that are cached, those that ran and the count of calls that were served from the
cache are the same. -/
structure Host.Unserved (h h' : Host) : Prop where
  functions : h'.engine.functions = h.engine.functions
  fromCache : h'.engine.statistics.fromCache = h.engine.statistics.fromCache

theorem Host.Unserved.refl (h : Host) : h.Unserved h := ⟨rfl, rfl⟩

theorem Host.Unserved.trans {h h' h'' : Host} (h₁ : h.Unserved h') (h₂ : h'.Unserved h'') :
    h.Unserved h'' :=
  ⟨h₂.functions.trans h₁.functions, h₂.fromCache.trans h₁.fromCache⟩

namespace Engine

open Hosting Exec

variable {α : Type} {h h' : Host} {i : Instance} {name : String} {f : CachedFunction}

theorem working_newInstance : Working newInstance :=
  working_engine.bind fun e => (working_setUp e.config e.sink e.objects).bind fun id =>
    (working_forM _ (working_define id)).bind fun _ => (working_count _).bind fun _ => working_pure _

/-- A new instance is made with the functions that are cached. -/
theorem returns_newInstance (h : Host) (hidle : h.world.Idle) :
    newInstance.Returns h
      (fun i h' => h'.world.Idle ∧ h.Unserved h' ∧ h.engine.SameTerms h'.engine ∧
        i.generation = h.engine.generation)
      fun _ h' => h'.world.Idle ∧ h.Unserved h' ∧ h.engine.SameTerms h'.engine := by
  refine ⟨fun hok => ?_, fun herror => ?_⟩
  · obtain ⟨hdefines, hgeneration, -⟩ := (leaves_newInstance h).ok hok
    exact ⟨(rests_newInstance h).ok hok hidle,
      ⟨hdefines.functions, (uncounting_newInstance.ok hok).fromCache⟩,
      (working_newInstance.ok hok).terms, hgeneration⟩
  · exact ⟨(rests_newInstance h).error herror hidle,
      ⟨((leaves_newInstance h).error herror).functions, (uncounting_newInstance.error herror).fromCache⟩,
      (working_newInstance.error herror).terms⟩

/-- Every execution leases the idle instance, and a new one only while no function has been executed. -/
theorem Ready.returns_lease (hready : h.engine.Ready) (hidle : h.world.Idle) :
    lease.Returns h
      (fun leased h' => h'.world.Idle ∧ h.Unserved h' ∧ h'.engine.Leased leased.1 ∧
        (leased.2 = true → ∀ name, h.engine.functions.ran name = false))
      fun _ h' => h'.world.Idle ∧ h.Unserved h' ∧ h'.engine.Ready := by
  rcases hready.idle with ⟨hnone, hnever⟩ | ⟨i, hone, hgeneration, hcurrent⟩
  · have hempty : h.onEngine (withItems []) = h := by
      obtain ⟨⟨_, _, _, _, _, _, ⟨items, _⟩, _, _, _, _, _⟩, world⟩ := h
      cases hnone
      rfl
    have hrun : lease h = (newInstance >>= fun i => pure (i, true) : Hosting (Instance × Bool)) h := by
      have hmodify : modifyEngine (withItems []) h = .ok () h :=
        congrArg (EStateM.Result.ok ()) hempty
      unfold lease
      rw [bind_of_ok (engine_eq _), hnone]
      exact bind_of_ok hmodify
    have hnew := (returns_newInstance h hidle).bind (R := fun leased h' => h'.world.Idle ∧
      h.Unserved h' ∧ h'.engine.Leased leased.1 ∧
        (leased.2 = true → ∀ name, h.engine.functions.ran name = false))
      (f := fun i => pure (i, true)) fun i h' _ hi => .of_ok rfl ?_
    · refine ⟨fun hok => hnew.ok (hrun.symm.trans hok), fun herror => ?_⟩
      obtain ⟨hrest, hsame, hterms⟩ := hnew.error (hrun.symm.trans herror)
      refine ⟨hrest, hsame, ?_, .inl ⟨?_, ?_⟩⟩
      · rw [hterms.pool]
        exact hready.room
      · rw [hterms.pool]
        exact hnone
      · rw [hsame.functions]
        exact hnever
    · obtain ⟨hrest, hsame, hterms, hgeneration⟩ := hi
      refine ⟨hrest, hsame, ⟨?_, ?_, ?_, ?_⟩, fun _ => hnever⟩
      · rw [hterms.pool]
        exact hready.room
      · rw [hterms.pool]
        exact hnone
      · rw [hterms.generation]
        exact hgeneration
      · intro name f _ hran
        rw [hsame.functions, hnever name] at hran
        cases hran
  · refine .of_ok (lease_head hone hgeneration) ⟨hidle, ⟨rfl, rfl⟩, ?_, fun hnew => ?_⟩
    · exact ⟨hready.room, rfl, hgeneration, hcurrent⟩
    · cases hnew

/-- An instance that is idle again is kept, since there is room for it. -/
theorem Leased.release (hleased : h.engine.Leased i) (hidle : h.world.Idle) :
    release i h = .ok () (h.onEngine (withItems [i])) := by
  have hrest : onScript i.script Script.isIdle h = .ok true h :=
    congrArg (EStateM.Result.ok · h) (hidle.processor i.script.index)
  have hgeneration : (i.generation != h.engine.generation) = false := by
    simp [hleased.generation]
  have hput : h.engine.pool.put? i = some { h.engine.pool with items := [i] } := by
    unfold Pool.put? Pool.size
    rw [hleased.items]
    exact if_pos hleased.room
  unfold Engine.release
  rw [bind_of_ok hrest]
  change EStateM.Result.ok () (Host.mk (if i.generation != h.engine.generation then h.engine else
    { h.engine with pool := (h.engine.pool.put? i).getD h.engine.pool }) h.world) = _
  rw [hgeneration, if_neg Bool.false_ne_true, hput]
  rfl

theorem Leased.ready (hleased : h.engine.Leased i) : (withItems [i] h.engine).Ready :=
  ⟨hleased.room, .inr ⟨i, rfl, hleased.generation, hleased.current⟩⟩

end Engine

/-- Host code broke down. -/
def ScriptError.IsBreakdown (e : ScriptError) : Prop := ∃ message, e = .ofFault (.hostPanic message)

namespace Host

/-- An execution has an instance, and something holds of the functions that are cached and of the count
of calls that were served from the cache. -/
structure Executing (i : Instance) (P : FunctionCache → Nat → Prop) (h : Host) : Prop where
  idle : h.world.Idle
  leased : h.engine.Leased i
  holds : P h.engine.functions h.engine.statistics.fromCache

/-- Nothing is executed, and something holds of the functions and of the count. -/
structure Between (P : FunctionCache → Nat → Prop) (h : Host) : Prop where
  idle : h.world.Idle
  ready : h.engine.Ready
  holds : P h.engine.functions h.engine.statistics.fromCache

/-- What executions depend on in the engine is the same. -/
structure Untouched (h h' : Host) : Prop extends Unserved h h' where
  versions : h'.engine.versions = h.engine.versions
  pool : h'.engine.pool = h.engine.pool
  generation : h'.engine.generation = h.engine.generation

variable {i : Instance} {P : FunctionCache → Nat → Prop} {h h' h'' : Host}

theorem Untouched.refl (h : Host) : h.Untouched h := ⟨.refl h, rfl, rfl, rfl⟩

theorem Untouched.trans (h₁ : h.Untouched h') (h₂ : h'.Untouched h'') : h.Untouched h'' :=
  ⟨h₁.toUnserved.trans h₂.toUnserved, h₂.versions.trans h₁.versions, h₂.pool.trans h₁.pool,
    h₂.generation.trans h₁.generation⟩

theorem Executing.untouched (hexecuting : h.Executing i P) (hsame : h.Untouched h')
    (hidle : h.world.Idle → h'.world.Idle) : h'.Executing i P := by
  have hleased := hexecuting.leased
  refine ⟨hidle hexecuting.idle, ⟨?_, ?_, ?_, ?_⟩, ?_⟩
  · rw [hsame.pool]
    exact hleased.room
  · rw [hsame.pool]
    exact hleased.items
  · rw [hsame.generation]
    exact hleased.generation
  · intro name f hget hran
    rw [hsame.functions] at hget hran
    rw [Engine.version?_congr hsame.versions]
    exact hleased.current name f hget hran
  · rw [hsame.functions, hsame.fromCache]
    exact hexecuting.holds

/-- An instance that is idle again is kept, since there is room for it. -/
theorem Executing.release (hexecuting : h.Executing i P) :
    ∃ h', Engine.release i h = .ok () h' ∧ h'.Between P :=
  ⟨_, hexecuting.leased.release hexecuting.idle,
    hexecuting.idle, hexecuting.leased.ready, hexecuting.holds⟩

end Host

namespace Engine

open Hosting Exec

variable {α : Type} {h h' : Host} {i : Instance} {name : String} {f : CachedFunction}
  {P : FunctionCache → Nat → Prop}

/-- What holds when an execution is over, unless host code broke down. -/
abbrev Concludes (x : Hosting α) (P : FunctionCache → Nat → Prop) (h : Host) : Prop :=
  x.Returns h (fun _ => Host.Between P) fun e h' => ¬e.IsBreakdown → h'.Between P

/-- What is done with the instance of a session. -/
theorem Ready.withInstance {x : Instance → Bool → Hosting α} (hready : h.engine.Ready)
    (hidle : h.world.Idle)
    (hx : ∀ i isNew h₁, lease h = .ok (i, isNew) h₁ → h₁.world.Idle → h.Unserved h₁ →
      h₁.engine.Leased i → (isNew = true → ∀ name, h.engine.functions.ran name = false) →
      (x i isNew).Returns h₁ (fun _ => Host.Executing i P) fun _ => Host.Executing i P)
    (hnone : ∀ e h₁, lease h = .error (.error e) h₁ →
      P h.engine.functions h.engine.statistics.fromCache) :
    Concludes (withInstance x) P h := by
  have hlease := hready.returns_lease hidle
  refine Returns.bind (Q := fun leased h' => h'.world.Idle ∧ h.Unserved h' ∧
    h'.engine.Leased leased.1 ∧ (leased.2 = true → ∀ name, h.engine.functions.ran name = false))
    ⟨hlease.ok, fun herror _ => ?_⟩ ?_
  · obtain ⟨hrest, hsame, hready'⟩ := hlease.error herror
    refine ⟨hrest, hready', ?_⟩
    rw [hsame.functions, hsame.fromCache]
    exact hnone _ _ herror
  · rintro ⟨i, isNew⟩ h₁ hok ⟨hrest, hsame, hleased, hnew⟩
    refine (hx i isNew h₁ hok hrest hsame hleased hnew).observe_bind ?_ ?_ ?_
    · intro a h₂ _ hexecuting
      obtain ⟨h₃, hrelease, hbetween⟩ := hexecuting.release
      exact .ok_bind hrelease (.of_ok rfl hbetween)
    · intro e h₂ _ hexecuting
      obtain ⟨h₃, hrelease, hbetween⟩ := hexecuting.release
      exact .ok_bind hrelease (.of_error rfl fun _ => hbetween)
    · intro s h₂ hs
      cases s with
      | error e => exact absurd rfl (hs e)
      | panic message =>
        exact .ok_bind rfl (.of_error rfl fun hnot => absurd ⟨message, rfl⟩ hnot)
      | exhausted =>
        obtain ⟨h₃, hrelease⟩ := release_ok i h₂
        exact .ok_bind hrelease (.of_stop rfl nofun)

/-- To count an execution changes nothing else. -/
theorem Concludes.counted {x : Hosting α} (hx : Concludes x P (h.onEngine countStarted)) :
    Concludes (counted x) P h := by
  refine .ok_bind rfl (Returns.observe_bind hx ?_ ?_ ?_)
  · intro a h₁ _ hbetween
    exact .ok_bind rfl (.of_ok rfl ⟨hbetween.idle, ⟨hbetween.ready.room, hbetween.ready.idle⟩,
      hbetween.holds⟩)
  · intro e h₁ _ hbetween
    refine .ok_bind rfl (.ok_bind rfl (.of_error rfl fun hnot => ?_))
    have hbetween := hbetween hnot
    exact ⟨hbetween.idle, ⟨hbetween.ready.room, hbetween.ready.idle⟩, hbetween.holds⟩
  · intro s h₁ hs
    cases s with
    | error e => exact absurd rfl (hs e)
    | panic message => exact .ok_bind rfl (.of_stop rfl nofun)
    | exhausted => exact .ok_bind rfl (.of_stop rfl nofun)

/-- What leaves everything as it was goes on. -/
theorem returns_untouched {x : Hosting α} (hexecuting : h.Executing i P)
    (hx : x.Always Host.Untouched) (hrests : Rests x) :
    x.Returns h (fun _ => Host.Executing i P) fun _ => Host.Executing i P :=
  ⟨fun hok => hexecuting.untouched (hx.ok hok) ((hrests h).ok hok),
    fun herror => hexecuting.untouched (hx.error herror) ((hrests h).error herror)⟩

theorem untouched_onScript (id : ScriptId) (y : Exec α) : (onScript id y).Always Host.Untouched := by
  intro h
  unfold after onScript inWorld
  cases within id y h.world <;> exact ⟨⟨rfl, rfl⟩, rfl, rfl, rfl⟩

theorem untouched_runGlobalScript (id : ScriptId) (token : Nat) :
    (runGlobalScript id token).Always Host.Untouched :=
  always_runGlobalScript .refl .trans (fun _ _ => untouched_onScript id _)
    fun _ _ => ⟨⟨rfl, rfl⟩, rfl, rfl, rfl⟩

theorem balanced_runText (token : Nat) (code : String) (name : Option String) :
    (do Script.callWith token (← loadString code none name) [] : Exec Value).Balanced :=
  (stepwise_balanced.loadString code none name).bind fun f => Script.balanced_callWith token f []

/-! ## Texts -/

/-- The run of a text calls no function by its name. -/
theorem Ready.execute (hready : h.engine.Ready) (hidle : h.world.Idle) (token : Nat) (code : String) :
    Concludes (execute token code)
      (fun c n => c = h.engine.functions ∧ n = h.engine.statistics.fromCache) h := by
  unfold Engine.execute
  split
  · exact .of_ok rfl ⟨hidle, hready, rfl, rfl⟩
  · have hready' : (h.onEngine countStarted).engine.Ready := ⟨hready.room, hready.idle⟩
    refine Concludes.counted (hready'.withInstance hidle ?_ fun _ _ _ => ⟨rfl, rfl⟩)
    intro i isNew h₁ _ hidle₁ hsame hleased _
    have hexecuting : h₁.Executing i
        fun c n => c = h.engine.functions ∧ n = h.engine.statistics.fromCache :=
      ⟨hidle₁, hleased, hsame.functions, hsame.fromCache⟩
    refine (returns_untouched hexecuting (untouched_runGlobalScript _ token)
      (rests_runGlobalScript _ token)).bind fun _ h₂ _ hexecuting₂ => ?_
    exact returns_untouched hexecuting₂ (untouched_onScript _ _)
      (rests_onScript (balanced_runText token code none) _)

/-! ## Calls by name -/

/-- What a call by name looks up before it runs anything. -/
def lookUp (name : String) : Hosting Value := do
  count (·.start)
  let cached := (← engine).functions.get? name
  let (i, _) ← lease
  let _ ← refresh i.script name cached
  onScript i.script (Script.getGlobal name)

/-- A call by name would find a function: it gets an instance, the function is defined there if another
version was, and the global variable of that name has a value that can be called. -/
def Found (name : String) (h : Host) : Prop :=
  ∃ f h', lookUp name h = .ok f h' ∧ f.isCallable = true

theorem not_found_of_error {s : Stop} {h' : Host} (hlook : lookUp name h = .error s h') :
    ¬Found name h := by
  rintro ⟨f, h'', hfound, -⟩
  cases hfound.symm.trans hlook

theorem found_iff {f : Value} {h' : Host} (hlook : lookUp name h = .ok f h') :
    Found name h ↔ f.isCallable = true := by
  refine ⟨?_, fun hf => ⟨f, h', hlook, hf⟩⟩
  rintro ⟨f', h'', hfound, hf⟩
  cases hlook.symm.trans hfound
  exact hf

/-- What is looked up after the lease. -/
theorem lookUp_eq (name : String) (h : Host) : lookUp name h = (do
    let (i, _) ← lease
    let _ ← refresh i.script name (h.engine.functions.get? name)
    onScript i.script (Script.getGlobal name)) (h.onEngine countStarted) := by
  have hcount : count (·.start) h = .ok () (h.onEngine countStarted) := rfl
  have hengine : engine (h.onEngine countStarted) = .ok (countStarted h.engine) _ := rfl
  have hcached : (countStarted h.engine).functions = h.engine.functions := rfl
  unfold lookUp
  rw [bind_of_ok hcount, bind_of_ok hengine, hcached]

/-- What a call by name leaves. If its function is loaded and is found, it has been executed, and the
call was served from the cache if it had been executed before. -/
structure Serves (name : String) (h : Host) (c : FunctionCache) (n : Nat) : Prop where
  found : ∀ f, h.engine.functions.get? name = some f → Found name h →
    c = h.engine.functions.markExecuted f.name f.hash ∧
      n = h.engine.statistics.fromCache + (h.engine.functions.ran name).toNat
  hidden : (Found name h → h.engine.functions.get? name = none) →
    c = h.engine.functions ∧ n = h.engine.statistics.fromCache

theorem DefinesOne.leased {e e' : Engine} (hone : DefinesOne i.script f e e') (hleased : e.Leased i)
    (hget : e.functions.get? f.name = some f) (hpool : e'.pool = e.pool) : e'.Leased i := by
  refine ⟨hpool ▸ hleased.room, hpool ▸ hleased.items, hone.generation ▸ hleased.generation, ?_⟩
  intro name g hg hran
  rw [hone.functions] at hg hran
  by_cases heq : name = f.name
  · subst heq
    cases hget.symm.trans hg
    exact hone.version
  · rw [hone.others i.script name fun h => heq (Prod.mk.inj h).2]
    exact hleased.current name g hg hran

/-- Then the instance has the cached version, and it had it before if it has been executed. -/
theorem returns_refresh (hleased : h.engine.Leased i) (hidle : h.world.Idle) (name : String) :
    (refresh i.script name (h.engine.functions.get? name)).Returns h
      (fun stale h' => h'.world.Idle ∧ h.Unserved h' ∧ h'.engine.Leased i ∧
        (∀ f, h.engine.functions.get? name = some f →
          h'.engine.version? i.script name = some f.hash) ∧
        (h.engine.functions.ran name = true → stale = false))
      fun _ h' => h'.world.Idle ∧ h.Unserved h' ∧ h'.engine.Leased i := by
  cases hget : h.engine.functions.get? name with
  | none => exact .of_ok rfl ⟨hidle, .refl h, hleased, nofun, fun _ => rfl⟩
  | some f =>
    obtain ⟨-, -, -, rfl⟩ := FunctionCache.exists_slot hget
    by_cases hran : h.engine.functions.ran f.name = true
    · have hversion := hleased.current f.name f hget hran
      refine .of_ok (refresh_of_version hversion) ⟨hidle, .refl h, hleased, ?_, fun _ => rfl⟩
      rintro _ ⟨⟩
      exact hversion
    · refine ⟨fun hok => ?_, fun herror => ?_⟩
      · obtain ⟨hversion, hends⟩ := (leaves_refresh i.script f h).ok hok
        have hcount := (uncounting_refresh _ _ _).ok hok
        have hpool := ((working_refresh _ _ _).ok hok).terms.pool
        refine ⟨(rests_refresh _ _ _ h).ok hok hidle, ⟨?_, hcount.fromCache⟩, ?_, ?_,
          fun h => absurd h hran⟩
        · exact hends.elim (fun heq => heq ▸ rfl) (·.functions)
        · exact hends.elim (fun heq => heq ▸ hleased) fun hone => hone.leased hleased hget hpool
        · rintro _ ⟨⟩
          exact hversion
      · have hengine := (leaves_refresh i.script f h).error herror
        exact ⟨(rests_refresh _ _ _ h).error herror hidle, ⟨by rw [hengine], by rw [hengine]⟩,
          hengine ▸ hleased⟩

/-- How the cache and the count change when it is noted that a function runs. -/
def noted (f : CachedFunction) (wasThere : Bool) (e : Engine) : Engine :=
  { e with
    functions := e.functions.markExecuted f.name f.hash
    statistics := { e.statistics with
      fromCache := e.statistics.fromCache +
        (e.functions.hasExecuted f.name f.hash && wasThere).toNat } }

theorem noteRun_eq (f : CachedFunction) (wasThere : Bool) (h : Host) :
    noteRun f wasThere h = .ok () (h.onEngine (noted f wasThere)) := by
  change _ = EStateM.Result.ok () (Host.mk (noted f wasThere h.engine) h.world)
  unfold noteRun noted
  rw [bind_of_ok (engine_eq _)]
  cases h.engine.functions.hasExecuted f.name f.hash <;> cases wasThere <;> rfl

theorem Leased.noted (hleased : h.engine.Leased i) (hget : h.engine.functions.get? name = some f)
    (hversion : h.engine.version? i.script name = some f.hash) (wasThere : Bool) :
    (noted f wasThere h.engine).Leased i := by
  refine ⟨hleased.room, hleased.items, hleased.generation, fun name' g hg hran => ?_⟩
  have hg : h.engine.functions.get? name' = some g := by
    rw [← FunctionCache.get?_markExecuted]
    exact hg
  have hran : (h.engine.functions.ran name' || name' == name) = true := by
    rw [← FunctionCache.ran_markExecuted hget]
    exact hran
  by_cases heq : name' = name
  · subst heq
    cases hget.symm.trans hg
    exact hversion
  · refine hleased.current name' g hg ?_
    simpa [heq] using hran

/-- It is noted that a function runs which was found. -/
theorem executing_noted (hidle : h'.world.Idle) (hsame : h.Unserved h') (hleased : h'.engine.Leased i)
    (hget : h.engine.functions.get? name = some f)
    (hversion : h'.engine.version? i.script name = some f.hash) (hfound : Found name h)
    {wasThere : Bool} (hthere : h.engine.functions.ran name = true → wasThere = true) :
    (h'.onEngine (noted f wasThere)).Executing i (Serves name h) := by
  have hget' : h'.engine.functions.get? name = some f := by
    rw [hsame.functions]
    exact hget
  refine ⟨hidle, hleased.noted hget' hversion wasThere, fun g hg _ => ?_, fun hnone => ?_⟩
  · cases hget.symm.trans hg
    have hran : (h'.engine.functions.hasExecuted f.name f.hash && wasThere) =
        h.engine.functions.ran name := by
      rw [FunctionCache.hasExecuted_of_get? hget', hsame.functions]
      cases hran : h.engine.functions.ran name with
      | false => rfl
      | true => rw [hthere hran]; rfl
    refine ⟨congrArg (·.markExecuted f.name f.hash) hsame.functions, ?_⟩
    change h'.engine.statistics.fromCache + (_ && wasThere).toNat = _
    rw [hran, hsame.fromCache]
  · cases (hnone hfound).symm.trans hget

/-- A call by name is served from the cache if its function is found and has been executed. -/
theorem Ready.executeFunction (hready : h.engine.Ready) (hidle : h.world.Idle) (token : Nat)
    (name : String) (args : List Value) :
    Concludes (executeFunction token name args) (Serves name h) h := by
  have hready' : (h.onEngine countStarted).engine.Ready := ⟨hready.room, hready.idle⟩
  have hengine : engine (h.onEngine countStarted) = .ok (countStarted h.engine) _ := rfl
  have hcached : (countStarted h.engine).functions = h.engine.functions := rfl
  rw [executeFunction_eq]
  refine Concludes.counted (.ok_bind hengine ?_)
  rw [hcached]
  refine hready'.withInstance hidle ?_ ?_
  · intro i isNew h₁ hlease hidle₁ hsame₁ hleased₁ hnew
    have hlook := (lookUp_eq name h).trans (bind_of_ok hlease)
    dsimp only at hlook
    have hsame : h.Unserved h₁ := ⟨hsame₁.functions, hsame₁.fromCache⟩
    have hrefresh := returns_refresh hleased₁ hidle₁ name
    rw [hsame.functions] at hrefresh
    -- what has been executed was in the instance, which was idle
    have hthere : ∀ stale, (h.engine.functions.ran name = true → stale = false) →
        h.engine.functions.ran name = true → (!isNew && !stale) = true := by
      intro stale hstale hran
      have hold : isNew = false := by
        by_contra hnot
        exact absurd ((hnew (by simpa using hnot) name).symm.trans hran) Bool.false_ne_true
      rw [hold, hstale hran]
      rfl
    refine Returns.bind ⟨hrefresh.ok, fun herror => ?_⟩ fun stale h₂ hok hpost => ?_
    · obtain ⟨hidle₂, hsame₂, hleased₂⟩ := hrefresh.error herror
      have hnot : ¬Found name h := not_found_of_error (hlook.trans (bind_of_error herror))
      have hsame₂ := hsame.trans hsame₂
      exact ⟨hidle₂, hleased₂, fun _ _ hfound => absurd hfound hnot,
        fun _ => ⟨hsame₂.functions, hsame₂.fromCache⟩⟩
    · obtain ⟨hidle₂, hsame₂, hleased₂, hversion, hstale⟩ := hpost
      have hsame₂ := hsame.trans hsame₂
      have hglobal := onScript_getGlobal i.script name h₂
      have hfound := found_iff (hlook.trans ((bind_of_ok hok).trans hglobal))
      have hhidden : (Found name h → h.engine.functions.get? name = none) →
          Serves name h h₂.engine.functions h₂.engine.statistics.fromCache := by
        refine fun hnone => ⟨fun f hget hf => ?_, fun _ => ⟨hsame₂.functions, hsame₂.fromCache⟩⟩
        cases (hnone hf).symm.trans hget
      refine .ok_bind hglobal ?_
      cases hcall : (globalOf h₂ i.script name).isCallable with
      | false =>
        rw [hcall] at hfound
        exact .of_error rfl ⟨hidle₂, hleased₂, hhidden fun hf => absurd (hfound.1 hf) Bool.false_ne_true⟩
      | true =>
        have hcalled : Rests (onScript i.script (Script.callWith token (globalOf h₂ i.script name) args)) :=
          rests_onScript (Script.balanced_callWith _ _ _) _
        cases hget : h.engine.functions.get? name with
        | none =>
          exact returns_untouched ⟨hidle₂, hleased₂, hhidden fun _ => hget⟩
            (untouched_onScript _ _) hcalled
        | some f =>
          have hnoted := executing_noted hidle₂ hsame₂ hleased₂ hget (hversion f hget)
            (hfound.2 hcall) (hthere stale hstale)
          exact .ok_bind (noteRun_eq f (!isNew && !stale) h₂)
            (returns_untouched hnoted (untouched_onScript _ _) hcalled)
  · intro e h₁ hlease
    have hlook := (lookUp_eq name h).trans (bind_of_error hlease)
    exact ⟨fun _ _ hfound => absurd hfound (not_found_of_error hlook), fun _ => ⟨rfl, rfl⟩⟩

/-! ## Sessions -/

/-- What an engine is told. -/
inductive Order where
  | load (name code : String)
  | call (token : Nat) (name : String) (args : List Value)
  | run (token : Nat) (code : String)

def Order.perform : Order → Hosting Unit
  | load name code => loadFunction name code
  | call token name args => do let _ ← executeFunction token name args
  | run token code => do let _ ← execute token code

/-- An order, the host that it was given to, and how it ended. -/
structure Moment where
  order : Order
  before : Host
  outcome : Except Stop Unit

/-- Something returned, with a value or with an error, and no host code broke down. -/
def Returned (outcome : Except Stop α) : Prop :=
  ∀ s, outcome = .error s → ∃ e, s = .error e ∧ ¬e.IsBreakdown

/-- What a new engine has been told so far, the latest first. Each order returned before the next. -/
inductive Session (config : EngineConfig) : List Moment → Host → Prop
  | start : Session config [] (.create config)
  | next {trace : List Moment} {h h' : Host} {order : Order} {outcome : Except Stop Unit}
    (hsession : Session config trace h) (hperform : observe order.perform h = .ok outcome h')
    (hreturned : Returned outcome) : Session config (⟨order, h, outcome⟩ :: trace) h'

/-- The function that was loaded, if it was not refused. -/
def Moment.loaded? (m : Moment) : Option CachedFunction :=
  match m.order, m.outcome with
  | .load name code, .ok _ => some (.ofSource name code)
  | _, _ => none

/-- The digest of the body that a function has, if it has been loaded. -/
def digest? (name : String) : List Moment → Option String
  | [] => none
  | m :: trace =>
    match m.loaded? with
    | some f => if f.name = name then some f.hash else digest? name trace
    | none => digest? name trace

/-- A function has been called by its name, and was found, since its body last changed. To load the body
that it has is no change. -/
inductive RanSince (name : String) : List Moment → Prop
  | call {m : Moment} {trace : List Moment} (hcall : ∃ token args, m.order = .call token name args)
    (hfound : Found name m.before) : RanSince name (m :: trace)
  | keep {m : Moment} {trace : List Moment}
    (hsame : ∀ f, m.loaded? = some f → f.name = name → digest? name trace = some f.hash)
    (hran : RanSince name trace) : RanSince name (m :: trace)

/-- What an engine was told can be read off its cache. -/
structure Follows (trace : List Moment) (h : Host) : Prop where
  idle : h.world.Idle
  ready : h.engine.Ready
  digest : ∀ name, h.engine.functions.hashOf? name = digest? name trace
  ran : ∀ name, (digest? name trace).isSome → (h.engine.functions.ran name = true ↔ RanSince name trace)

variable {trace : List Moment} {token : Nat} {args : List Value} {code : String}
  {outcome : Except Stop Unit}

theorem Concludes.observe {x : Hosting α} {outcome : Except Stop α} (hx : Concludes x P h)
    (hobserve : observe x h = .ok outcome h') (hreturned : Returned outcome) : h'.Between P := by
  rcases observe_eq x h with ⟨a, hok, heq⟩ | ⟨s, herror, heq⟩
  · cases hobserve.symm.trans heq
    exact hx.ok hok
  · cases hobserve.symm.trans heq
    obtain ⟨e, rfl, he⟩ := hreturned s rfl
    exact hx.error herror he

/-- What is done with the value does not matter. -/
theorem Concludes.perform {x : Hosting α} (hx : Concludes x P h) :
    Concludes (do let _ ← x : Hosting Unit) P h :=
  Returns.bind ⟨hx.ok, hx.error⟩ fun _ _ _ hbetween => .of_ok rfl hbetween

/-- What calls no function by its name. -/
theorem ranSince_cons {m : Moment} (hm : ∀ token name args, m.order ≠ .call token name args) :
    RanSince name (m :: trace) ↔
      (∀ f, m.loaded? = some f → f.name = name → digest? name trace = some f.hash) ∧
        RanSince name trace := by
  refine ⟨fun hran => ?_, fun ⟨hsame, hran⟩ => .keep hsame hran⟩
  cases hran with
  | call hcall =>
    obtain ⟨token, args, hcall⟩ := hcall
    exact absurd hcall (hm token name args)
  | keep hsame hran => exact ⟨hsame, hran⟩

/-- What neither calls nor loads a function. -/
theorem ranSince_of_loaded {m : Moment} (hm : ∀ token name args, m.order ≠ .call token name args)
    (hnone : m.loaded? = none) : RanSince name (m :: trace) ↔ RanSince name trace := by
  refine (ranSince_cons hm).trans (and_iff_right fun f hf => ?_)
  cases hnone.symm.trans hf

/-- A text is run. -/
theorem Follows.run (hfollows : Follows trace h)
    (hperform : observe (Order.run token code).perform h = .ok outcome h')
    (hreturned : Returned outcome) : Follows (⟨.run token code, h, outcome⟩ :: trace) h' := by
  have hbetween := ((hfollows.ready.execute hfollows.idle token code).perform).observe hperform hreturned
  obtain ⟨hsame, -⟩ := hbetween.holds
  have hkeep : ∀ name, RanSince name (⟨.run token code, h, outcome⟩ :: trace) ↔ RanSince name trace :=
    fun name => ranSince_of_loaded (by simp) rfl
  refine ⟨hbetween.idle, hbetween.ready, fun name => ?_, fun name hloaded => ?_⟩
  · rw [hsame]
    exact hfollows.digest name
  · rw [hsame, hkeep]
    exact hfollows.ran name hloaded

theorem ranSince_call {name' : String} :
    RanSince name' (⟨.call token name args, h, outcome⟩ :: trace) ↔
      (name' = name ∧ Found name h) ∨ RanSince name' trace := by
  constructor
  · intro hran
    cases hran with
    | call hcall hfound =>
      obtain ⟨_, _, hcall⟩ := hcall
      cases hcall
      exact .inl ⟨rfl, hfound⟩
    | keep _ hran => exact .inr hran
  · rintro (⟨rfl, hfound⟩ | hran)
    · exact .call ⟨token, args, rfl⟩ hfound
    · exact .keep nofun hran

/-- A function is called by its name. -/
theorem Follows.call (hfollows : Follows trace h)
    (hperform : observe (Order.call token name args).perform h = .ok outcome h')
    (hreturned : Returned outcome) : Follows (⟨.call token name args, h, outcome⟩ :: trace) h' := by
  have hbetween :=
    ((hfollows.ready.executeFunction hfollows.idle token name args).perform).observe hperform hreturned
  have hserves := hbetween.holds
  by_cases hrun : Found name h ∧ (h.engine.functions.get? name).isSome
  · obtain ⟨hfound, hsome⟩ := hrun
    obtain ⟨f, hget⟩ := Option.isSome_iff_exists.1 hsome
    have hmarked := (hserves.found f hget hfound).1
    refine ⟨hbetween.idle, hbetween.ready, fun name' => ?_, fun name' hloaded => ?_⟩
    · rw [hmarked, FunctionCache.hashOf?, FunctionCache.get?_markExecuted]
      exact hfollows.digest name'
    · rw [hmarked, FunctionCache.ran_markExecuted hget, ranSince_call, Bool.or_eq_true, beq_iff_eq,
        hfollows.ran name' hloaded]
      exact ⟨fun h => h.symm.imp (⟨·, hfound⟩) id, fun h => h.symm.imp id (·.1)⟩
  · have hnone : Found name h → h.engine.functions.get? name = none := by
      intro hfound
      simpa using fun hsome => hrun ⟨hfound, hsome⟩
    have hsame := (hserves.hidden hnone).1
    refine ⟨hbetween.idle, hbetween.ready, fun name' => ?_, fun name' hloaded => ?_⟩
    · rw [hsame]
      exact hfollows.digest name'
    · rw [hsame, ranSince_call, hfollows.ran name' hloaded]
      refine ⟨.inr, fun h => h.resolve_left ?_⟩
      rintro ⟨rfl, hfound⟩
      have hloaded : (digest? name' trace).isSome := hloaded
      rw [← hfollows.digest, FunctionCache.hashOf?, hnone hfound] at hloaded
      cases hloaded

/-- A new body has not been executed, and nothing else changes for those that have been. -/
theorem Ready.loaded (hready : h.engine.Ready) (hok : loadFunction name code h = .ok () h')
    (hnew : h.engine.functions.hashOf? name ≠ some (CachedFunction.ofSource name code).hash) :
    h'.engine.Ready ∧
      h'.engine.functions = h.engine.functions.insert (CachedFunction.ofSource name code) := by
  obtain ⟨hloads, hreceived⟩ := (leaves_loadFunction name code h).ok hok
  have hfunctions := hreceived hnew
  have hterms := ((working_loadFunction name code).ok hok).terms
  have hever : ∀ name', h'.engine.functions.ran name' =
      (h.engine.functions.ran name' && name' != name) := by
    intro name'
    rw [hfunctions]
    exact FunctionCache.ran_insert hnew name'
  refine ⟨⟨?_, ?_⟩, hfunctions⟩
  · rw [hterms.pool]
    exact hready.room
  · rw [hterms.pool]
    rcases hready.idle with ⟨hnone, hnever⟩ | ⟨i, hone, hgeneration, hcurrent⟩
    · refine .inl ⟨hnone, fun name' => ?_⟩
      rw [hever, hnever, Bool.false_and]
    · refine .inr ⟨i, hone, hterms.generation ▸ hgeneration, fun name' g hg hran => ?_⟩
      rw [hever, Bool.and_eq_true, bne_iff_ne] at hran
      obtain ⟨hran, hne⟩ := hran
      rw [hfunctions, FunctionCache.get?_insert_of_ne hne] at hg
      rcases hloads.versions i.script name' with hversion | ⟨heq, -⟩
      · rw [hversion]
        exact hcurrent name' g hg hran
      · exact absurd heq.symm hne

theorem ranSince_load {name' : String} :
    RanSince name' (⟨.load name code, h, .ok ()⟩ :: trace) ↔
      (name = name' → digest? name' trace = some (CachedFunction.ofSource name code).hash) ∧
        RanSince name' trace := by
  refine (ranSince_cons (by simp)).trans (and_congr_left fun _ => ?_)
  refine ⟨fun hsame => hsame _ rfl, ?_⟩
  rintro hsame _ ⟨⟩
  exact hsame

theorem digest?_load (name' : String) : digest? name' (⟨.load name code, h, .ok ()⟩ :: trace) =
    if name = name' then some (CachedFunction.ofSource name code).hash else digest? name' trace := rfl

/-- The body that is cached is loaded again. -/
theorem Follows.reloaded (hfollows : Follows trace h)
    (hsame : h.engine.functions.hashOf? name = some (CachedFunction.ofSource name code).hash) :
    Follows (⟨.load name code, h, .ok ()⟩ :: trace) h := by
  have hdigest : ∀ name', digest? name' (⟨.load name code, h, .ok ()⟩ :: trace) =
      digest? name' trace := by
    intro name'
    rw [digest?_load]
    split
    · next heq => rw [← heq, ← hfollows.digest, hsame]
    · rfl
  refine ⟨hfollows.idle, hfollows.ready, fun name' => ?_, fun name' hloaded => ?_⟩
  · rw [hdigest]
    exact hfollows.digest name'
  · rw [hdigest] at hloaded
    rw [ranSince_load, hfollows.ran name' hloaded]
    refine (and_iff_right fun heq => ?_).symm
    rw [← heq, ← hfollows.digest, hsame]

/-- A function is loaded. -/
theorem Follows.loaded (hfollows : Follows trace h) (hok : loadFunction name code h = .ok () h') :
    Follows (⟨.load name code, h, .ok ()⟩ :: trace) h' := by
  by_cases hsame : h.engine.functions.hashOf? name = some (CachedFunction.ofSource name code).hash
  · cases (loadFunction_cached hsame).symm.trans hok
    exact hfollows.reloaded hsame
  · obtain ⟨hready, hfunctions⟩ := hfollows.ready.loaded hok hsame
    refine ⟨(rests_loadFunction name code h).ok hok hfollows.idle, hready, fun name' => ?_,
      fun name' hloaded => ?_⟩
    · rw [digest?_load, hfunctions, FunctionCache.hashOf?]
      split
      · next heq =>
        subst heq
        exact congrArg (Option.map _)
          (FunctionCache.get?_insert_self _ (CachedFunction.ofSource name code))
      · next hne =>
        rw [FunctionCache.get?_insert_of_ne (Ne.symm hne)]
        exact hfollows.digest name'
    · rw [ranSince_load, hfunctions, FunctionCache.ran_insert hsame, Bool.and_eq_true, bne_iff_ne]
      by_cases heq : name = name'
      · subst heq
        refine iff_of_false (fun h => h.2 rfl) fun h => hsame ?_
        rw [hfollows.digest]
        exact h.1 rfl
      · rw [digest?_load, if_neg heq] at hloaded
        rw [hfollows.ran name' hloaded]
        exact ⟨fun h => ⟨fun h' => absurd h' heq, h.1⟩, fun h => ⟨h.2, Ne.symm heq⟩⟩

/-- A function is loaded, or refused. -/
theorem Follows.load (hfollows : Follows trace h)
    (hperform : observe (Order.load name code).perform h = .ok outcome h')
    (hreturned : Returned outcome) : Follows (⟨.load name code, h, outcome⟩ :: trace) h' := by
  rcases observe_eq (loadFunction name code) h with ⟨u, hok, heq⟩ | ⟨s, herror, heq⟩
  · cases hperform.symm.trans heq
    exact hfollows.loaded hok
  · cases hperform.symm.trans heq
    obtain ⟨e, rfl, -⟩ := hreturned s rfl
    obtain ⟨hsame, -⟩ := loadFunction_error herror
    refine ⟨(rests_loadFunction name code h).error herror hfollows.idle, ?_, fun name' => ?_,
      fun name' hloaded => ?_⟩
    · rw [hsame]
      exact hfollows.ready
    · rw [hsame]
      exact hfollows.digest name'
    · rw [hsame, hfollows.ran name' hloaded]
      exact (ranSince_of_loaded (by simp) rfl).symm

theorem Follows.start {config : EngineConfig} (hroom : 1 ≤ config.maxIdle) :
    Follows [] (.create config) :=
  ⟨by simp [World.Idle, Host.create], ⟨hroom, .inl ⟨rfl, fun _ => rfl⟩⟩, fun _ => rfl, by simp [digest?]⟩

/-- At any moment of a session. -/
theorem Session.follows {config : EngineConfig} (hroom : 1 ≤ config.maxIdle)
    (hsession : Session config trace h) : Follows trace h := by
  induction hsession with
  | start => exact .start hroom
  | @next _ _ _ order _ _ hperform hreturned ih =>
    cases order with
    | load name code => exact ih.load hperform hreturned
    | call token name args => exact ih.call hperform hreturned
    | run token code => exact ih.run hperform hreturned

/-- A function that has been executed is in the idle instance, so a call finds it there as long as the
global variable of that name has a value that can be called. -/
theorem Session.found_iff {config : EngineConfig} (hroom : 1 ≤ config.maxIdle)
    (hsession : Session config trace h) (hloaded : (digest? name trace).isSome)
    (hran : RanSince name trace) :
    ∃ i, h.engine.pool.items = [i] ∧ (Found name h ↔ (globalOf h i.script name).isCallable = true) := by
  have hfollows := hsession.follows hroom
  have hever := (hfollows.ran name hloaded).2 hran
  rw [← hfollows.digest, FunctionCache.hashOf?, Option.isSome_map] at hloaded
  obtain ⟨f, hget⟩ := Option.isSome_iff_exists.1 hloaded
  rcases hfollows.ready.idle with ⟨-, hnever⟩ | ⟨i, hone, hgeneration, hcurrent⟩
  · cases hever.symm.trans (hnever name)
  · have hlease : lease (h.onEngine countStarted) =
        .ok (i, false) ((h.onEngine countStarted).onEngine (withItems [])) := lease_head hone hgeneration
    have hversion := hcurrent name f hget hever
    have hrefresh : refresh i.script name (some f)
        ((h.onEngine countStarted).onEngine (withItems [])) = .ok false _ := refresh_of_version hversion
    have hlook := (lookUp_eq name h).trans (bind_of_ok hlease)
    rw [hget] at hlook
    exact ⟨i, hone, Engine.found_iff (hlook.trans ((bind_of_ok hrefresh).trans (onScript_getGlobal _ _ _)))⟩

/-- A call of a loaded function by its name is served from the cache exactly if the function is found and
has been called by its name, and found, since its body last changed. So it is after whatever a new engine
that keeps idle instances has been told, in whatever order: functions loaded and called, texts run,
however they changed the global variables. -/
theorem Session.served {config : EngineConfig} {outcome : Except Stop Value}
    (hroom : 1 ≤ config.maxIdle) (hsession : Session config trace h)
    (hloaded : (digest? name trace).isSome)
    (hcall : observe (executeFunction token name args) h = .ok outcome h')
    (hreturned : Returned outcome) :
    (Found name h ∧ RanSince name trace →
      h'.engine.statistics.fromCache = h.engine.statistics.fromCache + 1) ∧
    (¬(Found name h ∧ RanSince name trace) →
      h'.engine.statistics.fromCache = h.engine.statistics.fromCache) := by
  have hfollows := hsession.follows hroom
  have hserves := ((hfollows.ready.executeFunction hfollows.idle token name args).observe hcall
    hreturned).holds
  have hsome := hloaded
  rw [← hfollows.digest, FunctionCache.hashOf?, Option.isSome_map] at hsome
  obtain ⟨f, hget⟩ := Option.isSome_iff_exists.1 hsome
  have hran := hfollows.ran name hloaded
  refine ⟨fun ⟨hfound, hsince⟩ => ?_, fun hnot => ?_⟩
  · rw [(hserves.found f hget hfound).2, hran.2 hsince]
    rfl
  · by_cases hfound : Found name h
    · have hnever : h.engine.functions.ran name = false :=
        Bool.eq_false_iff.2 fun hever => hnot ⟨hfound, hran.1 hever⟩
      rw [(hserves.found f hget hfound).2, hnever]
      rfl
    · exact (hserves.hidden fun h => absurd h hfound).2

theorem Session.next_ok {config : EngineConfig} {order : Order} (hsession : Session config trace h)
    (hok : order.perform.succeeds h = true) :
    Session config (⟨order, h, .ok ()⟩ :: trace) (order.perform.after h) := by
  obtain ⟨⟨⟩, hok⟩ := exists_ok_of_succeeds hok
  exact .next hsession (observe_of_ok hok) (fun _ hs => by cases hs)

/-- What is checked of an execution by running it: whether it returned, with an error that has a place in
a text. -/
def failsAtPlace (x : Hosting α) (h : Host) : Bool :=
  match x h with
  | .error (.error (.runtime e)) _ => e.decorated.isSome
  | _ => false

theorem returned_of_failsAtPlace {x : Hosting α} (hfails : failsAtPlace x h = true) :
    ∃ outcome, observe x h = .ok outcome (x.after h) ∧ Returned outcome := by
  obtain ⟨outcome, houtcome⟩ := observe_after x h
  refine ⟨outcome, houtcome, ?_⟩
  rintro s rfl
  unfold failsAtPlace at hfails
  rcases observe_eq x h with ⟨a, -, heq⟩ | ⟨s', herror, heq⟩
  · cases houtcome.symm.trans heq
  · cases houtcome.symm.trans heq
    rw [herror] at hfails
    cases s with
    | error e =>
      refine ⟨e, rfl, ?_⟩
      rintro ⟨message, rfl⟩
      cases hfails
    | panic message => cases hfails
    | exhausted => cases hfails

/-- A function whose definition fails in every new instance. Neither its first call is served from the
cache nor the second one, before which it has been called. -/
theorem Session.served_undefined :
    let load := Order.load "_ENV" "end local x = -nil do"
    let call := Order.call 0 "_ENV" []
    let h := load.perform.after (Host.create {})
    let h₁ := call.perform.after h
    ∃ outcome outcome₁ h' h₂, Session {} [⟨load, Host.create {}, .ok ()⟩] h ∧
      observe (executeFunction 0 "_ENV" []) h = .ok outcome h' ∧ Returned outcome ∧
      h'.engine.statistics.fromCache = h.engine.statistics.fromCache ∧
      (∃ first, Session {} [⟨call, h, first⟩, ⟨load, Host.create {}, .ok ()⟩] h₁) ∧
      observe (executeFunction 0 "_ENV" []) h₁ = .ok outcome₁ h₂ ∧ Returned outcome₁ ∧
      h₂.engine.statistics.fromCache = h₁.engine.statistics.fromCache := by
  intro load call h h₁
  have hsession : Session {} [⟨load, Host.create {}, .ok ()⟩] h := Session.start.next_ok (by decide +kernel)
  obtain ⟨outcome, houtcome, hreturned⟩ :=
    returned_of_failsAtPlace (by decide +kernel : failsAtPlace (executeFunction 0 "_ENV" []) h = true)
  obtain ⟨first, hfirst, hfails⟩ :=
    returned_of_failsAtPlace (by decide +kernel : failsAtPlace call.perform h = true)
  have hcalled : Session {} [⟨call, h, first⟩, ⟨load, Host.create {}, .ok ()⟩] h₁ :=
    hsession.next hfirst hfails
  obtain ⟨outcome₁, houtcome₁, hreturned₁⟩ :=
    returned_of_failsAtPlace (by decide +kernel : failsAtPlace (executeFunction 0 "_ENV" []) h₁ = true)
  refine ⟨outcome, outcome₁, _, _, hsession, houtcome, hreturned, ?_, ⟨first, hcalled⟩, houtcome₁,
    hreturned₁, ?_⟩
  · refine (Session.served (by decide) hsession rfl houtcome hreturned).2 ?_
    rintro ⟨-, hran⟩
    -- it has only been loaded
    rcases hran with ⟨⟨_, _, hcall⟩, -⟩ | ⟨-, hran⟩
    · cases hcall
    · cases hran
  · have hloaded : (digest? "_ENV" [⟨call, h, first⟩, ⟨load, Host.create {}, .ok ()⟩]).isSome := rfl
    refine (Session.served (by decide) hcalled hloaded houtcome₁ hreturned₁).2 ?_
    rintro ⟨hfound, -⟩
    -- it has been called, but it is not found
    obtain ⟨s, herror⟩ :=
      exists_error_of_not_succeeds (by decide +kernel : (lookUp "_ENV").succeeds h₁ = false)
    exact not_found_of_error herror hfound

end Engine

end LuaMachine
