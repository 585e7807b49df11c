import LuaMachine.Proofs.Engine.Sharing

/-!
# Instances are in one place

Whatever order the steps of tasks come in, the pool never holds more instances than it should
(`Shared.Limited`), and the script of an instance is idle, or with one task, or gone for good
(`Shared.Exclusive`). So no instance is leased twice or while it is idle, and what broke down or was
left in the middle of a call is not leased again.
-/

namespace LuaMachine

open Exec

/-! ## Pools -/

namespace Pool

variable {α : Type} {p q : Pool α} {a : α}

theorem of_take? (h : p.take? = some (a, q)) : p.items = a :: q.items ∧ q.maxIdle = p.maxIdle := by
  unfold take? at h
  split at h
  · next hitems =>
    cases h
    exact ⟨hitems, rfl⟩
  · cases h

/-- What is put back comes first, unless the pool is full. -/
theorem getD_put? (p : Pool α) (a : α) : (p.put? a).getD p = p ∨
    p.size < p.maxIdle ∧ (p.put? a).getD p = { p with items := a :: p.items } := by
  unfold put?
  split
  · next hroom => exact .inr ⟨hroom, rfl⟩
  · exact .inl rfl

end Pool

/-! ## Changes -/

/-- Nothing becomes of the pool, the generation and the scripts. -/
structure Host.Alters (h h' : Host) : Prop where
  size : h.world.scripts.size ≤ h'.world.scripts.size
  config : h'.engine.config = h.engine.config
  pool : h'.engine.pool = h.engine.pool
  generation : h'.engine.generation = h.engine.generation

namespace Host

variable {h h' h'' : Host}

theorem Alters.trans (h₁ : h.Alters h') (h₂ : h'.Alters h'') : h.Alters h'' :=
  ⟨Nat.le_trans h₁.size h₂.size, h₂.config.trans h₁.config, h₂.pool.trans h₁.pool,
    h₂.generation.trans h₁.generation⟩

theorem Works.alters (hworks : h.Works h') : h.Alters h' :=
  ⟨hworks.world.size, hworks.terms.config, hworks.terms.pool, hworks.terms.generation⟩

end Host

namespace HostType

theorem retaining_register (t : HostType) : Retaining (register t) := by
  have hadd : Retaining (modify fun w : World => { w with hostTypes := w.hostTypes ++ [t] }) :=
    retaining_modify fun _ => World.retains_of_eq rfl rfl
  unfold register
  refine retaining_get.bind fun w => ?_
  split
  · exact retaining_pure false
  · exact hadd.bind fun _ => retaining_pure true

end HostType

namespace Engine

open Hosting

theorem alters_bindObject (name : String) (object : HostObject) :
    (bindObject name object).Always Host.Alters := by
  have hadapters : (modifyEngine fun e => { e with adapters := e.adapters.countAdapters }).Always
      Host.Alters := fun _ => ⟨Nat.le_refl _, rfl, rfl, rfl⟩
  have hobjects : ∀ v : Value, (modifyEngine fun e =>
      { e with objects := e.objects ++ [(name, v)] }).Always Host.Alters :=
    fun _ _ => ⟨Nat.le_refl _, rfl, rfl, rfl⟩
  have hworld : ∀ {α : Type} {y : Exec α}, Retaining y → (inWorld y).Always Host.Alters :=
    fun hy h => (working_inWorld hy h).alters
  unfold bindObject
  refine Always.bind .trans (fun h => (working_engine h).alters) fun e => ?_
  split
  · exact fun h => (Host.Works.refl h).alters
  · refine Always.bind .trans hadapters fun _ => ?_
    refine Always.bind .trans (hworld (HostType.retaining_register _)) fun _ => ?_
    exact Always.bind .trans (hworld (HostType.aside_wrap _).retaining) hobjects

theorem Change.alters (c : Change) : c.perform.Always Host.Alters := by
  cases c with
  | bind name object => exact alters_bindObject name object
  | forgetObjects => exact fun _ => ⟨Nat.le_refl _, rfl, rfl, rfl⟩
  | forgetTypes => exact fun _ => ⟨Nat.le_refl _, rfl, rfl, rfl⟩
  | knowStore =>
    have hknow : Working Engine.knowStore :=
      (working_inWorld (HostType.retaining_register .store)).bind fun _ => working_pure ()
    exact fun h => (hknow h).alters
  | replaceStore => exact fun _ => ⟨Nat.le_refl _, rfl, rfl, rfl⟩
  | switchSink sink => exact fun _ => ⟨Nat.le_refl _, rfl, rfl, rfl⟩

namespace Shared

variable {s s' : Shared} {t : Nat} {p : Phase} {h : Host} {i : Instance} {b : Birth}
  {config : EngineConfig}

/-! ## The pool has a limit -/

/-- The pool holds no more than it should. -/
structure Limited (config : EngineConfig) (s : Shared) : Prop where
  maxIdle : s.host.engine.pool.maxIdle = config.maxIdle
  size : s.host.engine.pool.size ≤ config.maxIdle

theorem Limited.pool (hs : s.Limited config) (hpool : s'.host.engine.pool = s.host.engine.pool) :
    s'.Limited config :=
  ⟨hpool ▸ hs.maxIdle, hpool ▸ hs.size⟩

theorem Limited.fewer (hs : s.Limited config)
    (hmax : s'.host.engine.pool.maxIdle = s.host.engine.pool.maxIdle)
    (hsize : s'.host.engine.pool.size ≤ s.host.engine.pool.size) : s'.Limited config :=
  ⟨hmax.trans hs.maxIdle, Nat.le_trans hsize hs.size⟩

theorem Step.limited (hstep : Step s s') (hs : s.Limited config) : s'.Limited config := by
  cases hstep with
  | next hnext => exact hs.pool rfl
  | work hworks => exact hs.pool hworks.terms.pool
  | takeOld ht htake hold =>
    obtain ⟨hitems, hmax⟩ := Pool.of_take? htake
    exact hs.fewer hmax (by simp [withPool, withHost, Host.onEngine, Pool.size, hitems])
  | take ht htake hcurrent =>
    obtain ⟨hitems, hmax⟩ := Pool.of_take? htake
    exact hs.fewer hmax (by simp [goOn, withPool, withHost, Host.onEngine, Pool.size, hitems])
  | bear b ht hbefore =>
    exact hs.pool (hbefore ▸ (working_setUp _ _ _).ok b.made).terms.pool
  | noBirth ht hfails => exact hs.pool ((working_setUp _ _ _).error hfails).terms.pool
  | giveUp ht => exact hs.pool rfl
  | put ht =>
    rename_i t i
    rcases s.host.engine.pool.getD_put? i with hfull | ⟨hroom, hput⟩
    · exact hs.pool hfull
    · rw [hs.maxIdle] at hroom
      refine ⟨?_, ?_⟩
      · change ((s.host.engine.pool.put? i).getD _).maxIdle = _
        rw [hput]
        exact hs.maxIdle
      · change ((s.host.engine.pool.put? i).getD _).size ≤ _
        rw [hput]
        exact hroom
  | change ht => exact hs.pool (Change.alters _ s.host).pool
  | outdate ht => exact hs.pool rfl
  | clear ht => exact hs.fewer rfl (Nat.zero_le _)

/-! ## An instance is in one place -/

/-- The instances that are idle, in the order of the pool. -/
def idle (s : Shared) : List ScriptId := s.host.engine.pool.items.map (·.script)

/-- Where the script of an instance can be. -/
inductive Place where
  | idle
  | task (t : Nat)
  | gone

def At (s : Shared) : Place → ScriptId → Prop
  | .idle, id => id ∈ s.idle
  | .task t, id => ∃ i, (s.phase t).instance? = some i ∧ i.script = id
  | .gone, id => id ∈ s.gone

/-- Every script is in one place at most, and new scripts are different from all of them. -/
structure Exclusive (s : Shared) : Prop where
  distinct : s.idle.Nodup
  unique : ∀ {p q id}, s.At p id → s.At q id → p = q
  known : ∀ {p id}, s.At p id → id.index < s.host.world.scripts.size

/-- Nothing moves, but something may be dropped. -/
theorem Exclusive.stays (hs : s.Exclusive) (hidle : s'.idle.Sublist s.idle)
    (hat : ∀ q id, s'.At q id → s.At q id)
    (hsize : s.host.world.scripts.size ≤ s'.host.world.scripts.size) : s'.Exclusive where
  distinct := hidle.nodup hs.distinct
  unique hp hq := hs.unique (hat _ _ hp) (hat _ _ hq)
  known hp := Nat.lt_of_lt_of_le (hs.known (hat _ _ hp)) hsize

/-- A script comes to a place, and is in no other one then. -/
theorem Exclusive.arrives (id : ScriptId) (dest : Place) (hs : s.Exclusive) (hidle : s'.idle.Nodup)
    (hat : ∀ q id', s'.At q id' → q = dest ∧ id' = id ∨ s.At q id' ∧ id' ≠ id)
    (hsize : s.host.world.scripts.size ≤ s'.host.world.scripts.size)
    (hid : id.index < s'.host.world.scripts.size) : s'.Exclusive where
  distinct := hidle
  unique {p q id'} hp hq := by
    rcases hat p id' hp with ⟨rfl, rfl⟩ | ⟨hp, hne⟩
    · rcases hat q _ hq with ⟨rfl, -⟩ | ⟨-, hne⟩
      · rfl
      · exact absurd rfl hne
    · rcases hat q id' hq with ⟨-, heq⟩ | ⟨hq, -⟩
      · exact absurd heq hne
      · exact hs.unique hp hq
  known {p id'} hp := by
    rcases hat p id' hp with ⟨-, rfl⟩ | ⟨hp, -⟩
    · exact hid
    · exact Nat.lt_of_lt_of_le (hs.known hp) hsize

/-- A script goes from one place to another. -/
theorem Exclusive.moves {id : ScriptId} {src : Place} (dest : Place) (hs : s.Exclusive)
    (hsrc : s.At src id) (hidle : s'.idle.Nodup)
    (hat : ∀ q id', s'.At q id' → q = dest ∧ id' = id ∨ s.At q id' ∧ (q = src → id' ≠ id))
    (hsize : s.host.world.scripts.size ≤ s'.host.world.scripts.size) : s'.Exclusive := by
  have hid := Nat.lt_of_lt_of_le (hs.known hsrc) hsize
  refine hs.arrives id dest hidle (fun q id' hq => ?_) hsize hid
  refine (hat q id' hq).imp_right fun ⟨hq, hne⟩ => ⟨hq, fun heq => ?_⟩
  subst heq
  exact hne (hs.unique hq hsrc) rfl

theorem phase_goOn (s : Shared) (t : Nat) (p : Phase) (t' : Nat) :
    (s.goOn t p).phase t' = if t' = t then p else s.phase t' :=
  Function.update_apply s.phase t p t'

theorem at_task_goOn {t' : Nat} {id : ScriptId} (hat : (s.goOn t p).At (.task t') id) :
    t' = t ∧ (∃ i, p.instance? = some i ∧ i.script = id) ∨ t' ≠ t ∧ s.At (.task t') id := by
  obtain ⟨i, hi, hid⟩ := hat
  rw [phase_goOn] at hi
  split at hi
  · next ht => exact .inl ⟨ht, i, hi, hid⟩
  · next ht => exact .inr ⟨ht, i, hi, hid⟩

/-- A task goes on with what it has, or without. -/
theorem Exclusive.goOn (hs : s.Exclusive)
    (hp : p.instance? = none ∨ p.instance? = (s.phase t).instance?) : (s.goOn t p).Exclusive := by
  refine hs.stays (List.Sublist.refl _) (fun q id hq => ?_) (Nat.le_refl _)
  cases q with
  | idle => exact hq
  | gone => exact hq
  | task t' =>
    rcases at_task_goOn hq with ⟨rfl, i, hi, hid⟩ | ⟨-, hq⟩
    · rcases hp with hp | hp
      · rw [hp] at hi
        cases hi
      · exact ⟨i, hp ▸ hi, hid⟩
    · exact hq

/-- Some idle instances are dropped. -/
theorem Exclusive.withHost (hs : s.Exclusive) (hidle : (s.withHost h).idle.Sublist s.idle)
    (hsize : s.host.world.scripts.size ≤ h.world.scripts.size) : (s.withHost h).Exclusive := by
  refine hs.stays hidle (fun q id hq => ?_) hsize
  cases q with
  | idle => exact hidle.subset hq
  | gone => exact hq
  | task t' => exact hq

theorem Exclusive.alters (hs : s.Exclusive) (halters : s.host.Alters h) :
    (s.withHost h).Exclusive := by
  refine hs.withHost ?_ halters.size
  unfold idle Shared.withHost
  rw [halters.pool]

theorem next_instance? {q : Phase} (hnext : p.Next h q) :
    q.instance? = none ∨ q.instance? = p.instance? := by
  cases hnext <;> first | exact .inl rfl | exact .inr rfl

/-- An idle instance is leased. -/
theorem Exclusive.take {g : Nat} {q : Pool Instance} (hs : s.Exclusive)
    (htake : s.host.engine.pool.take? = some (i, q)) :
    ((s.withPool q).goOn t (.holding g i)).Exclusive := by
  obtain ⟨hitems, -⟩ := Pool.of_take? htake
  have hidle : s.idle = i.script :: q.items.map (·.script) := congrArg (List.map _) hitems
  have hdistinct := hs.distinct
  rw [hidle, List.nodup_cons] at hdistinct
  have hhere : s.At .idle i.script := by
    unfold At
    rw [hidle]
    exact List.mem_cons_self
  refine hs.moves (.task t) hhere hdistinct.2 (fun p id hp => ?_) (Nat.le_refl _)
  cases p with
  | idle =>
    have hold : id ∈ s.idle := hidle ▸ List.mem_cons_of_mem _ hp
    exact .inr ⟨hold, fun _ heq => hdistinct.1 (heq ▸ hp)⟩
  | gone => exact .inr ⟨hp, nofun⟩
  | task t' =>
    rcases at_task_goOn hp with ⟨rfl, j, hj, rfl⟩ | ⟨-, hp⟩
    · cases hj
      exact .inl ⟨rfl, rfl⟩
    · exact .inr ⟨hp, nofun⟩

/-- The script of a new instance is different from all others. -/
theorem Exclusive.bear (hs : s.Exclusive) (hbefore : b.before = s.host) :
    (((s.withHost b.after).bear b).goOn t (.defining b.generation b.product)).Exclusive := by
  obtain ⟨-, hengine, hid, hsize⟩ := setUp_ok b.made
  rw [hbefore] at hengine hid hsize
  have hnew : ∀ {q id}, s.At q id → s.At q id ∧ id ≠ b.script := by
    intro q id hq
    refine ⟨hq, ?_⟩
    rintro rfl
    have hlt := hs.known hq
    rw [hid] at hlt
    exact Nat.lt_irrefl _ hlt
  have hidle : (((s.withHost b.after).bear b).goOn t (.defining b.generation b.product)).idle =
      s.idle := by
    change b.after.engine.pool.items.map _ = _
    rw [hengine]
    rfl
  refine hs.arrives b.script (.task t) (hidle ▸ hs.distinct) (fun q id hq => ?_)
    (hsize ▸ Nat.le_succ _) ?_
  · cases q with
    | idle => exact .inr (hnew (q := .idle) (hidle ▸ hq : id ∈ s.idle))
    | gone => exact .inr (hnew (q := .gone) hq)
    | task t' =>
      rcases at_task_goOn hq with ⟨rfl, j, hj, rfl⟩ | ⟨-, hq⟩
      · cases hj
        exact .inl ⟨rfl, rfl⟩
      · exact .inr (hnew (q := .task t') hq)
  · change b.script.index < b.after.world.scripts.size
    rw [hid, hsize]
    exact Nat.lt_succ_self _

/-- An instance is gone for good. -/
theorem Exclusive.giveUp (hs : s.Exclusive) (ht : (s.phase t).instance? = some i) :
    ((s.giveUp i).goOn t .idle).Exclusive := by
  have hhere : s.At (.task t) i.script := ⟨i, ht, rfl⟩
  refine hs.moves .gone hhere hs.distinct (fun q id hq => ?_) (Nat.le_refl _)
  cases q with
  | idle => exact .inr ⟨hq, nofun⟩
  | gone =>
    rcases List.mem_cons.1 hq with rfl | hq
    · exact .inl ⟨rfl, rfl⟩
    · exact .inr ⟨hq, nofun⟩
  | task t' =>
    rcases at_task_goOn hq with ⟨-, j, hj, -⟩ | ⟨hne, hq⟩
    · cases hj
    · exact .inr ⟨hq, fun heq => absurd (Place.task.inj heq) hne⟩

/-- An instance becomes idle, or is dropped since the pool is full. -/
theorem Exclusive.put (hs : s.Exclusive) (ht : (s.phase t).instance? = some i) :
    ((s.withPool ((s.host.engine.pool.put? i).getD s.host.engine.pool)).goOn t .idle).Exclusive := by
  rcases s.host.engine.pool.getD_put? i with hfull | ⟨-, hput⟩
  · rw [hfull]
    exact hs.goOn (.inl rfl)
  · have hhere : s.At (.task t) i.script := ⟨i, ht, rfl⟩
    have hfresh : i.script ∉ s.idle := fun hmem => by
      cases hs.unique (p := .idle) hmem hhere
    rw [hput]
    refine hs.moves .idle hhere (List.nodup_cons.2 ⟨hfresh, hs.distinct⟩)
      (fun q id hq => ?_) (Nat.le_refl _)
    cases q with
    | idle =>
      rcases List.mem_cons.1 hq with rfl | hq
      · exact .inl ⟨rfl, rfl⟩
      · exact .inr ⟨hq, nofun⟩
    | gone => exact .inr ⟨hq, nofun⟩
    | task t' =>
      rcases at_task_goOn hq with ⟨-, j, hj, -⟩ | ⟨hne, hq⟩
      · cases hj
      · exact .inr ⟨hq, fun heq => absurd (Place.task.inj heq) hne⟩

theorem Step.exclusive (hstep : Step s s') (hs : s.Exclusive) : s'.Exclusive := by
  cases hstep with
  | next hnext => exact hs.goOn (next_instance? hnext)
  | work hworks => exact hs.alters hworks.alters
  | takeOld ht htake hold =>
    obtain ⟨hitems, -⟩ := Pool.of_take? htake
    refine hs.withHost ?_ (Nat.le_refl _)
    unfold idle
    rw [hitems]
    exact List.sublist_cons_self _ _
  | take ht htake hcurrent => exact hs.take htake
  | bear b ht hbefore => exact hs.bear hbefore
  | noBirth ht hfails =>
    exact (hs.alters ((working_setUp _ _ _).error hfails).alters).goOn (.inl rfl)
  | giveUp ht => exact hs.giveUp (by rw [ht]; rfl)
  | put ht => exact hs.put (by rw [ht]; rfl)
  | change ht => exact (hs.alters (Change.alters _ s.host)).goOn (.inl rfl)
  | outdate ht =>
    have hout : (s.withHost (s.host.onEngine (·.outdate))).Exclusive :=
      hs.withHost (List.Sublist.refl _) (Nat.le_refl _)
    exact hout.goOn (.inl rfl)
  | clear ht =>
    have hcleared : (s.withHost (s.host.onEngine (·.dropIdle))).Exclusive :=
      hs.withHost (List.nil_sublist s.idle) (Nat.le_refl _)
    exact hcleared.goOn (.inl rfl)

end Shared

end Engine

end LuaMachine
