import LuaMachine.Proofs.Engine.Exclusion

/-!
# Generations of instances

The generation counts what outdated instances: it goes up when all changes are made. So an instance
whose making began in a generation has all settings that were changed before. It may have some that
were changed since, as long as what changed them did not count up the generation; and nobody leases it
after that (`Shared.Fresh`). Three orders carry this: settings are changed before the generation goes
up, the generation is read before settings are, and what is taken out of the pool is compared with a
generation that was read before. An outdated instance may well be idle: it was compared in time and
put back too late.

Main statement: `Shared.Reachable.pool_sound`.
-/

namespace LuaMachine

/-- The host objects, the sink and the store of shared variables are the same. -/
structure Host.SameSettings (h h' : Host) : Prop where
  sink : h'.engine.sink = h.engine.sink
  objects : h'.engine.objects = h.engine.objects
  stores : ∀ {id : ObjectId}, h.world.heap.object? id = some .store →
    h'.world.heap.object? id = some .store

namespace Host

variable {h h' : Host}

theorem SameSettings.refl (h : Host) : h.SameSettings h := ⟨rfl, rfl, fun h => h⟩

theorem Works.sameSettings (hworks : h.Works h') : h.SameSettings h' :=
  ⟨hworks.terms.sink, hworks.terms.objects, hworks.world.stores⟩

end Host

namespace Engine

open Hosting

/-! ## What instances are made from -/

/-- Nobody is about to outdate instances, having changed something already. -/
def Shared.Quiet (s : Shared) : Prop := ∀ t cs, s.phase t ≠ .changing cs

/-- The host objects, the sink and the store that an instance was made with are those of the host. -/
structure Birth.InForce (b : Birth) (h : Host) : Prop where
  sink : b.sinkAt.engine.sink = h.engine.sink
  objects : b.objectsAt.engine.objects = h.engine.objects
  store : h.world.heap.object? b.after.world.heap.standing = some .store

/-- What an instance is made from was read in its generation or later, and is in force as long as no
instance of the generation is outdated or about to be. -/
structure Birth.Fresh (s : Shared) (b : Birth) : Prop where
  config : b.before.engine.config = s.host.engine.config
  sinkAt : b.generation ≤ b.sinkAt.engine.generation
  objectsAt : b.sinkAt.engine.generation ≤ b.objectsAt.engine.generation
  before : b.objectsAt.engine.generation ≤ b.before.engine.generation
  now : b.before.engine.generation ≤ s.host.engine.generation
  inForce : s.host.engine.generation = b.generation → s.Quiet → b.InForce s.host

/-- The same of what a task has read so far for an instance that it makes. -/
def Phase.Fresh (s : Shared) : Phase → Prop
  | .asking g | .making g => g ≤ s.host.engine.generation
  | .sinkRead g sinkAt =>
    (g ≤ sinkAt.engine.generation ∧ sinkAt.engine.generation ≤ s.host.engine.generation) ∧
      (s.host.engine.generation = g → s.Quiet → sinkAt.engine.sink = s.host.engine.sink)
  | .objectsRead g sinkAt objectsAt =>
    (g ≤ sinkAt.engine.generation ∧ sinkAt.engine.generation ≤ objectsAt.engine.generation ∧
      objectsAt.engine.generation ≤ s.host.engine.generation) ∧
      (s.host.engine.generation = g → s.Quiet → sinkAt.engine.sink = s.host.engine.sink ∧
        objectsAt.engine.objects = s.host.engine.objects)
  | .defining g i | .holding g i => i.generation = g
  | _ => True

namespace Shared

/-- An instance is idle, or a task has it. -/
def Has (s : Shared) (i : Instance) : Prop :=
  i ∈ s.host.engine.pool.items ∨ ∃ t, (s.phase t).instance? = some i

/-- Instances, and what tasks have read to make some, are as up to date as their generations. -/
structure Fresh (s : Shared) : Prop where
  phases : ∀ t, (s.phase t).Fresh s
  births : ∀ b ∈ s.births, b.Fresh s
  born : ∀ {i}, s.Has i → ∃ b ∈ s.births, b.product = i

/-- The generation does not go down. While it stays, and nobody is about to outdate instances, what
they are made from stays as well. -/
structure Settles (s s' : Shared) : Prop where
  config : s'.host.engine.config = s.host.engine.config
  generation : s.host.engine.generation ≤ s'.host.engine.generation
  settled : s'.host.engine.generation = s.host.engine.generation → s'.Quiet →
    s.Quiet ∧ s.host.SameSettings s'.host

end Shared

variable {s s' : Shared} {t : Nat} {p : Phase} {h : Host} {i : Instance} {b : Birth}
  {config : EngineConfig}

theorem Phase.Fresh.settles (hp : p.Fresh s) (h : s.Settles s') : p.Fresh s' := by
  have hle := h.generation
  have hback : ∀ {g}, g ≤ s.host.engine.generation → s'.host.engine.generation = g →
      s.host.engine.generation = g ∧ s'.host.engine.generation = s.host.engine.generation := by
    intro g hg heq
    omega
  cases p with
  | asking g => exact Nat.le_trans hp hle
  | making g => exact Nat.le_trans hp hle
  | sinkRead g sinkAt =>
    obtain ⟨⟨hg, hnow⟩, hsame⟩ := hp
    refine ⟨⟨hg, Nat.le_trans hnow hle⟩, fun heq hquiet => ?_⟩
    obtain ⟨heq', hstays⟩ := hback (Nat.le_trans hg hnow) heq
    obtain ⟨hquiet', hsettings⟩ := h.settled hstays hquiet
    exact (hsame heq' hquiet').trans hsettings.sink.symm
  | objectsRead g sinkAt objectsAt =>
    obtain ⟨⟨hg, hread, hnow⟩, hsame⟩ := hp
    refine ⟨⟨hg, hread, Nat.le_trans hnow hle⟩, fun heq hquiet => ?_⟩
    obtain ⟨heq', hstays⟩ := hback (Nat.le_trans hg (Nat.le_trans hread hnow)) heq
    obtain ⟨hquiet', hsettings⟩ := h.settled hstays hquiet
    obtain ⟨hsink, hobjects⟩ := hsame heq' hquiet'
    exact ⟨hsink.trans hsettings.sink.symm, hobjects.trans hsettings.objects.symm⟩
  | defining g i => exact hp
  | holding g i => exact hp
  | _ => trivial

theorem Birth.Fresh.settles (hb : b.Fresh s) (h : s.Settles s') : b.Fresh s' where
  config := hb.config.trans h.config.symm
  sinkAt := hb.sinkAt
  objectsAt := hb.objectsAt
  before := hb.before
  now := Nat.le_trans hb.now h.generation
  inForce heq hquiet := by
    have hle := h.generation
    have h₁ := hb.sinkAt
    have h₂ := hb.objectsAt
    have h₃ := hb.before
    have h₄ := hb.now
    obtain ⟨hquiet', hsettings⟩ := h.settled (by omega) hquiet
    obtain ⟨hsink, hobjects, hstore⟩ := hb.inForce (by omega) hquiet'
    exact ⟨hsink.trans hsettings.sink.symm, hobjects.trans hsettings.objects.symm,
      hsettings.stores hstore⟩

theorem Phase.Fresh.next {q : Phase} (hp : p.Fresh s) (hnext : p.Next s.host q) : q.Fresh s := by
  cases hnext with
  | ask => exact Nat.le_refl _
  | make hnone => exact hp
  | readSink => exact ⟨⟨hp, Nat.le_refl _⟩, fun _ _ => rfl⟩
  | readObjects =>
    obtain ⟨⟨hg, hnow⟩, hsame⟩ := hp
    exact ⟨⟨hg, hnow, Nat.le_refl _⟩, fun heq hquiet => ⟨hsame heq hquiet, rfl⟩⟩
  | handOut => exact hp
  | fail => trivial
  | breakDown => trivial
  | findBusy hbusy => trivial
  | giveBack hidle => trivial
  | drop hold => trivial
  | keep hcurrent => trivial
  | invalidate op => trivial

namespace Shared

/-! ## One step -/

theorem quiet_of_goOn {q : Phase} (ht : s.phase t = p) (hp : ∀ cs, p ≠ .changing cs)
    (hphase : s'.phase = Function.update s.phase t q) (hquiet : s'.Quiet) : s.Quiet := by
  intro t' cs heq
  by_cases htt : t' = t
  · exact hp cs (ht ▸ htt ▸ heq)
  · refine hquiet t' cs ?_
    rw [hphase, Function.update_of_ne htt, heq]

/-- The settings stay, and so does what tasks are about to do. -/
theorem Settles.of_same (hconfig : s'.host.engine.config = s.host.engine.config)
    (hgeneration : s'.host.engine.generation = s.host.engine.generation)
    (hsame : s.host.SameSettings s'.host) (hquiet : s'.Quiet → s.Quiet) : s.Settles s' :=
  ⟨hconfig, Nat.le_of_eq hgeneration.symm, fun _ hq => ⟨hquiet hq, hsame⟩⟩

theorem Settles.of_works (hworks : s.host.Works s'.host) (hquiet : s'.Quiet → s.Quiet) :
    s.Settles s' :=
  .of_same hworks.terms.config hworks.terms.generation hworks.sameSettings hquiet

theorem Step.settles (hstep : Step s s') : s.Settles s' := by
  cases hstep with
  | @next t q hnext =>
    refine .of_works (.refl _) (quiet_of_goOn rfl (fun cs heq => ?_) rfl)
    rw [heq] at hnext
    cases hnext
  | work hworks => exact .of_works hworks id
  | takeOld ht htake hold => exact .of_same rfl rfl ⟨rfl, rfl, id⟩ id
  | take ht htake hcurrent => exact .of_same rfl rfl ⟨rfl, rfl, id⟩ (quiet_of_goOn ht nofun rfl)
  | bear b ht hbefore =>
    exact .of_works (hbefore ▸ (working_setUp _ _ _).ok b.made) (quiet_of_goOn ht nofun rfl)
  | noBirth ht hfails =>
    exact .of_works ((working_setUp _ _ _).error hfails) (quiet_of_goOn ht nofun rfl)
  | giveUp ht => exact .of_works (.refl _) (quiet_of_goOn ht nofun rfl)
  | put ht => exact .of_same rfl rfl ⟨rfl, rfl, id⟩ (quiet_of_goOn ht nofun rfl)
  | @change t c rest ht =>
    -- the task is about to outdate instances until the generation goes up
    have halters := c.alters s.host
    refine ⟨halters.config, Nat.le_of_eq halters.generation.symm, fun _ hquiet => ?_⟩
    exact absurd (Function.update_self t _ s.phase) (hquiet t rest)
  | outdate ht =>
    refine ⟨rfl, Nat.le_succ _, fun hsame => ?_⟩
    exact absurd hsame (Nat.succ_ne_self _)
  | clear ht => exact .of_same rfl rfl ⟨rfl, rfl, id⟩ (quiet_of_goOn ht nofun rfl)

/-- Where nothing is made, instances stay as up to date as they are. -/
theorem Fresh.goOn (hs : s.Fresh) (hsettles : s.Settles s')
    (hphase : s'.phase = Function.update s.phase t p) (hp : p.Fresh s)
    (hbirths : s'.births = s.births) (hitems : ∀ i ∈ s'.host.engine.pool.items, s.Has i)
    (hinstance : ∀ i, p.instance? = some i → s.Has i) : s'.Fresh where
  phases t' := by
    rw [hphase, Function.update_apply]
    split
    · exact hp.settles hsettles
    · exact (hs.phases t').settles hsettles
  births b hb := (hs.births b (hbirths ▸ hb)).settles hsettles
  born {i} hi := by
    rw [hbirths]
    refine hs.born ?_
    rcases hi with hi | ⟨t', hi⟩
    · exact hitems i hi
    · rw [hphase, Function.update_apply] at hi
      split at hi
      · exact hinstance i hi
      · exact .inr ⟨t', hi⟩

/-- A new instance is made from what is in force, unless instances are outdated since or about to
be. -/
theorem Fresh.bear (hs : s.Fresh)
    (hsettles : s.Settles (((s.withHost b.after).bear b).goOn t (.defining b.generation b.product)))
    (ht : s.phase t = .objectsRead b.generation b.sinkAt b.objectsAt) (hbefore : b.before = s.host) :
    (((s.withHost b.after).bear b).goOn t (.defining b.generation b.product)).Fresh := by
  obtain ⟨hequipped, hengine, -, -⟩ := setUp_ok b.made
  rw [hbefore] at hengine
  have hread := hs.phases t
  rw [ht] at hread
  obtain ⟨⟨hsink, hobjects, hnow⟩, hsame⟩ := hread
  constructor
  · intro t'
    rw [phase_goOn]
    split
    · exact rfl
    · exact (hs.phases t').settles hsettles
  · intro b' hb'
    rcases List.mem_cons.1 hb' with rfl | hb'
    · refine ⟨?_, hsink, hobjects, ?_, ?_, fun heq hquiet => ?_⟩
      · rw [hbefore]
        exact hsettles.config.symm
      · rw [hbefore]
        exact hnow
      · rw [hbefore]
        exact hsettles.generation
      · have hgeneration : b'.after.engine.generation = s.host.engine.generation := by rw [hengine]
        obtain ⟨hquiet', hsettings⟩ := hsettles.settled hgeneration hquiet
        obtain ⟨hsink', hobjects'⟩ := hsame (hgeneration.symm.trans heq) hquiet'
        exact ⟨hsink'.trans hsettings.sink.symm, hobjects'.trans hsettings.objects.symm,
          hequipped.store⟩
    · exact (hs.births b' hb').settles hsettles
  · intro i hi
    have hhas : i = b.product ∨ s.Has i := by
      rcases hi with hi | ⟨t', hi⟩
      · refine .inr (.inl ?_)
        change i ∈ b.after.engine.pool.items at hi
        rwa [hengine] at hi
      · rw [phase_goOn] at hi
        split at hi
        · cases hi
          exact .inl rfl
        · exact .inr (.inr ⟨t', hi⟩)
    rcases hhas with rfl | hhas
    · exact ⟨b, List.mem_cons_self, rfl⟩
    · obtain ⟨b', hb', hproduct⟩ := hs.born hhas
      exact ⟨b', List.mem_cons_of_mem b hb', hproduct⟩

theorem Step.fresh (hstep : Step s s') (hs : s.Fresh) : s'.Fresh := by
  have hsettles := hstep.settles
  have hidle : ∀ i ∈ s.host.engine.pool.items, s.Has i := fun i => .inl
  cases hstep with
  | @next t q hnext =>
    refine hs.goOn hsettles rfl ((hs.phases t).next hnext) rfl hidle fun i hi => ?_
    rcases next_instance? hnext with hnone | hsame
    · rw [hnone] at hi
      cases hi
    · exact .inr ⟨t, hsame ▸ hi⟩
  | work hworks =>
    have hpool := hworks.terms.pool
    exact hs.goOn hsettles (Function.update_eq_self 0 s.phase).symm (hs.phases 0) rfl
      (fun i hi => .inl (hpool ▸ hi)) fun i hi => .inr ⟨0, hi⟩
  | @takeOld t g i q ht htake hold =>
    obtain ⟨hitems, -⟩ := Pool.of_take? htake
    refine hs.goOn hsettles (Function.update_eq_self t s.phase).symm (hs.phases t) rfl
      (fun j hj => .inl ?_) fun j hj => .inr ⟨t, hj⟩
    rw [hitems]
    exact List.mem_cons_of_mem i hj
  | @take t g i q ht htake hcurrent =>
    obtain ⟨hitems, -⟩ := Pool.of_take? htake
    refine hs.goOn hsettles rfl hcurrent rfl (fun j hj => .inl ?_) fun j hj => .inl ?_
    · rw [hitems]
      exact List.mem_cons_of_mem i hj
    · cases hj
      rw [hitems]
      exact List.mem_cons_self
  | bear b ht hbefore => exact hs.bear hsettles ht hbefore
  | noBirth ht hfails =>
    have hpool := ((working_setUp _ _ _).error hfails).terms.pool
    exact hs.goOn hsettles rfl trivial rfl (fun i hi => .inl (hpool ▸ hi)) nofun
  | giveUp ht => exact hs.goOn hsettles rfl trivial rfl hidle nofun
  | @put t i ht =>
    refine hs.goOn hsettles rfl trivial rfl (fun j hj => ?_) nofun
    change j ∈ ((s.host.engine.pool.put? i).getD s.host.engine.pool).items at hj
    rcases s.host.engine.pool.getD_put? i with hfull | ⟨-, hput⟩
    · exact hidle j (hfull ▸ hj)
    · rw [hput] at hj
      rcases List.mem_cons.1 hj with rfl | hj
      · exact .inr ⟨t, by rw [ht]; rfl⟩
      · exact hidle j hj
  | @change t c rest ht =>
    have hpool := (c.alters s.host).pool
    exact hs.goOn hsettles rfl trivial rfl (fun i hi => .inl (hpool ▸ hi)) nofun
  | outdate ht => exact hs.goOn hsettles rfl trivial rfl hidle nofun
  | clear ht => exact hs.goOn hsettles rfl trivial rfl nofun nofun

/-- What is gone stays gone. -/
theorem Step.gone (hstep : Step s s') : s.gone ⊆ s'.gone := by
  cases hstep with
  | giveUp ht => exact List.subset_cons_self _ _
  | _ => exact List.Subset.refl _

/-- A step of a task in another phase changes nothing for this task. -/
theorem phase_of_other {t' : Nat} {q r : Phase} (ht : s.phase t = p) (ht' : s.phase t' = q)
    (hne : q ≠ p) : Function.update s.phase t' r t = p := by
  rw [Function.update_of_ne, ht]
  rintro rfl
  exact hne (ht'.symm.trans ht)

/-- A lease that is over is left only as the task goes on. -/
theorem Step.of_holding {g : Nat} (hstep : Step s s') (ht : s.phase t = .holding g i) :
    s'.phase t = .holding g i ∨ (Phase.holding g i).Next s.host (s'.phase t) := by
  cases hstep with
  | @next t' q hnext =>
    by_cases htt : t = t'
    · subst htt
      refine .inr ?_
      rw [phase_goOn, if_pos rfl, ← ht]
      exact hnext
    · refine .inl ?_
      rw [phase_goOn, if_neg htt, ht]
  | work => exact .inl ht
  | takeOld => exact .inl ht
  | take ht' => exact .inl (phase_of_other ht ht' nofun)
  | bear b ht' => exact .inl (phase_of_other ht ht' nofun)
  | noBirth ht' | giveUp ht' | put ht' | change ht' | outdate ht' | clear ht' =>
    exact .inl (phase_of_other ht ht' nofun)

/-- What broke down is given up. -/
theorem Step.of_broken (hstep : Step s s') (ht : s.phase t = .broken i) :
    s'.phase t = .broken i ∨ s'.phase t = .idle ∧ i.script ∈ s'.gone := by
  cases hstep with
  | @next t' q hnext =>
    refine .inl (phase_of_other ht rfl fun heq => ?_)
    rw [heq] at hnext
    cases hnext
  | work => exact .inl ht
  | takeOld => exact .inl ht
  | take ht' => exact .inl (phase_of_other ht ht' nofun)
  | bear b ht' => exact .inl (phase_of_other ht ht' nofun)
  | @giveUp t' j ht' =>
    by_cases htt : t = t'
    · subst htt
      cases ht.symm.trans ht'
      refine .inr ⟨?_, List.mem_cons_self⟩
      rw [phase_goOn, if_pos rfl]
    · refine .inl ?_
      rw [phase_goOn, if_neg htt]
      exact ht
  | noBirth ht' | put ht' | change ht' | outdate ht' | clear ht' =>
    exact .inl (phase_of_other ht ht' nofun)

/-! ## Every order of steps -/

theorem limited_new (config : EngineConfig) : (new config).Limited config := ⟨rfl, Nat.zero_le _⟩

theorem exclusive_new (config : EngineConfig) : (new config).Exclusive := by
  have hnone : ∀ p id, ¬(new config).At p id := by
    intro p id hp
    cases p with
    | idle => cases hp
    | task t =>
      obtain ⟨i, hi, -⟩ := hp
      cases hi
    | gone => cases hp
  exact ⟨List.nodup_nil, fun hp => absurd hp (hnone _ _), fun hp => absurd hp (hnone _ _)⟩

theorem fresh_new (config : EngineConfig) : (new config).Fresh := by
  refine ⟨fun _ => trivial, fun b hb => absurd hb List.not_mem_nil, fun {i} hi => ?_⟩
  rcases hi with hi | ⟨t, hi⟩
  · cases hi
  · cases hi

theorem Reachable.limited (hs : s.Reachable config) : s.Limited config := by
  induction hs with
  | refl => exact limited_new config
  | tail _ hstep ih => exact hstep.limited ih

theorem Reachable.exclusive (hs : s.Reachable config) : s.Exclusive := by
  induction hs with
  | refl => exact exclusive_new config
  | tail _ hstep ih => exact hstep.exclusive ih

theorem Reachable.fresh (hs : s.Reachable config) : s.Fresh := by
  induction hs with
  | refl => exact fresh_new config
  | tail _ hstep ih => exact hstep.fresh ih

theorem Reachable.config_eq (hs : s.Reachable config) : s.host.engine.config = config := by
  induction hs with
  | refl => rfl
  | tail _ hstep ih => exact hstep.settles.config.trans ih

/-- What an engine promises of its instances while tasks use it. -/
structure PoolSound (config : EngineConfig) (s : Shared) : Prop where
  /-- there are not more idle instances than there should be -/
  limited : s.host.engine.pool.size ≤ config.maxIdle
  /-- no instance is idle twice -/
  distinct : s.idle.Nodup
  /-- no instance is idle and leased at once, or leased twice -/
  single : ∀ {t i}, (s.phase t).instance? = some i → i.script ∉ s.idle ∧
    ∀ {t' j}, (s.phase t').instance? = some j → j.script = i.script → t' = t
  /-- no instance that is gone is idle or leased, and it stays gone -/
  gone : ∀ {id}, id ∈ s.gone → id ∉ s.idle ∧
    (∀ {t i}, (s.phase t).instance? = some i → i.script ≠ id) ∧
    ∀ {s'}, Steps s s' → id ∈ s'.gone
  /-- an instance that is in the middle of a call is not given back -/
  busy : ∀ {t g i s'}, s.phase t = .holding g i →
    onScript i.script Script.isIdle s.host = .ok false s.host → Step s s' →
      s'.phase t = .holding g i ∨ s'.phase t = .broken i
  /-- nor is one that broke down: it is gone when the task is done with it -/
  broken : ∀ {t i s'}, s.phase t = .broken i → Step s s' →
    s'.phase t = .broken i ∨ s'.phase t = .idle ∧ i.script ∈ s'.gone
  /-- what a lease hands out is of the generation that the lease read when it began -/
  asked : ∀ {t g i}, s.phase t = .holding g i → i.generation = g
  /-- what an instance was made from was read in its generation or later, and if that is still the
  generation and nobody is about to outdate instances, it is in force; this and nothing else is bound
  in the instance from the start -/
  made : ∀ {i}, s.Has i → ∃ b ∈ s.births, b.product = i ∧ b.Fresh s ∧
    Equipped config b.sinkAt.engine.sink b.objectsAt.engine.objects b.before.world b.after.world
      b.script

/-- An engine keeps what it promises, whatever order the steps of tasks come in: no instance is in
two hands, none comes back that broke down or was left in the middle of a call, and all that a lease
hands out was made after everything that had outdated instances before the lease began. -/
theorem Reachable.pool_sound (hs : s.Reachable config) : s.PoolSound config := by
  have hexclusive := hs.exclusive
  have hfresh := hs.fresh
  refine ⟨hs.limited.size, hexclusive.distinct, ?_, ?_, ?_, fun ht hstep => hstep.of_broken ht, ?_, ?_⟩
  · intro t i hi
    have hhere : s.At (.task t) i.script := ⟨i, hi, rfl⟩
    refine ⟨fun hidle => ?_, fun {t' j} hj hsame => ?_⟩
    · cases hexclusive.unique (p := .idle) hidle hhere
    · cases hexclusive.unique (p := .task t') ⟨j, hj, hsame⟩ hhere
      rfl
  · intro id hid
    refine ⟨fun hidle => ?_, fun {t i} hi hsame => ?_, fun {s'} hsteps => ?_⟩
    · cases hexclusive.unique (p := .idle) hidle (q := .gone) hid
    · cases hexclusive.unique (p := .task t) ⟨i, hi, hsame⟩ (q := .gone) hid
    · induction hsteps with
      | refl => exact hid
      | tail _ hstep ih => exact hstep.gone ih
  · intro t g i s' ht hbusy hstep
    rcases hstep.of_holding ht with hstays | hnext
    · exact .inl hstays
    · generalize hq : s'.phase t = q at hnext
      cases hnext with
      | breakDown => exact .inr rfl
      | findBusy => exact .inr rfl
      | giveBack hidle => cases hbusy.symm.trans hidle
  · intro t g i ht
    have hphase := hfresh.phases t
    rw [ht] at hphase
    exact hphase
  · intro i hi
    obtain ⟨b, hb, hproduct⟩ := hfresh.born hi
    obtain ⟨hequipped, -, -, -⟩ := setUp_ok b.made
    have hbirth := hfresh.births b hb
    rw [hbirth.config.trans hs.config_eq] at hequipped
    exact ⟨b, hb, hproduct, hbirth, hequipped⟩

/-- Two leases overlap, and between them the second task outdates all instances. -/
theorem Reachable.pool_sound_leased : ∃ s : Shared, ∃ i j, s.Reachable {} ∧ s.phase 0 = .holding 0 i ∧
    s.phase 1 = .holding 1 j ∧ i.script ≠ j.script ∧ s.PoolSound {} := by
  let op : Invalidation := .setPrintSink 1
  have hfirst : lease.succeeds (Host.create {}) = true := by decide +kernel
  have hsecond : lease.succeeds (op.perform.after (lease.after (Host.create {}))) = true := by
    decide +kernel
  have hgeneration : (op.perform.after (lease.after (Host.create {}))).engine.generation = 1 := by
    decide +kernel
  obtain ⟨⟨i, _⟩, hlease⟩ := exists_ok_of_succeeds hfirst
  obtain ⟨⟨j, _⟩, hlease'⟩ := exists_ok_of_succeeds hsecond
  obtain ⟨s₁, hs₁, hhost₁, hphase₁⟩ := (leads_lease (s := new {}) (t := 0) rfl).1 hlease
  have hidle₁ : s₁.phase 1 = .idle := by rw [hphase₁]; rfl
  obtain ⟨s₂, hs₂, hhost₂, hphase₂⟩ := interleaves_perform op s₁ 1 hidle₁
  rw [hhost₁] at hhost₂
  rw [← hhost₂] at hlease' hgeneration
  have hidle₂ : s₂.phase 1 = .idle := by rw [hphase₂]; rfl
  obtain ⟨s, hs, -, hphase⟩ := (leads_lease hidle₂).1 hlease'
  have hreached : s.Reachable {} := (hs₁.trans hs₂).trans hs
  have hi : s.phase 0 = .holding 0 i := by rw [hphase, hphase₂, hphase₁]; rfl
  have hj : s.phase 1 = .holding 1 j := by rw [hphase, hgeneration]; rfl
  have hsound : s.PoolSound {} := Reachable.pool_sound hreached
  refine ⟨s, i, j, hreached, hi, hj, fun hsame => ?_, hsound⟩
  have hheld : (s.phase 0).instance? = some i := by rw [hi]; rfl
  have hheld' : (s.phase 1).instance? = some j := by rw [hj]; rfl
  cases (hsound.single hheld).2 hheld' hsame.symm

end Shared

end Engine

end LuaMachine
