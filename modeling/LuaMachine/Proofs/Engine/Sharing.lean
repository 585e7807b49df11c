import LuaMachine.Proofs.Engine.Equipment
import LuaMachine.Proofs.Engine.Lookup
import Mathlib.Logic.Function.Basic
import Mathlib.Logic.Relation

/-!
# An engine that tasks share

Tasks use an engine at the same time: they lease instances and give them back, and change what new
instances are made from. None of this is done at one stroke. A lease reads the generation, takes idle
instances out one by one, and reads the sink and the host objects before it makes an instance; an
instance that is given back is compared with the generation first and put into the pool later; what
outdates instances changes a setting first, counts the generation up then, and drops idle instances
last. `Engine.Shared.Step` is one such part of what one task does, so the parts of what tasks do may
come in any order.

What a task does when no other is in between is made of these steps: this is so for executions
(`Engine.Shared.interleaves_execute`, `Engine.Shared.interleaves_executeFunction`), for loads
(`Engine.Shared.interleaves_loadFunction`), and for what outdates instances
(`Engine.Shared.interleaves_perform`).
-/

namespace LuaMachine

theorem HostType.register_ok (t : HostType) (w : World) : ∃ b w', register t w = .ok b w' := by
  unfold register
  rw [Exec.bind_ok (Exec.get_eq _)]
  split
  · exact ⟨_, _, rfl⟩
  · exact ⟨_, _, rfl⟩

namespace Engine

open Hosting

/-! ## What outdates instances -/

/-- A change of what instances are made from. -/
inductive Change where
  | bind (name : String) (object : HostObject)
  | forgetObjects
  | forgetTypes
  | knowStore
  | replaceStore
  | switchSink (sink : Nat)

def Change.perform : Change → Hosting Unit
  | bind name object => bindObject name object
  | forgetObjects => Engine.forgetObjects
  | forgetTypes => Engine.forgetTypes
  | knowStore => Engine.knowStore
  | replaceStore => Engine.replaceStore
  | switchSink sink => Engine.switchSink sink

/-- What outdates all instances. -/
inductive Invalidation where
  | register (name : String) (object : HostObject)
  | clearTypes
  | reset
  | setPrintSink (sink : Nat)

namespace Invalidation

def perform : Invalidation → Hosting Unit
  | register name object => Engine.register name object
  | clearTypes => Engine.clearTypes
  | reset => Engine.reset
  | setPrintSink sink => Engine.setPrintSink sink

/-- What is changed before instances are outdated. -/
def changes : Invalidation → List Change
  | register name object => [.bind name object]
  | clearTypes => [.forgetObjects, .forgetTypes, .knowStore]
  | reset => [.replaceStore]
  | setPrintSink sink => [.switchSink sink]

/-- The changes are made one after the other, and then instances are outdated. -/
theorem after_perform (op : Invalidation) (h : Host) : op.perform.after h =
    (op.changes.foldl (fun h c => c.perform.after h) h).onEngine (·.invalidate) := by
  cases op with
  | register name object =>
    change (Engine.register name object).after h = ((bindObject name object).after h).onEngine _
    unfold Engine.register
    rcases observe_eq (bindObject name object) h with ⟨a, -, hobserve⟩ | ⟨s, -, hobserve⟩
    · rw [after_bind_ok hobserve]
      rfl
    · rw [after_bind_ok hobserve]
      rfl
  | clearTypes =>
    let h' := Engine.forgetTypes.after (Engine.forgetObjects.after h)
    obtain ⟨b, w, hregister⟩ := HostType.register_ok .store h'.world
    have hdone : inWorld (HostType.register .store) h' = .ok b { h' with world := w } := by
      unfold inWorld
      rw [hregister]
    have hknow : Engine.knowStore h' = .ok () { h' with world := w } := bind_of_ok hdone
    change (Engine.knowStore >>= fun _ => modifyEngine (·.invalidate)).after h' =
      (Engine.knowStore.after h').onEngine _
    rw [after_bind_ok hknow, after_ok hknow]
    rfl
  | reset => rfl
  | setPrintSink sink => rfl

end Invalidation

/-! ## Tasks -/

/-- How the script of an instance was set up: the generation that it was made for, and the states of
the host when its parts were read. -/
structure Birth where
  generation : Nat
  sinkAt : Host
  objectsAt : Host
  before : Host
  script : ScriptId
  after : Host
  made : setUp before.engine.config sinkAt.engine.sink objectsAt.engine.objects before =
    .ok script after

/-- The instance that was made. -/
def Birth.product (b : Birth) : Instance := { script := b.script, generation := b.generation }

/-- How far a task is with what it does to the pool. -/
inductive Phase where
  /-- it does not use the pool -/
  | idle
  /-- a lease has read the generation -/
  | asking (generation : Nat)
  /-- a lease found no idle instance and makes one -/
  | making (generation : Nat)
  | sinkRead (generation : Nat) (sinkAt : Host)
  | objectsRead (generation : Nat) (sinkAt objectsAt : Host)
  /-- the functions are being defined in a new instance -/
  | defining (generation : Nat) (i : Instance)
  /-- the lease is over: it read that generation, and the instance was handed out -/
  | holding (generation : Nat) (i : Instance)
  /-- the instance broke down, or is in the middle of a call when it is given back -/
  | broken (i : Instance)
  /-- an instance that is given back is not in the middle of a call -/
  | returning (i : Instance)
  /-- an instance that is given back is not outdated -/
  | putting (i : Instance)
  /-- these changes are still to be made before instances are outdated -/
  | changing (rest : List Change)
  /-- the generation was counted up -/
  | clearing

/-- The instance that a task has. -/
def Phase.instance? : Phase → Option Instance
  | defining _ i => some i
  | holding _ i => some i
  | broken i => some i
  | returning i => some i
  | putting i => some i
  | _ => none

/-- What a task goes on to without a change of the host. -/
inductive Phase.Next (h : Host) : Phase → Phase → Prop
  | ask : Next h .idle (.asking h.engine.generation)
  | make {g : Nat} (hnone : h.engine.pool.take? = none) : Next h (.asking g) (.making g)
  | readSink {g : Nat} : Next h (.making g) (.sinkRead g h)
  | readObjects {g : Nat} {sinkAt : Host} : Next h (.sinkRead g sinkAt) (.objectsRead g sinkAt h)
  | handOut {g : Nat} {i : Instance} : Next h (.defining g i) (.holding g i)
  /-- a function cannot be defined -/
  | fail {g : Nat} {i : Instance} : Next h (.defining g i) (.broken i)
  | breakDown {g : Nat} {i : Instance} : Next h (.holding g i) (.broken i)
  | findBusy {g : Nat} {i : Instance} (hbusy : onScript i.script Script.isIdle h = .ok false h) :
    Next h (.holding g i) (.broken i)
  | giveBack {g : Nat} {i : Instance} (hidle : onScript i.script Script.isIdle h = .ok true h) :
    Next h (.holding g i) (.returning i)
  | drop {i : Instance} (hold : i.generation ≠ h.engine.generation) : Next h (.returning i) .idle
  | keep {i : Instance} (hcurrent : i.generation = h.engine.generation) :
    Next h (.returning i) (.putting i)
  | invalidate (op : Invalidation) : Next h .idle (.changing op.changes)

/-- An engine and the tasks that use it. -/
structure Shared where
  host : Host
  phase : Nat → Phase
  /-- how the scripts of instances were set up -/
  births : List Birth
  /-- the scripts of instances that broke down, or were left in the middle of a call -/
  gone : List ScriptId

/-! ## Making an instance -/

/-- Define the cached functions in a new instance. -/
def complete (e : Engine) (id : ScriptId) : Hosting Instance := do
  e.functions.functions.forM (define id)
  modifyEngine countCreated
  return { script := id, generation := e.generation }

/-- An instance is set up first and completed then. -/
theorem newInstance_eq (h : Host) : newInstance h =
    (setUp h.engine.config h.engine.sink h.engine.objects >>= complete h.engine) h := by
  unfold newInstance
  rw [bind_of_ok (engine_eq _)]
  rfl

theorem working_complete (e : Engine) (id : ScriptId) : Working (complete e id) := by
  have hcount : Working (modifyEngine countCreated) :=
    working_modifyEngine fun _ => ⟨rfl, rfl, rfl, rfl, rfl⟩
  exact (working_forM _ (working_define id)).bind fun _ => hcount.bind fun _ => working_pure _

theorem complete_ok {e : Engine} {id : ScriptId} {i : Instance} {h h' : Host}
    (hok : complete e id h = .ok i h') : i = ⟨id, e.generation⟩ := by
  obtain ⟨_, _, _, hok⟩ := exists_of_bind_ok hok
  obtain ⟨_, _, _, hok⟩ := exists_of_bind_ok hok
  cases hok
  rfl

namespace Shared

/-- A new engine that no task uses. -/
def new (config : EngineConfig) : Shared :=
  { host := .create config, phase := fun _ => .idle, births := [], gone := [] }

def withHost (s : Shared) (h : Host) : Shared := { s with host := h }

def withPool (s : Shared) (p : Pool Instance) : Shared :=
  s.withHost (s.host.onEngine fun e => { e with pool := p })

/-- A task goes on to a phase. -/
def goOn (s : Shared) (t : Nat) (p : Phase) : Shared := { s with phase := Function.update s.phase t p }

def bear (s : Shared) (b : Birth) : Shared := { s with births := b :: s.births }

def giveUp (s : Shared) (i : Instance) : Shared := { s with gone := i.script :: s.gone }

/-- One part of what a task does. -/
inductive Step : Shared → Shared → Prop
  | next {s : Shared} {t : Nat} {p : Phase} (hnext : (s.phase t).Next s.host p) : Step s (s.goOn t p)
  /-- scripts run, functions are loaded and defined, and so on -/
  | work {s : Shared} {h : Host} (hworks : s.host.Works h) : Step s (s.withHost h)
  /-- a lease drops an outdated instance -/
  | takeOld {s : Shared} {t g : Nat} {i : Instance} {p : Pool Instance}
    (ht : s.phase t = .asking g) (htake : s.host.engine.pool.take? = some (i, p))
    (hold : i.generation ≠ g) : Step s (s.withPool p)
  /-- a lease hands out an idle instance -/
  | take {s : Shared} {t g : Nat} {i : Instance} {p : Pool Instance}
    (ht : s.phase t = .asking g) (htake : s.host.engine.pool.take? = some (i, p))
    (hcurrent : i.generation = g) : Step s ((s.withPool p).goOn t (.holding g i))
  /-- the script of a new instance is set up -/
  | bear {s : Shared} {t : Nat} (b : Birth)
    (ht : s.phase t = .objectsRead b.generation b.sinkAt b.objectsAt) (hbefore : b.before = s.host) :
    Step s (((s.withHost b.after).bear b).goOn t (.defining b.generation b.product))
  | noBirth {s : Shared} {t g : Nat} {sinkAt objectsAt : Host} {stop : Stop} {h : Host}
    (ht : s.phase t = .objectsRead g sinkAt objectsAt)
    (hfails : setUp s.host.engine.config sinkAt.engine.sink objectsAt.engine.objects s.host =
      .error stop h) : Step s ((s.withHost h).goOn t .idle)
  | giveUp {s : Shared} {t : Nat} {i : Instance} (ht : s.phase t = .broken i) :
    Step s ((s.giveUp i).goOn t .idle)
  /-- an instance becomes idle, if the pool is not full -/
  | put {s : Shared} {t : Nat} {i : Instance} (ht : s.phase t = .putting i) :
    Step s ((s.withPool ((s.host.engine.pool.put? i).getD s.host.engine.pool)).goOn t .idle)
  | change {s : Shared} {t : Nat} {c : Change} {rest : List Change}
    (ht : s.phase t = .changing (c :: rest)) :
    Step s ((s.withHost (c.perform.after s.host)).goOn t (.changing rest))
  /-- all changes are made, and the generation is counted up -/
  | outdate {s : Shared} {t : Nat} (ht : s.phase t = .changing []) :
    Step s ((s.withHost (s.host.onEngine (·.outdate))).goOn t .clearing)
  | clear {s : Shared} {t : Nat} (ht : s.phase t = .clearing) :
    Step s ((s.withHost (s.host.onEngine (·.dropIdle))).goOn t .idle)

/-- Steps of any tasks, one after the other. -/
abbrev Steps : Shared → Shared → Prop := Relation.ReflTransGen Step

/-- What can become of a new engine. -/
def Reachable (config : EngineConfig) (s : Shared) : Prop := Steps (new config) s

/-! ## One task at a time -/

variable {s : Shared} {t g : Nat} {p q : Phase} {h h' : Host} {i : Instance}

/-- Steps of a task lead to a phase and a state of the host. -/
def Leads (s : Shared) (t : Nat) (p : Phase) (h : Host) : Prop :=
  ∃ s', Steps s s' ∧ s'.host = h ∧ s'.phase = Function.update s.phase t p

namespace Leads

theorem refl (ht : s.phase t = p) : s.Leads t p s.host := by
  refine ⟨s, .refl, rfl, ?_⟩
  rw [← ht, Function.update_eq_self]

/-- The task takes one more step. -/
theorem step (hs : s.Leads t p h) (hstep : ∀ s' : Shared, s'.host = h → s'.phase t = p →
    ∃ s'', Step s' s'' ∧ s''.host = h' ∧ s''.phase = Function.update s'.phase t q) :
    s.Leads t q h' := by
  obtain ⟨s₁, hsteps, hhost, hphase⟩ := hs
  have ht : s₁.phase t = p := by rw [hphase, Function.update_self]
  obtain ⟨s₂, hlast, hhost', hphase'⟩ := hstep s₁ hhost ht
  refine ⟨s₂, hsteps.tail hlast, hhost', ?_⟩
  rw [hphase', hphase, Function.update_idem]

theorem next (hs : s.Leads t p h) (hnext : p.Next h q) : s.Leads t q h := by
  refine hs.step fun s' hhost ht => ⟨_, .next (p := q) ?_, hhost, rfl⟩
  rw [ht, hhost]
  exact hnext

theorem work (hs : s.Leads t p h) (hworks : h.Works h') : s.Leads t p h' := by
  refine hs.step fun s' hhost ht => ⟨s'.withHost h', .work (hhost ▸ hworks), rfl, ?_⟩
  rw [← ht, Function.update_eq_self]
  rfl

theorem giveUp (hs : s.Leads t (.broken i) h) : s.Leads t .idle h :=
  hs.step fun _ hhost ht => ⟨_, .giveUp ht, hhost, rfl⟩

/-- Idle instances are taken out one after the other, until one is not outdated. -/
theorem take {items rest : List Instance} {found : Option Instance} (hs : s.Leads t (.asking g) h)
    (hitems : h.engine.pool.items = items) (hfirst : firstCurrent g items = (found, rest)) :
    s.Leads t (found.elim (.making g) (.holding g)) (h.onEngine (withItems rest)) := by
  induction items generalizing h with
  | nil =>
    cases hfirst
    have hnone : h.engine.pool.take? = none := by
      unfold Pool.take?
      rw [hitems]
    have hsame : h.onEngine (withItems []) = h := by
      unfold Host.onEngine withItems
      rw [← hitems]
    rw [hsame]
    exact hs.next (.make hnone)
  | cons j items ih =>
    have htake : h.engine.pool.take? = some (j, { h.engine.pool with items }) := by
      unfold Pool.take?
      rw [hitems]
    unfold firstCurrent at hfirst
    split at hfirst
    · next hcurrent =>
      cases hfirst
      refine hs.step fun s' hhost ht => ?_
      subst hhost
      exact ⟨_, .take ht htake (beq_iff_eq.1 hcurrent), rfl, rfl⟩
    · next hold =>
      have hdropped : s.Leads t (.asking g) (h.onEngine (withItems items)) := by
        refine hs.step fun s' hhost ht => ?_
        subst hhost
        refine ⟨_, .takeOld ht htake fun heq => hold (beq_iff_eq.2 heq), rfl, ?_⟩
        rw [← ht, Function.update_eq_self]
        rfl
      have hrest := ih hdropped rfl hfirst
      exact hrest

/-- The sink and the host objects are read, and a script is set up. -/
theorem setUp (hs : s.Leads t (.making g) h) :
    (∀ {id h'}, Engine.setUp h.engine.config h.engine.sink h.engine.objects h = .ok id h' →
      s.Leads t (.defining g ⟨id, g⟩) h') ∧
    ∀ {stop h'}, Engine.setUp h.engine.config h.engine.sink h.engine.objects h = .error stop h' →
      s.Leads t .idle h' := by
  have hread := (hs.next .readSink).next .readObjects
  constructor
  · intro id h' hok
    exact hread.step fun _ hhost ht =>
      ⟨_, .bear ⟨g, h, h, h, id, h', hok⟩ ht hhost.symm, rfl, rfl⟩
  · intro stop h' herror
    refine hread.step fun s' hhost ht => ?_
    subst hhost
    exact ⟨_, .noBirth ht herror, rfl, rfl⟩

end Leads

/-- An instance is made, or its functions are not all defined. -/
theorem Leads.newInstance (hs : s.Leads t (.making h.engine.generation) h) :
    (∀ {i h'}, newInstance h = .ok i h' → s.Leads t (.holding h.engine.generation i) h') ∧
      ∀ {stop h'}, newInstance h = .error stop h' → s.Leads t .idle h' := by
  rw [newInstance_eq]
  cases hset : Engine.setUp h.engine.config h.engine.sink h.engine.objects h with
  | error stop h₁ =>
    rw [bind_of_error hset]
    refine ⟨fun hok => (by cases hok), fun herror => ?_⟩
    cases herror
    exact hs.setUp.2 hset
  | ok id h₁ =>
    rw [bind_of_ok hset]
    have hdefined := (hs.setUp.1 hset).work (working_complete h.engine id h₁)
    constructor
    · intro i h' hok
      rw [after_ok hok] at hdefined
      rw [complete_ok hok]
      exact hdefined.next .handOut
    · intro stop h' herror
      rw [after_error herror] at hdefined
      exact (hdefined.next .fail).giveUp

/-- A lease reads the generation first. -/
theorem leads_lease (ht : s.phase t = .idle) :
    (∀ {i isNew h}, lease s.host = .ok (i, isNew) h →
      s.Leads t (.holding s.host.engine.generation i) h) ∧
      ∀ {stop h}, lease s.host = .error stop h → s.Leads t .idle h := by
  have hask := (Leads.refl ht).next .ask
  cases hfirst : firstCurrent s.host.engine.generation s.host.engine.pool.items with
  | mk found rest =>
    have htaken := hask.take rfl hfirst
    have hmodify : modifyEngine (withItems rest) s.host =
      .ok () (s.host.onEngine (withItems rest)) := rfl
    have hgeneration : (s.host.onEngine (withItems rest)).engine.generation =
      s.host.engine.generation := rfl
    unfold lease
    rw [bind_of_ok (engine_eq _), hfirst]
    dsimp only
    change (∀ {i isNew h}, (modifyEngine (withItems rest) >>= _) s.host = .ok (i, isNew) h → _) ∧
      ∀ {stop h}, (modifyEngine (withItems rest) >>= _) s.host = .error stop h → _
    rw [bind_of_ok hmodify]
    generalize s.host.onEngine (withItems rest) = h₁ at htaken hgeneration
    cases found with
    | some i =>
      refine ⟨fun hok => ?_, fun herror => (by cases herror)⟩
      cases hok
      exact htaken
    | none =>
      rw [← hgeneration] at htaken ⊢
      obtain ⟨hok', herror'⟩ := Leads.newInstance htaken
      change (∀ {i isNew h}, (Engine.newInstance >>= fun i => pure (i, true) : Hosting _) h₁ =
          .ok (i, isNew) h → _) ∧
        ∀ {stop h}, (Engine.newInstance >>= fun i => pure (i, true) : Hosting _) h₁ =
          .error stop h → _
      cases hnew : Engine.newInstance h₁ with
      | ok i h₂ =>
        rw [bind_of_ok hnew]
        refine ⟨fun hok => ?_, fun herror => (by cases herror)⟩
        cases hok
        exact hok' hnew
      | error stop h₂ =>
        rw [bind_of_error hnew]
        refine ⟨fun hok => (by cases hok), fun herror => ?_⟩
        cases herror
        exact herror' hnew

/-- Steps of a task lead to a state of the host where an instance is gone. -/
def Loses (s : Shared) (t : Nat) (i : Instance) (h : Host) : Prop :=
  ∃ s', Steps s s' ∧ s'.host = h ∧ s'.phase = Function.update s.phase t .idle ∧ i.script ∈ s'.gone

theorem Loses.leads (hs : s.Loses t i h) : s.Leads t .idle h := by
  obtain ⟨s', hsteps, hhost, hphase, -⟩ := hs
  exact ⟨s', hsteps, hhost, hphase⟩

/-- What is discarded is gone. -/
theorem Leads.discard (hs : s.Leads t p h) (hp : p.Next h (.broken i)) :
    s.Loses t i ((discard i).after h) := by
  obtain ⟨s₁, hsteps, hhost, hphase⟩ := hs.next hp
  have ht : s₁.phase t = .broken i := by rw [hphase, Function.update_self]
  have hgone : Step s₁ ((s₁.giveUp i).goOn t .idle) := .giveUp ht
  have hcounted : ((s₁.giveUp i).goOn t .idle).host.Works ((Engine.discard i).after h) :=
    hhost ▸ working_discard i s₁.host
  refine ⟨_, (hsteps.tail hgone).tail (.work hcounted), rfl, ?_, List.mem_cons_self⟩
  change Function.update s₁.phase t .idle = _
  rw [hphase, Function.update_idem]

/-- What is given back is looked at, compared, and put into the pool. -/
theorem Leads.release (hs : s.Leads t (.holding g i) h) :
    s.Leads t .idle ((release i).after h) := by
  obtain ⟨b, hlook⟩ : ∃ b, onScript i.script Script.isIdle h = .ok b h := ⟨_, rfl⟩
  unfold Engine.release
  rw [after_bind_ok hlook]
  cases b with
  | false => exact (hs.discard (.findBusy hlook)).leads
  | true =>
    have hlooked := hs.next (.giveBack hlook)
    have hcompared : (modifyEngine fun e =>
        if i.generation != e.generation then e
        else { e with pool := (e.pool.put? i).getD e.pool }).after h =
          if i.generation = h.engine.generation then h.onEngine fun e =>
            { e with pool := (e.pool.put? i).getD e.pool } else h := by
      change Host.mk (if _ then _ else _) h.world = _
      by_cases hcurrent : i.generation = h.engine.generation
      · rw [if_pos hcurrent, if_neg (by simp [hcurrent])]
        rfl
      · rw [if_neg hcurrent, if_pos (by simp [hcurrent])]
    rw [if_neg (by simp), hcompared]
    split
    · next hcurrent =>
      refine (hlooked.next (.keep hcurrent)).step fun s' hhost ht => ?_
      subst hhost
      exact ⟨_, .put ht, rfl, rfl⟩
    · next hold => exact hlooked.next (.drop hold)

/-- What comes after a computation is work. -/
theorem Leads.bind {α β : Type} {x : Hosting α} {f : α → Hosting β}
    (hs : s.Leads t p (x.after h)) (hf : ∀ a, Working (f a)) : s.Leads t p ((x >>= f).after h) := by
  cases hresult : x h with
  | ok a h' =>
    rw [after_ok hresult] at hs
    rw [after_bind_ok hresult]
    exact hs.work (hf a h')
  | error stop h' =>
    rw [after_error hresult] at hs
    rwa [after_bind_error hresult]

/-- A computation is made of steps of a task, however it ends. -/
def Interleaves {α : Type} (x : Hosting α) : Prop :=
  ∀ (s : Shared) (t : Nat), s.phase t = .idle → s.Leads t .idle (x.after s.host)

variable {α β : Type} {x : Hosting α} {f : α → Hosting β}

theorem interleaves_of_working (hx : Working x) : Interleaves x :=
  fun s _ ht => (Leads.refl ht).work (hx s.host)

theorem Interleaves.after (hx : Interleaves x) (hs : s.Leads t .idle h) :
    s.Leads t .idle (x.after h) := by
  obtain ⟨s₁, hsteps, hhost, hphase⟩ := hs
  obtain ⟨s₂, hsteps', hhost', hphase'⟩ := hx s₁ t (by rw [hphase, Function.update_self])
  refine ⟨s₂, hsteps.trans hsteps', hhost ▸ hhost', ?_⟩
  rw [hphase', hphase, Function.update_idem]

theorem Interleaves.bind (hx : Interleaves x) (hf : ∀ a, Interleaves (f a)) :
    Interleaves (x >>= f) := by
  intro s t ht
  have hfirst := hx s t ht
  cases hresult : x s.host with
  | ok a h =>
    rw [after_bind_ok hresult]
    rw [after_ok hresult] at hfirst
    exact (hf a).after hfirst
  | error stop h =>
    rw [after_bind_error hresult]
    rwa [after_error hresult] at hfirst

theorem Interleaves.observe (hx : Interleaves x) : Interleaves (observe x) := by
  intro s t ht
  have hleads := hx s t ht
  rcases observe_eq x s.host with ⟨a, -, hok⟩ | ⟨stop, -, hok⟩
  · rwa [after_ok hok]
  · rwa [after_ok hok]

theorem interleaves_withInstance {x : Instance → Bool → Hosting α}
    (hx : ∀ i isNew, Working (x i isNew)) : Interleaves (withInstance x) := by
  intro s t ht
  obtain ⟨hleased, hfailed⟩ := leads_lease ht
  unfold withInstance
  cases hlease : lease s.host with
  | error stop h =>
    rw [after_bind_error hlease]
    exact hfailed hlease
  | ok leased h =>
    obtain ⟨i, isNew⟩ := leased
    rw [after_bind_ok hlease]
    have hworked := (hleased hlease).work (hx i isNew h)
    rcases observe_eq (x i isNew) h with ⟨a, -, hobserve⟩ | ⟨stop, -, hobserve⟩
    · rw [after_bind_ok hobserve]
      exact hworked.release.bind fun _ => working_pure a
    · rw [after_bind_ok hobserve]
      cases stop with
      | panic message => exact (hworked.discard .breakDown).leads.bind fun _ => working_throw _
      | error e => exact hworked.release.bind fun _ => working_throw _
      | exhausted => exact hworked.release.bind fun _ => working_throw _

/-- An instance where host code breaks down is gone. -/
theorem loses_withInstance {x : Instance → Bool → Hosting α} {isNew : Bool} {message : String}
    (hx : ∀ i isNew, Working (x i isNew)) (ht : s.phase t = .idle)
    (hlease : lease s.host = .ok (i, isNew) h) (hpanic : x i isNew h = .error (.panic message) h') :
    s.Loses t i ((withInstance x).after s.host) := by
  have hworked := ((leads_lease ht).1 hlease).work (hx i isNew h)
  rw [after_error hpanic] at hworked
  have hdiscard : ∃ h'', Engine.discard i h' = .ok () h'' := ⟨_, rfl⟩
  obtain ⟨h'', hdiscard⟩ := hdiscard
  have hgone := hworked.discard (i := i) .breakDown
  rw [after_ok hdiscard] at hgone
  unfold withInstance
  rw [after_bind_ok hlease, after_bind_ok (observe_of_error hpanic)]
  change s.Loses t i ((Engine.discard i >>= _).after h')
  rw [after_bind_ok hdiscard]
  exact hgone

/-- What is counted is counted before and after. -/
theorem Interleaves.counted (hx : Interleaves x) : Interleaves (counted x) := by
  have hcount : ∀ g, Interleaves (count g) := fun g => interleaves_of_working (working_count g)
  unfold Engine.counted
  have hdone : ∀ {β : Type} (y : Hosting β), Working y →
      Interleaves (do count (·.finish); y) :=
    fun y hy => (hcount _).bind fun _ => interleaves_of_working hy
  refine (hcount _).bind fun _ => hx.observe.bind fun outcome => ?_
  cases outcome with
  | ok a => exact hdone _ (working_pure a)
  | error stop =>
    cases stop with
    | error e =>
      exact (interleaves_of_working (working_report e)).bind fun _ => hdone _ (working_throw _)
    | panic message => exact hdone _ (working_throw _)
    | exhausted => exact hdone _ (working_throw _)

/-! ## What an engine does -/

theorem interleaves_execute (token : Nat) (code : String) : Interleaves (execute token code) := by
  unfold execute
  split
  · exact interleaves_of_working (working_pure _)
  · refine Interleaves.counted (interleaves_withInstance fun i _ => ?_)
    exact (working_runGlobalScript i.script token).bind fun _ =>
      working_onScript (retaining_runText token code none) i.script

theorem interleaves_executeFunction (token : Nat) (name : String) (args : List Value) :
    Interleaves (executeFunction token name args) := by
  rw [executeFunction_eq]
  refine Interleaves.counted ((interleaves_of_working working_engine).bind fun e => ?_)
  refine interleaves_withInstance fun i isNew => ?_
  refine (working_refresh i.script name _).bind fun stale => ?_
  refine (working_onScript (Script.aside_getGlobal name).retaining i.script).bind fun f => ?_
  have hcall : Working (do
      e.functions.get? name |>.forM fun f => noteRun f (!isNew && !stale)
      onScript i.script (Script.callWith token f args)) := by
    cases e.functions.get? name with
    | none => exact working_onScript (Script.retaining_callWith token f args) i.script
    | some g =>
      exact (working_noteRun g _).bind fun _ =>
        working_onScript (Script.retaining_callWith token f args) i.script
  dsimp only
  split
  · exact (working_throw _).bind fun _ => hcall
  · exact hcall

theorem interleaves_loadFunction (name code : String) : Interleaves (loadFunction name code) :=
  interleaves_of_working (working_loadFunction name code)

/-- What outdates instances changes one thing after the other. -/
theorem Leads.changes {cs : List Change} (hs : s.Leads t (.changing cs) h) :
    s.Leads t (.changing []) (cs.foldl (fun h c => c.perform.after h) h) := by
  induction cs generalizing h with
  | nil => exact hs
  | cons c rest ih =>
    refine ih (hs.step fun s' hhost ht => ?_)
    subst hhost
    exact ⟨_, .change ht, rfl, rfl⟩

theorem interleaves_perform (op : Invalidation) : Interleaves op.perform := by
  intro s t ht
  rw [op.after_perform]
  have hchanged := ((Leads.refl ht).next (.invalidate op)).changes
  generalize op.changes.foldl (fun h c => c.perform.after h) s.host = h at hchanged ⊢
  have houtdated : s.Leads t .clearing (h.onEngine (·.outdate)) := by
    refine hchanged.step fun s' hhost ht => ?_
    subst hhost
    exact ⟨_, .outdate ht, rfl, rfl⟩
  refine houtdated.step fun s' hhost ht => ⟨_, .clear ht, ?_, rfl⟩
  change s'.host.onEngine _ = _
  rw [hhost]
  rfl

end Shared

end Engine

end LuaMachine
