import LuaMachine.Proofs.Engine.Working
import Mathlib.Logic.Relation

/-!
# The accounts of executions

Executions overlap, and the counts may be reset at any time. `Engine.Ledger` is an engine with an
account of each execution that began: whether it runs, whether its failure was reported, how it ended.
A step changes the counts and one account (`Execution.Turn`), resets the counts, or does anything else
that leaves the counts of executions alone; steps of any executions may come in any order.

The counts agree with the accounts at every moment (`Engine.Ledger.Accounted`), and what an execution
does, however it ends, is made of such steps (`Engine.Ledger.Completes`).
-/

namespace LuaMachine

/-- The counts of executions are the same. -/
structure Host.SameCounts (h h' : Host) : Prop where
  active : h'.engine.statistics.active = h.engine.statistics.active
  run : h'.engine.statistics.run = h.engine.statistics.run
  fromCache : h'.engine.statistics.fromCache = h.engine.statistics.fromCache
  errors : h'.engine.statistics.errors = h.engine.statistics.errors

variable {h h' h'' : Host}

theorem Host.SameCounts.refl (h : Host) : h.SameCounts h := ⟨rfl, rfl, rfl, rfl⟩

theorem Host.SameCounts.trans (h₁ : h.SameCounts h') (h₂ : h'.SameCounts h'') : h.SameCounts h'' :=
  ⟨h₂.active.trans h₁.active, h₂.run.trans h₁.run, h₂.fromCache.trans h₁.fromCache,
    h₂.errors.trans h₁.errors⟩

/-! ## What leaves the counts alone -/

namespace Hosting

variable {α β : Type} {x : Hosting α} {f : α → Hosting β}

/-- A computation leaves the counts of executions alone. -/
abbrev Uncounting (x : Hosting α) : Prop := x.Always Host.SameCounts

theorem uncounting_pure (a : α) : Uncounting (pure a) := Host.SameCounts.refl

theorem uncounting_throw (s : Stop) : Uncounting (throw s : Hosting α) := Host.SameCounts.refl

theorem Uncounting.bind (hx : Uncounting x) (hf : ∀ a, Uncounting (f a)) : Uncounting (x >>= f) :=
  Always.bind Host.SameCounts.trans hx hf

theorem uncounting_engine : Uncounting engine := Host.SameCounts.refl

theorem uncounting_modifyEngine {g : Engine → Engine}
    (hg : ∀ e : Engine, (g e).statistics = e.statistics) : Uncounting (modifyEngine g) :=
  fun h => ⟨congrArg (·.active) (hg h.engine), congrArg (·.run) (hg h.engine),
    congrArg (·.fromCache) (hg h.engine), congrArg (·.errors) (hg h.engine)⟩

theorem uncounting_count {g : Statistics → Statistics}
    (hg : ∀ s : Statistics, (g s).active = s.active ∧ (g s).run = s.run ∧
      (g s).fromCache = s.fromCache ∧ (g s).errors = s.errors) : Uncounting (count g) :=
  fun h => ⟨(hg _).1, (hg _).2.1, (hg _).2.2.1, (hg h.engine.statistics).2.2.2⟩

theorem uncounting_inWorld (y : Exec α) : Uncounting (inWorld y) := by
  intro h
  unfold after inWorld
  cases y h.world <;> exact ⟨rfl, rfl, rfl, rfl⟩

theorem uncounting_onScript (id : ScriptId) (y : Exec α) : Uncounting (onScript id y) :=
  uncounting_inWorld _

theorem Uncounting.observe (hx : Uncounting x) : Uncounting (observe x) := Always.observe hx

theorem uncounting_forM {f : α → Hosting Unit} (as : List α) (hf : ∀ a, Uncounting (f a)) :
    Uncounting (as.forM f) :=
  Always.forM .refl .trans as hf

end Hosting

namespace Engine

open Hosting Exec

theorem uncounting_setVersion (id : ScriptId) (f : CachedFunction) :
    Uncounting (modifyEngine (·.setVersion id f.name f.hash)) :=
  uncounting_modifyEngine fun _ => rfl

theorem uncounting_countCompiled :
    Uncounting (count fun s => { s with compiled := s.compiled + 1 }) :=
  uncounting_count fun _ => ⟨rfl, rfl, rfl, rfl⟩

theorem uncounting_define (id : ScriptId) (f : CachedFunction) : Uncounting (define id f) :=
  (uncounting_onScript id _).bind fun _ => (uncounting_onScript id _).bind fun _ =>
    (uncounting_onScript id _).bind fun _ => (uncounting_setVersion id f).bind fun _ =>
    uncounting_countCompiled

theorem uncounting_newInstance : Uncounting newInstance := by
  have hcreated : Uncounting (count fun s => { s with created := s.created + 1 }) :=
    uncounting_count fun _ => ⟨rfl, rfl, rfl, rfl⟩
  have hsetUp : ∀ e : Engine, Uncounting (setUp e.config e.sink e.objects) := fun e =>
    (uncounting_inWorld _).bind fun id => (uncounting_onScript id _).bind fun _ => uncounting_pure id
  exact uncounting_engine.bind fun e => (hsetUp e).bind fun id =>
    (uncounting_forM _ (uncounting_define id)).bind fun _ => hcreated.bind fun _ => uncounting_pure _

theorem uncounting_lease : Uncounting lease := by
  refine uncounting_engine.bind fun e => ?_
  dsimp only
  cases firstCurrent e.generation e.pool.items with
  | mk found rest =>
    have htaken : Uncounting (modifyEngine fun e => { e with pool := { e.pool with items := rest } }) :=
      uncounting_modifyEngine fun _ => rfl
    refine htaken.bind fun _ => ?_
    cases found with
    | some i => exact uncounting_pure _
    | none => exact uncounting_newInstance.bind fun _ => uncounting_pure _

theorem uncounting_discard (i : Instance) : Uncounting (discard i) :=
  uncounting_count fun _ => ⟨rfl, rfl, rfl, rfl⟩

theorem uncounting_release (i : Instance) : Uncounting (release i) := by
  refine (uncounting_onScript _ _).bind fun idle => ?_
  split
  · exact uncounting_discard i
  · refine uncounting_modifyEngine fun e => ?_
    split <;> rfl

theorem uncounting_refresh (id : ScriptId) (name : String) (cached : Option CachedFunction) :
    Uncounting (refresh id name cached) := by
  refine uncounting_engine.bind fun e => ?_
  dsimp only
  split
  · cases cached with
    | none => exact uncounting_pure _
    | some f => exact (uncounting_define id f).bind fun _ => uncounting_pure _
  · exact uncounting_pure _

/-! ## Accounts -/

/-- How far an execution is. -/
inductive Stage where
  | running
  /-- its error was reported -/
  | failing (e : ScriptError)
  | ended (outcome : Except Stop Unit)

/-- It began and has not ended. -/
def Stage.isOutstanding : Stage → Bool
  | ended _ => false
  | _ => true

/-- It failed with an error. -/
def Stage.isFailure : Stage → Bool
  | failing _ => true
  | ended (.error (.error _)) => true
  | _ => false

/-- The account of an execution. -/
structure Execution where
  stage : Stage := .running
  /-- whether it was noted that its function came from the cache -/
  hit : Bool := false

/-- An outstanding execution whose function may still come from the cache. -/
def Execution.mayHit (x : Execution) : Bool := x.stage.isOutstanding && !x.hit

def countFromCache (e : Engine) : Engine :=
  { e with statistics := { e.statistics with fromCache := e.statistics.fromCache + 1 } }

/-- What an execution goes on to, and how the engine changes with it. -/
inductive Execution.Turn : Execution → (Engine → Engine) → Execution → Prop
  | hit : Turn ⟨.running, false⟩ countFromCache ⟨.running, true⟩
  | fail {hit : Bool} (e : ScriptError) : Turn ⟨.running, hit⟩ (·.report e) ⟨.failing e, hit⟩
  /-- it ends in another way than by an error -/
  | finish {hit : Bool} {outcome : Except Stop Unit} (houtcome : ∀ e, outcome ≠ .error (.error e)) :
    Turn ⟨.running, hit⟩ countFinished ⟨.ended outcome, hit⟩
  | leave {hit : Bool} {e : ScriptError} :
    Turn ⟨.failing e, hit⟩ countFinished ⟨.ended (.error (.error e)), hit⟩

namespace Execution

variable {x y : Execution} {g : Engine → Engine}

theorem Turn.active (hturn : x.Turn g y) {e : Engine}
    (hactive : x.stage.isOutstanding = true → 0 < e.statistics.active) :
    (g e).statistics.active + x.stage.isOutstanding.toNat =
      e.statistics.active + y.stage.isOutstanding.toNat := by
  cases hturn with
  | hit => rfl
  | fail err => rfl
  | finish houtcome => exact Nat.sub_add_cancel (hactive rfl)
  | leave => exact Nat.sub_add_cancel (hactive rfl)

theorem Turn.run (hturn : x.Turn g y) (e : Engine) : (g e).statistics.run = e.statistics.run := by
  cases hturn <;> rfl

theorem Turn.errors (hturn : x.Turn g y) (e : Engine) :
    (g e).statistics.errors + x.stage.isFailure.toNat =
      e.statistics.errors + y.stage.isFailure.toNat := by
  cases hturn with
  | hit => rfl
  | fail err => rfl
  | @finish _ outcome houtcome =>
    have hnone : (Stage.ended outcome).isFailure = false := by
      unfold Stage.isFailure
      split
      · next heq => cases heq
      · next e heq =>
        cases heq
        exact absurd rfl (houtcome e)
      · rfl
    rw [hnone]
    rfl
  | leave => rfl

theorem Turn.fromCache (hturn : x.Turn g y) (e : Engine) :
    (g e).statistics.fromCache + y.mayHit.toNat ≤ e.statistics.fromCache + x.mayHit.toNat := by
  cases hturn with
  | hit => exact Nat.le_refl _
  | fail err => exact Nat.le_refl _
  | finish houtcome => exact Nat.le_add_right _ _
  | leave => exact Nat.le_add_right _ _

end Execution

/-- An engine with the accounts of all executions that began, oldest first. -/
structure Ledger where
  host : Host
  executions : List Execution := []
  /-- the errors of global scripts, other than a cancellation -/
  globalErrors : List ScriptError := []
  /-- the counts that resets dropped -/
  dropped : List Statistics := []
  /-- how many executions might still count as coming from the cache at the last reset -/
  carried : Nat := 0

namespace Ledger

/-- How many executions have begun and not ended. -/
def outstanding (s : Ledger) : Nat := s.executions.countP (·.stage.isOutstanding)

/-- How many executions failed with an error. -/
def failures (s : Ledger) : Nat := s.executions.countP (·.stage.isFailure)

/-- How many executions had been counted at the resets. -/
def droppedRun (s : Ledger) : Nat := s.dropped.foldr (fun c n => c.run + n) 0

/-- How many errors had been counted at the resets. -/
def droppedErrors (s : Ledger) : Nat := s.dropped.foldr (fun c n => c.errors + n) 0

/-- How many executions might still count as coming from the cache. -/
def mayHit (s : Ledger) : Nat := s.executions.countP (·.mayHit)

def onEngine (s : Ledger) (g : Engine → Engine) : Ledger := { s with host := s.host.onEngine g }

def start (s : Ledger) : Ledger :=
  { s.onEngine countStarted with executions := s.executions ++ [{}] }

def turn (s : Ledger) (i : Nat) (g : Engine → Engine) (x : Execution) : Ledger :=
  { s.onEngine g with executions := s.executions.set i x }

def globalError (s : Ledger) (e : ScriptError) : Ledger :=
  { s.onEngine (·.report e) with globalErrors := s.globalErrors ++ [e] }

def reset (s : Ledger) : Ledger :=
  { s.onEngine fun e => { e with statistics := e.statistics.reset } with
    dropped := s.host.engine.statistics :: s.dropped
    carried := s.mayHit }

/-- One step of any execution, or of anything else that uses the engine. -/
inductive Step : Ledger → Ledger → Prop
  | start (s : Ledger) : Step s s.start
  | turn {s : Ledger} {i : Nat} {x y : Execution} {g : Engine → Engine}
    (hi : s.executions[i]? = some x) (hturn : x.Turn g y) : Step s (s.turn i g y)
  | globalError {s : Ledger} {i : Nat} {hit : Bool} {e : ScriptError}
    (hi : s.executions[i]? = some ⟨.running, hit⟩) (he : e ≠ .cancelled) : Step s (s.globalError e)
  | reset (s : Ledger) : Step s s.reset
  | work {s : Ledger} {h : Host} (hsame : s.host.SameCounts h) : Step s { s with host := h }

/-- Steps, one after the other. -/
abbrev Steps : Ledger → Ledger → Prop := Relation.ReflTransGen Step

/-- What can become of a new engine. -/
def Reachable (config : EngineConfig) (s : Ledger) : Prop := Steps { host := .create config } s

/-- The counts agree with the accounts. -/
structure Accounted (s : Ledger) : Prop where
  active_eq : s.host.engine.statistics.active = s.outstanding
  run_eq : s.host.engine.statistics.run + s.droppedRun = s.executions.length
  errors_eq : s.host.engine.statistics.errors + s.droppedErrors =
    s.failures + s.globalErrors.length
  hits_le : s.host.engine.statistics.fromCache + s.mayHit ≤
    s.host.engine.statistics.run + s.carried

variable {s s' : Ledger} {i : Nat} {x y : Execution} {g : Engine → Engine}

/-! ## The counts agree with the accounts -/

/-- How many accounts have a property, after a change of one of them. -/
theorem countP_set (p : Execution → Bool) (hi : s.executions[i]? = some x) :
    (s.executions.set i y).countP p + (p x).toNat = s.executions.countP p + (p y).toNat := by
  obtain ⟨hlt, rfl⟩ := List.getElem?_eq_some_iff.1 hi
  have hle : (p s.executions[i]).toNat ≤ s.executions.countP p := by
    cases hp : p s.executions[i] with
    | true => exact List.countP_pos_iff.2 ⟨_, List.getElem_mem hlt, hp⟩
    | false => exact Nat.zero_le _
  have hite : ∀ b : Bool, (if b = true then 1 else 0) = b.toNat := fun b => by cases b <;> rfl
  rw [List.countP_set hlt, hite, hite]
  omega

theorem accounted_new (config : EngineConfig) : Accounted { host := .create config } :=
  ⟨rfl, rfl, rfl, Nat.le_refl 0⟩

/-- While an execution is outstanding, one is counted as active. -/
theorem Accounted.active_pos (hs : s.Accounted) (hx : x ∈ s.executions)
    (hout : x.stage.isOutstanding = true) : 0 < s.host.engine.statistics.active := by
  rw [hs.active_eq]
  exact List.countP_pos_iff.2 ⟨x, hx, hout⟩

theorem Accounted.start (hs : s.Accounted) : s.start.Accounted := by
  have hadd : ∀ p : Execution → Bool, (s.executions ++ [({} : Execution)]).countP p =
      s.executions.countP p + [({} : Execution)].countP p := fun p => List.countP_append
  constructor
  · change s.host.engine.statistics.active + 1 = (s.executions ++ [({} : Execution)]).countP _
    rw [hadd, hs.active_eq]
    rfl
  · change s.host.engine.statistics.run + 1 + _ = (s.executions ++ [({} : Execution)]).length
    rw [List.length_append, ← hs.run_eq]
    exact Nat.add_right_comm _ _ _
  · change s.host.engine.statistics.errors + _ = (s.executions ++ [({} : Execution)]).countP _ + _
    rw [hadd]
    exact hs.errors_eq
  · change s.host.engine.statistics.fromCache + (s.executions ++ [({} : Execution)]).countP _ ≤
      s.host.engine.statistics.run + 1 + s.carried
    have hle := Nat.succ_le_succ hs.hits_le
    rw [hadd, Nat.add_right_comm s.host.engine.statistics.run]
    exact hle

/-- An execution that turns is outstanding before, so what is taken from the active ones is there. -/
theorem Accounted.turn (hs : s.Accounted) (hi : s.executions[i]? = some x) (hturn : x.Turn g y) :
    (s.turn i g y).Accounted := by
  have hx : x ∈ s.executions := List.mem_of_getElem? hi
  constructor
  · have hcount : (s.turn i g y).outstanding + _ = s.outstanding + _ := countP_set _ hi
    have hactive := hturn.active (hs.active_pos hx)
    have hsame := hs.active_eq
    change (g s.host.engine).statistics.active = _
    omega
  · change (g s.host.engine).statistics.run + _ = (s.executions.set i y).length
    rw [List.length_set, hturn.run]
    exact hs.run_eq
  · have hcount : (s.turn i g y).failures + _ = s.failures + _ := countP_set _ hi
    have herrors := hturn.errors s.host.engine
    have hsame := hs.errors_eq
    change (g s.host.engine).statistics.errors + s.droppedErrors =
      (s.turn i g y).failures + s.globalErrors.length
    omega
  · have hcount : (s.turn i g y).mayHit + _ = s.mayHit + _ := countP_set _ hi
    have hhit := hturn.fromCache s.host.engine
    have hle := hs.hits_le
    change (g s.host.engine).statistics.fromCache + (s.turn i g y).mayHit ≤
      (g s.host.engine).statistics.run + s.carried
    rw [hturn.run]
    omega

theorem Accounted.globalError (hs : s.Accounted) (e : ScriptError) :
    (s.globalError e).Accounted where
  active_eq := hs.active_eq
  run_eq := hs.run_eq
  errors_eq := by
    change s.host.engine.statistics.errors + 1 + s.droppedErrors =
      s.failures + (s.globalErrors ++ [e]).length
    have hsame := hs.errors_eq
    rw [List.length_append, List.length_singleton]
    omega
  hits_le := hs.hits_le

theorem Accounted.reset (hs : s.Accounted) : s.reset.Accounted where
  active_eq := hs.active_eq
  run_eq := (Nat.zero_add _).trans hs.run_eq
  errors_eq := (Nat.zero_add _).trans hs.errors_eq
  hits_le := Nat.le_refl _

theorem Accounted.work {h : Host} (hs : s.Accounted) (hsame : s.host.SameCounts h) :
    Accounted { s with host := h } where
  active_eq := hsame.active.trans hs.active_eq
  run_eq := hsame.run ▸ hs.run_eq
  errors_eq := hsame.errors ▸ hs.errors_eq
  hits_le := by
    rw [hsame.run, hsame.fromCache]
    exact hs.hits_le

theorem Accounted.step (hs : s.Accounted) (hstep : Step s s') : s'.Accounted := by
  cases hstep with
  | start => exact hs.start
  | turn hi hturn => exact hs.turn hi hturn
  | globalError => exact hs.globalError _
  | reset => exact hs.reset
  | work hsame => exact hs.work hsame

theorem Accounted.steps (hs : s.Accounted) (hsteps : Steps s s') : s'.Accounted := by
  induction hsteps with
  | refl => exact hs
  | tail _ hstep ih => exact ih.step hstep

theorem Reachable.accounted {config : EngineConfig} (hs : Reachable config s) : s.Accounted :=
  (accounted_new config).steps hs

/-! ## One execution -/

variable {α β : Type} {q : Hosting α} {f : α → Hosting β} {h h₁ : Host} {hit : Bool}
  {es : List ScriptError}

/-- The ledger with another account of an execution, another host and more errors of global scripts. -/
def lead (s : Ledger) (i : Nat) (x : Execution) (h : Host) (es : List ScriptError) : Ledger :=
  { s with host := h, executions := s.executions.set i x, globalErrors := s.globalErrors ++ es }

theorem lead_self (hi : s.executions[i]? = some x) (h : Host) :
    s.lead i x h [] = { s with host := h } := by
  obtain ⟨hlt, rfl⟩ := List.getElem?_eq_some_iff.1 hi
  unfold lead
  rw [List.set_getElem_self, List.append_nil]

/-- A computation at a host is made of steps of a running execution. -/
def Passes (q : Hosting α) (h : Host) (hit : Bool) (es : List ScriptError) : Prop :=
  ∀ (s : Ledger) (i : Nat), s.host = h → s.executions[i]? = some {} →
    Steps s (s.lead i { hit } (q.after h) es)

theorem passes_of_uncounting (hq : Uncounting q) (h : Host) : Passes q h false [] := by
  rintro s i rfl hi
  rw [lead_self hi]
  exact .single (.work (hq s.host))

theorem Passes.before {a : α} (hq : Uncounting q) (hok : q h = .ok a h₁)
    (hf : Passes (f a) h₁ hit es) : Passes (q >>= f) h hit es := by
  rintro s i rfl hi
  have hfirst : Steps s { s with host := h₁ } := .single (.work (hq.ok hok))
  rw [after_bind_ok hok]
  exact hfirst.trans (hf { s with host := h₁ } i rfl hi)

theorem Passes.behind (hq : Passes q h hit es) (hf : ∀ a, Uncounting (f a)) :
    Passes (q >>= f) h hit es := by
  intro s i hhost hi
  have hfirst := hq s i hhost hi
  cases hresult : q h with
  | ok a h₁ =>
    rw [after_ok hresult] at hfirst
    rw [after_bind_ok hresult]
    exact hfirst.tail (.work (hf a h₁))
  | error stop h₁ =>
    rw [after_error hresult] at hfirst
    rwa [after_bind_error hresult]

theorem Passes.exists_bind (hq : Uncounting q) (hf : ∀ a h₁, ∃ hit, Passes (f a) h₁ hit []) :
    ∃ hit, Passes (q >>= f) h hit [] := by
  cases hresult : q h with
  | ok a h₁ =>
    obtain ⟨hit, hpasses⟩ := hf a h₁
    exact ⟨hit, .before hq hresult hpasses⟩
  | error stop h₁ =>
    refine ⟨false, ?_⟩
    rintro s i rfl hi
    rw [lead_self hi, after_bind_error hresult]
    exact .single (.work (hq.error hresult))

theorem Passes.observe (hq : Passes q h hit es) : Passes (observe q) h hit es := by
  intro s i hhost hi
  rw [after_observe]
  exact hq s i hhost hi

/-- What is done on an instance is done between a lease and a release. -/
theorem passes_withInstance {q : Instance → Bool → Hosting α} {j : Instance} {isNew : Bool}
    (hlease : lease h = .ok (j, isNew) h₁) (hq : Passes (q j isNew) h₁ hit es) :
    Passes (withInstance q) h hit es := by
  refine Passes.before uncounting_lease hlease ?_
  refine hq.observe.behind fun outcome => ?_
  split
  · exact (uncounting_release j).bind fun _ => uncounting_pure _
  · exact (uncounting_discard j).bind fun _ => uncounting_throw _
  · exact (uncounting_release j).bind fun _ => uncounting_throw _

theorem passes_of_lease_error {q : Instance → Bool → Hosting α} {stop : Stop}
    (hlease : lease h = .error stop h₁) : Passes (withInstance q) h false [] := by
  rintro s i rfl hi
  have hafter : (withInstance q).after s.host = h₁ := after_bind_error hlease
  rw [lead_self hi, hafter]
  exact .single (.work (uncounting_lease.error hlease))

end Ledger

/-- The run of a global script. -/
def globalRun (id : ScriptId) (token : Nat) (code : String) : Hosting Value :=
  onScript id do Script.callWith token (← loadString code none "global script") []

/-- The error that the global script fails with in an instance, unless it is a cancellation. -/
def globalErrorsIn (id : ScriptId) (token : Nat) (h : Host) : List ScriptError :=
  match h.engine.globalScript with
  | none => []
  | some code =>
    if isBlank code then []
    else match globalRun id token code h with
      | .error (.error .cancelled) _ => []
      | .error (.error e) _ => [e]
      | _ => []

/-- The errors of the global script in an execution: it runs in the instance that is leased. -/
def globalErrors (token : Nat) (h : Host) : List ScriptError :=
  match lease (h.onEngine countStarted) with
  | .ok (i, _) h₁ => globalErrorsIn i.script token h₁
  | .error _ _ => []

namespace Ledger

variable {α : Type} {s : Ledger} {q : Hosting α} {h h₁ : Host} {hit : Bool} {es : List ScriptError}

theorem passes_report {e : ScriptError} (he : e ≠ .cancelled) (h : Host) :
    Passes (modifyEngine (·.report e)) h false [e] := by
  rintro s i rfl hi
  have hlead : s.lead i {} (s.host.onEngine (·.report e)) [e] = s.globalError e := by
    obtain ⟨hlt, hsome⟩ := List.getElem?_eq_some_iff.1 hi
    unfold lead
    rw [← hsome, List.set_getElem_self]
    rfl
  change Steps s (s.lead i {} (s.host.onEngine (·.report e)) [e])
  rw [hlead]
  exact .single (.globalError hi he)

theorem passes_runGlobalScript (id : ScriptId) (token : Nat) (h : Host) :
    Passes (runGlobalScript id token) h false (globalErrorsIn id token h) := by
  unfold runGlobalScript globalErrorsIn
  refine Passes.before uncounting_engine (engine_eq _) ?_
  cases h.engine.globalScript with
  | none => exact passes_of_uncounting (uncounting_pure ()) h
  | some code =>
    dsimp only
    split
    · exact passes_of_uncounting (uncounting_pure ()) h
    · have hrun : Uncounting (globalRun id token code) := uncounting_onScript _ _
      change Passes (Hosting.observe (globalRun id token code) >>= _) h false _
      cases hresult : globalRun id token code h with
      | ok a h₁ =>
        exact Passes.before hrun.observe (observe_of_ok hresult)
          (passes_of_uncounting (uncounting_pure ()) h₁)
      | error stop h₁ =>
        refine Passes.before hrun.observe (observe_of_error hresult) ?_
        cases stop with
        | panic message => exact passes_of_uncounting (uncounting_throw _) h₁
        | exhausted => exact passes_of_uncounting (uncounting_throw _) h₁
        | error e =>
          cases e with
          | cancelled => exact passes_of_uncounting (uncounting_throw _) h₁
          | _ => exact passes_report ScriptError.noConfusion h₁

theorem passes_countFromCache (h : Host) : Passes (modifyEngine countFromCache) h true [] := by
  rintro s i rfl hi
  have hlead : s.lead i ⟨.running, true⟩ (s.host.onEngine countFromCache) [] =
      s.turn i countFromCache ⟨.running, true⟩ := by
    unfold lead
    rw [List.append_nil]
    rfl
  change Steps s (s.lead i ⟨.running, true⟩ (s.host.onEngine countFromCache) [])
  rw [hlead]
  exact .single (.turn hi .hit)

/-- A hit is noted at most once. -/
theorem passes_noteRun (f : CachedFunction) (wasThere : Bool) (h : Host) :
    Passes (noteRun f wasThere) h
      (h.engine.functions.hasExecuted f.name f.hash && wasThere) [] := by
  have hmark : Uncounting (modifyEngine fun e =>
      { e with functions := e.functions.markExecuted f.name f.hash }) :=
    uncounting_modifyEngine fun _ => rfl
  unfold noteRun
  refine Passes.before uncounting_engine (engine_eq _) ?_
  refine Passes.before hmark rfl ?_
  cases h.engine.functions.hasExecuted f.name f.hash && wasThere with
  | false => exact passes_of_uncounting (uncounting_pure ()) _
  | true => exact passes_countFromCache _

/-! ## Executions -/

/-- How a computation ends. -/
def outcome (q : Hosting α) (h : Host) : Except Stop Unit :=
  match q h with
  | .ok _ _ => .ok ()
  | .error stop _ => .error stop

/-- The ledger with one more account, another host and more errors of global scripts. -/
def entered (s : Ledger) (x : Execution) (h : Host) (es : List ScriptError) : Ledger :=
  { s with host := h, executions := s.executions ++ [x], globalErrors := s.globalErrors ++ es }

/-- A computation is made of the steps of one execution, from its beginning to its end. -/
def Completes (s : Ledger) (q : Hosting α) (es : List ScriptError) : Prop :=
  ∃ hit, Steps s (s.entered ⟨.ended (outcome q s.host), hit⟩ (q.after s.host) es)

theorem set_last (xs : List Execution) (x y : Execution) :
    (xs ++ [x]).set xs.length y = xs ++ [y] := by
  rw [List.set_append_right _ _ (Nat.le_refl _), Nat.sub_self]
  rfl

theorem step_entered {x y : Execution} {g : Engine → Engine} (hturn : x.Turn g y) (h : Host) :
    Step (s.entered x h es) (s.entered y (h.onEngine g) es) := by
  have hlast : (s.entered x h es).executions[s.executions.length]? = some x :=
    List.getElem?_concat_length
  have hset : (s.entered x h es).turn s.executions.length g y = s.entered y (h.onEngine g) es := by
    unfold turn entered
    dsimp only
    rw [set_last]
    rfl
  exact hset ▸ .turn hlast hturn

theorem completes_counted (hq : Passes q (s.host.onEngine countStarted) hit es) :
    s.Completes (counted q) es := by
  have hlast : s.start.executions[s.executions.length]? = some {} := List.getElem?_concat_length
  have hlead : ∀ h, s.start.lead s.executions.length { hit } h es = s.entered { hit } h es := by
    intro h
    unfold lead entered Ledger.start
    dsimp only
    rw [set_last]
    rfl
  have hstarted : Steps s s.start := .single (.start s)
  have hworked := hstarted.trans (hq s.start s.executions.length rfl hlast)
  rw [hlead] at hworked
  refine ⟨hit, ?_⟩
  unfold outcome
  cases hresult : q (s.host.onEngine countStarted) with
  | ok a h =>
    rw [after_ok hresult] at hworked
    rw [counted_ok hresult, after_ok (counted_ok hresult)]
    exact hworked.tail (step_entered (.finish fun _ heq => by cases heq) h)
  | error stop h =>
    rw [after_error hresult] at hworked
    rw [counted_of_error hresult, after_error (counted_of_error hresult)]
    cases stop with
    | error e =>
      exact (hworked.tail (step_entered (.fail e) h)).tail (step_entered .leave _)
    | panic message => exact hworked.tail (step_entered (.finish fun _ heq => by cases heq) h)
    | exhausted => exact hworked.tail (step_entered (.finish fun _ heq => by cases heq) h)

theorem completes_execute (s : Ledger) (token : Nat) {code : String} (hcode : isBlank code = false) :
    s.Completes (execute token code) (Engine.globalErrors token s.host) := by
  unfold execute Engine.globalErrors
  rw [hcode, if_neg Bool.false_ne_true]
  cases hlease : lease (s.host.onEngine countStarted) with
  | error stop h => exact completes_counted (passes_of_lease_error hlease)
  | ok leased h =>
    obtain ⟨i, isNew⟩ := leased
    have hglobal := passes_runGlobalScript i.script token h
    have hpasses := hglobal.behind fun _ => uncounting_onScript i.script (do
      Script.callWith token (← loadString code none none) [])
    exact completes_counted (passes_withInstance hlease hpasses)

/-- What a call by name does on its instance notes at most one hit. -/
theorem passes_callByName (cached : Option CachedFunction) (name : String) (token : Nat)
    (args : List Value) (i : Instance) (isNew : Bool) (h : Host) :
    ∃ hit, Passes (do
      let stale ← refresh i.script name cached
      let f ← onScript i.script (Script.getGlobal name)
      if !f.isCallable then throw (.error (.functionNotFound name))
      cached.forM fun f => noteRun f (!isNew && !stale)
      onScript i.script (Script.callWith token f args)) h hit [] := by
  refine Passes.exists_bind (uncounting_refresh i.script name cached) fun stale h₁ => ?_
  refine Passes.exists_bind (uncounting_onScript i.script _) fun f h₂ => ?_
  have hcall : ∀ h₂, ∃ hit, Passes (do
      cached.forM fun f => noteRun f (!isNew && !stale)
      onScript i.script (Script.callWith token f args)) h₂ hit [] := by
    intro h₂
    cases cached with
    | none => exact ⟨false, passes_of_uncounting (uncounting_onScript i.script _) h₂⟩
    | some g => exact ⟨_, (passes_noteRun g _ h₂).behind fun _ => uncounting_onScript i.script _⟩
  dsimp only
  split
  · exact Passes.exists_bind (uncounting_throw _) fun _ => hcall
  · exact hcall h₂

theorem completes_executeFunction (s : Ledger) (token : Nat) (name : String) (args : List Value) :
    s.Completes (executeFunction token name args) [] := by
  rw [executeFunction_eq]
  have hengine : engine (s.host.onEngine countStarted) =
    .ok (countStarted s.host.engine) (s.host.onEngine countStarted) := rfl
  cases hlease : lease (s.host.onEngine countStarted) with
  | error stop h =>
    exact completes_counted (.before uncounting_engine hengine (passes_of_lease_error hlease))
  | ok leased h =>
    obtain ⟨i, isNew⟩ := leased
    obtain ⟨hit, hpasses⟩ := passes_callByName (s.host.engine.functions.get? name) name token args
      i isNew h
    exact completes_counted (.before uncounting_engine hengine (passes_withInstance hlease hpasses))

/-- In every interleaving of executions and resets, as many are counted as active as are outstanding,
so that one that ends is always there to be taken off; and before any reset, as many are counted as
began, and as many errors as executions and global scripts failed with. Whatever is executed, and however
it ends, is such an execution. -/
theorem executions_accounted {config : EngineConfig} (hs : Reachable config s) (token : Nat)
    {code : String} (hcode : isBlank code = false) (name : String) (args : List Value) :
    s.host.engine.statistics.active = s.outstanding ∧
      (∀ x ∈ s.executions, x.stage.isOutstanding = true → 0 < s.host.engine.statistics.active) ∧
      (s.dropped = [] → s.host.engine.statistics.run = s.executions.length ∧
        s.host.engine.statistics.errors = s.failures + s.globalErrors.length) ∧
      s.Completes (execute token code) (Engine.globalErrors token s.host) ∧
      s.Completes (executeFunction token name args) [] := by
  have haccounted := hs.accounted
  refine ⟨haccounted.active_eq, fun x hx => haccounted.active_pos hx, fun hdropped => ?_,
    completes_execute s token hcode, completes_executeFunction s token name args⟩
  have hrun := haccounted.run_eq
  have herrors := haccounted.errors_eq
  rw [droppedRun, hdropped] at hrun
  rw [droppedErrors, hdropped] at herrors
  exact ⟨hrun, herrors⟩

/-- Two executions overlap, and the first of them was cancelled. -/
def overlapping : Ledger :=
  (({ host := .create {} } : Ledger).start.start.turn 0 (·.report .cancelled)
    ⟨.failing .cancelled, false⟩).turn 0 countFinished ⟨.ended (.error (.error .cancelled)), false⟩

theorem reachable_overlapping : Reachable {} overlapping :=
  (((Relation.ReflTransGen.single (.start _)).tail (.start _)).tail (.turn rfl (.fail _))).tail (.turn rfl .leave)

theorem executions_accounted_overlapping : isBlank "return 1" = false ∧
    overlapping.host.engine.statistics.active = 1 ∧
    overlapping.host.engine.statistics.run = 2 ∧ overlapping.host.engine.statistics.errors = 1 ∧
    overlapping.Completes (execute 0 "return 1") (Engine.globalErrors 0 overlapping.host) := by
  have hcode : isBlank "return 1" = false := by decide
  obtain ⟨hactive, -, hcounts, hexecute, -⟩ :=
    executions_accounted reachable_overlapping 0 hcode "f" []
  exact ⟨hcode, hactive, (hcounts rfl).1, (hcounts rfl).2, hexecute⟩

/-! ## Hits of the cache -/

/-- Hits of the cache exceed the executions that are counted by no more than the executions that a reset
left outstanding and that were not counted as hits by then. -/
theorem Reachable.fromCache_le {config : EngineConfig} (hs : Reachable config s) :
    s.host.engine.statistics.fromCache ≤ s.host.engine.statistics.run + s.carried :=
  Nat.le_of_add_right_le hs.accounted.hits_le

/-- A reset between the beginning of an execution and its hit leaves a hit without an execution. -/
theorem hit_after_reset : ∃ s, Reachable {} s ∧
    s.host.engine.statistics.run = 0 ∧ s.host.engine.statistics.fromCache = 1 :=
  ⟨_, ((Relation.ReflTransGen.single (.start _)).tail (.reset _)).tail (.turn (i := 0) rfl .hit), rfl, rfl⟩

end Ledger

end Engine

end LuaMachine
