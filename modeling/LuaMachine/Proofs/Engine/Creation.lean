import LuaMachine.Proofs.Engine.Versions

/-!
# New instances after a load

A load compiles a definition and runs it in idle instances, where it may fail. It never runs it as
the making of an instance will: there the definitions of all cached functions run one after the
other, and the first that fails ends it. So a definition that compiles and does not run makes every
execution fail that needs a new instance, whatever that executes (`Engine.load_unchecked`).

What is read of an engine on the way is little. `Hosting.Unread` is the frame property behind this: a
computation gives the same when a part of the engine is changed that it does not read.
-/

namespace LuaMachine

/-- A host whose engine is changed. -/
def Host.onEngine (h : Host) (g : Engine → Engine) : Host := { h with engine := g h.engine }

namespace Hosting

variable {α β : Type} {g : Engine → Engine} {h : Host} {x : Hosting α} {f : α → Hosting β}

/-! ## Outcomes -/

/-- Whether a computation gives a value. -/
def succeeds (x : Hosting α) (h : Host) : Bool :=
  match x h with
  | .ok .. => true
  | .error .. => false

/-- The host after a computation, however that ends. -/
def after (x : Hosting α) (h : Host) : Host :=
  match x h with
  | .ok _ h' => h'
  | .error _ h' => h'

theorem observe_after (x : Hosting α) (h : Host) :
    ∃ outcome, observe x h = .ok outcome (x.after h) := by
  unfold observe after
  cases x h <;> exact ⟨_, rfl⟩

theorem exists_ok_of_succeeds (hx : x.succeeds h = true) : ∃ a, x h = .ok a (x.after h) := by
  unfold succeeds at hx
  unfold after
  cases hresult : x h with
  | ok a h' => exact ⟨a, rfl⟩
  | error s h' => rw [hresult] at hx; cases hx

theorem exists_error_of_not_succeeds (hx : x.succeeds h = false) :
    ∃ s, x h = .error s (x.after h) := by
  unfold succeeds at hx
  unfold after
  cases hresult : x h with
  | ok a h' => rw [hresult] at hx; cases hx
  | error s h' => exact ⟨s, rfl⟩

/-! ## What is not read -/

/-- A computation does not read what is changed in an engine, and leaves the change as it is. -/
structure Unread (g : Engine → Engine) (x : Hosting α) : Prop where
  ok : ∀ {h a h'}, x h = .ok a h' → x (h.onEngine g) = .ok a (h'.onEngine g)
  error : ∀ {h s h'}, x h = .error s h' → x (h.onEngine g) = .error s (h'.onEngine g)

namespace Unread

theorem pure (a : α) : Unread g (pure a : Hosting α) := by
  constructor
  · intro h a' h' hok
    cases hok
    rfl
  · intro h s h' herr
    cases herr

theorem bind (hx : Unread g x) (hf : ∀ a, Unread g (f a)) : Unread g (x >>= f) := by
  constructor
  · intro h b h' hok
    obtain ⟨a, h₁, ha, hb⟩ := exists_of_bind_ok hok
    rw [bind_of_ok (hx.ok ha)]
    exact (hf a).ok hb
  · intro h s h' herr
    cases hresult : x h with
    | ok a h₁ =>
      rw [bind_of_ok hresult] at herr
      rw [bind_of_ok (hx.ok hresult)]
      exact (hf a).error herr
    | error s' h₁ =>
      rw [bind_of_error hresult] at herr
      cases herr
      exact bind_of_error (hx.error hresult)

/-- The scripts do not read the engine. -/
theorem inWorld (y : Exec α) : Unread g (inWorld y) := by
  constructor
  · intro h a h' hok
    unfold Hosting.inWorld Host.onEngine at *
    cases hy : y h.world with
    | ok b w =>
      simp only [hy] at hok ⊢
      cases hok
      rfl
    | error s w =>
      simp only [hy] at hok
      cases hok
  · intro h s h' herr
    unfold Hosting.inWorld Host.onEngine at *
    cases hy : y h.world with
    | ok b w =>
      simp only [hy] at herr
      cases herr
    | error s' w =>
      simp only [hy] at herr ⊢
      cases herr
      rfl

theorem modifyEngine {k : Engine → Engine} (hk : ∀ e, k (g e) = g (k e)) :
    Unread g (modifyEngine k) := by
  constructor
  · intro h a h' hok
    cases hok
    exact congrArg (EStateM.Result.ok ()) (congrArg (Host.mk · h.world) (hk h.engine))
  · intro h s h' herr
    cases herr

/-- What reads the engine reads nothing of the change. -/
theorem engine_bind {k : Engine → Hosting β} (hsame : ∀ e, k (g e) = k e)
    (hk : ∀ e, Unread g (k e)) : Unread g (engine >>= k) := by
  have hrun : ∀ h, (engine >>= k) h = k h.engine h := fun _ => rfl
  constructor
  · intro h b h' hok
    rw [hrun] at hok ⊢
    change k (g h.engine) _ = _
    rw [hsame]
    exact (hk _).ok hok
  · intro h s h' herr
    rw [hrun] at herr ⊢
    change k (g h.engine) _ = _
    rw [hsame]
    exact (hk _).error herr

theorem forM {k : α → Hosting Unit} (as : List α) (hk : ∀ a, Unread g (k a)) :
    Unread g (as.forM k) := by
  induction as with
  | nil => exact .pure ()
  | cons a rest ih => exact (hk a).bind fun _ => ih

end Unread

end Hosting

namespace Engine

open Hosting

variable {α : Type} {g : Engine → Engine} {h h' : Host} {f : CachedFunction}

/-! ## Making an instance -/

/-- Count a definition that ran. -/
def countCompiled (e : Engine) : Engine :=
  { e with statistics := { e.statistics with compiled := e.statistics.compiled + 1 } }

/-- Count an instance. -/
def countCreated (e : Engine) : Engine :=
  { e with statistics := { e.statistics with created := e.statistics.created + 1 } }

/-- A change of an engine that has nothing to do with versions and the counters of definitions and
instances. -/
structure Beside (g : Engine → Engine) : Prop where
  setVersion : ∀ e id name hash, setVersion (g e) id name hash = g (setVersion e id name hash)
  countCompiled : ∀ e, countCompiled (g e) = g (countCompiled e)
  countCreated : ∀ e, countCreated (g e) = g (countCreated e)

theorem unread_define (hg : Beside g) (id : ScriptId) (f : CachedFunction) :
    Unread g (define id f) := by
  unfold define
  exact (Unread.inWorld _).bind fun _ => (Unread.inWorld _).bind fun _ =>
    (Unread.inWorld _).bind fun _ => (Unread.modifyEngine (hg.setVersion · _ _ _)).bind fun _ =>
    Unread.modifyEngine hg.countCompiled

theorem unread_setUp (config : EngineConfig) (sink : Nat) (objects : List (String × Value)) :
    Unread g (setUp config sink objects) :=
  (Unread.inWorld _).bind fun _ => (Unread.inWorld _).bind fun _ => .pure _

/-- A change is about nothing that an instance is made from. -/
structure Apart (g : Engine → Engine) : Prop extends Beside g where
  config : ∀ e, (g e).config = e.config
  sink : ∀ e, (g e).sink = e.sink
  objects : ∀ e, (g e).objects = e.objects
  functions : ∀ e, (g e).functions = e.functions
  generation : ∀ e, (g e).generation = e.generation

theorem unread_newInstance (hg : Apart g) : Unread g newInstance := by
  unfold newInstance
  refine Unread.engine_bind (fun e => ?_) fun e => ?_
  · rw [hg.config, hg.sink, hg.objects, hg.functions, hg.generation]
  · exact (unread_setUp _ _ _).bind fun _ =>
      (Unread.forM _ (unread_define hg.toBeside _)).bind fun _ =>
      (Unread.modifyEngine hg.countCreated).bind fun _ => .pure _

/-! ## One more function -/

/-- An engine with other functions. -/
def withFunctions (c : FunctionCache) (e : Engine) : Engine := { e with functions := c }

theorem onEngine_withFunctions (h : Host) (c : FunctionCache) :
    (h.onEngine (withFunctions c)).onEngine (withFunctions h.engine.functions) = h := rfl

theorem beside_withFunctions (c : FunctionCache) : Beside (withFunctions c) :=
  ⟨fun _ _ _ _ => rfl, fun _ => rfl, fun _ => rfl⟩

theorem beside_countCreated : Beside countCreated :=
  ⟨fun _ _ _ _ => rfl, fun _ => rfl, fun _ => rfl⟩

/-- Making an instance with one more function is making one without it and defining it then. -/
theorem newInstance_append {c : FunctionCache} {i : Instance} {h₁ : Host}
    (hc : c.functions = h.engine.functions.functions ++ [f]) (hnew : newInstance h = .ok i h₁) :
    (∀ h₂, define i.script f h₁ = .ok () h₂ →
      newInstance (h.onEngine (withFunctions c)) = .ok i (h₂.onEngine (withFunctions c))) ∧
    ∀ s h₂, define i.script f h₁ = .error s h₂ →
      ∃ h₃, newInstance (h.onEngine (withFunctions c)) = .error s h₃ := by
  unfold newInstance at hnew
  obtain ⟨e, hs, he, hnew⟩ := exists_of_bind_ok hnew
  cases he
  obtain ⟨id, h₂, hbare, hnew⟩ := exists_of_bind_ok hnew
  obtain ⟨_, h₃, hdefined, hnew⟩ := exists_of_bind_ok hnew
  cases hnew
  have hg := beside_withFunctions c
  have hbare' := (unread_setUp (g := withFunctions c) _ _ _).ok hbare
  have hdefined' := (Unread.forM _ (unread_define hg id)).ok hdefined
  -- all but the definition of the new function is as before
  have hrun : newInstance (h.onEngine (withFunctions c)) = (do
      define id f
      modifyEngine countCreated
      return { script := id, generation := h.engine.generation } : Hosting Instance)
        (h₃.onEngine (withFunctions c)) := by
    have hengine : engine (h.onEngine (withFunctions c)) =
      .ok (withFunctions c h.engine) (h.onEngine (withFunctions c)) := rfl
    unfold newInstance
    rw [bind_of_ok hengine]
    refine (bind_of_ok hbare').trans ?_
    change ((c.functions.forM (define id)) >>= _) _ = _
    have hsplit : c.functions.forM (define id) =
        h.engine.functions.functions.forM (define id) >>= fun _ => define id f := by
      rw [hc]
      simp
    rw [hsplit, bind_assoc]
    exact bind_of_ok hdefined'
  cases hlast : define id f h₃ with
  | ok u h₄ =>
    have hcounted := (unread_define beside_countCreated id f).ok hlast
    refine ⟨fun h₂' hok => ?_, fun s h₂' herr => ?_⟩
    · obtain rfl : h₄.onEngine countCreated = h₂' :=
        (EStateM.Result.ok.inj (hcounted.symm.trans hok)).2
      rw [hrun, bind_of_ok ((unread_define hg id f).ok hlast)]
      rfl
    · cases hcounted.symm.trans herr
  | error s h₄ =>
    have hcounted := (unread_define beside_countCreated id f).error hlast
    refine ⟨fun h₂' hok => ?_, fun s' h₂' herr => ?_⟩
    · cases hcounted.symm.trans hok
    · obtain rfl : s = s' := (EStateM.Result.error.inj (hcounted.symm.trans herr)).1
      exact ⟨_, hrun.trans (bind_of_error ((unread_define hg id f).error hlast))⟩

/-! ## Executions that need a new instance -/

/-- An engine with other idle instances. -/
def withItems (items : List Instance) (e : Engine) : Engine :=
  { e with pool := { e.pool with items } }

/-- An engine that counts one more execution. -/
def countStarted (e : Engine) : Engine := { e with statistics := e.statistics.start }

def countFinished (e : Engine) : Engine := { e with statistics := e.statistics.finish }

theorem apart_withItems (items : List Instance) : Apart (withItems items) :=
  ⟨⟨fun _ _ _ _ => rfl, fun _ => rfl, fun _ => rfl⟩, fun _ => rfl, fun _ => rfl, fun _ => rfl,
    fun _ => rfl, fun _ => rfl⟩

theorem apart_countStarted : Apart countStarted :=
  ⟨⟨fun _ _ _ _ => rfl, fun _ => rfl, fun _ => rfl⟩, fun _ => rfl, fun _ => rfl, fun _ => rfl,
    fun _ => rfl, fun _ => rfl⟩

/-- No idle instance can be leased. -/
def NoneCurrent (e : Engine) : Prop := (firstCurrent e.generation e.pool.items).1 = none

/-- Without an idle instance to lease, a lease fails as the making of one does. -/
theorem lease_of_noneCurrent {s : Stop} {h₁ : Host} (hnone : NoneCurrent h.engine)
    (hnew : newInstance h = .error s h₁) : ∃ h₂, lease h = .error s h₂ := by
  cases hfirst : firstCurrent h.engine.generation h.engine.pool.items with
  | mk found rest =>
    unfold NoneCurrent at hnone
    rw [hfirst] at hnone
    obtain rfl : found = none := hnone
    have hrun : lease h = (newInstance >>= fun i => pure (i, true) : Hosting (Instance × Bool))
        (h.onEngine (withItems rest)) := by
      have hmodify : modifyEngine (withItems rest) h = .ok () (h.onEngine (withItems rest)) := rfl
      unfold lease
      rw [bind_of_ok (engine_eq _), hfirst]
      exact bind_of_ok hmodify
    have hfails := (unread_newInstance (apart_withItems rest)).error hnew
    refine ⟨h₁.onEngine (withItems rest), ?_⟩
    rw [hrun, bind_of_error hfails]

/-- An execution that returns is counted as finished. -/
theorem counted_ok {x : Hosting α} {a : α} (hx : x (h.onEngine countStarted) = .ok a h₁) :
    counted x h = .ok a (h₁.onEngine countFinished) := by
  have hstart : count (·.start) h = .ok () (h.onEngine countStarted) := rfl
  unfold counted
  rw [bind_of_ok hstart, bind_of_ok (observe_of_ok hx)]
  rfl

/-- The engine when an execution is stopped: an error is reported first. -/
def countStopped : Stop → Engine → Engine
  | .error e => fun engine => countFinished (engine.report e)
  | _ => countFinished

theorem counted_of_error {x : Hosting α} {stop : Stop}
    (hx : x (h.onEngine countStarted) = .error stop h₁) :
    counted x h = .error stop (h₁.onEngine (countStopped stop)) := by
  have hstart : count (·.start) h = .ok () (h.onEngine countStarted) := rfl
  unfold counted
  rw [bind_of_ok hstart, bind_of_ok (observe_of_error hx)]
  cases stop <;> rfl

/-- What is counted ends as it would otherwise. -/
theorem counted_error {x : Hosting α} {s : Stop}
    (hx : ∃ h₁, x (h.onEngine countStarted) = .error s h₁) : ∃ h₁, counted x h = .error s h₁ := by
  obtain ⟨h₁, hx⟩ := hx
  exact ⟨_, counted_of_error hx⟩

/-- When no instance can be leased, neither can anything be executed. -/
theorem execute_of_lease {s : Stop} {token : Nat} {code : String} (hcode : isBlank code = false)
    (hlease : ∃ h₁, lease (h.onEngine countStarted) = .error s h₁) :
    ∃ h₁, execute token code h = .error s h₁ := by
  obtain ⟨h₁, hlease⟩ := hlease
  unfold execute
  rw [hcode, if_neg Bool.false_ne_true]
  exact counted_error ⟨h₁, bind_of_error hlease⟩

/-! ## After a load -/

/-- A load of a new name adds the function to the cache, and does nothing else when no instance is
idle. -/
theorem loadFunction_new {name code : String} (hload : loadFunction name code h = .ok () h')
    (hname : h.engine.functions.get? name = none) :
    h'.engine.functions.functions =
        h.engine.functions.functions ++ [CachedFunction.ofSource name code] ∧
      (h.engine.pool.items = [] → h'.onEngine (withFunctions h.engine.functions) = h) := by
  have hhash : h.engine.functions.hashOf? name = none := congrArg (Option.map _) hname
  constructor
  · obtain ⟨-, hnew⟩ := (leaves_loadFunction name code h).ok hload
    rw [hnew (by simp [hhash]), FunctionCache.functions_insert, if_neg]
    rw [FunctionCache.get?_eq_find?, List.find?_eq_none] at hname
    intro hmem
    obtain ⟨f, hf, hfname⟩ := List.mem_map.1 hmem
    exact hname f hf (beq_iff_eq.2 hfname)
  · intro hitems
    unfold loadFunction at hload
    dsimp only at hload
    rw [bind_of_ok (engine_eq _), hhash, if_neg (by simp),
      if_pos (by simp [Pool.idle, hitems])] at hload
    obtain ⟨_, h₁, hcheck, hload⟩ := exists_of_bind_ok hload
    obtain rfl : h = h₁ := by
      unfold checkLoad onTrial at hcheck
      split at hcheck <;> cases hcheck
      rfl
    cases hload
    rfl

/-- A load only compiles: whether the definition runs is found out when an instance is made. Making
one after the load is making one without the function, which is as before the load if no instance was
idle then, and defining the function there. If the definition fails, so do the making and every
execution of a source text that finds no idle instance, with the same error whatever the text. -/
theorem load_unchecked {name code : String} {i : Instance} {h₁ : Host}
    (hload : loadFunction name code h = .ok () h') (hname : h.engine.functions.get? name = none)
    (hnew : newInstance (h'.onEngine (withFunctions h.engine.functions)) = .ok i h₁) :
    let f := CachedFunction.ofSource name code
    (h.engine.pool.items = [] → h'.onEngine (withFunctions h.engine.functions) = h) ∧
      (∀ h₂, define i.script f h₁ = .ok () h₂ →
        newInstance h' = .ok i (h₂.onEngine (withFunctions h'.engine.functions))) ∧
      ∀ s h₂, define i.script f h₁ = .error s h₂ → (∃ h₃, newInstance h' = .error s h₃) ∧
        (NoneCurrent h'.engine → ∀ token source, isBlank source = false →
          ∃ h₃, execute token source h' = .error s h₃) := by
  intro f
  obtain ⟨hfunctions, hsame⟩ := loadFunction_new hload hname
  obtain ⟨hok, herror⟩ := newInstance_append (h := h'.onEngine (withFunctions h.engine.functions))
    hfunctions hnew
  rw [onEngine_withFunctions] at hok herror
  refine ⟨hsame, hok, fun s h₂ hdefine => ⟨herror s h₂ hdefine, ?_⟩⟩
  intro hnone token source hsource
  obtain ⟨h₃, hfails⟩ := herror s h₂ hdefine
  exact execute_of_lease hsource
    (lease_of_noneCurrent hnone ((unread_newInstance apart_countStarted).error hfails))

/-- The text closes the body, so that the definition goes on to negate `nil` when it runs. -/
theorem load_unchecked_negation :
    let load := loadFunction "_ENV" "end local x = -nil do"
    newInstance.succeeds (Host.create {}) = true ∧ load.succeeds (Host.create {}) = true ∧
      ∃ s h₁, newInstance (load.after (Host.create {})) = .error s h₁ ∧
        ∀ token source, isBlank source = false →
          ∃ h₂, execute token source (load.after (Host.create {})) = .error s h₂ := by
  intro load
  have hnew : newInstance.succeeds (Host.create {}) = true := by decide +kernel
  have hload : load.succeeds (Host.create {}) = true := by decide +kernel
  have hidle : (load.after (Host.create {})).engine.pool.items.isEmpty = true := by decide +kernel
  have hdefine : (do define (← newInstance).script (.ofSource "_ENV" "end local x = -nil do") :
      Hosting Unit).succeeds (Host.create {}) = false := by decide +kernel
  have hname : (Host.create {}).engine.functions.get? "_ENV" = none := rfl
  have hempty : (Host.create {}).engine.pool.items = [] := rfl
  generalize Host.create {} = h at *
  refine ⟨hnew, hload, ?_⟩
  obtain ⟨i, hi⟩ := exists_ok_of_succeeds hnew
  obtain ⟨u, hok⟩ := exists_ok_of_succeeds hload
  obtain ⟨s, hs⟩ := exists_error_of_not_succeeds hdefine
  rw [bind_of_ok hi] at hs
  generalize newInstance.after h = h₀ at hi hs
  have hsame := (loadFunction_new hok hname).2 hempty
  obtain ⟨-, -, hfails⟩ := load_unchecked hok hname (hsame.symm ▸ hi)
  obtain ⟨⟨h₁, hbroken⟩, hexecute⟩ := hfails s _ hs
  refine ⟨s, h₁, hbroken, hexecute ?_⟩
  unfold NoneCurrent
  rw [List.isEmpty_iff.1 hidle]
  rfl

end Engine

end LuaMachine
