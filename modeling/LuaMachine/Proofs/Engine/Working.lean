import LuaMachine.Proofs.Engine.Creation
import LuaMachine.Proofs.Engine.Traffic
import LuaMachine.Proofs.Machine.Enduring

/-!
# What executions do besides using the pool

However the definition of a function, the making of a script, the run of a source text in an instance
or a load ends, the pool is as it was, and so are the generation, the host objects and the sink
(`Hosting.Working`). What changes these is elsewhere: taking an instance out and putting one back, and
what outdates instances.
-/

namespace LuaMachine

open Exec

/-- The pool and what instances are made from are the same. -/
structure Engine.SameTerms (e e' : Engine) : Prop where
  config : e'.config = e.config
  pool : e'.pool = e.pool
  generation : e'.generation = e.generation
  objects : e'.objects = e.objects
  sink : e'.sink = e.sink

/-- The terms of the engine are the same, and what scripts should retain is retained. -/
structure Host.Works (h h' : Host) : Prop where
  world : h.world.Retains h'.world
  terms : h.engine.SameTerms h'.engine

variable {h h' h'' : Host}

theorem Engine.SameTerms.refl (e : Engine) : e.SameTerms e := ⟨rfl, rfl, rfl, rfl, rfl⟩

theorem Engine.SameTerms.trans {e e' e'' : Engine} (h₁ : e.SameTerms e') (h₂ : e'.SameTerms e'') :
    e.SameTerms e'' :=
  ⟨h₂.config.trans h₁.config, h₂.pool.trans h₁.pool, h₂.generation.trans h₁.generation,
    h₂.objects.trans h₁.objects, h₂.sink.trans h₁.sink⟩

theorem Host.Works.refl (h : Host) : h.Works h := ⟨.refl _, .refl _⟩

theorem Host.Works.trans (h₁ : h.Works h') (h₂ : h'.Works h'') : h.Works h'' :=
  ⟨h₁.world.trans h₂.world, h₁.terms.trans h₂.terms⟩

namespace Hosting

variable {α β : Type} {x : Hosting α} {f : α → Hosting β}

theorem after_ok {a : α} (hx : x h = .ok a h') : x.after h = h' := by
  unfold after
  rw [hx]

theorem after_error {s : Stop} (hx : x h = .error s h') : x.after h = h' := by
  unfold after
  rw [hx]

theorem after_bind_ok {a : α} (hx : x h = .ok a h') : (x >>= f).after h = (f a).after h' := by
  unfold after
  rw [bind_of_ok hx]

theorem after_bind_error {s : Stop} (hx : x h = .error s h') : (x >>= f).after h = h' :=
  after_error (bind_of_error hx)

/-- What is observed happened. -/
theorem observe_eq (x : Hosting α) (h : Host) : (∃ a, x h = .ok a (x.after h) ∧
      observe x h = .ok (.ok a) (x.after h)) ∨
    ∃ s, x h = .error s (x.after h) ∧ observe x h = .ok (.error s) (x.after h) := by
  unfold observe
  cases hx : x h with
  | ok a h' =>
    rw [after_ok hx]
    exact .inl ⟨a, rfl, rfl⟩
  | error s h' =>
    rw [after_error hx]
    exact .inr ⟨s, rfl, rfl⟩

/-- A computation takes a host to another one, however it ends. -/
def Always (R : Host → Host → Prop) (x : Hosting α) : Prop := ∀ h : Host, R h (x.after h)

theorem Always.ok {R : Host → Host → Prop} {h h' : Host} {a : α} (hx : x.Always R)
    (hok : x h = .ok a h') : R h h' := after_ok hok ▸ hx h

theorem Always.error {R : Host → Host → Prop} {h h' : Host} {s : Stop} (hx : x.Always R)
    (herror : x h = .error s h') : R h h' := after_error herror ▸ hx h

theorem Always.bind {R : Host → Host → Prop}
    (htrans : ∀ {h h' h'' : Host}, R h h' → R h' h'' → R h h'') (hx : x.Always R)
    (hf : ∀ a, (f a).Always R) : (x >>= f).Always R := by
  intro h
  cases hresult : x h with
  | ok a h' =>
    rw [after_bind_ok hresult]
    exact htrans (hx.ok hresult) (hf a h')
  | error s h' =>
    rw [after_bind_error hresult]
    exact hx.error hresult

theorem after_observe (x : Hosting α) (h : Host) : (observe x).after h = x.after h := by
  rcases observe_eq x h with ⟨a, -, hok⟩ | ⟨s, -, hok⟩ <;> exact after_ok hok

theorem Always.observe {R : Host → Host → Prop} (hx : x.Always R) : (observe x).Always R :=
  fun h => after_observe x h ▸ hx h

theorem Always.forM {R : Host → Host → Prop} (hrefl : ∀ h, R h h)
    (htrans : ∀ {h h' h'' : Host}, R h h' → R h' h'' → R h h'') {f : α → Hosting Unit} (as : List α)
    (hf : ∀ a, (f a).Always R) : (as.forM f).Always R := by
  induction as with
  | nil => exact hrefl
  | cons a rest ih => exact (hf a).bind htrans fun _ => ih

theorem Always.mapM {R : Host → Host → Prop} (hrefl : ∀ h, R h h)
    (htrans : ∀ {h h' h'' : Host}, R h h' → R h' h'' → R h h'') {f : α → Hosting β} (as : List α)
    (hf : ∀ a, (f a).Always R) : (as.mapM f).Always R := by
  induction as with
  | nil => exact hrefl
  | cons a rest ih =>
    rw [List.mapM_cons]
    exact (hf a).bind htrans fun _ => ih.bind htrans fun _ => hrefl

/-- What happens in the world of the scripts, and what it leaves there. -/
theorem always_inWorld {R : World → World → Prop} {y : Exec α} (hy : y.Ends R) :
    (inWorld y).Always fun h h' => R h.world h'.world ∧ h'.engine = h.engine := by
  intro h
  unfold after inWorld
  cases hresult : y h.world with
  | ok a w => exact ⟨hy.ok hresult, rfl⟩
  | error s w => exact ⟨hy.error hresult, rfl⟩

theorem after_onTrial (y : Exec α) (h : Host) : (onTrial y).after h = h := by
  unfold after onTrial
  cases y h.world <;> rfl

/-- A computation works beside the pool. -/
abbrev Working (x : Hosting α) : Prop := x.Always Host.Works

theorem working_pure (a : α) : Working (pure a) := Host.Works.refl

theorem working_throw (s : Stop) : Working (throw s : Hosting α) := Host.Works.refl

theorem Working.bind (hx : Working x) (hf : ∀ a, Working (f a)) : Working (x >>= f) :=
  Always.bind Host.Works.trans hx hf

theorem working_engine : Working engine := Host.Works.refl

theorem working_modifyEngine {g : Engine → Engine} (hg : ∀ e : Engine, e.SameTerms (g e)) :
    Working (modifyEngine g) :=
  fun h => ⟨.refl _, hg h.engine⟩

theorem working_count (g : Statistics → Statistics) : Working (count g) :=
  working_modifyEngine fun _ => ⟨rfl, rfl, rfl, rfl, rfl⟩

theorem working_report (e : ScriptError) : Working (modifyEngine (·.report e)) :=
  working_modifyEngine fun _ => ⟨rfl, rfl, rfl, rfl, rfl⟩

theorem working_inWorld {y : Exec α} (hy : Retaining y) : Working (inWorld y) := fun h =>
  have hleft := always_inWorld hy h
  ⟨hleft.1, hleft.2 ▸ .refl _⟩

theorem working_onScript {y : Exec α} (hy : Retaining y) (id : ScriptId) : Working (onScript id y) :=
  working_inWorld (enduring_retains.ends_within hy id)

theorem working_onTrial (y : Exec α) : Working (onTrial y) :=
  fun h => (after_onTrial y h).symm ▸ .refl h

theorem Working.observe (hx : Working x) : Working (observe x) := Always.observe hx

theorem working_forM {f : α → Hosting Unit} (as : List α) (hf : ∀ a, Working (f a)) :
    Working (as.forM f) :=
  Always.forM .refl .trans as hf

theorem working_mapM {f : α → Hosting β} (as : List α) (hf : ∀ a, Working (f a)) :
    Working (as.mapM f) :=
  Always.mapM .refl .trans as hf

end Hosting

namespace Engine

open Hosting

theorem retaining_loadString (code : String) (name : Option String) :
    Retaining (loadString code none name) :=
  (quiet_loadString code none name).retaining

theorem working_setVersion (id : ScriptId) (f : CachedFunction) :
    Working (modifyEngine (·.setVersion id f.name f.hash)) :=
  working_modifyEngine fun _ => ⟨rfl, rfl, rfl, rfl, rfl⟩

theorem working_define (id : ScriptId) (f : CachedFunction) : Working (define id f) :=
  (working_onScript (retaining_loadString _ _) id).bind fun _ =>
    (working_onScript (Script.aside_setGlobal _ _).retaining id).bind fun _ =>
    (working_onScript (Script.retaining_call _ _) id).bind fun _ =>
    (working_setVersion id f).bind fun _ => working_count _

theorem working_discard (i : Instance) : Working (discard i) := working_count _

/-! ## Texts -/

theorem retaining_runText (token : Nat) (code : String) (name : Option String) :
    Retaining (do Script.callWith token (← loadString code none name) []) :=
  (retaining_loadString code name).bind fun f => Script.retaining_callWith token f []

/-- Besides what the global script does, its error may be reported. -/
theorem always_runGlobalScript {R : Host → Host → Prop} (hrefl : ∀ h, R h h)
    (htrans : ∀ {h h' h'' : Host}, R h h' → R h' h'' → R h h'') {id : ScriptId} {token : Nat}
    (hrun : ∀ (code : String) (name : Option String), (onScript id do
      Script.callWith token (← loadString code none name) []).Always R)
    (hreport : ∀ e : ScriptError, (modifyEngine (·.report e)).Always R) :
    (runGlobalScript id token).Always R := by
  unfold runGlobalScript
  refine Always.bind htrans hrefl fun e => ?_
  cases e.globalScript with
  | none => exact hrefl
  | some code =>
    dsimp only
    split
    · exact hrefl
    · refine Always.bind htrans (hrun code _).observe fun outcome => ?_
      split
      · exact hrefl
      · exact hrefl
      · exact hreport _
      · exact hrefl

theorem working_runGlobalScript (id : ScriptId) (token : Nat) :
    Working (runGlobalScript id token) :=
  always_runGlobalScript .refl .trans
    (fun code name => working_onScript (retaining_runText token code name) id) working_report

/-! ## Functions -/

theorem working_noteRun (f : CachedFunction) (wasThere : Bool) : Working (noteRun f wasThere) := by
  have hmark : Working (modifyEngine fun e =>
      { e with functions := e.functions.markExecuted f.name f.hash }) :=
    working_modifyEngine fun _ => ⟨rfl, rfl, rfl, rfl, rfl⟩
  unfold noteRun
  refine working_engine.bind fun e => hmark.bind fun _ => ?_
  split
  · exact working_count _
  · exact working_pure ()

theorem working_refresh (id : ScriptId) (name : String) (cached : Option CachedFunction) :
    Working (refresh id name cached) := by
  unfold refresh
  refine working_engine.bind fun e => ?_
  dsimp only
  cases cached with
  | none => exact working_pure _
  | some f =>
    split
    · exact (working_define id f).bind fun _ => working_pure _
    · exact working_pure _

theorem working_redefine (f : CachedFunction) (id : ScriptId) (chunk : Value) :
    Working (redefine f id chunk) := by
  unfold redefine
  refine (working_onScript (Script.aside_setGlobal _ _).retaining id).bind fun _ => ?_
  refine (working_onScript (Script.retaining_call _ _) id).observe.bind fun outcome => ?_
  split
  · exact (working_setVersion id f).bind fun _ => working_count _
  · exact working_modifyEngine fun _ => ⟨rfl, rfl, rfl, rfl, rfl⟩
  · exact working_throw _

theorem working_loadFunction (name code : String) : Working (loadFunction name code) := by
  unfold loadFunction
  generalize CachedFunction.ofSource name code = f
  have hinsert : Working (modifyEngine fun e => { e with functions := e.functions.insert f }) :=
    working_modifyEngine fun _ => ⟨rfl, rfl, rfl, rfl, rfl⟩
  have hloads : ∀ ids : List ScriptId, Working (ids.mapM fun id =>
      onScript id (loadString f.definition none name)) :=
    fun ids => working_mapM ids fun id => working_onScript (retaining_loadString _ _) id
  have hredefined : ∀ ps : List (ScriptId × Value), Working (ps.forM fun p => redefine f p.1 p.2) :=
    fun ps => working_forM ps fun p => working_redefine f p.1 p.2
  refine working_engine.bind fun e => ?_
  dsimp only
  split
  · exact working_pure ()
  · split
    · exact (working_onTrial _).bind fun _ => hinsert
    · exact (hloads _).bind fun chunks => (hredefined _).bind fun _ => hinsert

end Engine

end LuaMachine
