import LuaMachine.Proofs.Coroutine.Resumption
import LuaMachine.Proofs.Engine.Creation
import LuaMachine.Proofs.Engine.Equipment
import LuaMachine.Proofs.Engine.Traffic
import LuaMachine.Proofs.Script.Loading

/-!
# Calls by name after executions

A call by name defines the function in its instance only if another version is recorded there, and
then looks up the global variable of that name. Executions change the variable as they like, but no
record. So a script that clears the variable of a loaded function, or overwrites it, hides the
function from all later calls in that instance (`Engine.hidden_after_execute`). The text `f = nil` does
so (`Engine.execute_clearing`).
-/

namespace LuaMachine

namespace Hosting

variable {α β : Type} {h : Host} {x : Hosting α} {P : Engine → Prop}

/-- Something holds of the engine however a computation ends. -/
def Keeps (x : Hosting α) (P : Engine → Prop) : Prop :=
  ∀ h, P h.engine → x.Leaves h (fun _ => P) P

theorem Keeps.bind {f : α → Hosting β} (hx : x.Keeps P) (hf : ∀ a, (f a).Keeps P) :
    (x >>= f).Keeps P :=
  fun h hP => (hx h hP).bind fun a h' _ hP' => hf a h' hP'

theorem keeps_pure (a : α) : (pure a : Hosting α).Keeps P := fun _ hP => .pure a hP

theorem keeps_throw (s : Stop) : (throw s : Hosting α).Keeps P := fun _ hP => .throw s hP

theorem keeps_inWorld (x : Exec α) : (inWorld x).Keeps P := fun h hP =>
  (leaves_inWorld x h).mono (fun _ _ he => he ▸ hP) fun _ he => he ▸ hP

theorem keeps_modifyEngine {g : Engine → Engine} (hg : ∀ e, P e → P (g e)) :
    (modifyEngine g).Keeps P := fun h hP => .modifyEngine (hg h.engine hP)

theorem Keeps.engine_bind {f : Engine → Hosting β} (hf : ∀ e, (f e).Keeps P) :
    (engine >>= f).Keeps P := fun h hP => .engine_bind (hf h.engine h hP)

theorem Leaves.observe (hx : x.Leaves h (fun _ => P) P) : (observe x).Leaves h (fun _ => P) P := by
  constructor
  · intro a h' hok
    unfold Hosting.observe at hok
    split at hok
    · next b h₁ hb =>
      cases hok
      exact hx.ok hb
    · next s h₁ hs =>
      cases hok
      exact hx.error hs
  · intro s h' herr
    unfold Hosting.observe at herr
    split at herr <;> cases herr

end Hosting

namespace Engine

open Hosting

variable {α : Type} {h h' h₀ h₁ h₂ : Host} {i : Instance} {isNew : Bool} {f : CachedFunction}
  {name : String} {P : Engine → Prop}

/-! ## What executions leave as it is -/

/-- The records and the cache are as they were. -/
structure SameRecords (e e' : Engine) : Prop where
  versions : e'.versions = e.versions
  functions : e'.functions = e.functions

theorem SameRecords.refl (e : Engine) : e.SameRecords e := ⟨rfl, rfl⟩

/-- The records after any computation that starts with given ones. -/
theorem keeps_count (e : Engine) (g : Statistics → Statistics) :
    (count g).Keeps e.SameRecords :=
  keeps_modifyEngine fun _ he => ⟨he.versions, he.functions⟩

theorem keeps_release (e : Engine) (i : Instance) : (release i).Keeps e.SameRecords := by
  intro h hP
  refine (leaves_release i h).mono ?_ fun _ he => he ▸ hP
  rintro _ e' ⟨hfunctions, -, hversions⟩
  exact ⟨hversions.trans hP.versions, hfunctions.trans hP.functions⟩

theorem keeps_runGlobalScript (e : Engine) (id : ScriptId) (token : Nat) :
    (runGlobalScript id token).Keeps e.SameRecords := by
  unfold runGlobalScript
  refine Keeps.engine_bind fun e' => ?_
  cases e'.globalScript with
  | none => exact keeps_pure _
  | some code =>
    dsimp only
    split
    · exact keeps_pure _
    · refine Keeps.bind (fun h hP => (keeps_inWorld _ h hP).observe) fun outcome => ?_
      split
      · exact keeps_pure _
      · exact keeps_throw _
      · exact keeps_modifyEngine fun _ he => ⟨he.versions, he.functions⟩
      · exact keeps_throw _

/-- What is done on an instance leaves the records as the lease left them. -/
theorem leaves_withInstance {x : Instance → Bool → Hosting α}
    (hlease : lease h = .ok (i, isNew) h₀)
    (hx : ∀ i isNew, (x i isNew).Keeps h₀.engine.SameRecords) :
    (withInstance x).Leaves h (fun _ => h₀.engine.SameRecords) h₀.engine.SameRecords := by
  unfold withInstance
  refine Leaves.bind (Q := fun _ => h₀.engine.SameRecords) ?_ ?_
  · exact .of_ok hlease (.refl _)
  · rintro ⟨j, isNew'⟩ h₁ - hP
    refine (hx j isNew' h₁ hP).observe.bind fun outcome h₂ _ hP₂ => ?_
    have hdone : ∀ {β : Type} (y : Hosting β), y.Keeps h₀.engine.SameRecords →
        (do release j; y).Leaves h₂ (fun _ => h₀.engine.SameRecords) h₀.engine.SameRecords :=
      fun y hy => ((keeps_release _ j).bind fun _ => hy) h₂ hP₂
    match outcome with
    | .ok a => exact hdone _ (keeps_pure a)
    | .error (.panic message) =>
      exact ((keeps_count _ _).bind fun _ => keeps_throw _) h₂ hP₂
    | .error (.error e) => exact hdone _ (keeps_throw _)
    | .error .exhausted => exact hdone _ (keeps_throw _)

theorem leaves_counted {x : Hosting α} {e : Engine}
    (hx : x.Leaves (h.onEngine countStarted) (fun _ => e.SameRecords) e.SameRecords) :
    (counted x).Leaves h (fun _ => e.SameRecords) e.SameRecords := by
  unfold counted
  refine Leaves.modifyEngine_bind ?_
  refine hx.observe.bind fun outcome h₁ _ hP₁ => ?_
  have hdone : ∀ {β : Type} (y : Hosting β), y.Keeps e.SameRecords →
      (do count (·.finish); y).Keeps e.SameRecords := fun y hy => (keeps_count e _).bind fun _ => hy
  match outcome with
  | .ok a => exact hdone _ (keeps_pure a) h₁ hP₁
  | .error (.error err) =>
    have hreport : (modifyEngine (·.report err)).Keeps e.SameRecords :=
      keeps_modifyEngine fun _ he => ⟨he.versions, he.functions⟩
    exact (hreport.bind fun _ => hdone _ (keeps_throw _)) h₁ hP₁
  | .error (.panic message) => exact hdone _ (keeps_throw _) h₁ hP₁
  | .error .exhausted => exact hdone _ (keeps_throw _) h₁ hP₁

/-! ## The lease of an execution -/

/-- A lease does not read the statistics. -/
theorem unread_lease : Unread countStarted lease := by
  unfold lease
  refine Unread.engine_bind (fun _ => rfl) fun e => ?_
  dsimp only
  cases firstCurrent e.generation e.pool.items with
  | mk found rest =>
    have hitems : Unread countStarted (modifyEngine (withItems rest)) := .modifyEngine fun _ => rfl
    refine hitems.bind fun _ => ?_
    cases found with
    | some i => exact .pure _
    | none => exact (unread_newInstance apart_countStarted).bind fun _ => .pure _

/-- The lease of an idle instance changes nothing but the list of them. -/
theorem lease_idle (hlease : lease h = .ok (i, false) h') :
    ∃ items, h' = h.onEngine (withItems items) := by
  unfold lease at hlease
  rw [bind_of_ok (engine_eq _)] at hlease
  dsimp only at hlease
  cases hfirst : firstCurrent h.engine.generation h.engine.pool.items with
  | mk found rest =>
    rw [hfirst] at hlease
    have hmodify : modifyEngine (withItems rest) h = .ok () (h.onEngine (withItems rest)) := rfl
    replace hlease := (bind_of_ok hmodify).symm.trans hlease
    cases found with
    | some j =>
      cases hlease
      exact ⟨rest, rfl⟩
    | none =>
      obtain ⟨j, h₁, -, hnew⟩ := exists_of_bind_ok hlease
      cases hnew

/-- The latest idle instance is leased, if it is current. -/
theorem lease_head {i : Instance} {rest : List Instance} (hitems : h.engine.pool.items = i :: rest)
    (hcurrent : i.generation = h.engine.generation) :
    lease h = .ok (i, false) (h.onEngine (withItems rest)) := by
  have hmodify : modifyEngine (withItems rest) h = .ok () (h.onEngine (withItems rest)) := rfl
  have hfirst : firstCurrent h.engine.generation (i :: rest) = (some i, rest) := by
    simp [firstCurrent, hcurrent]
  unfold lease
  rw [bind_of_ok (engine_eq _), hitems, hfirst]
  exact bind_of_ok hmodify

/-- An execution leaves the records and the cache as its lease left them. -/
theorem leaves_execute {token : Nat} {code : String} (hcode : isBlank code = false)
    (hlease : lease h = .ok (i, isNew) h₀) :
    (execute token code).Leaves h (fun _ => h₀.engine.SameRecords) h₀.engine.SameRecords := by
  unfold execute
  rw [hcode, if_neg Bool.false_ne_true]
  refine leaves_counted ((leaves_withInstance (unread_lease.ok hlease) fun j _ => ?_).mono ?_ ?_)
  · exact (keeps_runGlobalScript _ _ _).bind fun _ => keeps_inWorld _
  · exact fun _ _ he => ⟨he.versions, he.functions⟩
  · exact fun _ he => ⟨he.versions, he.functions⟩

/-! ## Looking a function up -/

/-- The value of a global variable of an instance. -/
def globalOf (h : Host) (id : ScriptId) (name : String) : Value :=
  h.world.heap.getField (h.world.scripts.getD id.index default).globals name

theorem onScript_getGlobal (id : ScriptId) (name : String) (h : Host) :
    onScript id (Script.getGlobal name) h = .ok (globalOf h id name) h := rfl

/-- An instance is always given back. -/
theorem release_ok (i : Instance) (h : Host) : ∃ h', release i h = .ok () h' := by
  unfold release
  have hidle : ∃ b, onScript i.script Script.isIdle h = .ok b h := ⟨_, rfl⟩
  obtain ⟨b, hidle⟩ := hidle
  rw [bind_of_ok hidle]
  cases b <;> exact ⟨_, rfl⟩

/-- What an execution on an instance fails with is what it ends with, unless host code broke down. -/
theorem withInstance_error {x : Instance → Bool → Hosting α} {e : ScriptError}
    (hlease : lease h = .ok (i, isNew) h₀) (hx : ∃ h₁, x i isNew h₀ = .error (.error e) h₁) :
    ∃ h₂, withInstance x h = .error (.error e) h₂ := by
  obtain ⟨h₁, hx⟩ := hx
  obtain ⟨h₂, hrelease⟩ := release_ok i h₁
  unfold withInstance
  rw [bind_of_ok hlease]
  dsimp only
  rw [bind_of_ok (observe_of_error hx)]
  dsimp only
  rw [bind_of_ok hrelease]
  exact ⟨h₂, rfl⟩

/-- A call by name in an instance where the current version is recorded and the global variable of
that name cannot be called. -/
theorem executeFunction_hidden (token : Nat) (args : List Value)
    (hlease : lease h = .ok (i, isNew) h₀) (hcached : h.engine.functions.get? name = some f)
    (hversion : h₀.engine.version? i.script name = some f.hash)
    (hglobal : (globalOf h₀ i.script name).isCallable = false) :
    ∃ h₁, executeFunction token name args h = .error (.error (.functionNotFound name)) h₁ := by
  have hengine : engine (h.onEngine countStarted) = .ok (countStarted h.engine) _ := rfl
  have hengine₀ : engine (h₀.onEngine countStarted) = .ok (countStarted h₀.engine) _ := rfl
  have hcached' : (countStarted h.engine).functions.get? name = some f := hcached
  have hversion' : (countStarted h₀.engine).version? i.script name = some f.hash := hversion
  refine counted_error ?_
  rw [bind_of_ok hengine, hcached']
  refine withInstance_error (unread_lease.ok hlease) ⟨h₀.onEngine countStarted, ?_⟩
  rw [bind_of_ok hengine₀, hversion']
  have hfresh : (some f).any (fun f' => some f.hash != some f'.hash) = false := by simp
  rw [hfresh, if_neg Bool.false_ne_true]
  change (onScript i.script (Script.getGlobal name) >>= _) _ = _
  rw [bind_of_ok (onScript_getGlobal i.script name _)]
  have hglobal' : (globalOf (h₀.onEngine countStarted) i.script name).isCallable = false := hglobal
  rw [hglobal']
  rfl

/-- An execution leaves the record of a function in its instance as it is, whatever it runs and
however it ends. If the global variable of that name cannot be called afterwards, a call by name that
gets the instance again does not find the function, though it is loaded. -/
theorem hidden_after_execute {token : Nat} {code : String} {outcome : Except Stop Value}
    (hcached : h.engine.functions.get? name = some f) (hcode : isBlank code = false)
    (hlease : lease h = .ok (i, isNew) h₀)
    (hversion : h₀.engine.version? i.script name = some f.hash)
    (hexecute : observe (execute token code) h = .ok outcome h₁) :
    h₁.engine.functions.get? name = some f ∧ h₁.engine.version? i.script name = some f.hash ∧
      ∀ h₂, lease h₁ = .ok (i, false) h₂ → (globalOf h₁ i.script name).isCallable = false →
        ∀ token' args, ∃ h₃,
          executeFunction token' name args h₁ = .error (.error (.functionNotFound name)) h₃ := by
  have hsame : h₀.engine.SameRecords h₁.engine := (leaves_execute hcode hlease).observe.ok hexecute
  have hcached₁ : h₁.engine.functions.get? name = some f := by
    rw [hsame.functions, ((leaves_lease h).ok hlease).1.functions, hcached]
  have hversion₁ : h₁.engine.version? i.script name = some f.hash := by
    rw [version?_congr hsame.versions, hversion]
  refine ⟨hcached₁, hversion₁, fun h₂ hagain hglobal token' args => ?_⟩
  -- The instance is the old one, so the lease changes no record and no variable.
  obtain ⟨items, rfl⟩ := lease_idle hagain
  exact executeFunction_hidden token' args hagain hcached₁ hversion₁ hglobal

/-! ## A text that clears a function -/

/-- A text that was loaded and run without an error, where there is no global script. -/
theorem execute_ok {token : Nat} {code : String} {v : Value} (hcode : isBlank code = false)
    (hlease : lease (h.onEngine countStarted) = .ok (i, isNew) h₀)
    (hglobal : h₀.engine.globalScript = none)
    (hrun : onScript i.script (do Script.callWith token (← Exec.loadString code none none) []) h₀ =
      .ok v h₁) (hrelease : release i h₁ = .ok () h₂) :
    execute token code h = .ok v (h₂.onEngine countFinished) := by
  have hnone : runGlobalScript i.script token h₀ = .ok () h₀ := by
    unfold runGlobalScript
    rw [bind_of_ok (engine_eq _), hglobal]
    rfl
  unfold execute
  rw [hcode, if_neg Bool.false_ne_true]
  refine counted_ok ((bind_of_ok hlease).trans ?_)
  exact (bind_of_ok (observe_of_ok ((bind_of_ok hnone).trans hrun))).trans (bind_of_ok hrelease)

/-- A script that has run nothing. -/
def bareScript : Script := { options := {}, globals := ⟨0⟩, registry := ⟨1⟩, main := ⟨0⟩ }

/-- A host whose idle instance has the function `f`: it is recorded, and the global variable of that
name holds it. -/
def definedHost : Host :=
  { engine :=
      { config := {}, adapters := {}, globalScript := none
        functions := ({} : FunctionCache).insert (.ofSource "f" "return 1")
        versions := [((⟨0⟩, "f"), (CachedFunction.ofSource "f" "return 1").hash)]
        pool := { maxIdle := 1, items := [⟨⟨0⟩, 0⟩] } }
    world :=
      { heap :=
          { tables := #[Table.empty.setString "f" (.function ⟨0⟩)]
            closures := #[⟨⟨0⟩, 0, #[]⟩] }
        scripts := #[bareScript] } }

theorem globalOf_definedHost : globalOf definedHost ⟨0⟩ "f" = .function ⟨0⟩ :=
  (Table.sound_empty.getString_setString "f").trans (if_pos rfl)

/-- The code of `f = nil`. -/
structure Clears (code : Listing) : Prop where
  header : ∃ name kind size, code 0 = some (.header name kind size)
  begin : code 1 = some (.beginFn [])
  args : code 2 = some (.args 0 true)
  literal : code 3 = some (.literal .nil)
  tuple : code 4 = some (.makeTuple 1)
  store : ∃ env, code 5 = some (.store (.global "f" (.upvalue env 0)) 0)
  pop : code 6 = some (.pop 1)
  ret : code 7 = some (.ret 0)

/-- What is checked of the text by compiling it. -/
def compilesToClear : Bool :=
  match bareScript.code.compile
    { chunk := s!"chunk_{bareScript.sources.size}", source := bareScript.sources.size } "f = nil" with
  | .ok (chunk, code) => chunk.entry == 0 && chunk.hasEnv &&
    match code.ops 0, code.ops 1, code.ops 2, code.ops 3, code.ops 4, code.ops 5, code.ops 6,
      code.ops 7 with
    | some (.header ..), some (.beginFn []), some (.args 0 true), some (.literal .nil),
      some (.makeTuple 1), some (.store (.global name (.upvalue _ 0)) 0), some (.pop 1),
      some (.ret 0) => name == "f"
    | _, _, _, _, _, _, _, _ => false
  | .error _ => false

/-- The instance with the loaded text, and the thread that is inside. -/
def readWorld (code : Segment) (spans : List Span) (owner : Option String) : World :=
  { definedHost.world with
    heap := (definedHost.world.heap.addCell (.table ⟨0⟩)).addClosure ⟨⟨0⟩, 0, #[(envName, ⟨0⟩)]⟩
    scripts := #[{ bareScript with
      code, owner
      sources := #[{ id := 0, name := s!"chunk_{0}", code := "f = nil", owner := ⟨0⟩, spans }] }] }

theorem exists_readWorld : ∃ code spans, Clears code.ops ∧
    Exec.loadString "f = nil" none none definedHost.world =
      .ok (.function ⟨1⟩) (readWorld code spans none) := by
  -- Only the listing is evaluated; the rest of the loading is followed step by step.
  have hcheck : compilesToClear = true := by decide +kernel
  unfold compilesToClear at hcheck
  split at hcheck
  · next chunk code hcompile =>
    simp only [Bool.and_eq_true, beq_iff_eq] at hcheck
    obtain ⟨⟨hentry, henv⟩, hcheck⟩ := hcheck
    split at hcheck
    · next n kind size name env h₀ h₁ h₂ h₃ h₄ h₅ h₆ h₇ =>
      obtain rfl : name = "f" := by simpa using hcheck
      refine ⟨code, chunk.spans, ⟨⟨_, _, _, h₀⟩, h₁, h₂, h₃, h₄, ⟨env, h₅⟩, h₆, h₇⟩, ?_⟩
      have hcount : Exec.modifyScript (fun s => { s with counters := s.counters.countCompilation })
          definedHost.world = .ok () definedHost.world := rfl
      have hscript : Exec.script definedHost.world = .ok bareScript definedHost.world := rfl
      rw [Exec.loadString_source (by decide)]
      unfold Exec.compile
      rw [Exec.bind_ok hcount, Exec.bind_ok hscript, Exec.bind_ok (Exec.get_eq _)]
      dsimp only [Option.getD]
      rw [hcompile]
      dsimp only
      rw [hentry, henv]
      rfl
    · cases hcheck
  · cases hcheck

/-- The machine in the function of the text. -/
def inText (w : World) (heap : Heap) (values : Array Value) (ip : Nat) : World :=
  let frame : ScriptFrame :=
    { closure := ⟨⟨0⟩, 0, #[(envName, ⟨0⟩)]⟩, base := 0, returnAddress := none, callSite := none }
  { w.nested with heap, processor := { frames := #[.script frame], values, ip } }

/-- Assignment to a global variable that holds a value runs no handler. -/
theorem assignSymbol_global (r : Reentry) {w : World} {env : Symbol} {id : TableId} (v : Value)
    (henv : r.readSymbol env w = .ok (.table id) w)
    (hheld : (w.heap.getField id name).isNil = false) :
    r.assignSymbol (.global name env) v w =
      .ok () { w with heap := w.heap.setField id name v.scalar } := by
  have hindex : (w.heap.getIndex id (.string name)).isNil = false := hheld
  refine (Exec.bind_ok henv).trans ?_
  change r.setIndexFrom (.string name) v.scalar 100 (.table id) w = _
  unfold Reentry.setIndexFrom
  dsimp only
  rw [Exec.bind_ok (Exec.heap_eq _), hindex]
  rfl

/-- The function of the text clears the variable. -/
theorem run_clearing (r : Reentry) {code : Segment} (hcode : Clears code.ops) (spans : List Span) :
    let w := readWorld code spans (some definedHost.world.thread)
    r.run 0 stepLimit (inText w w.heap #[] 0) = .ok (.returned .void)
      { w.nested with heap := w.heap.setField ⟨0⟩ "f" .nil, processor := { ip := 7 } } := by
  intro w
  obtain ⟨n, kind, size, hheader⟩ := hcode.header
  obtain ⟨env, hstore⟩ := hcode.store
  let h := w.heap.setField ⟨0⟩ "f" .nil
  have hassign : r.assignSymbol (.global "f" (.upvalue env 0)) .nil (inText w w.heap #[.nil] 5) =
      .ok () (inText w h #[.nil] 5) :=
    assignSymbol_global r .nil rfl (congrArg Value.isNil globalOf_definedHost)
  have p₁ : r.Passes 0 1 (inText w w.heap #[] 0) (inText w w.heap #[] 1) :=
    .one rfl hheader fun _ => rfl
  have p₂ : r.Passes 0 1 (inText w w.heap #[] 1) (inText w w.heap #[] 2) :=
    .one rfl hcode.begin fun _ => rfl
  have p₃ : r.Passes 0 1 (inText w w.heap #[] 2) (inText w w.heap #[] 3) :=
    .one rfl hcode.args fun _ => rfl
  have p₄ : r.Passes 0 1 (inText w w.heap #[] 3) (inText w w.heap #[.nil] 4) :=
    .one rfl hcode.literal fun _ => rfl
  have p₅ : r.Passes 0 1 (inText w w.heap #[.nil] 4) (inText w w.heap #[.nil] 5) :=
    .one rfl hcode.tuple fun _ => rfl
  have p₆ : r.Passes 0 1 (inText w w.heap #[.nil] 5) (inText w h #[.nil] 6) :=
    .one rfl hstore fun _ => Exec.bind_ok hassign
  have p₇ : r.Passes 0 1 (inText w h #[.nil] 6) (inText w h #[] 7) :=
    .one rfl hcode.pop fun _ => rfl
  have hlimit : stepLimit = 7 + (stepLimit - 8 + 1) := rfl
  rw [hlimit, ((((((p₁.trans p₂).trans p₃).trans p₄).trans p₅).trans p₆).trans p₇).run_eq]
  exact Reentry.run_last rfl hcode.ret fun _ => rfl

/-- The text returns, its instance is idle again, and the variable has no value. -/
theorem execute_clearing : ∃ h₁, execute 0 "f = nil" definedHost = .ok .void h₁ ∧
    h₁.engine.pool.items = [⟨⟨0⟩, 0⟩] ∧ h₁.engine.generation = 0 ∧ globalOf h₁ ⟨0⟩ "f" = .nil := by
  obtain ⟨code, spans, hcode, hload⟩ := exists_readWorld
  let w := readWorld code spans none
  let w' := { w with heap := w.heap.setField ⟨0⟩ "f" .nil }
  have hcall : ∀ r : Reentry, r.callScript 0 (.function ⟨1⟩) [] w = .ok .void w' := by
    intro r
    let w₁ := readWorld code spans (some definedHost.world.thread)
    have hacquire : Reentry.acquire w = .ok () w₁ := rfl
    have hnest : w₁.MayNest := Nat.zero_lt_succ _
    have henter : Exec.enterClosure ⟨1⟩ [] none none w₁.nested = .ok () (inText w₁ w₁.heap #[] 0) := rfl
    have hrun := Reentry.callFunction_ok hnest henter (run_clearing r hcode spans)
    exact (Exec.bind_ok hacquire).trans (Exec.andSettle_ok (Exec.andFinally_ok hrun))
  have hscript : (do Script.callWith 0 (← Exec.loadString "f = nil" none none) [])
      { definedHost.world with active := ⟨0⟩ } = .ok .void w' := by
    have hactive : { definedHost.world with active := ⟨0⟩ } = definedHost.world := rfl
    rw [hactive]
    exact (Exec.bind_ok hload).trans (hcall _)
  let h₀ := (definedHost.onEngine countStarted).onEngine (withItems [])
  let h₁ : Host := { h₀ with world := { w' with active := definedHost.world.active } }
  have hrun : onScript ⟨0⟩ (do Script.callWith 0 (← Exec.loadString "f = nil" none none) []) h₀ =
      .ok .void h₁ := inWorld_of_ok (h := h₀) (Exec.within_of_ok hscript)
  have hlease : lease (definedHost.onEngine countStarted) = .ok (⟨⟨0⟩, 0⟩, false) h₀ :=
    lease_head rfl rfl
  have hrelease : release ⟨⟨0⟩, 0⟩ h₁ = .ok () (h₁.onEngine (withItems [⟨⟨0⟩, 0⟩])) := rfl
  refine ⟨_, execute_ok rfl hlease rfl hrun hrelease, rfl, rfl, ?_⟩
  exact (Table.sound_empty.setString.getString_setString "f").trans (if_pos rfl)

/-- The function is loaded and defined, and it is not found once the text has cleared its variable. -/
theorem hidden_after_execute_cleared : (globalOf definedHost ⟨0⟩ "f").isCallable = true ∧
    ∃ v h₁ h₂, execute 0 "f = nil" definedHost = .ok v h₁ ∧
      executeFunction 0 "f" [] h₁ = .error (.error (.functionNotFound "f")) h₂ := by
  obtain ⟨h₁, hexecute, hitems, hgeneration, hglobal⟩ := execute_clearing
  have hcached : definedHost.engine.functions.get? "f" = some (.ofSource "f" "return 1") := rfl
  have hlease : lease definedHost = .ok (⟨⟨0⟩, 0⟩, false) (definedHost.onEngine (withItems [])) :=
    lease_head rfl rfl
  obtain ⟨-, -, hhidden⟩ :=
    hidden_after_execute hcached rfl hlease (by decide +kernel) (observe_of_ok hexecute)
  have hcleared : (globalOf h₁ ⟨0⟩ "f").isCallable = false := congrArg Value.isCallable hglobal
  obtain ⟨h₂, hcall⟩ := hhidden _ (lease_head hitems hgeneration.symm) hcleared 0 []
  exact ⟨congrArg Value.isCallable globalOf_definedHost, _, h₁, h₂, hexecute, hcall⟩

end Engine

end LuaMachine
