import LuaMachine.Proofs.Code.Acceptance
import LuaMachine.Proofs.Engine.Working
import LuaMachine.Proofs.Script.Loading

/-!
# Loads that are refused

A load compiles the definition into each idle instance before it redefines anything. A compilation
asks the parser, which reads the text and the name of the chunk, and the generator, which refuses what
is out of place in the tree; neither looks at the code that is there. So all instances agree
(`Segment.agreed_compile`), and a definition that is refused is refused by the first. What comes after
the compilations cannot fail: an instance where the definition does not run is left without it.

Main statement: `Engine.load_refused`.
-/

namespace LuaMachine

/-! ## Texts that are refused -/

/-- All segments agree on which texts compile as chunks of a name. -/
theorem Segment.agreed_compile {s s' : Segment} {options options' : CompileOptions}
    {text : String} {e : SyntaxError} (hchunk : options'.chunk = options.chunk)
    (h : s.compile options text = .error e) : ∃ e', s'.compile options' text = .error e' := by
  unfold compile at h ⊢
  rw [hchunk]
  cases hparse : Block.parse options.chunk text with
  | error e' => exact ⟨e', rfl⟩
  | ok body =>
    rw [hparse] at h
    have htargets := Block.wellTargeted_parse hparse
    have hthere := Block.decided_compile options s.size htargets
    have hhere := Block.decided_compile options' s'.size htargets
    simp only [bind, Except.bind] at h ⊢
    cases hrun : body.compile options s.size with
    | ok p =>
      rw [hrun] at h
      cases h
    | error fault =>
      -- something is out of place in the tree, so no generator passes it
      rw [hrun] at hthere
      cases hrun' : body.compile options' s'.size with
      | error fault' => exact ⟨_, rfl⟩
      | ok p =>
        rw [hrun'] at hhere
        rw [hhere] at hthere
        cases hthere.1

/-- A definition does not compile, whatever the segment that it is for. -/
def CachedFunction.Malformed (f : CachedFunction) : Prop :=
  ∀ (s : Segment) (options : CompileOptions), options.chunk = f.name →
    ∃ e, s.compile options f.definition = .error e

theorem CachedFunction.malformed_of_error {f : CachedFunction} {s : Segment}
    {options : CompileOptions} {e : SyntaxError} (hchunk : options.chunk = f.name)
    (h : s.compile options f.definition = .error e) : f.Malformed :=
  fun _ _ hchunk' => Segment.agreed_compile (hchunk'.trans hchunk.symm) h

namespace World

/-- Nothing has changed but what scripts have counted of their own work. -/
structure Recounted (w w' : World) : Prop where
  scripts : w'.scripts.map (fun s => { s with counters := {} }) =
    w.scripts.map fun s => { s with counters := {} }
  rest : { w' with scripts := w.scripts } = w

theorem Recounted.refl (w : World) : w.Recounted w := ⟨rfl, rfl⟩

/-- One script has counted something. -/
theorem recounted_modify (w : World) (i : Nat) (f : PerformanceCounters → PerformanceCounters) :
    w.Recounted { w with
      scripts := w.scripts.modify i fun s => { s with counters := f s.counters } } := by
  refine ⟨?_, rfl⟩
  apply Array.ext_getElem?
  intro j
  rw [Array.getElem?_map, Array.getElem?_map, Array.getElem?_modify]
  split
  · rw [Option.map_map]
    rfl
  · rfl

end World

namespace Exec

variable {w w' : World} {name : String} {f : CachedFunction}

/-- A definition is a source text, not a dump. -/
theorem loadString_definition (f : CachedFunction) (env : Option TableId) (name : Option String) :
    loadString f.definition env name = compile f.definition env name .chunk := by
  have hsplit : f.definition.toList =
      "function ".toList ++ (f.name ++ "(...)\n" ++ f.code ++ "\nend").toList := by
    rw [← String.toList_append]
    simp only [CachedFunction.definition, CachedFunction.wrap, toString, String.append_assoc]
  refine loadString_source ?_
  rw [hsplit]
  rfl

/-- What a compilation of a definition comes to: it is counted, and it fails if the text is refused. -/
theorem compile_definition (f : CachedFunction) (w : World) :
    (∃ v w', compile f.definition none (some f.name) .chunk w = .ok v w' ∧ ¬f.Malformed) ∨
      ∃ e w', compile f.definition none (some f.name) .chunk w = .error (.error (.syntaxError e)) w' ∧
        f.Malformed ∧ w.Recounted w' := by
  have hcount : modifyScript (fun s => { s with counters := s.counters.countCompilation }) w =
      .ok () { w with scripts := w.scripts.modify w.active.index fun s =>
        { s with counters := s.counters.countCompilation } } := rfl
  have hrecounted := w.recounted_modify w.active.index (·.countCompilation)
  unfold compile
  rw [bind_ok hcount]
  generalize ({ w with scripts := w.scripts.modify w.active.index fun s =>
    { s with counters := s.counters.countCompilation } } : World) = w₁ at hrecounted ⊢
  rw [bind_ok (script_getD _), bind_ok (get_eq _)]
  generalize w₁.scripts.getD w₁.active.index default = s
  dsimp only [Option.getD_some]
  cases hrun : s.code.compile { chunk := f.name, source := s.sources.size, kind := .chunk }
      f.definition with
  | error e =>
    exact .inr ⟨e, w₁, rfl, CachedFunction.malformed_of_error rfl hrun, hrecounted⟩
  | ok p =>
    obtain ⟨⟨entry, block, hasEnv, spans⟩, segment⟩ := p
    have hwell : ¬f.Malformed := by
      intro hmalformed
      obtain ⟨e, he⟩ := hmalformed s.code
        { chunk := f.name, source := s.sources.size, kind := .chunk } rfl
      rw [he] at hrun
      cases hrun
    cases hasEnv with
    | true => exact .inl ⟨_, _, rfl, hwell⟩
    | false => exact .inl ⟨_, _, rfl, hwell⟩

end Exec

namespace Hosting

open Exec

variable {α β : Type} {x : Hosting α}

/-! ## Compiling in every instance -/

/-- An instance compiles a definition, or refuses it and has nothing to show for it but a count. -/
theorem onScript_definition (f : CachedFunction) (id : ScriptId) (h : Host) :
    (∃ v h', onScript id (loadString f.definition none f.name) h = .ok v h' ∧ ¬f.Malformed) ∨
      ∃ e h', onScript id (loadString f.definition none f.name) h = .error (.error e) h' ∧
        f.Malformed ∧ h'.engine = h.engine ∧ h.world.Recounted h'.world := by
  rw [loadString_definition]
  unfold onScript inWorld within andFinally
  rcases compile_definition f { h.world with active := id } with
    ⟨v, w', hrun, hwell⟩ | ⟨e, w', hrun, hmalformed, hscripts, hrest⟩
  · rw [hrun]
    exact .inl ⟨v, _, rfl, hwell⟩
  · rw [hrun]
    refine .inr ⟨.syntaxError e, _, rfl, hmalformed, rfl, hscripts, ?_⟩
    exact congrArg (fun w : World => { w with active := h.world.active }) hrest

/-- The instances compile a definition one after the other. If one of them refuses it, the first one
does, so the others have not been asked. -/
theorem mapM_definition (f : CachedFunction) (ids : List ScriptId) (h : Host) :
    (∃ chunks h', (ids.mapM fun id => onScript id (loadString f.definition none f.name)) h =
        .ok chunks h') ∨
      ∃ e h', (ids.mapM fun id => onScript id (loadString f.definition none f.name)) h =
          .error (.error e) h' ∧
        f.Malformed ∧ h'.engine = h.engine ∧ h.world.Recounted h'.world := by
  induction ids generalizing h with
  | nil => exact .inl ⟨[], h, rfl⟩
  | cons id rest ih =>
    rw [List.mapM_cons]
    rcases onScript_definition f id h with ⟨v, h₁, hfirst, hwell⟩ | ⟨e, h₁, hfirst, hrefused⟩
    · rw [bind_of_ok hfirst]
      rcases ih h₁ with ⟨chunks, h₂, hrest⟩ | ⟨e, h₂, -, hmalformed, -⟩
      · exact .inl ⟨v :: chunks, h₂, bind_of_ok hrest⟩
      · exact absurd hmalformed hwell
    · exact .inr ⟨e, h₁, bind_of_error hfirst, hrefused⟩

/-! ## What does not fail -/

/-- A computation does not fail with an error, though it may break down. -/
def Faultless (x : Hosting α) : Prop := ∀ h e h', x h ≠ .error (.error e) h'

theorem faultless_of_ok (hx : ∀ h, ∃ a h', x h = .ok a h') : Faultless x := by
  intro h e h' herror
  obtain ⟨a, h₁, hok⟩ := hx h
  rw [hok] at herror
  cases herror

theorem Faultless.bind {f : α → Hosting β} (hx : Faultless x) (hf : ∀ a, Faultless (f a)) :
    Faultless (x >>= f) := by
  intro h e h' herror
  cases hresult : x h with
  | ok a h₁ =>
    rw [bind_of_ok hresult] at herror
    exact hf a h₁ e h' herror
  | error s h₁ =>
    rw [bind_of_error hresult] at herror
    cases herror
    exact hx _ _ _ hresult

theorem faultless_forM {f : α → Hosting Unit} (as : List α) (hf : ∀ a, Faultless (f a)) :
    Faultless (as.forM f) := by
  induction as with
  | nil => exact faultless_of_ok fun h => ⟨(), h, rfl⟩
  | cons a rest ih => exact (hf a).bind fun _ => ih

theorem faultless_modifyEngine (g : Engine → Engine) : Faultless (modifyEngine g) :=
  faultless_of_ok fun _ => ⟨(), _, rfl⟩

end Hosting

namespace Engine

open Hosting

/-- Where a definition does not run, the instance is left without the function. -/
theorem faultless_redefine (f : CachedFunction) (id : ScriptId) (chunk : Value) :
    Faultless (redefine f id chunk) := by
  have hclear : Faultless (onScript id (Script.setGlobal f.name .nil)) :=
    faultless_of_ok fun _ => ⟨(), _, rfl⟩
  have hcall : Faultless (observe (onScript id (Script.call chunk []))) := by
    refine faultless_of_ok fun h => ?_
    obtain ⟨outcome, hok⟩ := observe_after (onScript id (Script.call chunk [])) h
    exact ⟨outcome, _, hok⟩
  unfold redefine
  refine hclear.bind fun _ => hcall.bind fun outcome => ?_
  match outcome with
  | .ok v => exact (faultless_modifyEngine _).bind fun _ => faultless_modifyEngine _
  | .error (.error e) => exact faultless_modifyEngine _
  | .error (.panic message) => exact fun _ _ _ herror => by cases herror
  | .error .exhausted => exact fun _ _ _ herror => by cases herror

theorem checkLoad_error {code name : String} {h h' : Host} {s : Stop}
    (herror : checkLoad code name h = .error s h') : h' = h := by
  unfold checkLoad onTrial at herror
  split at herror <;> cases herror
  rfl

/-- A load that returns an error has changed nothing but what scripts count. -/
theorem loadFunction_error {name code : String} {h h' : Host} {e : ScriptError}
    (herror : loadFunction name code h = .error (.error e) h') :
    h'.engine = h.engine ∧ h.world.Recounted h'.world := by
  unfold loadFunction at herror
  dsimp only at herror
  rw [bind_of_ok (engine_eq _)] at herror
  split at herror
  · cases herror
  · split at herror
    · -- no instance is idle, and the text is tried on a script of its own
      cases hcheck : checkLoad (CachedFunction.ofSource name code).definition name h with
      | ok u h₁ =>
        rw [bind_of_ok hcheck] at herror
        cases herror
      | error s h₁ =>
        rw [bind_of_error hcheck] at herror
        cases herror
        rw [checkLoad_error hcheck]
        exact ⟨rfl, .refl _⟩
    · rcases mapM_definition (.ofSource name code) (h.engine.pool.idle.map (·.script)) h with
        ⟨chunks, h₁, hrun⟩ | ⟨e', h₁, hrun, -, hrefused⟩
      · have hrest := ((faultless_forM ((h.engine.pool.idle.map (·.script)).zip chunks)
          fun p => faultless_redefine (.ofSource name code) p.1 p.2).bind
          fun _ => faultless_modifyEngine fun e =>
            { e with functions := e.functions.insert (.ofSource name code) }) h₁ e h'
        exact absurd ((bind_of_ok hrun).symm.trans herror) hrest
      · cases (bind_of_error hrun).symm.trans herror
        exact hrefused

/-- A load does everything or nothing, in whatever state the engine is. If it returns an error, the
engine is as before: its cache, the idle instances and the versions that they have, the statistics; and
so is the world, with the globals, the code and the sources of all scripts, but for what they count of
their own work. A body with the digest of the one that is cached under the name is accepted, and
nothing at all changes. -/
theorem load_refused (name code : String) (h : Host) :
    (∀ e h', loadFunction name code h = .error (.error e) h' →
      h'.engine = h.engine ∧ h.world.Recounted h'.world) ∧
    (h.engine.functions.hashOf? name = some (CachedFunction.ofSource name code).hash →
      loadFunction name code h = .ok () h) :=
  ⟨fun _ _ => loadFunction_error, loadFunction_cached⟩

/-- A host with an idle instance, and a function in the cache that was loaded while the instance was
leased. -/
def stockedHost : Host :=
  (do
    let (i, _) ← lease
    loadFunction "f" "return 1"
    release i : Hosting Unit).after (Host.create {})

/-- What is checked of a load by running it: it fails with an error. -/
def failsToLoad (name code : String) (h : Host) : Bool :=
  match loadFunction name code h with
  | .error (.error _) _ => true
  | _ => false

theorem load_refused_bracket :
    (∃ e h', loadFunction "g" ")" stockedHost = .error (.error e) h' ∧
        h'.engine = stockedHost.engine ∧ stockedHost.world.Recounted h'.world) ∧
      stockedHost.engine.pool.size = 1 ∧ stockedHost.engine.functions.hashOf? "f" =
        some (CachedFunction.ofSource "f" "return 1").hash ∧
      loadFunction "f" "return 1" stockedHost = .ok () stockedHost := by
  have hfails : failsToLoad "g" ")" stockedHost = true := by decide +kernel
  have hhash : stockedHost.engine.functions.hashOf? "f" =
      some (CachedFunction.ofSource "f" "return 1").hash := by decide +kernel
  have hidle : stockedHost.engine.pool.size = 1 := by decide +kernel
  refine ⟨?_, hidle, hhash, (load_refused "f" "return 1" stockedHost).2 hhash⟩
  unfold failsToLoad at hfails
  split at hfails
  · next e h' herror =>
    exact ⟨e, h', herror, (load_refused "g" ")" stockedHost).1 e h' herror⟩
  · cases hfails

end Engine

end LuaMachine
