import LuaMachine.Proofs.Flat.Reached

/-!
# Tuples stay where they are allowed

A host starts with an empty world, makes scripts, coroutines and objects, loads code, sets globals and
makes requests (`World.Hosted`). Every world that comes of this is sane if all code comes from the
compiler, directly or by way of dumps; so is every world that control comes to while a request is in
progress.

Main statement: `World.Hosted.tuples_transient`.
-/

namespace LuaMachine

open Exec

/-! ## What a host does -/

namespace Exec

variable {P : Prop}

/-- What is known of a computation that returns, whether with a value or with an error. -/
theorem Sifts.returns {α : Type} {x : Exec α} {w w' : World} {Q : α → World → Prop}
    (h : x.Sifts w P Q) (hr : x.Returns w w') :
    w.Follows w' ∧ (w'.Genuine → w.Sane → P → w'.Sane) := by
  rcases hr with ⟨a, ha⟩ | ⟨e, he⟩
  · exact ⟨(h.ok ha).1, fun hg hw hp => ((h.ok ha).2 hg hw hp).1⟩
  · exact ⟨(h.error he).1, fun hg hw hp => ((h.error he).2 hg hw hp).1⟩

theorem sifting_setField (id : TableId) (key : String) (value : Value) :
    Sifting P (setField id key value) fun _ => True :=
  sifting_modifyHeap (fun _ => rfl) (fun _ => rfl) fun _ _ hh => hh.setField id key value

theorem sifting_addFunctions (table : TableId) (fs : List Native) :
    Sifting P (Library.addFunctions table fs) fun _ => True := by
  induction fs generalizing P with
  | nil => exact sifting_pure fun _ => trivial
  | cons f rest ih =>
    exact (sifting_newCallback f).bind fun v => (sifting_setField _ _ v).bind fun _ => ih

theorem sifting_install (globals : TableId) : Sifting P (Library.install globals) fun _ => True := by
  refine (sifting_addFunctions globals _).bind fun _ => sifting_heap.bind fun h => ?_
  refine (sifting_newTable fun _ => Table.flat_empty).bind fun coroutine => ?_
  refine (sifting_addFunctions _ _).bind fun _ => (sifting_setField globals _ coroutine).bind fun _ => ?_
  exact (sifting_setField globals _ _).bind fun _ => sifting_setField globals _ _

theorem sifting_newObject (o : HostObject) : Sifting P (newObject o) fun _ => True :=
  sifting_of_change (fun _ => rfl) (fun _ => World.follows_of_eq rfl) (fun _ => rfl)
    fun _ _ hw => ⟨hw.withHeap { hw.heap with }, trivial⟩

theorem sifting_storeObject : Sifting P storeObject fun _ => True := by
  unfold storeObject
  refine sifting_get.bind fun w => ?_
  split
  · exact sifting_pure fun _ => trivial
  · exact sifting_newObject _

end Exec

theorem Exec.aside_newObject (o : HostObject) : Aside (newObject o) := by
  refine aside_of_change (fun _ => rfl) fun w =>
    World.Apart.aside ⟨rfl, rfl, rfl, rfl, rfl, rfl, rfl, fun h => h, fun {id} h => ?_⟩ rfl
  have h : w.heap.objects[id.index]? = some .store := h
  change (w.heap.objects.push o)[id.index]? = some .store
  have hlt := (Array.getElem?_eq_some_iff.1 h).1
  rw [Array.getElem?_push, if_neg (Nat.ne_of_lt hlt), h]

theorem HostType.aside_wrap (o : HostObject) : Exec.Aside (wrap o) := by
  have hstore : Exec.Aside storeObject := by
    unfold storeObject
    refine aside_get.bind fun w => ?_
    split
    · exact aside_pure _
    · exact aside_newObject .store
  unfold wrap
  refine aside_get.bind fun w => ?_
  extract_lets rest
  have hrest : ∀ u, Exec.Aside (rest u) := by
    intro u
    dsimp only [rest]
    split
    · exact hstore.bind fun _ => aside_pure _
    · exact (aside_newObject _).bind fun _ => aside_pure _
  split
  · exact (aside_fail _).bind hrest
  · exact hrest ()

theorem HostType.aside_register (t : HostType) : Exec.Aside t.register := by
  unfold register
  refine aside_get.bind fun w => ?_
  split
  · exact aside_pure _
  · refine Exec.Aside.bind ?_ fun _ => aside_pure _
    exact aside_of_change (fun _ => rfl) fun w =>
      World.Apart.aside ⟨rfl, rfl, rfl, rfl, rfl, rfl, rfl, fun h => h, fun h => h⟩ rfl

/-- What a host does with the running script, apart from making requests. -/
inductive Script.Provides : {α : Type} → Exec α → Prop
  | load (code : String) (env : Option TableId) (name : Option String) :
    Provides (loadString code env name)
  | loadBytes (bytes : List UInt8) (env : Option TableId) (name : Option String) :
    Provides (Exec.loadBytes bytes env name)
  | loadFunction (code : String) (env : Option TableId) (name : Option String) :
    Provides (Exec.loadFunction code env name)
  | setGlobal (name : String) (v : Value) : Provides (Script.setGlobal name v)
  | functions (table : TableId) (fs : List Native) : Provides (Library.addFunctions table fs)
  | newTable : Provides (Exec.newTable {})
  | setIndex (table : TableId) (key value : Value) : Provides (Exec.setIndex table key value)
  | register (t : HostType) : Provides t.register
  | wrap (o : HostObject) : Provides (HostType.wrap o)
  | replaceStore : Provides (modifyHeap (·.replaceStore))

namespace Script.Provides

variable {α : Type} {x : Exec α} {P : Prop}

/-- All of it keeps tuples in their place. -/
theorem sifting (h : Provides x) : Sifting P x fun _ => True := by
  cases h with
  | load code env name => exact (sifting_loadString code env name).mono id fun _ _ _ => trivial
  | loadBytes bytes env name =>
    unfold Exec.loadBytes
    split
    · exact (sifting_loadDump bytes env name).mono id fun _ _ _ => trivial
    · split
      · exact (sifting_loadString _ env name).mono id fun _ _ _ => trivial
      · exact sifting_failWith fun _ => trivial
  | loadFunction code env name => exact (sifting_compile code env name _).mono id fun _ _ _ => trivial
  | setGlobal name v => exact sifting_script.bind fun s => sifting_setField _ name v
  | functions table fs => exact sifting_addFunctions table fs
  | newTable => exact (sifting_newTable fun _ => Table.flat_empty).mono id fun _ _ _ => trivial
  | setIndex table key value => exact sifting_setIndex table key value
  | register t =>
    have hadd : ∀ {P : Prop}, Sifting P (modify fun w => { w with hostTypes := w.hostTypes ++ [t] })
        fun _ => True := fun {P} =>
      sifting_of_change (fun _ => rfl) (fun _ => World.follows_of_eq rfl) (fun _ => rfl)
        fun _ _ hw => ⟨⟨hw.heap, hw.processor, hw.scripts⟩, trivial⟩
    unfold HostType.register
    refine sifting_get.bind fun w => ?_
    split
    · exact sifting_pure fun _ => trivial
    · exact hadd.bind fun _ => sifting_pure fun _ => trivial
  | wrap o =>
    have hstore : ∀ {P : Prop}, Sifting P (do return Value.userdata (← storeObject)) fun _ => True :=
      sifting_storeObject.bind fun _ => sifting_pure fun _ => trivial
    have hnew : ∀ {P : Prop} (o : HostObject),
        Sifting P (do return Value.userdata (← newObject o)) fun _ => True :=
      fun o => (sifting_newObject o).bind fun _ => sifting_pure fun _ => trivial
    unfold HostType.wrap
    refine sifting_get.bind fun w => ?_
    dsimp only
    split
    · refine (sifting_fail _ (Q := fun _ => True)).bind fun _ => ?_
      split
      · exact hstore
      · exact hnew _
    · split
      · exact hstore
      · exact hnew _
  | replaceStore =>
    refine sifting_modifyHeap (fun _ => rfl) (fun _ => rfl) fun h _ hh => ?_
    refine ⟨hh.tables, hh.cells, VariableStore.flat_empty, fun s hs => ?_, hh.coroutines⟩
    rcases Array.mem_push.1 hs with hs | rfl
    · exact hh.former s hs
    · exact hh.store

/-- What is known of whatever does nothing to code and variables, of the ways to load code and of new
shared variables is known of all of it. -/
theorem uniform {K : ∀ {α : Type}, Exec α → Prop}
    (haside : ∀ {α : Type} {x : Exec α}, Exec.Aside x → K x)
    (hload : ∀ code env name, K (loadString code env name))
    (hdump : ∀ bytes env name, K (loadDump bytes env name))
    (hcompile : ∀ code env name kind, K (Exec.compile code env name kind))
    (hstore : K (modifyHeap (·.replaceStore))) (h : Provides x) : K x := by
  cases h with
  | load code env name => exact hload code env name
  | loadBytes bytes env name =>
    unfold Exec.loadBytes
    split
    · exact hdump bytes env name
    · split
      · exact hload _ env name
      · exact haside (aside_failWith _)
  | loadFunction code env name => exact hcompile code env name _
  | setGlobal name v => exact haside (aside_script.bind fun s => aside_setField _ name v)
  | functions table fs => exact haside (Library.aside_addFunctions table fs)
  | newTable => exact haside (aside_newTable {})
  | setIndex table key value => exact haside (aside_setIndex table key value)
  | register t => exact haside t.aside_register
  | wrap o => exact haside (HostType.aside_wrap o)
  | replaceStore => exact hstore

/-- None of it has to do with coroutines. -/
theorem ends (h : Provides x) : x.Ends fun w w' => w'.heap.coroutines = w.heap.coroutines ∧
    w'.scripts.map (·.running) = w.scripts.map (·.running) := by
  have hquiet : ∀ {α : Type} {x : Exec α}, Quiet x → x.Ends fun w w' =>
      w'.heap.coroutines = w.heap.coroutines ∧
        w'.scripts.map (·.running) = w.scripts.map (·.running) :=
    fun hx => hx.mono fun h => ⟨h.coroutines, h.running⟩
  refine h.uniform (fun hx => hquiet hx.quiet) ?_ ?_ ?_ ?_
  · exact fun code env name => hquiet (quiet_loadString code env name)
  · exact fun bytes env name => hquiet (quiet_stepwise.loadDump bytes env name)
  · exact fun code env name kind => hquiet (quiet_stepwise.compile code env name kind)
  · exact .of_change (fun _ => rfl) fun _ => ⟨rfl, rfl⟩

end Script.Provides

/-! ## New scripts -/

namespace World

variable {w w' : World} {s : Script}

/-- Code that is genuine with another script is so without it. -/
theorem genuine_of_push (h : ({ w with scripts := w.scripts.push s } : World).Genuine) : w.Genuine := by
  intro i s' hs'
  refine h i s' ?_
  have hlt := (Array.getElem?_eq_some_iff.1 hs').1
  change (w.scripts.push s)[i]? = some s'
  rw [Array.getElem?_push, if_neg (Nat.ne_of_lt hlt), hs']

theorem Owned.addScript (ho : w.Owned) (s : Script) :
    ({ w with scripts := w.scripts.push s } : World).Owned := by
  intro i c hi
  change c.owner.index < (w.scripts.push s).size
  rw [Array.size_push]
  exact Nat.lt_succ_of_lt (ho i c hi)

/-- Another script makes no difference to the ones that are there. -/
theorem Sane.addScript (hw : w.Sane) (ho : w.Owned)
    (hcoroutines : ∀ c ∈ w.heap.coroutines, c.owner.index < w.scripts.size)
    (hs : s.processor.Flat) : World.Sane { w with scripts := w.scripts.push s } := by
  have hscript : ∀ {i : Nat}, i < w.scripts.size → (w.scripts.push s)[i]? = w.scripts[i]? := by
    intro i hi
    rw [Array.getElem?_push, if_neg (Nat.ne_of_lt hi)]
  refine ⟨fun i c hi s' hs' => hw.closed i c hi s' ?_, fun c hc => ?_, hw.flat.heap, hw.flat.processor,
    fun s' hs' => ?_⟩
  · exact (hscript (ho i c hi)).symm.trans hs'
  · have hpoised := hw.poised c hc
    refine ⟨hpoised.fresh, fun p hp => ?_⟩
    have hhalted := hpoised.suspended p hp
    exact World.Halted.of_script (w := w.on c.owner p) rfl (hscript (hcoroutines c hc)) rfl hhalted
  · rcases Array.mem_push.1 hs' with hs' | rfl
    · exact hw.flat.scripts s' hs'
    · exact hs

/-- A script is made with two tables and a coroutine; then the library is installed. -/
theorem createScript_ok {options : ScriptOptions} {id : ScriptId}
    (h : Script.create options w = .ok id w') : ∃ (s : Script) (c : Coroutine),
      s.code = {} ∧ s.processor = {} ∧ c.body = none ∧ Library.install s.globals
        { w with heap := ((w.heap.addTable {}).addTable {}).addCoroutine c
                 scripts := w.scripts.push s } = .ok () w' := by
  let heap := (w.heap.addTable {}).addTable {}
  let s : Script := { options, globals := ⟨w.heap.tables.size⟩
                      registry := ⟨(w.heap.addTable {}).tables.size⟩
                      main := ⟨heap.coroutines.size⟩ }
  let c : Coroutine := { owner := ⟨w.scripts.size⟩, state := .main, body := none }
  have hall : (Script.create options).Leads w (fun _ w' => Library.install s.globals
      { w with heap := heap.addCoroutine c, scripts := w.scripts.push s } = .ok () w')
      (fun _ => True) := by
    unfold Script.create
    refine .get_bind (.ok_bind (v := { w with heap := w.heap.addTable {} }) rfl ?_)
    refine .ok_bind (a := w.heap.addTable {}) rfl (.ok_bind (v := { w with heap }) rfl ?_)
    refine .ok_bind (v := { w with heap := heap.addCoroutine c }) rfl ?_
    refine .ok_bind (v := { w with heap := heap.addCoroutine c, scripts := w.scripts.push s }) rfl ?_
    refine ⟨fun {a w'} hrest => ?_, fun _ => trivial⟩
    obtain ⟨_, w₁, hinstall, hpure⟩ := of_bind_ok hrest
    cases hpure
    exact hinstall
  exact ⟨s, c, rfl, rfl, rfl, hall.ok h⟩

theorem Owned.createScript {options : ScriptOptions} {id : ScriptId} (ho : w.Owned)
    (h : Script.create options w = .ok id w') : w'.Owned := by
  obtain ⟨s, c, -, -, -, hinstall⟩ := createScript_ok h
  have haside := (Library.aside_install s.globals).ok hinstall
  have hsize := congrArg Array.size haside.scripts
  rw [Array.size_map, Array.size_map] at hsize
  intro i closure hi
  rw [hsize]
  exact ho.addScript s i closure (haside.closures ▸ hi)

theorem Sane.createScript {options : ScriptOptions} {id : ScriptId}
    (h : Script.create options w = .ok id w') (hg : w'.Genuine) (ho : w.Owned)
    (hcoroutines : ∀ c ∈ w.heap.coroutines, c.owner.index < w.scripts.size)
    (hsane : w.Genuine → w.Sane) : w'.Sane := by
  obtain ⟨s, c, -, hs, hc, hinstall⟩ := createScript_ok h
  have hinstalled := (sifting_install (P := True) s.globals _).ok hinstall
  have hg' : ({ w with scripts := w.scripts.push s } : World).Genuine :=
    hinstalled.1.later.genuine hg
  have hpushed := (hsane (genuine_of_push hg')).addScript ho hcoroutines (hs ▸ Processor.flat_empty)
  let v : World := { w with scripts := w.scripts.push s }
  have htables := ((sifting_newTable fun _ : True => Table.flat_empty).bind fun _ =>
    sifting_newTable fun _ => Table.flat_empty) v
  have hmade := sifting_newCoroutine (P := True) (c := c) (fun _ => .of_none hc) (fun _ => .of_none hc)
    (fun _ b hb => absurd (hc.symm.trans hb) (nomatch ·))
    { v with heap := (v.heap.addTable {}).addTable {} }
  have htabled := (htables.ok rfl).2 hg' hpushed trivial
  exact (hinstalled.2 hg ((hmade.ok rfl).2 hg' htabled.1 trivial).1 trivial).1

/-! ## Worlds of a host -/

/-- The worlds in which no call is in progress, and how they come about: at the beginning there is
nothing. Then the host makes scripts and coroutines, provides code, globals and objects, and makes
requests that return. It chooses the running script, and settings and debuggers of scripts. -/
inductive Hosted : World → Prop
  | empty {w : World} (hheap : w.heap = {}) (hscripts : w.scripts = #[])
    (hprocessor : w.processor = {}) : Hosted w
  | script {w w' : World} {options : ScriptOptions} {id : ScriptId} (h : Hosted w)
    (hcreate : Script.create options w = .ok id w') : Hosted w'
  | coroutine {w w' : World} {f : Value} {id : CoroutineId} (h : Hosted w)
    (hactive : w.active.index < w.scripts.size) (hcreate : createCoroutine f w = .ok id w') :
    Hosted w'
  | provides {w w' : World} {α : Type} {x : Exec α} (h : Hosted w)
    (hactive : w.active.index < w.scripts.size) (hx : Script.Provides x) (hreturns : x.Returns w w') :
    Hosted w'
  | request {w w' : World} {n : Nat} {q : Request} (h : Hosted w)
    (hactive : w.active.index < w.scripts.size)
    (hreturns : ((Reentry.atDepth n).perform q).Returns w w') : Hosted w'
  | settings {w w' : World} (h : Hosted w) (hheap : w'.heap = w.heap)
    (hprocessor : w'.processor = w.processor)
    (hscripts : w'.scripts.map (fun s => (s.code, s.processor, s.running)) =
      w.scripts.map fun s => (s.code, s.processor, s.running)) : Hosted w'

/-! ### Genuine code -/

section Code

variable {P : Nat → Segment → Prop}

/-- Code that has grown without getting larger is the same. -/
theorem code_of_sizes (hw : ∀ i s, w.scripts[i]? = some s → P i s.code) (hl : w.Later w')
    (hsizes : w'.scripts.map (·.code.size) = w.scripts.map (·.code.size)) :
    ∀ i s, w'.scripts[i]? = some s → P i s.code := by
  intro i s' hs'
  obtain ⟨s, hs⟩ := hl.before hs'
  have hsize : (w'.scripts.map (·.code.size))[i]? = (w.scripts.map (·.code.size))[i]? := by
    rw [hsizes]
  rw [Array.getElem?_map, Array.getElem?_map, hs, hs'] at hsize
  rw [(hl.code hs hs').eq_of_size_le (Nat.le_of_eq (Option.some.inj hsize))]
  exact hw i s hs

/-- A new script has no code. -/
theorem code_createScript {options : ScriptOptions} {id : ScriptId}
    (hw : ∀ i s, w.scripts[i]? = some s → P i s.code) (hnew : ∀ i, P i {})
    (h : Script.create options w = .ok id w') : ∀ i s, w'.scripts[i]? = some s → P i s.code := by
  obtain ⟨s, c, hs, -, -, hinstall⟩ := createScript_ok h
  have haside := (Library.aside_install s.globals).ok hinstall
  intro i s' hs'
  have hbare : (w'.scripts.map Script.bare)[i]? = ((w.scripts.push s).map Script.bare)[i]? := by
    rw [haside.scripts]
  rw [Array.getElem?_map, Array.getElem?_map, hs'] at hbare
  obtain ⟨s₀, hs₀, heq⟩ := Option.map_eq_some_iff.1 hbare.symm
  have hcode : s₀.bare.code = s'.bare.code := congrArg Script.code heq
  have hcode : s₀.code = s'.code := hcode
  rw [← hcode]
  rw [Array.getElem?_push] at hs₀
  split at hs₀
  · cases hs₀
    rw [hs]
    exact hnew i
  · exact hw i s₀ hs₀

theorem code_modifyScript (hw : ∀ i s, w.scripts[i]? = some s → P i s.code) {i : Nat}
    {f : Script → Script} (hf : ∀ s, w.scripts[i]? = some s → P i (f s).code) :
    ∀ j s, (w.scripts.modify i f)[j]? = some s → P j s.code := by
  intro j s hs
  rw [Array.getElem?_modify] at hs
  split at hs
  · next hij =>
    subst hij
    obtain ⟨s', hs', rfl⟩ := Option.map_eq_some_iff.1 hs
    exact hf s' hs'
  · exact hw j s hs

/-- To make the function of loaded code adds nothing to the code. -/
theorem code_loaded (hw : ∀ i s, w.scripts[i]? = some s → P i s.code) (entry : Nat) (hasEnv : Bool)
    (env : Option TableId) : (loaded entry hasEnv env).Leads w
      (fun _ w' => ∀ i s, w'.scripts[i]? = some s → P i s.code) fun _ => True := by
  refine ⟨fun {v w'} h => ?_, fun _ => trivial⟩
  have hscripts : w'.scripts = w.scripts := by
    cases hasEnv with
    | true =>
      cases h
      rfl
    | false =>
      cases h
      rfl
  exact fun i s hs => hw i s (hscripts ▸ hs)

/-- What the compiler makes is the code of the running script. -/
theorem code_compile {code : String} {env : Option TableId} {name : Option String}
    {kind : HeaderKind} {v : Value} (hw : ∀ i s, w.scripts[i]? = some s → P i s.code)
    (hnew : ∀ s chunk segment, w.scripts[w.active.index]? = some s →
      s.code.compile { chunk := name.getD s!"chunk_{s.sources.size}", source := s.sources.size, kind }
        code = .ok (chunk, segment) → P w.active.index segment)
    (h : Exec.compile code env name kind w = .ok v w') :
    ∀ i s, w'.scripts[i]? = some s → P i s.code := by
  have hall : (Exec.compile code env name kind).Leads w
      (fun _ w' => ∀ i s, w'.scripts[i]? = some s → P i s.code) fun _ => True := by
    let count (s : Script) : Script := { s with counters := s.counters.countCompilation }
    let w₁ : World := { w with scripts := w.scripts.modify w.active.index count }
    have hcounted : ∀ i s, w₁.scripts[i]? = some s → P i s.code :=
      code_modifyScript hw fun s hs => hw _ s hs
    unfold Exec.compile
    refine .ok_bind (v := w₁) rfl (.ok_bind (v := w₁) rfl (.ok_bind (v := w₁) rfl ?_))
    dsimp only
    split
    · exact ⟨nofun, fun _ => trivial⟩
    · next chunk segment hcompile =>
      refine Leads.bind (Q := fun _ u => ∀ i s, u.scripts[i]? = some s → P i s.code)
        (Leads.of_ok rfl ?_) fun _ u hu => code_loaded hu ..
      refine code_modifyScript hcounted fun s hs => ?_
      have hs' : w₁.scripts.getD w₁.active.index default = s := by
        rw [Array.getD_eq_getD_getElem?, hs]
        rfl
      rw [hs'] at hcompile
      change (w.scripts.modify w.active.index count)[w.active.index]? = some s at hs
      rw [Array.getElem?_modify, if_pos rfl] at hs
      obtain ⟨s₀, hs₀, rfl⟩ := Option.map_eq_some_iff.1 hs
      exact hnew s₀ chunk segment hs₀ hcompile
  exact hall.ok h

end Code

theorem Genuine.of_sizes (hw : w.Genuine) (hl : w.Later w')
    (hsizes : w'.scripts.map (·.code.size) = w.scripts.map (·.code.size)) : w'.Genuine :=
  code_of_sizes hw hl hsizes

theorem Genuine.createScript {options : ScriptOptions} {id : ScriptId} (hw : w.Genuine)
    (h : Script.create options w = .ok id w') : w'.Genuine :=
  code_createScript hw (fun _ => .empty) h

theorem Genuine.modifyScript (hw : w.Genuine) {i : Nat} {f : Script → Script}
    (hf : ∀ s, w.scripts[i]? = some s → (f s).code.Genuine) :
    ({ w with scripts := w.scripts.modify i f } : World).Genuine :=
  code_modifyScript hw hf

/-- The compiler makes genuine code. -/
theorem Genuine.compile {code : String} {env : Option TableId} {name : Option String}
    {kind : HeaderKind} {v : Value} (hw : w.Genuine)
    (h : Exec.compile code env name kind w = .ok v w') : w'.Genuine :=
  code_compile hw (fun s _ _ hs hcompile => .compile (hw _ s hs) hcompile) h

namespace Hosted

theorem resting (h : w.Hosted) : w.Resting := by
  induction h with
  | empty hheap hscripts _ => exact .empty (congrArg _ hheap) hscripts
  | script _ hcreate ih => exact .script ih hcreate
  | coroutine _ hactive hcreate ih => exact .coroutine ih hactive hcreate
  | provides _ _ hx hreturns ih =>
    have hends : _ ∧ _ := hreturns.elim (fun ⟨_, h⟩ => hx.ends.ok h) fun ⟨_, h⟩ => hx.ends.error h
    exact .host ih hends.1 hends.2
  | request _ hactive hreturns ih => exact .request ih hactive hreturns
  | settings _ hheap _ hscripts ih =>
    have hrunning := congrArg (Array.map fun p => p.2.2) hscripts
    rw [Array.map_map, Array.map_map] at hrunning
    exact .host ih (congrArg _ hheap) hrunning

/-- Coroutines belong to scripts. -/
theorem coroutines (h : w.Hosted) : ∀ c ∈ w.heap.coroutines, c.owner.index < w.scripts.size := by
  intro c hc
  obtain ⟨i, hi⟩ := Array.getElem?_of_mem hc
  have hi : w.heap.coroutine? ⟨i⟩ = some c := hi
  exact h.resting.orderly.1.owned hi

/-- Closures belong to scripts. -/
theorem owned (h : w.Hosted) : w.Owned := by
  induction h with
  | empty hheap _ _ =>
    intro i c hi
    rw [hheap] at hi
    cases hi
  | script _ hcreate ih => exact ih.createScript hcreate
  | @coroutine w _ f _ _ hactive hcreate ih =>
    exact ((sifting_createCoroutine (P := True) f w).ok hcreate).1.owned hactive ih
  | @provides w _ _ x _ hactive hx hreturns ih =>
    exact ((hx.sifting (P := True) w).returns hreturns).1.owned hactive ih
  | @request w _ n q _ hactive hreturns ih =>
    exact ((Spot.sifts_run n (.request q) w).returns hreturns).1.owned hactive ih
  | settings _ hheap _ hscripts ih =>
    have hsize := congrArg Array.size hscripts
    rw [Array.size_map, Array.size_map] at hsize
    intro i c hi
    rw [hsize]
    exact ih i c (hheap ▸ hi)

/-- If all code comes from the compiler, directly or by way of dumps, the world is sane. -/
theorem sane (h : w.Hosted) (hg : w.Genuine) : w.Sane := by
  induction h with
  | empty hheap hscripts hprocessor =>
    refine ⟨fun i c hi => ?_, fun c hc => ?_, ⟨?_, ?_, fun s hs => ?_⟩⟩
    · rw [hheap] at hi
      cases hi
    · rw [hheap] at hc
      exact absurd hc (Array.not_mem_empty _)
    · rw [hheap]
      exact Heap.flat_empty
    · rw [hprocessor]
      exact Processor.flat_empty
    · rw [hscripts] at hs
      exact absurd hs (Array.not_mem_empty _)
  | script h hcreate ih => exact .createScript hcreate hg h.owned h.coroutines ih
  | @coroutine w _ f _ _ _ hcreate ih =>
    obtain ⟨hf, hsane⟩ := (sifting_createCoroutine (P := True) f w).ok hcreate
    exact (hsane hg (ih (hf.later.genuine hg)) trivial).1
  | @provides w _ _ x _ _ hx hreturns ih =>
    obtain ⟨hf, hsane⟩ := (hx.sifting (P := True) w).returns hreturns
    exact hsane hg (ih (hf.later.genuine hg)) trivial
  | @request w _ n q _ _ hreturns ih =>
    obtain ⟨hf, hsane⟩ := (Spot.sifts_run n (.request q) w).returns hreturns
    exact hsane hg (ih (hf.later.genuine hg)) trivial
  | @settings w w' _ hheap hprocessor hscripts ih =>
    have hcode := congrArg (Array.map fun p => p.1) hscripts
    have hprocessors := congrArg (Array.map fun p => p.2.1) hscripts
    rw [Array.map_map, Array.map_map] at hcode hprocessors
    have hl := later_of_code hcode (congrArg _ hheap)
    have hw := ih (hl.genuine hg)
    refine (hw.withActive w'.active).of_later hl (congrArg _ hheap) (congrArg _ hheap) ⟨?_, ?_, ?_⟩
    · rw [hheap]
      exact hw.flat.heap
    · rw [hprocessor]
      exact hw.flat.processor
    · intro s hs
      have hmem : s.processor ∈ w'.scripts.map (·.processor) := Array.mem_map_of_mem hs
      rw [show w'.scripts.map (·.processor) = w.scripts.map (·.processor) from hprocessors] at hmem
      obtain ⟨s', hs', heq⟩ := Array.mem_map.1 hmem
      rw [← heq]
      exact hw.flat.scripts s' hs'

/-- Tuples are transient, and there is none in another one. Wherever control comes to while a request of
a host is in progress, and at its beginning and its end, no table, cell, shared variable, argument,
variable argument or coroutine has a tuple, and the tuples on the value stacks have none among their
items. What is under way there works on single values: those that control a loop, the function that is
called next and its arguments. It ends with a flat value, or with an error that carries a single one. -/
theorem tuples_transient {n m : Nat} {q : Request} {inner : Spot} {v : World} (hw : w.Hosted)
    (h : Comes n (.request q) w m inner v) (hg : v.Genuine) :
    v.Flat ∧ inner.Single v ∧
      (∀ x v', inner.run (Reentry.atDepth m) v = .ok x v' → v'.Genuine → x.Flat ∧ v'.Flat) ∧
      ∀ e v', inner.run (Reentry.atDepth m) v = .error (.error e) v' → v'.Genuine →
        e.Single ∧ v'.Flat := by
  obtain ⟨hsane, hshape⟩ := h.sane hg (hw.sane (h.inherits.genuine hg)) trivial
  have hrun := Spot.sifts_run m inner v
  refine ⟨hsane.flat, hshape.single hg hsane, fun x v' hx hg' => ?_, fun e v' he hg' => ?_⟩
  · obtain ⟨hsane', hx⟩ := (hrun.ok hx).2 hg' hsane hshape
    exact ⟨hx, hsane'.flat⟩
  · obtain ⟨hsane', he⟩ := (hrun.error he).2 hg' hsane hshape
    exact ⟨he, hsane'.flat⟩

/-- What is checked of a source text by calling it with a tuple among the arguments: its function gets a
frame, and the loop of its instructions gives a tuple without more code. -/
def givesTuple (source : String) (args : List Value) : Bool :=
  match Script.create {} {} with
  | .ok _ w₀ => w₀.active.index < w₀.scripts.size &&
    match Exec.loadFunction source none none w₀ with
    | .ok (.function f) w =>
      let s := w.scripts.getD w.active.index default
      s.nesting < s.options.maxNestedCalls && w.processor.frames.size == 0 &&
      match enterClosure f (Value.flatten args) none none w.nested with
      | .ok _ v => v.scripts.map (·.code.size) == w.scripts.map (·.code.size) &&
        match (Spot.loop 0 stepLimit).run (Reentry.atDepth 1) v with
        | .ok x v' => x.isTuple && v'.scripts.map (·.code.size) == w.scripts.map (·.code.size)
        | .error .. => false
      | .error .. => false
    | _ => false
  | .error .. => false

/-- A loop that is carried out for a host, and gives back its arguments. -/
theorem tuples_transient_arguments : ∃ w v v' : World, ∃ q : Request, ∃ x : Value, w.Hosted ∧
    Comes 1 (.request q) w 1 (.loop 0 stepLimit) v ∧
      (Spot.loop 0 stepLimit).run (Reentry.atDepth 1) v = .ok x v' ∧ x.isTuple = true ∧ x.Flat ∧
      v.Flat ∧ v'.Flat := by
  let args : List Value := [.boolean false, .tuple [.nil, .boolean true]]
  have hcheck : givesTuple "return ..." args = true := by decide +kernel
  unfold givesTuple at hcheck
  cases hscript : Script.create {} {} with
  | error e w => simp [hscript] at hcheck
  | ok i w₀ =>
    simp only [hscript, Bool.and_eq_true, decide_eq_true_eq] at hcheck
    obtain ⟨hactive, hcheck⟩ := hcheck
    have hempty : World.Genuine {} := fun i s hs => by cases hs
    have hw₀ : w₀.Hosted := .script (.empty rfl rfl rfl) hscript
    split at hcheck
    · next f w hload =>
      have hw : w.Hosted := .provides hw₀ hactive (.loadFunction _ none none) (.inl ⟨_, hload⟩)
      have hg : w.Genuine := (hempty.createScript hscript).compile hload
      simp only [Bool.and_eq_true, decide_eq_true_eq, beq_iff_eq] at hcheck
      obtain ⟨⟨hnest, hframes⟩, hcheck⟩ := hcheck
      split at hcheck
      · next u v henter =>
        simp only [Bool.and_eq_true, beq_iff_eq] at hcheck
        obtain ⟨hentered, hcheck⟩ := hcheck
        split at hcheck
        · next x v' hrun =>
          simp only [Bool.and_eq_true, beq_iff_eq] at hcheck
          obtain ⟨hx, hended⟩ := hcheck
          have hcomes : Comes 1 (.request (.call (.function f) args)) w 1 (.loop 0 stepLimit) v := by
            refine .inward (.call hnest) (.inward (.closure rfl henter) ?_)
            rw [hframes]
            exact .here
          have hnested : w.Follows w.nested := follows_modifyScript fun _ _ => .refl _
          have hfollows := hnested.trans (Reentry.Sifting.sifts_enterClosure (P := False) f none none
            False.elim |>.ok henter).1
          have hgv : v.Genuine := hg.of_sizes hfollows.later hentered
          have hgv' : v'.Genuine :=
            hgv.of_sizes ((Spot.sifts_run 1 _ v).ok hrun).1.later (hended.trans hentered.symm)
          obtain ⟨hv, -, hflat, -⟩ := tuples_transient hw hcomes hgv
          obtain ⟨hxflat, hv'⟩ := hflat x v' hrun hgv'
          exact ⟨w, v, v', _, x, hw, hcomes, hrun, hx, hxflat, hv, hv'⟩
        · cases hcheck
      · cases hcheck
    · cases hcheck

end Hosted

end World

end LuaMachine
