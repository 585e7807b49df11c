import LuaMachine.Proofs.Code.Attribution
import LuaMachine.Proofs.Code.Blocks
import LuaMachine.Proofs.Machine.Aside
import LuaMachine.Script.Load

/-!
# Loading is atomic

A load is refused before anything was added to the script, or it adds a source and the code that
belongs to it, both at the end (`Script.Receives`). Sources are named by their numbers, so the number
that a source gets has to be the one that its code was attributed to: for a text by the compiler, for a
dump by the reader of its spans.

Main statement: `Exec.load_atomic`.
-/

namespace LuaMachine

/-! ## The spans of a dump -/

namespace Dump

/-- Whatever a read gives has `P`. -/
def Gives (read : Read α) (P : α → Prop) : Prop :=
  ∀ r a r', read.run r = .ok a r' → P a

variable {P : α → Prop} {Q : β → Prop}

theorem Gives.bind {read : Read α} {next : α → Read β} (h : Gives read P)
    (hnext : ∀ a, P a → Gives (next a) Q) : Gives (read >>= next) Q := by
  intro r b r'' hb
  rw [EStateM.run_bind] at hb
  cases hx : read.run r with
  | error e r' =>
    rw [hx] at hb
    cases hb
  | ok a r' =>
    rw [hx] at hb
    exact hnext a (h r a r' hx) r' b r'' hb

theorem gives_pure {a : α} (h : P a) : Gives (pure a) P := by
  intro r b r' hb
  cases hb
  exact h

/-- What is not looked at. -/
theorem gives_any (read : Read α) : Gives read fun _ => True := fun _ _ _ _ => trivial

theorem gives_each {read : Read α} (h : Gives read P) : ∀ n, Gives (Read.each read n) (∀ a ∈ ·, P a)
  | 0 => gives_pure (P := fun l => ∀ a ∈ l, P a) nofun
  | n + 1 => by
    rw [Read.each]
    refine h.bind fun a ha => ?_
    refine (gives_each h n).bind fun rest hrest => ?_
    exact gives_pure (List.forall_mem_cons.2 ⟨ha, hrest⟩)

/-- The spans of a dump are those of the source that it is read for. -/
theorem gives_span (n : Nat) : Gives (readSpan n) fun o => ∀ span ∈ o, span.LiesIn n := by
  unfold readSpan
  refine (gives_any _).bind fun present _ => ?_
  cases present with
  | false => exact gives_pure (P := fun o => ∀ span ∈ o, Span.LiesIn n span) nofun
  | true =>
    refine (gives_any _).bind fun fromLine _ => ?_
    refine (gives_any _).bind fun fromColumn _ => ?_
    refine (gives_any _).bind fun toLine _ => ?_
    refine (gives_any _).bind fun toColumn _ => ?_
    refine (gives_any _).bind fun flags _ => ?_
    refine gives_pure fun span hspan => ?_
    rw [← Option.some.inj hspan]
    rfl

theorem gives_instruction (n length : Nat) :
    Gives (readInstruction n length) fun i => ∀ span ∈ i.span, span.LiesIn n := by
  unfold readInstruction
  refine (gives_any _).bind fun op _ => ?_
  refine (gives_span n).bind fun span hspan => ?_
  exact gives_pure hspan

theorem gives_function (n : Nat) : Gives (readFunction n) fun p => Code.LiesIn n p.2 := by
  unfold readFunction
  refine (gives_any _).bind fun _ _ => ?_
  refine (gives_any _).bind fun hasEnv _ => ?_
  refine (gives_any _).bind fun length _ => ?_
  refine (gives_each (gives_instruction n length) length).bind fun body hbody => ?_
  exact gives_pure hbody

end Dump

/-! ## What a segment receives -/

/-- One segment comes from another by a block of code for a source, and the listed spans are of that
source too. -/
structure Segment.Receives (s s' : Segment) (source : Nat) (code : Code) (spans : List Span) :
    Prop where
  instructions : s'.code = s.code ++ code.toArray
  blocks : s'.blocks = s.blocks.push ⟨s.size, s.size + code.length⟩
  nonempty : code ≠ []
  attributed : code.LiesIn source
  spans : ∀ span ∈ spans, span.LiesIn source

namespace Segment

variable {s s' : Segment}

theorem receives_append {source : Nat} {code : Code} {spans : List Span} (hne : code ≠ [])
    (hcode : code.LiesIn source) (hspans : ∀ span ∈ spans, span.LiesIn source) :
    s.Receives (s.append code) source code spans := by
  have hempty : code.isEmpty = false := by simpa using hne
  unfold append
  rw [hempty]
  exact ⟨rfl, rfl, hne, hcode, hspans⟩

/-- A text that compiles becomes a block, which is entered at its start. -/
theorem receives_compile {options : CompileOptions} {text : String} {chunk : CompiledChunk}
    (h : s.compile options text = .ok (chunk, s')) :
    chunk.entry = s.size ∧ ∃ code, s.Receives s' options.source code chunk.spans := by
  have hheader := (hasHeader_compile h).2
  obtain ⟨body, code, spans, -, hcode, rfl, rfl⟩ := compile_eq_ok h
  obtain ⟨hattributed, hspans⟩ := Block.attributed_compile hcode
  refine ⟨rfl, code, receives_append ?_ hattributed hspans⟩
  -- a block without instructions would have no header
  rintro rfl
  obtain ⟨name, kind, n, hop⟩ := hheader
  have hnone : s.ops s.size = none := ops_eq_none_of_le (Nat.le_refl _)
  exact Option.some_ne_none _ (hop.symm.trans hnone)

/-- A dump that is read becomes a block, which is entered at its start. -/
theorem receives_undump {bytes : List UInt8} {source : Nat} {f : Undumped}
    (h : s.undump bytes source = .ok (f, s')) :
    f.entry = s.size ∧ ∃ code, s.Receives s' source code f.spans := by
  unfold undump at h
  split at h
  · cases h
  · next hasEnv body r hread =>
    have hbody : Code.LiesIn source body := Dump.gives_function source _ _ _ hread
    split at h
    · next name kind n span rest =>
      cases h
      refine ⟨rfl, _, receives_append (List.cons_ne_nil _ _) ?_ ?_⟩
      · intro i hi
        obtain ⟨j, hj, rfl⟩ := List.mem_map.1 hi
        exact hbody j hj
      · intro span' hspan
        obtain ⟨i, hi, hspan⟩ := List.mem_filterMap.1 hspan
        exact hbody i hi span' hspan
    · cases h

end Segment

/-! ## Loads -/

/-- What can be loaded into a script: a text, the bytes of a stream, or the body of a function. Texts
and streams may hold dumps. -/
inductive Loadable where
  | text (code : String)
  | stream (bytes : List UInt8)
  | body (code : String)

/-- Load it into the running script, with an environment and under a name. -/
def Loadable.load (env : Option TableId) (name : Option String) : Loadable → Exec Value
  | text code => Exec.loadString code env name
  | stream bytes => Exec.loadBytes bytes env name
  | body code => Exec.loadFunction code env name

/-- The reasons for which a load is refused. -/
inductive Stop.RefusesLoad : Stop → Prop
  | syntaxError (e : SyntaxError) : RefusesLoad (.error (.syntaxError e))
  | dump (e : DumpError) : RefusesLoad (.error (.dump e))
  | io (e : IoError) : RefusesLoad (.error (.io e))

/-- The code and the sources of all scripts are as they were, and so is the heap. -/
structure World.Unloaded (w w' : World) : Prop where
  loaded : w'.scripts.map (fun s => (s.code, s.sources)) = w.scripts.map fun s => (s.code, s.sources)
  heap : w'.heap = w.heap

/-- A script has one source and one block more. Nothing but the counters and what a debugger was told
has changed besides. -/
structure Script.Receives (s s' : Script) (source : SourceText) : Prop where
  sources : s'.sources = s.sources.push source
  number : source.id = s.sources.size
  block : ∃ code, s.code.Receives s'.code source.id code source.spans
  rest : s' = { s with
    code := s'.code, sources := s'.sources, counters := s'.counters, debug := s'.debug }

/-- The running script, which was `s`, has received a source, and `f` is the function of its code. -/
structure World.Loaded (w : World) (s : Script) (f : Value) (w' : World) : Prop where
  receives : ∃ s' source, s.Receives s' source ∧
    w'.scripts = w.scripts.setIfInBounds w.active.index s'
  function : ∃ id c, f = .function id ∧ w'.heap.closure? id = some c ∧
    c.owner = w.active ∧ c.entry = s.code.size

/-- The outcome of a load that commits everything or nothing. -/
def World.Commits (w : World) (s : Script) : EStateM.Result Stop World Value → Prop
  | .ok f w' => w.Loaded s f w'
  | .error stop w' => stop.RefusesLoad ∧ w.Unloaded w'

/-- The world with another script in place of the running one. -/
def World.setScript (w : World) (s : Script) : World :=
  { w with scripts := w.scripts.setIfInBounds w.active.index s }

namespace Exec

variable {w : World} {s : Script}

theorem script_eq (hs : w.scripts[w.active.index]? = some s) : script w = .ok s w := by
  have hget : w.scripts.getD w.active.index default = s := by
    rw [Array.getD_eq_getD_getElem?, hs, Option.getD_some]
  show EStateM.Result.ok _ _ = _
  rw [hget]

theorem modifyScript_eq (hs : w.scripts[w.active.index]? = some s) (f : Script → Script) :
    modifyScript f w = .ok () (w.setScript (f s)) := by
  have hmodify : w.scripts.modify w.active.index f =
      w.scripts.setIfInBounds w.active.index (f s) := by
    obtain ⟨hlt, hget⟩ := Array.getElem?_eq_some_iff.1 hs
    apply Array.ext_getElem?
    intro i
    rw [Array.getElem?_modify, Array.getElem?_setIfInBounds]
    by_cases hi : w.active.index = i
    · rw [if_pos hi, if_pos hi, if_pos hlt, ← hi, hs, Option.map_some]
    · rw [if_neg hi, if_neg hi]
  unfold World.setScript
  rw [← hmodify]
  rfl

/-- The script that was put in place of the running one. -/
theorem setScript_running (hs : w.scripts[w.active.index]? = some s) (s' : Script) :
    (w.setScript s').scripts[(w.setScript s').active.index]? = some s' := by
  obtain ⟨hlt, -⟩ := Array.getElem?_eq_some_iff.1 hs
  exact Array.getElem?_setIfInBounds_self_of_lt hlt

/-- The function of what was loaded is entered where it is told, and making it touches no script. -/
theorem loaded_eq (hs : w.scripts[w.active.index]? = some s) (entry : Nat) (hasEnv : Bool)
    (env : Option TableId) : ∃ id c w', loaded entry hasEnv env w = .ok (.function id) w' ∧
      w'.scripts = w.scripts ∧ w'.heap.closure? id = some c ∧ c.owner = w.active ∧
      c.entry = entry := by
  have hnew : ∀ (h : Heap) (c : Closure), (h.addClosure c).closure? ⟨h.closures.size⟩ = some c := by
    intro h c
    exact Array.getElem?_push_size
  unfold loaded
  rw [bind_ok (script_eq hs), bind_ok (get_eq w)]
  cases hasEnv with
  | true => exact ⟨_, _, _, rfl, rfl, hnew _ _, rfl, rfl⟩
  | false => exact ⟨_, _, _, rfl, rfl, hnew _ _, rfl, rfl⟩

/-- That a compilation is counted makes no difference to what is committed. -/
theorem commits_of_counted (hs : w.scripts[w.active.index]? = some s)
    (counters : PerformanceCounters) {r : EStateM.Result Stop World Value}
    (h : (w.setScript { s with counters }).Commits { s with counters } r) : w.Commits s r := by
  cases r with
  | ok f w' =>
    obtain ⟨⟨s', source, ⟨hsources, hid, hblock, hrest⟩, hscripts⟩, hf⟩ := h
    refine ⟨⟨s', source, ⟨hsources, hid, hblock, hrest⟩, ?_⟩, hf⟩
    unfold World.setScript at hscripts
    rw [hscripts, Array.setIfInBounds_setIfInBounds]
  | error stop w' =>
    obtain ⟨hstop, hloaded, hheap⟩ := h
    refine ⟨hstop, hloaded.trans ?_, hheap⟩
    apply Array.ext_getElem?
    intro i
    unfold World.setScript
    rw [Array.getElem?_map, Array.getElem?_map, Array.getElem?_setIfInBounds]
    by_cases hi : w.active.index = i
    · obtain ⟨hlt, -⟩ := Array.getElem?_eq_some_iff.1 hs
      rw [if_pos hi, if_pos hlt, ← hi, hs, Option.map_some, Option.map_some]
    · rw [if_neg hi]

/-- The end of every load: the script receives the source and its code, and the function is made. -/
theorem commits_addSource (hs : w.scripts[w.active.index]? = some s) {source : SourceText}
    {segment : Segment} {code : Code} (hid : source.id = s.sources.size)
    (hcode : s.code.Receives segment source.id code source.spans) {entry : Nat}
    (hentry : entry = s.code.size) (hasEnv : Bool) (env : Option TableId) :
    w.Commits s ((modifyScript (·.addSource segment source) >>= fun _ =>
      loaded entry hasEnv env) w) := by
  rw [bind_ok (modifyScript_eq hs _)]
  obtain ⟨id, c, w', hrun, hscripts, hc, howner, rfl⟩ :=
    loaded_eq (setScript_running hs (s.addSource segment source)) entry hasEnv env
  rw [hrun]
  refine ⟨⟨_, source, ⟨rfl, hid, ⟨code, hcode⟩, rfl⟩, hscripts⟩, ?_⟩
  exact ⟨id, c, rfl, hc, howner, hentry⟩

/-! ## The ways to load -/

/-- In whatever state the running script is, the load commits everything or nothing. -/
def Atomic (x : Exec Value) : Prop :=
  ∀ {w : World} {s : Script}, w.scripts[w.active.index]? = some s → w.Commits s (x w)

theorem atomic_failWith {e : ScriptError} (h : Stop.RefusesLoad (.error e)) :
    Atomic (failWith e) :=
  fun _ => ⟨h, rfl, rfl⟩

theorem atomic_compile (code : String) (env : Option TableId) (name : Option String)
    (kind : HeaderKind) : Atomic (compile code env name kind) := by
  intro w s hs
  have hs₁ := setScript_running hs { s with counters := s.counters.countCompilation }
  unfold compile
  rw [bind_ok (modifyScript_eq hs _), bind_ok (script_eq hs₁), bind_ok (get_eq _)]
  refine commits_of_counted hs s.counters.countCompilation ?_
  dsimp only
  cases hc : s.code.compile
      { chunk := name.getD s!"chunk_{s.sources.size}", source := s.sources.size, kind } code with
  | error e => exact atomic_failWith (.syntaxError e) hs₁
  | ok p =>
    obtain ⟨chunk, segment⟩ := p
    obtain ⟨hentry, block, hblock⟩ := Segment.receives_compile hc
    exact commits_addSource hs₁ rfl hblock hentry chunk.hasEnv env

theorem atomic_loadDump (bytes : List UInt8) (env : Option TableId) (name : Option String) :
    Atomic (loadDump bytes env name) := by
  intro w s hs
  unfold loadDump
  rw [bind_ok (script_eq hs), bind_ok (get_eq w)]
  dsimp only
  cases hc : s.code.undump bytes s.sources.size with
  | error e => exact atomic_failWith (.dump e) hs
  | ok p =>
    obtain ⟨f, segment⟩ := p
    obtain ⟨hentry, block, hblock⟩ := Segment.receives_undump hc
    exact commits_addSource hs rfl hblock hentry f.hasEnv env

/-- A text without the header of a dump is a source text. -/
theorem loadString_source {code : String} {env : Option TableId} {name : Option String}
    (h : dumpHeader.toList.isPrefixOf code.toList = false) :
    loadString code env name = compile code env name .chunk := by
  unfold loadString
  dsimp only
  rw [h, if_neg Bool.false_ne_true]

theorem atomic_loadString (code : String) (env : Option TableId) (name : Option String) :
    Atomic (loadString code env name) := by
  unfold loadString
  dsimp only
  split
  · split
    · next bytes _ => exact atomic_loadDump bytes env name
    · exact atomic_failWith (.dump _)
  · exact atomic_compile code env name .chunk

theorem atomic_loadBytes (bytes : List UInt8) (env : Option TableId) (name : Option String) :
    Atomic (loadBytes bytes env name) := by
  unfold loadBytes
  split
  · exact atomic_loadDump bytes env name
  · split
    · next code _ => exact atomic_loadString code env name
    · exact atomic_failWith (.io _)

/-- Loading is atomic, whatever is loaded, and in whatever state the script is. When it fails, which
it does with a syntax error, a dump error or an input error, no script has other code or other sources
than before. When it succeeds, the running script has exactly one source more, whose number is its
place, and exactly one block, at the old end of the code; all spans in the block and all spans that the
source lists carry that number; and the value is a new function that is entered at the start of the
block. -/
theorem load_atomic (hs : w.scripts[w.active.index]? = some s) (what : Loadable)
    (env : Option TableId) (name : Option String) : w.Commits s (what.load env name w) := by
  cases what with
  | text code => exact atomic_loadString code env name hs
  | stream bytes => exact atomic_loadBytes bytes env name hs
  | body code => exact atomic_compile code env name .function hs

/-- What is checked of a load by running it: whether it succeeds. -/
def succeeds (x : Exec Value) (w : World) : Bool :=
  match x w with
  | .ok .. => true
  | .error .. => false

theorem Atomic.of_succeeds {x : Exec Value} (h : Atomic x)
    (hs : w.scripts[w.active.index]? = some s) (hx : succeeds x w = true) :
    ∃ f w', x w = .ok f w' ∧ w.Loaded s f w' := by
  have hc := h hs
  unfold succeeds at hx
  cases hxw : x w with
  | ok f w' =>
    rw [hxw] at hc
    exact ⟨f, w', rfl, hc⟩
  | error stop w' =>
    rw [hxw] at hx
    cases hx

theorem Atomic.of_not_succeeds {x : Exec Value} (h : Atomic x)
    (hs : w.scripts[w.active.index]? = some s) (hx : succeeds x w = false) :
    ∃ stop w', x w = .error stop w' ∧ stop.RefusesLoad ∧ w.Unloaded w' := by
  have hc := h hs
  unfold succeeds at hx
  cases hxw : x w with
  | ok f w' =>
    rw [hxw] at hx
    cases hx
  | error stop w' =>
    rw [hxw] at hc
    exact ⟨stop, w', rfl, hc⟩

/-- A text with a function in it, loaded into an empty script, and a dump that ends too early. -/
theorem load_atomic_empty_script :
    (∃ f w', (Loadable.text "return function() return x end").load none none
        { scripts := #[default] } = .ok f w' ∧
      World.Loaded { scripts := #[default] } default f w') ∧
    ∃ stop w', (Loadable.stream [0x1b, 0x4c, 0x4e, 0x54, 1, 0]).load none none
        { scripts := #[default] } = .error stop w' ∧
      stop.RefusesLoad ∧ World.Unloaded { scripts := #[default] } w' := by
  have hall := fun what {w : World} {s : Script} (hs : w.scripts[w.active.index]? = some s) =>
    load_atomic hs what none none
  constructor
  · exact Atomic.of_succeeds (hall _) rfl (by decide +kernel)
  · exact Atomic.of_not_succeeds (hall _) (s := default) rfl (by decide +kernel)

end Exec

end LuaMachine
