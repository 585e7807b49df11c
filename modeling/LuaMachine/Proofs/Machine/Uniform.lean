import LuaMachine.Proofs.Machine.Aside

/-!
# The library, for two machines at once

Operators, host objects, native functions and probes work through the ways into the machine they are
given. A relation of computations that computations aside, sequences, handlers of errors and the few
ways of making functions and coroutines respect is called uniform (`Exec.Uniform`). If the ways into
two machines are related, so is everything that the library does with them (`Reentry.Alike.native`).
What is shown about the machine by induction on the depth of re-entry needs the library only in this
form: with one machine on both sides it says that a property is kept, with two that they agree.

The library itself has only handlers that let a cancellation pass; some probes have others. A relation
that need not respect those is called regular (`Exec.Regular`), and is enough for everything but these
probes (`Reentry.Paired.native`).
-/

namespace LuaMachine

open Exec

/-! ## Making coroutines -/

/-- The coroutine that a script makes of a function. -/
def Coroutine.fresh (owner : ScriptId) (f : Value) : Coroutine :=
  { owner, state := .notStarted
    body := some { processor := { isCoroutine := true }, function := some f } }

namespace Exec

/-- Make sure that a value is a function that the running script can make a coroutine of. -/
def checkBody (f : Value) : Exec Unit := do
  let w ← get
  match f with
  | .function id =>
    if (w.heap.closure? id).map (·.owner) != some w.active then fail .foreignCoroutineBody
  | .callback _ => pure ()
  | v => fail (.badArgument 1 "create" "function" v.typeName)

theorem aside_checkBody (f : Value) : Aside (checkBody f) := by
  refine aside_get.bind fun w => ?_
  split
  · split
    · exact aside_fail _
    · exact aside_pure ()
  · exact aside_pure ()
  · exact aside_fail _

/-- Make a coroutine of a function of the running script, whatever that is. -/
def startCoroutine (f : Value) : Exec CoroutineId := fun w => newCoroutine (.fresh w.active f) w

/-- Enter a coroutine in the books of the running script. -/
def trackCoroutine (id : CoroutineId) : Exec CoroutineId := do
  let h ← heap
  let isDead (c : CoroutineId) : Bool := (h.coroutine? c).map (·.state) == some .dead
  modifyScript fun s => { s with coroutines := (s.coroutines.filter (!isDead ·)).push id }
  return id

theorem aside_trackCoroutine (id : CoroutineId) : Aside (trackCoroutine id) :=
  aside_heap.bind fun _ => Aside.bind
    (aside_modify fun w => .modifyScript w _ (fun _ => rfl) fun _ => .refl _) fun _ => aside_pure id

theorem createCoroutine_eq (f : Value) : createCoroutine f = (do
    checkBody f.scalar
    trackCoroutine (← startCoroutine f.scalar)) := by
  funext w
  unfold createCoroutine checkBody
  change EStateM.bind get _ w = EStateM.bind (EStateM.bind get _) _ w
  unfold EStateM.bind
  cases f.scalar with
  | function id =>
    dsimp only [get, getThe, MonadStateOf.get, EStateM.get]
    split <;> rfl
  | callback c => rfl
  | _ => rfl

end Exec

/-! ## Relations that the library respects -/

/-- A handler of errors lets a cancellation pass. -/
def Exec.LetsPass {α : Type} (f : ScriptError → Exec α) : Prop := f .cancelled = failWith .cancelled

/-- A relation of computations that the library respects. -/
structure Exec.Regular (Φ : {α : Type} → Exec α → Exec α → Prop) : Prop where
  aside : ∀ {α : Type} {x : Exec α}, x.Aside → Φ x x
  bind : ∀ {α β : Type} {x x' : Exec α} {f f' : α → Exec β}, Φ x x' → (∀ a, Φ (f a) (f' a)) →
    Φ (x >>= f) (x' >>= f')
  handled : ∀ {α : Type} {x x' : Exec α} {f f' : ScriptError → Exec α}, Φ x x' →
    (∀ e, Φ (f e) (f' e)) → LetsPass f → LetsPass f' →
    Φ (Exec.catchError x f) (Exec.catchError x' f')
  loadString : ∀ code env name, Φ (Exec.loadString code env name)
    (Exec.loadString code env name)
  start : ∀ f, Φ (startCoroutine f) (startCoroutine f)

/-- A relation of computations that the library and all probes respect. -/
structure Exec.Uniform (Φ : {α : Type} → Exec α → Exec α → Prop) : Prop
    extends Exec.Regular Φ where
  catchError : ∀ {α : Type} {x x' : Exec α} {f f' : ScriptError → Exec α}, Φ x x' →
    (∀ e, Φ (f e) (f' e)) → Φ (Exec.catchError x f) (Exec.catchError x' f')
  intruding : ∀ {α : Type} {x x' : Exec α}, Φ x x' → Φ (Probe.intruding x) (Probe.intruding x')
  handled := fun hx hf _ _ => catchError hx hf

namespace Exec.Regular

variable {Φ : {α : Type} → Exec α → Exec α → Prop} {α β : Type}

theorem pure (h : Regular Φ) (a : α) : Φ (pure a) (pure a) := h.aside (aside_pure a)

theorem failWith (h : Regular Φ) (e : ScriptError) : Φ (failWith e : Exec α) (failWith e) :=
  h.aside (aside_failWith e)

theorem fail (h : Regular Φ) (f : Fault) : Φ (fail f : Exec α) (fail f) :=
  h.aside (aside_fail f)

/-- Something aside comes first. -/
theorem after (h : Regular Φ) {x : Exec α} {f f' : α → Exec β} (hx : x.Aside)
    (hf : ∀ a, Φ (f a) (f' a)) : Φ (x >>= f) (x >>= f') :=
  h.bind (h.aside hx) hf

theorem create (h : Regular Φ) (f : Value) : Φ (createCoroutine f) (createCoroutine f) := by
  rw [createCoroutine_eq]
  exact h.after (aside_checkBody _) fun _ => h.bind (h.start _) fun id => h.aside (aside_trackCoroutine id)

theorem mapM (h : Regular Φ) {f f' : α → Exec β} (hf : ∀ a, Φ (f a) (f' a)) (as : List α) :
    Φ (as.mapM f) (as.mapM f') := by
  induction as with
  | nil => exact h.pure _
  | cons a as ih =>
    rw [List.mapM_cons, List.mapM_cons]
    exact h.bind (hf a) fun _ => h.bind ih fun _ => h.pure _

theorem protect (h : Regular Φ) {x x' : Exec Value} (hx : Φ x x') :
    Φ (Exec.protect x) (Exec.protect x') := by
  refine h.handled (h.bind hx fun _ => h.pure _) (fun e => ?_) rfl rfl
  split
  · exact h.pure _
  · exact h.failWith _

end Exec.Regular

/-- Two machines whose ways in are related, as the library needs it. -/
structure Reentry.Paired (Φ : {α : Type} → Exec α → Exec α → Prop) (r r' : Reentry) : Prop
    extends Exec.Regular Φ where
  call : ∀ f args, Φ (r.call f args) (r'.call f args)
  resume : ∀ id args, Φ (r.resume id args) (r'.resume id args)
  enter : ∀ id code, Φ (r.enter id code) (r'.enter id code)

/-- Two machines whose ways in are related, as the library and all probes need it. -/
structure Reentry.Alike (Φ : {α : Type} → Exec α → Exec α → Prop) (r r' : Reentry) : Prop
    extends Exec.Uniform Φ, Reentry.Paired Φ r r'

namespace Reentry

variable {Φ : {α : Type} → Exec α → Exec α → Prop} {r r' : Reentry}

/-! ## Operators -/

theorem Paired.handle (hr : Paired Φ r r') (handler : Value) (args : List Value) :
    Φ (r.handle handler args) (r'.handle handler args) :=
  hr.bind (hr.call handler args) fun _ => hr.pure _

/-- A handler of one of two operands, or a fault. -/
theorem Paired.handleOr (hr : Paired Φ r r') {x : Exec (Option Value)} (hx : x.Aside)
    (args : List Value) (f : Fault) :
    Φ (x >>= fun handler? => match handler? with
      | some handler => r.handle handler args
      | none => fail f) (x >>= fun handler? => match handler? with
      | some handler => r'.handle handler args
      | none => fail f) := by
  refine hr.after hx fun handler? => ?_
  cases handler? with
  | none => exact hr.fail f
  | some handler => exact hr.handle handler args

theorem Paired.arithmetic (hr : Paired Φ r r') (event : String) (f : Number → Number → Number)
    (a b : Value) : Φ (r.arithmetic event f a b) (r'.arithmetic event f a b) := by
  unfold Reentry.arithmetic
  split
  · exact hr.pure _
  · exact hr.handleOr (aside_handlerOf? a b event) _ _

theorem Paired.concat (hr : Paired Φ r r') (a b : Value) : Φ (r.concat a b) (r'.concat a b) := by
  unfold Reentry.concat
  split
  · exact hr.pure _
  · exact hr.handleOr (aside_handlerOf? a b _) _ _

/-- A handler decides, or something else does. -/
theorem Paired.askOr (hr : Paired Φ r r') {x : Exec (Option Value)} (hx : x.Aside) {args : List Value}
    {answer : Value → Bool} {other other' : Exec Bool} (ho : Φ other other') :
    Φ (x >>= fun handler? => match handler? with
      | some handler => do return answer (← r.handle handler args)
      | none => other) (x >>= fun handler? => match handler? with
      | some handler => do return answer (← r'.handle handler args)
      | none => other') := by
  refine hr.after hx fun handler? => ?_
  cases handler? with
  | none => exact ho
  | some handler => exact hr.bind (hr.handle handler args) fun _ => hr.pure _

theorem Paired.equals (hr : Paired Φ r r') (a b : Value) : Φ (r.equals a b) (r'.equals a b) := by
  unfold Reentry.equals
  split
  · exact hr.pure _
  · split
    · exact hr.askOr (aside_handlerOf? _ _ _) (hr.pure _)
    · exact hr.pure _

theorem Paired.lessThan (hr : Paired Φ r r') (a b : Value) :
    Φ (r.lessThan a b) (r'.lessThan a b) := by
  unfold Reentry.lessThan
  split
  · exact hr.pure _
  · exact hr.pure _
  · exact hr.askOr (aside_handlerOf? a b _) (hr.fail _)

theorem Paired.lessEqual (hr : Paired Φ r r') (a b : Value) :
    Φ (r.lessEqual a b) (r'.lessEqual a b) := by
  unfold Reentry.lessEqual
  split
  · exact hr.pure _
  · exact hr.pure _
  · exact hr.askOr (aside_handlerOf? a b _) (hr.askOr (aside_handlerOf? a b _) (hr.fail _))

theorem Paired.binary (hr : Paired Φ r r') (op : BinaryOp) (a b : Value) :
    Φ (r.binary op a b) (r'.binary op a b) := by
  cases op with
  | add => exact hr.arithmetic _ _ a b
  | sub => exact hr.arithmetic _ _ a b
  | mul => exact hr.arithmetic _ _ a b
  | div => exact hr.arithmetic _ _ a b
  | mod => exact hr.arithmetic _ _ a b
  | pow => exact hr.arithmetic _ _ a b
  | concat => exact hr.concat a b
  | eq => exact hr.bind (hr.equals a b) fun _ => hr.pure _
  | ne => exact hr.bind (hr.equals a b) fun _ => hr.pure _
  | lt => exact hr.bind (hr.lessThan a b) fun _ => hr.pure _
  | le => exact hr.bind (hr.lessEqual a b) fun _ => hr.pure _
  | gt => exact hr.bind (hr.lessThan b a) fun _ => hr.pure _
  | ge => exact hr.bind (hr.lessEqual b a) fun _ => hr.pure _

theorem Paired.negate (hr : Paired Φ r r') (a : Value) : Φ (r.negate a) (r'.negate a) := by
  unfold Reentry.negate
  split
  · exact hr.pure _
  · exact hr.handleOr (aside_metamethod? a _) _ _

theorem Paired.length (hr : Paired Φ r r') (a : Value) : Φ (r.length a) (r'.length a) := by
  unfold Reentry.length
  refine hr.after (aside_metamethod? a "__len") fun handler? => ?_
  cases handler? with
  | some handler => exact hr.handle handler _
  | none =>
    cases a with
    | string s => exact hr.pure _
    | table id => exact hr.after aside_heap fun _ => hr.pure _
    | _ => exact hr.fail _

/-! ## Indexing and variables -/

theorem Paired.indexFrom (hr : Paired Φ r r') (key : Value) (n : Nat) (object : Value) :
    Φ (r.indexFrom key n object) (r'.indexFrom key n object) := by
  induction n generalizing object with
  | zero => exact hr.fail _
  | succ n ih =>
    unfold Reentry.indexFrom
    split
    · refine hr.after aside_heap fun h => ?_
      dsimp only
      split
      · exact hr.pure _
      · refine hr.after (aside_metamethod? _ _) fun handler? => ?_
        cases handler? with
        | none => exact hr.pure _
        | some handler =>
          dsimp only
          split
          · exact hr.handle handler _
          · exact ih handler
    · exact hr.aside (aside_getMember _ key)
    · exact hr.fail _

theorem Paired.index (hr : Paired Φ r r') (object key : Value) :
    Φ (r.index object key) (r'.index object key) :=
  hr.indexFrom key _ _

theorem Paired.setIndexFrom (hr : Paired Φ r r') (key value : Value) (n : Nat) (object : Value) :
    Φ (r.setIndexFrom key value n object) (r'.setIndexFrom key value n object) := by
  induction n generalizing object with
  | zero => exact hr.fail _
  | succ n ih =>
    unfold Reentry.setIndexFrom
    split
    · refine hr.after aside_heap fun h => ?_
      split
      · exact hr.aside (aside_setIndex _ key value)
      · refine hr.after (aside_metamethod? _ _) fun handler? => ?_
        cases handler? with
        | none => exact hr.aside (aside_setIndex _ key value)
        | some handler =>
          dsimp only
          split
          · exact hr.bind (hr.call handler _) fun _ => hr.pure _
          · exact ih handler
    · exact hr.aside (aside_setMember _ key value)
    · exact hr.fail _

theorem Paired.setIndex (hr : Paired Φ r r') (object key value : Value) :
    Φ (r.setIndex object key value) (r'.setIndex object key value) :=
  hr.setIndexFrom key value _ _

/-- What reading a global variable does with its environment. -/
theorem Paired.readGlobal (hr : Paired Φ r r') (name : String) (env : Value) :
    Φ (match env with
      | .table id => do
        let t := (← heap).table id
        let v := t.getString name
        if !v.isNil || t.metatable.isNone then return v
        r.index (.table id) (.string name)
      | v => fail (.envNotTable v.typeName) : Exec Value) (match env with
      | .table id => do
        let t := (← heap).table id
        let v := t.getString name
        if !v.isNil || t.metatable.isNone then return v
        r'.index (.table id) (.string name)
      | v => fail (.envNotTable v.typeName) : Exec Value) := by
  cases env with
  | table id =>
    refine hr.after aside_heap fun h => ?_
    dsimp only
    split
    · exact hr.pure _
    · exact hr.index _ _
  | _ => exact hr.fail _

theorem Paired.readSymbol (hr : Paired Φ r r') (s : Symbol) :
    Φ (r.readSymbol s) (r'.readSymbol s) := by
  induction s with
  | global name env ih => exact hr.bind ih fun v => hr.readGlobal name v
  | «local» name slot => exact hr.aside (aside_readCell _)
  | upvalue name i => exact hr.aside (aside_readCell _)
  | defaultEnv => exact hr.aside (aside_readCell _)

theorem Paired.method (hr : Paired Φ r r') (id : ObjectId) (m : Method) (args : Arguments) :
    Φ (m.run r id args) (m.run r' id args) := by
  unfold Method.run
  dsimp only
  refine hr.after aside_heap fun h => ?_
  split
  · exact hr.after (aside_lift _) fun _ => hr.after (aside_setBalance id _) fun _ => hr.pure _
  · exact hr.after (aside_lift _) fun _ => hr.after (aside_setReadings id _) fun _ => hr.pure _
  · exact hr.pure _
  · exact hr.call _ _
  · exact hr.after aside_heap fun _ => hr.fail _
  · exact hr.aside (aside_throw _)
  · exact hr.pure _

/-! ## The library -/

theorem Paired.textOf (hr : Paired Φ r r') (v : Value) :
    Φ (Library.textOf r v) (Library.textOf r' v) := by
  unfold Library.textOf
  refine hr.after (aside_metamethod? v _) fun handler? => ?_
  cases handler? with
  | none => exact hr.after aside_heap fun _ => hr.pure _
  | some handler =>
    refine hr.bind (hr.call handler _) fun result => ?_
    split
    · exact hr.pure _
    · exact hr.pure _
    · exact hr.fail _

theorem Paired.print (hr : Paired Φ r r') (args : Arguments) :
    Φ (Library.print r args) (Library.print r' args) :=
  hr.bind (hr.mapM hr.textOf args.values) fun _ => hr.after (aside_print _) fun _ => hr.pure _

theorem Paired.pairs (hr : Paired Φ r r') (args : Arguments) :
    Φ (Library.pairs r args) (Library.pairs r' args) := by
  unfold Library.pairs
  refine hr.after (aside_lift _) fun v => hr.after (aside_metamethod? v _) fun handler? => ?_
  cases handler? with
  | none =>
    exact hr.after (aside_lift _) fun _ => hr.after (aside_newCallback _) fun _ => hr.pure _
  | some handler => exact hr.bind (hr.call handler _) fun _ => hr.pure _

theorem Paired.pcall (hr : Paired Φ r r') (args : Arguments) :
    Φ (Library.pcall r args) (Library.pcall r' args) :=
  hr.after (aside_lift _) fun f => hr.protect (hr.call f _)

theorem Paired.resumed (hr : Paired Φ r r') (args : Arguments) :
    Φ (Library.resume r args) (Library.resume r' args) :=
  hr.after (aside_lift _) fun id => hr.protect (hr.resume id _)

theorem Paired.readPieces (hr : Paired Φ r r') (reader : Value) (n : Nat) (text : String) :
    Φ (Library.readPieces r reader n text) (Library.readPieces r' reader n text) := by
  induction n generalizing text with
  | zero => exact hr.aside (aside_throw _)
  | succ n ih =>
    unfold Library.readPieces
    refine hr.bind (hr.call reader _) fun result => ?_
    split
    · split
      · exact hr.pure _
      · exact ih _
    · exact hr.pure _
    · exact hr.fail _

/-- What loading a text comes to for a script: a syntax error is a result. -/
theorem Paired.loadResult (hr : Paired Φ r r') (code : String)
    (env : Option TableId) (name : Option String) :
    Φ (catchError (loadString code env name) fun
      | .syntaxError e => return .ofList [.nil, .string e.display]
      | e => failWith e) (catchError (loadString code env name) fun
      | .syntaxError e => return .ofList [.nil, .string e.display]
      | e => failWith e) := by
  refine hr.handled (hr.loadString code env name) (fun e => ?_) rfl rfl
  split
  · exact hr.pure _
  · exact hr.failWith _

theorem Paired.load (hr : Paired Φ r r') (args : Arguments) :
    Φ (Library.load r args) (Library.load r' args) := by
  unfold Library.load
  dsimp only
  split
  · exact hr.bind (hr.pure _) fun code => hr.loadResult code _ _
  · split
    · exact hr.bind (hr.readPieces _ _ _) fun code => hr.loadResult code _ _
    · exact hr.bind (hr.fail _) fun code => hr.loadResult code _ _

theorem Paired.builtin (hr : Paired Φ r r') (caller : Option Span) (args : Arguments) (b : Builtin) :
    Φ (b.run r caller args) (b.run r' caller args) := by
  cases b with
  | print => exact hr.print args
  | typeOf => exact hr.after (aside_lift _) fun _ => hr.pure _
  | tostring => exact hr.after (aside_lift _) fun v => hr.bind (hr.textOf v) fun _ => hr.pure _
  | tonumber => exact hr.aside (Library.aside_tonumber args)
  | pairs => exact hr.pairs args
  | ipairs => exact hr.aside (Library.aside_ipairs args)
  | ipairsStep => exact hr.aside (Library.aside_ipairsStep args)
  | next => exact hr.aside (Library.aside_next args)
  | select => exact hr.aside (Library.aside_select args)
  | error => exact hr.aside (Library.aside_error caller args)
  | assert => exact hr.aside (Library.aside_assert args)
  | pcall => exact hr.pcall args
  | rawget => exact hr.aside (Library.aside_rawget args)
  | rawset => exact hr.aside (Library.aside_rawset args)
  | rawequal => exact hr.aside (Library.aside_rawequal args)
  | rawlen => exact hr.aside (Library.aside_rawlen args)
  | setmetatable => exact hr.aside (Library.aside_setmetatable args)
  | getmetatable => exact hr.aside (Library.aside_getmetatable args)
  | unpack => exact hr.aside (Library.aside_unpack args)
  | load => exact hr.load args
  | sleep => exact hr.aside (Library.aside_sleep args)
  | create => exact hr.after (aside_lift _) fun _ => hr.bind (hr.create _) fun _ => hr.pure _
  | resume => exact hr.resumed args
  | status => exact hr.aside (Library.aside_status args)
  | running => exact hr.aside (Library.aside_running)
  | wrap =>
    refine hr.after (aside_lift _) fun _ => hr.bind (hr.create _) fun _ => ?_
    exact hr.aside (aside_newCallback _)
  | isyieldable => exact hr.after aside_isyieldable fun _ => hr.pure _

/-! ## Probes, functions of the host and native functions -/

end Reentry

/-- A native function lets a cancellation pass. The probes that enter a script make a text of it. -/
def Native.LetsPass : Native → Prop
  | probe _ .reenter | probe _ .intrude => False
  | _ => True

namespace Reentry

variable {Φ : {α : Type} → Exec α → Exec α → Prop} {r r' : Reentry}

theorem Paired.probe (hr : Paired Φ r r') (home : ScriptId) (caller : Option Span)
    (args : Arguments) (p : Probe) (hp : (Native.probe home p).LetsPass) :
    Φ (p.run r home caller args) (p.run r' home caller args) := by
  cases p with
  | cancel => exact hr.after aside_get fun _ => hr.after (aside_cancel _) fun _ => hr.pure _
  | hostcall => exact hr.after (aside_lift _) fun f => hr.call f _
  | hostload => exact hr.after (aside_lift _) fun code => hr.loadString code _ _
  | hostinfo => exact hr.aside (aside_info caller)
  | hostfail => exact hr.after (aside_lift _) fun _ => hr.fail _
  | registry =>
    unfold Probe.run
    refine hr.after (aside_lift _) fun key => hr.after aside_script fun s => ?_
    refine hr.after aside_heap fun h => ?_
    dsimp only
    split
    · exact hr.after (aside_setIndex _ _ _) fun _ => hr.pure _
    · exact hr.pure _
  | reenter => exact hp.elim
  | intrude => exact hp.elim

theorem Paired.operation (hr : Paired Φ r r') (caller : Option Span) (op : Operation) :
    Φ (op.run r caller) (op.run r' caller) := by
  cases op with
  | globals => exact hr.after aside_script fun _ => hr.pure _
  | registry => exact hr.after aside_script fun _ => hr.pure _
  | running => exact hr.after aside_script fun _ => hr.pure _
  | canYield => exact hr.after aside_isyieldable fun _ => hr.pure _
  | isCancelled => exact hr.after aside_isCancelled fun _ => hr.pure _
  | location => exact hr.after aside_script fun _ => hr.pure _
  | call f args => exact hr.call f _
  | load code env name => exact hr.loadString code env name
  | create f => exact hr.bind (hr.create f) fun _ => hr.pure _
  | resume co args => exact hr.resume co _
  | print line => exact hr.after (aside_print line) fun _ => hr.pure _
  | newTable => exact hr.aside (aside_newTable {})
  | get id key => exact hr.after aside_heap fun _ => hr.pure _
  | set id key value => exact hr.after (aside_setIndex id key value) fun _ => hr.pure _

/-- Whatever a function of the host does, it does to both. -/
theorem Paired.actions (hr : Paired Φ r r') (caller : Option Span) (name : String) (n : Nat) :
    Φ (External.actions r caller name n) (External.actions r' caller name n) := by
  induction n with
  | zero => exact hr.aside (aside_throw _)
  | succ n ih =>
    unfold External.actions
    refine hr.after aside_get fun w => ?_
    split
    · exact hr.pure _
    · exact hr.fail _
    · exact hr.bind (hr.operation caller _) fun v => hr.after (aside_tell v) fun _ => ih

theorem Paired.native (hr : Paired Φ r r') (caller : Option Span) (args : Arguments) (n : Native)
    (hn : n.LetsPass) : Φ (n.run r caller args) (n.run r' caller args) := by
  cases n with
  | builtin b => exact hr.builtin caller args b
  | yield => exact hr.fail _
  | resumer co => exact hr.resume co _
  | method id m => exact hr.method id m args
  | probe home p => exact hr.probe home caller args p hn
  | echo name => exact hr.pure _
  | external name => exact hr.after (aside_tell _) fun _ => hr.actions caller name _

theorem Alike.attempt (hr : Alike Φ r r') (target : ScriptId) (code : String) :
    Φ (Probe.attempt r target code) (Probe.attempt r' target code) :=
  hr.catchError (hr.enter target code) fun _ => hr.pure _

theorem Alike.native (hr : Alike Φ r r') (caller : Option Span) (args : Arguments) (n : Native) :
    Φ (n.run r caller args) (n.run r' caller args) := by
  by_cases hn : n.LetsPass
  · exact hr.toPaired.native caller args n hn
  · unfold Native.LetsPass at hn
    split at hn
    · next home => exact hr.after (aside_lift _) fun code => hr.attempt home code
    · next home =>
      refine hr.after (aside_lift _) fun code => hr.after aside_get fun w => ?_
      have hattempt := hr.intruding (hr.attempt home code)
      dsimp only
      split
      · exact hr.bind (hr.fail _) fun _ => hattempt
      · exact hattempt
    · exact absurd trivial hn

end Reentry

end LuaMachine
