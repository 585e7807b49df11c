import LuaMachine.Proofs.Coroutine.Orderly
import LuaMachine.Proofs.Machine.Running

/-!
# Instructions and coroutines

Between one request to the machine and the next, code does nothing to coroutines but make new ones.
So whatever holds of a world and lasts when nothing happens to coroutines, or when one is made
(`World.Lasting`), holds after every instruction if it holds after the requests that the instruction
makes, and two machines that answer alike in the worlds where it holds carry out the instruction alike
(`Reentry.Alike.step`).
-/

namespace LuaMachine

open Exec

namespace Exec

variable {α β : Type}

/-- What holds when a computation from a world returns: after a value, and after an error. -/
structure Leads (x : Exec α) (w : World) (Q : α → World → Prop) (E : World → Prop) : Prop where
  ok : ∀ {a w'}, x w = .ok a w' → Q a w'
  error : ∀ {e w'}, x w = .error (.error e) w' → E w'

theorem Leads.mono {x : Exec α} {w : World} {Q Q' : α → World → Prop} {E E' : World → Prop}
    (h : x.Leads w Q E) (hq : ∀ a w', Q a w' → Q' a w') (he : ∀ w', E w' → E' w') :
    x.Leads w Q' E' :=
  ⟨fun hx => hq _ _ (h.ok hx), fun hx => he _ (h.error hx)⟩

theorem Leads.bind {x : Exec α} {f : α → Exec β} {w : World} {Q : α → World → Prop}
    {R : β → World → Prop} {E : World → Prop} (hx : x.Leads w Q E)
    (hf : ∀ a w', Q a w' → (f a).Leads w' R E) : (x >>= f).Leads w R E := by
  have heq : (x >>= f) w = EStateM.bind x f w := rfl
  unfold EStateM.bind at heq
  constructor
  · intro b w'' h
    rw [heq] at h
    split at h
    · next a w' ha => exact (hf a w' (hx.ok ha)).ok h
    · cases h
  · intro e w'' h
    rw [heq] at h
    split at h
    · next a w' ha => exact (hf a w' (hx.ok ha)).error h
    · next s w' hs =>
      cases h
      exact hx.error hs

theorem Leads.of_ok {x : Exec α} {w w' : World} {a : α} {Q : α → World → Prop} {E : World → Prop}
    (hx : x w = .ok a w') (hq : Q a w') : x.Leads w Q E := by
  constructor
  · intro b w'' h
    rw [hx] at h
    cases h
    exact hq
  · intro e w'' h
    rw [hx] at h
    cases h

/-- The first computation succeeds. -/
theorem Leads.ok_bind {x : Exec α} {f : α → Exec β} {w v : World} {a : α} {Q : β → World → Prop}
    {E : World → Prop} (hx : x w = .ok a v) (hf : (f a).Leads v Q E) : (x >>= f).Leads w Q E := by
  refine Leads.bind (Leads.of_ok (Q := fun b u => b = a ∧ u = v) hx ⟨rfl, rfl⟩) ?_
  rintro _ _ ⟨rfl, rfl⟩
  exact hf

theorem Leads.get_bind {f : World → Exec β} {w : World} {Q : β → World → Prop} {E : World → Prop}
    (h : (f w).Leads w Q E) : (get >>= f).Leads w Q E :=
  ⟨h.ok, h.error⟩

theorem Leads.catchError {x : Exec α} {f : ScriptError → Exec α} {w : World}
    {Q : α → World → Prop} {E E' : World → Prop} (hx : x.Leads w Q E)
    (hf : ∀ e w', E w' → (f e).Leads w' Q E') : (Exec.catchError x f).Leads w Q E' := by
  constructor
  · intro a w' h
    unfold Exec.catchError at h
    split at h
    · next b w₁ hr =>
      cases h
      exact hx.ok hr
    · next e w₁ hr => exact (hf e w₁ (hx.error hr)).ok h
    · cases h
  · intro e' w' h
    unfold Exec.catchError at h
    split at h
    · cases h
    · next e w₁ hr => exact (hf e w₁ (hx.error hr)).error h
    · next hnot _ =>
      cases h
      exact absurd rfl (hnot e')

theorem Leads.andFinally {x : Exec α} {w : World} {Q Q' : α → World → Prop} {E E' : World → Prop}
    (hx : x.Leads w Q E) (after : World → World) (hq : ∀ a w', Q a w' → Q' a (after w'))
    (he : ∀ w', E w' → E' (after w')) : (Exec.andFinally x after).Leads w Q' E' := by
  constructor
  · intro a w' h
    unfold Exec.andFinally at h
    split at h
    · next b w₁ hr =>
      cases h
      exact hq _ _ (hx.ok hr)
    · cases h
  · intro e w' h
    unfold Exec.andFinally at h
    split at h
    · cases h
    · next s w₁ hr =>
      cases h
      exact he _ (hx.error hr)

theorem Leads.andSettle {x : Exec α} {w : World} {Q Q' : α → World → Prop} {E E' : World → Prop}
    (hx : x.Leads w Q E) (onValue onError : World → World)
    (hq : ∀ a w', Q a w' → Q' a (onValue w')) (he : ∀ w', E w' → E' (onError w')) :
    (Exec.andSettle x onValue onError).Leads w Q' E' := by
  constructor
  · intro a w' h
    unfold Exec.andSettle at h
    split at h
    · next b w₁ hr =>
      cases h
      exact hq _ _ (hx.ok hr)
    · cases h
    · cases h
  · intro e w' h
    unfold Exec.andSettle at h
    split at h
    · cases h
    · next e₁ w₁ hr =>
      cases h
      exact he _ (hx.error hr)
    · next hnot _ =>
      cases h
      exact absurd rfl (hnot e)

theorem Leads.of_ends {R : World → World → Prop} {x : Exec α} (hx : x.Ends R) (w : World) :
    x.Leads w (fun _ => R w) (R w) :=
  ⟨hx.ok, hx.error⟩


/-! ## What instructions do themselves -/

/-- A property of computations that instructions have if what they ask the machine for has it: sequences
respect it, and it is true of what happens aside and of changes to the value stack, to the next
instruction, to variables and to the books of scripts. The call stack keeps its frames meanwhile, with
their bases and return addresses. -/
structure Stepwise (Φ : {α : Type} → Exec α → Prop) : Prop where
  aside : ∀ {α : Type} {x : Exec α}, x.Aside → Φ x
  bind : ∀ {α β : Type} {x : Exec α} {f : α → Exec β}, Φ x → (∀ a, Φ (f a)) → Φ (x >>= f)
  values : ∀ {α : Type} {x : Exec α},
    (∀ w, ∃ values, x.final w = { w with processor := { w.processor with values } }) → Φ x
  ip : ∀ f : Nat → Nat, Φ (modifyProcessor fun p => { p with ip := f p.ip })
  frame : ∀ {f : ScriptFrame → ScriptFrame}, (∀ g, (f g).base = g.base) →
    (∀ g, (f g).returnAddress = g.returnAddress) → Φ (modifyTopFrame f)
  newCell : ∀ v, Φ (Exec.newCell v)
  newClosure : ∀ c, Φ (Exec.newClosure c)
  setCell : ∀ (cell : CellId) (v : Value), Φ (modifyHeap (·.setCell cell v))
  books : ∀ {f : Script → Script}, (∀ s : Script, (f s).running = s.running) →
    (∀ s : Script, (f s).processor = s.processor) → (∀ s : Script, s.debug.Heeds (f s).debug) →
    Φ (modifyScript f)

namespace Stepwise

variable {Φ : {α : Type} → Exec α → Prop} (h : Stepwise Φ)

include h

theorem pure (a : α) : Φ (pure a : Exec α) := h.aside (aside_pure a)

theorem fail (f : Fault) : Φ (fail f : Exec α) := h.aside (aside_fail f)

/-- Something aside comes first. -/
theorem after {x : Exec α} {f : α → Exec β} (hx : x.Aside) (hf : ∀ a, Φ (f a)) : Φ (x >>= f) :=
  h.bind (h.aside hx) hf

/-! ### The stacks of the processor -/

theorem push (v : Value) : Φ (push v) := h.values fun _ => ⟨_, rfl⟩

theorem pushAll (vs : List Value) : Φ (pushAll vs) := by
  induction vs with
  | nil => exact h.pure _
  | cons v rest ih => exact h.bind (h.push v) fun _ => ih

theorem pop : Φ pop := by
  refine h.values fun w => ?_
  unfold final Exec.pop
  cases w.processor.values.back? with
  | none => exact ⟨_, rfl⟩
  | some v => exact ⟨_, rfl⟩

theorem popMany (n : Nat) : Φ (popMany n) := by
  refine h.values fun w => ?_
  unfold final Exec.popMany
  dsimp only
  by_cases hn : n ≤ w.processor.values.size
  · rw [if_pos hn]
    exact ⟨_, rfl⟩
  · rw [if_neg hn]
    exact ⟨_, rfl⟩

theorem setPeek (depth : Nat) (v : Value) : Φ (setPeek depth v) := h.values fun _ => ⟨_, rfl⟩

theorem truncate (height : Nat) : Φ (truncate height) := h.values fun _ => ⟨_, rfl⟩

theorem advance : Φ advance := h.ip _

theorem goTo (address : Nat) : Φ (goTo address) := h.ip fun _ => address

/-! ### Variables -/

theorem declareLocal (slot : Nat) (v : Value) : Φ (declareLocal slot v) :=
  h.after (aside_topFrameOr _) fun _ => h.bind (h.newCell v) fun _ =>
    h.frame (fun _ => rfl) fun _ => rfl

theorem declareLocals (slot : Nat) (vs : List Value) : Φ (declareLocals slot vs) := by
  induction vs generalizing slot with
  | nil => exact h.pure _
  | cons v rest ih => exact h.bind (h.declareLocal slot v) fun _ => ih _

theorem localCell (missing : Fault) (slot : Nat) : Φ (localCell missing slot) := by
  unfold Exec.localCell
  refine h.after (aside_topFrameOr missing) fun f => ?_
  split
  · exact h.pure _
  · refine h.bind (h.newCell _) fun _ => h.bind (h.frame (fun _ => rfl) fun _ => rfl) fun _ => ?_
    exact h.pure _

theorem bindArguments (params : Nat) (varargs : Bool) : Φ (bindArguments params varargs) := by
  unfold Exec.bindArguments
  refine h.after (aside_topFrameOr _) fun f => h.bind (h.frame (fun _ => rfl) fun _ => rfl) fun _ => ?_
  refine h.bind (h.declareLocals _ _) fun _ => ?_
  split
  · exact h.frame (fun _ => rfl) fun _ => rfl
  · exact h.pure _

/-! ### Jumps, calls and loops -/

theorem jump (target : Nat) : Φ (jump target) := by
  unfold Exec.jump
  refine h.after aside_address fun a => ?_
  dsimp only
  split
  · exact h.after aside_safepoint fun _ => h.goTo target
  · exact h.goTo target

theorem called (argc : Nat) : Φ (called argc) := by
  unfold Exec.called
  refine h.after aside_processor fun p => ?_
  have hrest : Φ (do
      let args := Value.flatten (← Exec.popMany argc)
      let f ← Exec.pop
      safepoint
      resolveCallable f args) := by
    refine h.bind (h.popMany argc) fun args => h.bind h.pop fun f => ?_
    exact h.after aside_safepoint fun _ => h.aside (aside_resolveCallable f _)
  dsimp only
  split
  · exact h.bind (h.fail _) fun _ => hrest
  · exact hrest

theorem suspend (args : List Value) : Φ (suspend args) := by
  have hyield : Φ (do
      Exec.advance
      return some (.yielded (.ofList args)) : Exec (Option Exit)) :=
    h.bind h.advance fun _ => h.pure _
  have hallowed : ∀ p : Processor, Φ (do
      if !p.canYield then Exec.fail .yieldAcrossHost
      Exec.advance
      return some (.yielded (.ofList args)) : Exec (Option Exit)) := by
    intro p
    dsimp only
    split
    · exact h.bind (h.fail _) fun _ => hyield
    · exact hyield
  unfold Exec.suspend
  refine h.after aside_processor fun p => ?_
  dsimp only
  split
  · exact h.bind (h.fail _) fun _ => hallowed p
  · exact hallowed p

theorem prepareIteration (triple : Value) : Φ (prepareIteration triple) := by
  unfold Exec.prepareIteration
  refine h.after (aside_metamethod? _ _) fun handler? => ?_
  split
  · exact h.after (aside_newCallback _) fun _ => h.pushAll _
  · exact h.pushAll _

/-! ### Loading -/

theorem loaded (entry : Nat) (hasEnv : Bool) (env : Option TableId) : Φ (loaded entry hasEnv env) := by
  unfold Exec.loaded
  refine h.after aside_script fun s => h.after aside_get fun w => ?_
  split
  · exact h.bind (h.newCell _) fun _ => h.newClosure _
  · exact h.newClosure _

theorem addSource (segment : Segment) (source : SourceText) (entry : Nat) (hasEnv : Bool)
    (env : Option TableId) :
    Φ (modifyScript (·.addSource segment source) >>= fun _ => Exec.loaded entry hasEnv env) := by
  refine h.bind (h.books (fun _ => rfl) (fun _ => rfl) fun s => ?_) fun _ => h.loaded entry hasEnv env
  unfold Script.addSource
  dsimp only
  split
  · exact s.debug.heeds_sourceLoaded source _
  · exact .refl _

theorem compile (code : String) (env : Option TableId) (name : Option String) (kind : HeaderKind) :
    Φ (compile code env name kind) := by
  unfold Exec.compile
  refine h.bind (h.books (fun _ => rfl) (fun _ => rfl) fun _ => .refl _) fun _ => ?_
  refine h.after aside_script fun s => h.after aside_get fun w => ?_
  dsimp only
  split
  · exact h.aside (aside_failWith _)
  · exact h.addSource _ _ _ _ env

theorem loadDump (bytes : List UInt8) (env : Option TableId) (name : Option String) :
    Φ (loadDump bytes env name) := by
  unfold Exec.loadDump
  refine h.after aside_script fun s => h.after aside_get fun w => ?_
  dsimp only
  split
  · exact h.aside (aside_failWith _)
  · exact h.addSource _ _ _ _ env

theorem loadString (code : String) (env : Option TableId) (name : Option String) :
    Φ (loadString code env name) := by
  unfold Exec.loadString
  dsimp only
  split
  · split
    · exact h.loadDump _ env name
    · exact h.aside (aside_failWith _)
  · exact h.compile code env name .chunk

end Stepwise

/-! ## Without coroutines -/

/-- A computation that does nothing to coroutines. -/
abbrev Quiet (x : Exec α) : Prop := x.Ends World.Quiet

theorem Aside.quiet {x : Exec α} (hx : Aside x) : Quiet x := hx.mono World.Aside.quiet

theorem Quiet.bind {x : Exec α} {f : α → Exec β} (hx : Quiet x) (hf : ∀ a, Quiet (f a)) :
    Quiet (x >>= f) :=
  Ends.bind (R := World.Quiet) .trans hx hf

theorem quiet_pure (a : α) : Quiet (pure a) := (aside_pure a).quiet

theorem quiet_fail (f : Fault) : Quiet (fail f : Exec α) := (aside_fail f).quiet

theorem quiet_get : Quiet (get : Exec World) := aside_get.quiet

theorem quiet_processor : Quiet processor := aside_processor.quiet

theorem quiet_address : Quiet address := quiet_get.bind fun _ => quiet_pure _

theorem quiet_modifyProcessor (f : Processor → Processor) : Quiet (modifyProcessor f) :=
  .of_change (fun _ => rfl) fun _ => ⟨rfl, rfl, rfl, fun h => h, .refl _⟩

theorem quiet_modifyScript {f : Script → Script} (hf : ∀ s : Script, (f s).running = s.running)
    (hd : ∀ s : Script, s.debug.Heeds (f s).debug) : Quiet (modifyScript f) :=
  .of_change (fun _ => rfl) fun w => .modifyScript w _ hf hd

theorem quiet_stepwise : Stepwise Quiet where
  aside := Aside.quiet
  bind := Quiet.bind
  values h := ends_iff.2 fun w => by
    obtain ⟨values, hfinal⟩ := h w
    rw [hfinal]
    exact ⟨rfl, rfl, rfl, fun h => h, .refl _⟩
  ip _ := quiet_modifyProcessor _
  frame _ _ := quiet_modifyProcessor _
  newCell _ := .of_change (fun _ => rfl) fun _ => ⟨rfl, rfl, rfl, fun h => h, .refl _⟩
  newClosure _ := .of_change (fun _ => rfl) fun _ => ⟨rfl, rfl, rfl, fun h => h, .refl _⟩
  setCell _ _ := .of_change (fun _ => rfl) fun _ => ⟨rfl, rfl, rfl, fun h => h, .refl _⟩
  books hf _ hd := quiet_modifyScript hf hd

theorem quiet_push (v : Value) : Quiet (push v) := Stepwise.push quiet_stepwise v

theorem quiet_advance : Quiet advance := Stepwise.advance quiet_stepwise

theorem quiet_goTo (address : Nat) : Quiet (goTo address) := Stepwise.goTo quiet_stepwise address

theorem quiet_pop : Quiet pop := Stepwise.pop quiet_stepwise

theorem quiet_checkDepth : Quiet checkDepth := aside_checkDepth.quiet

theorem quiet_enterClosure (id : ClosureId) (args : List Value) (address : Option Nat)
    (site : Option Span) : Quiet (enterClosure id args address site) := by
  unfold enterClosure
  refine quiet_get.bind fun w => ?_
  split
  · exact quiet_fail _
  · have henter : ∀ c : Closure, Quiet (do
        checkDepth
        let base := (← processor).values.size
        pushFrame (.script { closure := c, base, returnAddress := address, pending := args,
                             callSite := site })
        goTo c.entry) := by
      intro c
      refine quiet_checkDepth.bind fun _ => quiet_processor.bind fun p => ?_
      exact (quiet_modifyProcessor _).bind fun _ => quiet_goTo _
    dsimp only
    split
    · exact (quiet_fail _).bind fun _ => henter _
    · exact henter _

theorem quiet_called (argc : Nat) : Quiet (called argc) := Stepwise.called quiet_stepwise argc

theorem quiet_suspend (args : List Value) : Quiet (suspend args) := Stepwise.suspend quiet_stepwise args

theorem quiet_leaveFrame (depth values : Nat) : Quiet (leaveFrame depth values) := by
  have hback : ∀ result address, Quiet (Reentry.handBack depth result address) := by
    intro result address
    cases address with
    | none => exact quiet_pure _
    | some address =>
      refine quiet_processor.bind fun p => ?_
      split
      · exact (quiet_goTo _).bind fun _ => (quiet_push _).bind fun _ => quiet_pure _
      · exact quiet_pure _
  have hleave : ∀ result, Quiet (Reentry.leaveWith depth result) := by
    intro result
    refine quiet_processor.bind fun p => ?_
    split
    · exact quiet_fail _
    · refine (quiet_modifyProcessor _).bind fun _ => (quiet_modifyProcessor _).bind fun _ => ?_
      exact hback result _
  rw [Reentry.leaveFrame_eq]
  refine Quiet.bind ?_ hleave
  split
  · exact quiet_pure _
  · exact quiet_pop

theorem quiet_loadString (code : String) (env : Option TableId) (name : Option String) :
    Quiet (loadString code env name) :=
  Stepwise.loadString quiet_stepwise code env name

end Exec

/-! ## What lasts -/

/-- A property of worlds that lasts when nothing happens to coroutines, or one is made. -/
structure World.Lasting (I : World → Prop) : Prop where
  quiet : ∀ {w w' : World}, I w → w.Quiet w' → I w'
  create : ∀ {w : World}, I w → ∀ f, I { w with heap := w.heap.addCoroutine (.fresh w.active f) }

/-- In worlds with a property, two computations do the same, and keep the property. -/
def Exec.AgreeOn (I : World → Prop) {α : Type} (x x' : Exec α) : Prop :=
  ∀ w, I w → x w = x' w ∧ x.Leads w (fun _ => I) I

namespace World.Lasting

variable {I : World → Prop} {α β : Type}

theorem agree (hI : Lasting I) {x : Exec α} (hx : x.Quiet) : Exec.AgreeOn I x x := by
  intro w hw
  exact ⟨rfl, (Leads.of_ends hx w).mono (fun _ _ => hI.quiet hw) fun _ => hI.quiet hw⟩

theorem bind {x x' : Exec α} {f f' : α → Exec β} (hx : AgreeOn I x x')
    (hf : ∀ a, AgreeOn I (f a) (f' a)) : AgreeOn I (x >>= f) (x' >>= f') := by
  intro w hw
  obtain ⟨heq, hleads⟩ := hx w hw
  refine ⟨?_, hleads.bind fun a w' hw' => (hf a w' hw').2⟩
  change EStateM.bind x f w = EStateM.bind x' f' w
  unfold EStateM.bind
  rw [← heq]
  cases hr : x w with
  | ok a w' => exact (hf a w' (hleads.ok hr)).1
  | error s w' => rfl

theorem catchError {x x' : Exec α} {f f' : ScriptError → Exec α} (hx : AgreeOn I x x')
    (hf : ∀ e, AgreeOn I (f e) (f' e)) :
    AgreeOn I (Exec.catchError x f) (Exec.catchError x' f') := by
  intro w hw
  obtain ⟨heq, hleads⟩ := hx w hw
  refine ⟨?_, hleads.catchError fun e w' hw' => (hf e w' hw').2⟩
  unfold Exec.catchError
  rw [← heq]
  cases hr : x w with
  | ok a w' => rfl
  | error s w' =>
    cases s with
    | error e => exact (hf e w' (hleads.error hr)).1
    | panic message => rfl
    | exhausted => rfl

/-- What is done before and after a computation does nothing to coroutines. -/
theorem around (hI : Lasting I) {x x' : Exec α} (hx : AgreeOn I x x') {before : World → World}
    {after : World → World → World} (hb : ∀ w : World, w.Quiet (before w))
    (ha : ∀ w w' : World, w'.Quiet (after w w')) :
    AgreeOn I (fun w => andFinally x (after w) (before w))
      (fun w => andFinally x' (after w) (before w)) := by
  intro w hw
  obtain ⟨heq, hleads⟩ := hx (before w) (hI.quiet hw (hb w))
  have hafter := hleads.andFinally (after w) (fun _ w' hw' => hI.quiet hw' (ha w w'))
    fun w' hw' => hI.quiet hw' (ha w w')
  refine ⟨?_, hafter.ok, hafter.error⟩
  unfold andFinally
  dsimp only
  rw [heq]

/-- What is done after a value and after an error does nothing to coroutines. -/
theorem settle (hI : Lasting I) {x x' : Exec α} (hx : AgreeOn I x x') {leave : World → World}
    (hleave : ∀ w : World, w.Quiet (leave w)) :
    AgreeOn I (andSettle x leave leave) (andSettle x' leave leave) := by
  intro w hw
  obtain ⟨heq, hleads⟩ := hx w hw
  refine ⟨?_, hleads.andSettle leave leave (fun _ w' hw' => hI.quiet hw' (hleave w'))
    fun w' hw' => hI.quiet hw' (hleave w')⟩
  unfold andSettle
  rw [heq]

theorem startCoroutine (hI : Lasting I) (f : Value) :
    AgreeOn I (startCoroutine f) (startCoroutine f) := by
  refine fun w hw => ⟨rfl, ?_, ?_⟩
  · intro id w' h
    cases h
    exact hI.create hw f
  · intro e w' h
    cases h

theorem uniform (hI : Lasting I) : Exec.Uniform (AgreeOn I) where
  aside hx := hI.agree hx.quiet
  bind := bind
  catchError := catchError
  intruding hx :=
    hI.around hx (fun _ => ⟨rfl, rfl, rfl, fun h => h, .refl _⟩) fun _ _ => ⟨rfl, rfl, rfl, fun h => h, .refl _⟩
  loadString code env name := hI.agree (quiet_loadString code env name)
  start := hI.startCoroutine

end World.Lasting

/-! ## Instructions -/

namespace Reentry

section Paired

variable {Φ : {α : Type} → Exec α → Exec α → Prop} {r r' : Reentry} {α β : Type}

/-- Two machines whose ways in are related, by a relation that what instructions do themselves has to
itself. -/
structure PairedStepwise (Φ : {α : Type} → Exec α → Exec α → Prop) (r r' : Reentry) : Prop
    extends Paired Φ r r' where
  own : Stepwise fun x => Φ x x

theorem PairedStepwise.capture (hr : PairedStepwise Φ r r') (s : Symbol) :
    Φ (r.capture s) (r'.capture s) := by
  unfold Reentry.capture
  split
  · exact hr.own.localCell _ _
  · refine hr.after aside_get fun w => ?_
    split
    · exact hr.pure _
    · exact hr.fail _
  · exact hr.after aside_get fun w => hr.own.newCell _
  · exact hr.bind (hr.readSymbol _) fun v => hr.own.newCell v

theorem PairedStepwise.makeClosure (hr : PairedStepwise Φ r r') (entry : Nat)
    (captures : List Symbol) :
    Φ (r.makeClosure entry captures) (r'.makeClosure entry captures) := by
  refine hr.bind (hr.mapM (fun s => ?_) captures) fun cells => ?_
  · exact hr.bind (hr.capture s) fun _ => hr.pure _
  · exact hr.after aside_get fun w => hr.own.newClosure _

theorem PairedStepwise.assignSymbol (hr : PairedStepwise Φ r r') (s : Symbol)
    (v : Value) : Φ (r.assignSymbol s v) (r'.assignSymbol s v) := by
  unfold Reentry.assignSymbol
  split
  · exact hr.bind (hr.own.localCell _ _) fun cell => hr.own.setCell cell _
  · refine hr.after aside_get fun w => ?_
    split
    · exact hr.own.setCell _ _
    · exact hr.fail _
  · refine hr.bind (hr.readSymbol _) fun env => ?_
    split
    · exact hr.setIndex _ _ _
    · exact hr.fail _
  · exact hr.fail _

/-- An instruction that goes on to the next one. -/
theorem PairedStepwise.onward (hr : PairedStepwise Φ r r') {x x' : Exec Unit}
    (hx : Φ x x') :
    Φ (do x; advance; return none : Exec (Option Exit))
      (do x'; advance; return none : Exec (Option Exit)) :=
  hr.bind hx fun _ => hr.bind hr.own.advance fun _ => hr.pure _

/-- An instruction that puts a result on the stack and goes on. -/
theorem PairedStepwise.pushing (hr : PairedStepwise Φ r r') {x x' : Exec Value}
    (hx : Φ x x') :
    Φ (do (do push (← x)); advance; return none : Exec (Option Exit))
      (do (do push (← x')); advance; return none : Exec (Option Exit)) :=
  hr.onward (hr.bind hx fun v => hr.own.push v)

/-- Instructions but calls and returns are related if the ways into the machines are. -/
theorem PairedStepwise.step (hr : PairedStepwise Φ r r') (depth : Nat)
    (i : Instruction) (hcall : ∀ argc, i.op ≠ .call argc) (hret : ∀ values, i.op ≠ .ret values) :
    Φ (r.step depth i) (r'.step depth i) := by
  obtain ⟨op, span⟩ := i
  have hown := hr.own
  have honward : ∀ {x : Exec Unit}, Φ x x →
      Φ (do x; advance; return none : Exec (Option Exit))
        (do x; advance; return none : Exec (Option Exit)) :=
    hr.onward
  have hadvance : Φ (do advance; return none : Exec (Option Exit)) (do advance; return none) :=
    hr.bind hown.advance fun _ => hr.pure _
  have hgoTo : ∀ a, Φ (do goTo a; return none : Exec (Option Exit)) (do goTo a; return none) :=
    fun a => hr.bind (hown.goTo a) fun _ => hr.pure _
  have hjump : ∀ a, Φ (do jump a; return none : Exec (Option Exit)) (do jump a; return none) :=
    fun a => hr.bind (hown.jump a) fun _ => hr.pure _
  cases op with
  | nop => exact honward (hr.pure _)
  | header name params varargs => exact honward (hr.pure _)
  | beginFn locals =>
    exact honward (hr.after (aside_topFrameOr _) fun _ => hown.frame (fun _ => rfl) fun _ => rfl)
  | args params varargs => exact honward (hown.bindArguments params varargs)
  | literal v => exact honward (hown.push v)
  | pop n =>
    refine honward (hr.after aside_processor fun p => ?_)
    dsimp only
    split
    · exact hr.bind (hr.fail _) fun _ => hown.truncate _
    · exact hown.truncate _
  | copy n => exact honward (hr.after (aside_peek n) fun v => hown.push v)
  | load s => exact hr.pushing (hr.readSymbol s)
  | store s index =>
    exact hr.onward (hr.after (aside_peek 0) fun v => hr.assignSymbol s _)
  | «local» slot index =>
    exact honward (hr.after (aside_peek 0) fun v => hown.declareLocal slot _)
  | closure entry captures => exact hr.pushing (hr.makeClosure entry captures)
  | varargs => exact honward (hr.after (aside_topFrameOr _) fun f => hown.push _)
  | call argc => exact absurd rfl (hcall argc)
  | method name =>
    refine hr.onward (hr.bind hown.pop fun object => ?_)
    exact hr.bind (hr.index object _) fun v => hr.bind (hown.push v) fun _ => hown.push object
  | ret values => exact absurd rfl (hret values)
  | jump target => exact hjump target
  | jumpIfFalse target =>
    refine hr.bind hown.pop fun v => ?_
    dsimp only
    split
    · exact hadvance
    · exact hjump target
  | jumpFalseOrPop target =>
    refine hr.after (aside_peek 0) fun v => ?_
    dsimp only
    split
    · exact hr.bind hown.pop fun _ => hadvance
    · exact hjump target
  | jumpTrueOrPop target =>
    refine hr.after (aside_peek 0) fun v => ?_
    dsimp only
    split
    · exact hjump target
    · exact hr.bind hown.pop fun _ => hadvance
  | binary op =>
    refine hr.onward (hr.bind hown.pop fun b => hr.bind hown.pop fun a => ?_)
    exact hr.bind (hr.binary op a b) fun v => hown.push v
  | not => exact honward (hr.bind hown.pop fun v => hown.push _)
  | neg =>
    refine hr.onward (hr.bind hown.pop fun a => ?_)
    exact hr.bind (hr.negate a) fun v => hown.push v
  | len =>
    refine hr.onward (hr.bind hown.pop fun a => ?_)
    exact hr.bind (hr.length a) fun v => hown.push v
  | newTable => exact honward (hr.after (aside_newTable _) fun v => hown.push v)
  | tableSet =>
    refine honward (hr.bind hown.pop fun v => hr.bind hown.pop fun key => ?_)
    exact hr.after aside_tableOnTop fun id => hr.aside (aside_setIndex id _ v)
  | tableAppend index expand =>
    refine honward (hr.bind hown.pop fun v => hr.after aside_tableOnTop fun id => ?_)
    exact hr.aside (aside_storeItems id index _)
  | index =>
    refine hr.onward (hr.bind hown.pop fun k => hr.bind hown.pop fun object => ?_)
    exact hr.bind (hr.index object _) fun v => hown.push v
  | indexSet index =>
    refine hr.onward (hr.bind hown.pop fun k => hr.bind hown.pop fun object => ?_)
    exact hr.after (aside_peek 0) fun v => hr.setIndex object _ _
  | makeTuple n => exact honward (hr.bind (hown.popMany n) fun vs => hown.push _)
  | scalar => exact honward (hr.bind hown.pop fun v => hown.push _)
  | forPrep =>
    have hrest : Φ (do
        let first ← loopNumber 2 "initial value"
        let limit ← loopNumber 1 "limit"
        let step ← loopNumber 0 "step"
        setPeek 2 (.number first)
        setPeek 1 (.number limit)
        setPeek 0 (.number step)) (do
        let first ← loopNumber 2 "initial value"
        let limit ← loopNumber 1 "limit"
        let step ← loopNumber 0 "step"
        setPeek 2 (.number first)
        setPeek 1 (.number limit)
        setPeek 0 (.number step)) := by
      refine hr.after (aside_loopNumber _ _) fun first => hr.after (aside_loopNumber _ _) fun limit => ?_
      refine hr.after (aside_loopNumber _ _) fun step => hr.bind (hown.setPeek _ _) fun _ => ?_
      exact hr.bind (hown.setPeek _ _) fun _ => hown.setPeek _ _
    refine honward (hr.after aside_processor fun p => ?_)
    dsimp only
    split
    · exact hr.bind (hr.fail _) fun _ => hrest
    · exact hrest
  | forLoop exit =>
    refine hr.after aside_loopState fun state => ?_
    dsimp only
    split
    · exact hgoTo exit
    · exact hadvance
  | forStep => exact honward (hr.after aside_loopState fun state => hown.setPeek _ _)
  | forVar slot => exact honward (hr.after (aside_peek 2) fun v => hown.declareLocal slot v)
  | iterPrep => exact honward (hr.bind hown.pop fun triple => hown.prepareIteration triple)
  | iterCheck exit =>
    refine hr.bind hown.pop fun result => ?_
    dsimp only
    split
    · exact hgoTo exit
    · refine hr.after (aside_peek 0) fun _ => hr.bind (hown.setPeek _ _) fun _ => ?_
      exact hr.bind (hown.push result) fun _ => hadvance

/-- Two machines whose ways in are related, where what does nothing to coroutines is related to
itself. -/
structure PairedQuietly (Φ : {α : Type} → Exec α → Exec α → Prop) (r r' : Reentry) : Prop
    extends Paired Φ r r' where
  quiet : ∀ {α : Type} {x : Exec α}, x.Quiet → Φ x x

/-- Something that does nothing to coroutines comes first. -/
theorem PairedQuietly.quietly (hr : PairedQuietly Φ r r') {x : Exec α}
    {f f' : α → Exec β} (hx : x.Quiet) (hf : ∀ a, Φ (f a) (f' a)) :
    Φ (x >>= f) (x >>= f') :=
  hr.bind (hr.quiet hx) hf

theorem PairedQuietly.stepwise (hr : PairedQuietly Φ r r') : PairedStepwise Φ r r' where
  toPaired := hr.toPaired
  own :=
    { aside := hr.aside
      bind := hr.bind
      values := fun h => hr.quiet (quiet_stepwise.values h)
      ip := fun f => hr.quiet (quiet_stepwise.ip f)
      frame := fun hb ha => hr.quiet (quiet_stepwise.frame hb ha)
      newCell := fun v => hr.quiet (quiet_stepwise.newCell v)
      newClosure := fun c => hr.quiet (quiet_stepwise.newClosure c)
      setCell := fun cell v => hr.quiet (quiet_stepwise.setCell cell v)
      books := fun hf hp hd => hr.quiet (quiet_stepwise.books hf hp hd) }

/-- Instructions but calls are related if the ways into the machines are. -/
theorem PairedQuietly.step (hr : PairedQuietly Φ r r') (depth : Nat)
    (i : Instruction) (hcall : ∀ argc, i.op ≠ .call argc) :
    Φ (r.step depth i) (r'.step depth i) := by
  by_cases hret : ∃ values, i.op = .ret values
  · obtain ⟨op, span⟩ := i
    obtain ⟨values, rfl⟩ := hret
    exact hr.quiet (quiet_leaveFrame depth values)
  · exact hr.stepwise.step depth i hcall (not_exists.1 hret)


end Paired

variable {I : World → Prop} {r r' : Reentry}

theorem Alike.quietly (hr : Alike (AgreeOn I) r r') (hI : World.Lasting I) :
    PairedQuietly (AgreeOn I) r r' :=
  ⟨hr.toPaired, hI.agree⟩

theorem Alike.invoke (hr : Alike (AgreeOn I) r r') (hI : World.Lasting I) (c : Callback)
    (args : List Value) (caller : Option Span) :
    AgreeOn I (invoke r c args caller) (invoke r' c args caller) := by
  unfold Exec.invoke
  refine (hr.quietly hI).quietly quiet_checkDepth fun _ => hr.after aside_get fun w => ?_
  refine (hr.quietly hI).quietly (quiet_modifyProcessor _) fun _ => ?_
  exact hI.settle (hr.native caller ⟨args⟩ c.native) fun _ => ⟨rfl, rfl, rfl, fun h => h, .refl _⟩

theorem Alike.stepCall (hr : Alike (AgreeOn I) r r') (hI : World.Lasting I) (argc : Nat)
    (span : Option Span) : AgreeOn I (r.stepCall argc span) (r'.stepCall argc span) := by
  unfold Reentry.stepCall
  refine (hr.quietly hI).quietly (quiet_called argc) fun call => ?_
  obtain ⟨f, args⟩ := call
  dsimp only
  split
  · refine (hr.quietly hI).quietly quiet_address fun a => ?_
    exact (hr.quietly hI).quietly (quiet_enterClosure _ _ _ _) fun _ => hr.pure _
  · split
    · exact hI.agree (quiet_suspend args)
    · refine hr.bind (hr.invoke hI _ args span) fun v => ?_
      exact hI.agree ((quiet_push v).bind fun _ => quiet_advance.bind fun _ => quiet_pure _)
  · exact hr.fail _

/-- Machines that answer alike carry out an instruction alike. -/
theorem Alike.step (hr : Alike (AgreeOn I) r r') (hI : World.Lasting I) (depth : Nat)
    (i : Instruction) : AgreeOn I (r.step depth i) (r'.step depth i) := by
  by_cases hcall : ∃ argc, i.op = .call argc
  · obtain ⟨op, span⟩ := i
    obtain ⟨argc, rfl⟩ := hcall
    exact hr.stepCall hI argc span
  · exact (hr.quietly hI).step depth i (not_exists.1 hcall)

end Reentry

end LuaMachine
