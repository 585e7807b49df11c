import LuaMachine.Debug.Pause
import LuaMachine.Machine.Run

/-!
# What happens aside from code in progress

Whenever a stopped script asks its debugger what to do, the answer is among the events that the front
end is shown. As long as there is no new one, the answer that let the script go on is in force: the
action is the same, and so is the place where it began (`DebugState.Heeds`). An instruction that is not
stopped at leaves it in force (`DebugState.heeds_arrive`).

Most of what native functions and the debugger do to the world does not concern the code that is
running: tables are changed, texts are printed, the debugger is told. `World.Aside` says that nothing
else happened: the same script is running on the same processor for the same execution, scripts but for
their books, coroutines, closures and variables are as they were, what was cancelled is so still, what
stands for the shared variables still does, and what a debugger has answered is in force until it is
asked again. A computation is aside when that is all it does, however it ends (`Exec.Aside`). Such
computations compose, and everything in the library that neither calls back into the machine nor makes
functions or coroutines is one of them.
-/

namespace LuaMachine

/-- The front end was asked for an action, and took one. -/
def DebugEvent.isAnswer : DebugEvent → Bool
  | .action .. => true
  | _ => false

namespace DebugState

/-- How many actions the front end has taken. -/
def answers (d : DebugState) : Nat := d.events.countP DebugEvent.isAnswer

/-- The front end stays, and unless it has taken more actions, the latest one is in force as it was. Only
a script that simply runs takes note of where it is. -/
structure Heeds (d d' : DebugState) : Prop where
  attached : d.isAttached = true → d'.isAttached = true
  answers : d.answers ≤ d'.answers
  action : d'.answers = d.answers → d'.action = d.action
  depthAtStep : d'.answers = d.answers → d'.depthAtStep = d.depthAtStep
  last : d'.answers = d.answers → d.action ≠ .run → d'.last = d.last

variable {d d' d'' : DebugState} {ip depth : Nat} {place : Option Span} {requested : Bool}

namespace Heeds

theorem refl (d : DebugState) : d.Heeds d :=
  ⟨id, Nat.le_refl _, fun _ => rfl, fun _ => rfl, fun _ _ => rfl⟩

theorem of_lt (h : d.answers < d'.answers) (hattached : d.isAttached = true → d'.isAttached = true) :
    d.Heeds d' :=
  have hne : d'.answers ≠ d.answers := Nat.ne_of_gt h
  ⟨hattached, Nat.le_of_lt h, fun h => absurd h hne, fun h => absurd h hne, fun h => absurd h hne⟩

theorem trans (h₁ : d.Heeds d') (h₂ : d'.Heeds d'') : d.Heeds d'' := by
  have hbetween : d''.answers = d.answers → d'.answers = d.answers ∧ d''.answers = d'.answers := by
    intro heq
    have hfirst := h₁.answers
    have hsecond := h₂.answers
    omega
  refine ⟨h₂.attached ∘ h₁.attached, Nat.le_trans h₁.answers h₂.answers, fun heq => ?_, fun heq => ?_, fun heq hrun => ?_⟩
  · obtain ⟨hfirst, hsecond⟩ := hbetween heq
    exact (h₂.action hsecond).trans (h₁.action hfirst)
  · obtain ⟨hfirst, hsecond⟩ := hbetween heq
    exact (h₂.depthAtStep hsecond).trans (h₁.depthAtStep hfirst)
  · obtain ⟨hfirst, hsecond⟩ := hbetween heq
    have hrun' : d'.action ≠ .run := (h₁.action hfirst).symm ▸ hrun
    exact (h₂.last hsecond hrun').trans (h₁.last hfirst hrun)

end Heeds

/-! ## What the front end is told -/

theorem answers_tell (d : DebugState) (e : DebugEvent) :
    (d.tell e).answers = d.answers + if e.isAnswer then 1 else 0 :=
  Array.countP_push

theorem heeds_tell (d : DebugState) (e : DebugEvent) : d.Heeds (d.tell e) := by
  refine ⟨id, ?_, fun _ => rfl, fun _ => rfl, fun _ _ => rfl⟩
  rw [answers_tell]
  exact Nat.le_add_right _ _

theorem heeds_sourceLoaded (d : DebugState) (s : SourceText) (listing : List String) :
    d.Heeds (d.sourceLoaded s listing) := by
  unfold sourceLoaded
  split
  · exact .refl d
  · dsimp only
    split <;> split
    · exact (d.heeds_tell _).trans (heeds_tell _ _)
    · exact d.heeds_tell _
    · exact d.heeds_tell _
    · exact .refl d

theorem heeds_executionEnded (d : DebugState) : d.Heeds d.executionEnded := by
  unfold executionEnded
  split
  · exact d.heeds_tell _
  · exact .refl d

/-! ## Arriving at an instruction -/

theorem answers_arrive : (d.arrive ip depth place requested).2.answers = d.answers := by
  unfold arrive
  grind [answers]

theorem debugger_arrive : (d.arrive ip depth place requested).2.debugger = d.debugger := by
  unfold arrive
  grind

/-- An instruction that is not stopped at leaves the action in force. -/
theorem heeds_arrive (h : (d.arrive ip depth place requested).1 = true) :
    d.Heeds (d.arrive ip depth place requested).2 := by
  refine ⟨fun hattached => ?_, Nat.le_of_eq answers_arrive.symm, fun _ => ?_, fun _ => ?_,
    fun _ hrun => ?_⟩
  · exact (congrArg Option.isSome debugger_arrive).trans hattached
  all_goals
    unfold arrive at h ⊢
    grind

end DebugState

/-! ## Worlds -/

namespace World

/-- The debugger of the running script. -/
def debug (w : World) : DebugState := (w.scripts.getD w.active.index default).debug

/-- The debuggers of all scripts are heeded. -/
def Heeds (w w' : World) : Prop :=
  ∀ i : Nat, (w.scripts.getD i default).debug.Heeds (w'.scripts.getD i default).debug

variable {w w' w'' : World}

theorem heeds_of_eq (h : w'.scripts = w.scripts) : w.Heeds w' := by
  intro i
  rw [h]
  exact .refl _

namespace Heeds

theorem refl (w : World) : w.Heeds w := heeds_of_eq rfl

theorem trans (h₁ : w.Heeds w') (h₂ : w'.Heeds w'') : w.Heeds w'' := fun i => (h₁ i).trans (h₂ i)

/-- One script changes, and its debugger is heeded. -/
theorem modifyScript (w : World) (i : Nat) {f : Script → Script}
    (hf : ∀ s : Script, s.debug.Heeds (f s).debug) :
    w.Heeds { w with scripts := w.scripts.modify i f } := by
  intro j
  simp only [Array.getD_eq_getD_getElem?, Array.getElem?_modify]
  split
  · cases w.scripts[j]? with
    | none => exact .refl _
    | some s => exact hf s
  · exact .refl _

end Heeds

end World

/-- A script without its books: the debugger's state, the counters and the list of coroutines. -/
def Script.bare (s : Script) : Script :=
  { s with debug := {}, counters := {}, coroutines := #[] }

namespace World

/-- The world changed apart from the code in progress, and maybe in the middle of what a debugger is
asked. -/
structure Apart (w w' : World) : Prop where
  active : w'.active = w.active
  processor : w'.processor = w.processor
  scripts : w'.scripts.map Script.bare = w.scripts.map Script.bare
  coroutines : w'.heap.coroutines = w.heap.coroutines
  closures : w'.heap.closures = w.heap.closures
  cells : w'.heap.cells = w.heap.cells
  token : w'.token = w.token
  cancelled : ∀ {t : Nat}, w.cancelled.getD t false = true → w'.cancelled.getD t false = true
  stores : ∀ {id : ObjectId}, w.heap.object? id = some .store → w'.heap.object? id = some .store

/-- The world changed aside from the code in progress. -/
structure Aside (w w' : World) : Prop extends Apart w w' where
  heeds : w.Heeds w'

variable {w w' w'' : World}

namespace Apart

theorem refl (w : World) : w.Apart w := ⟨rfl, rfl, rfl, rfl, rfl, rfl, rfl, fun h => h, fun h => h⟩

theorem trans (h₁ : w.Apart w') (h₂ : w'.Apart w'') : w.Apart w'' :=
  ⟨h₂.active.trans h₁.active, h₂.processor.trans h₁.processor, h₂.scripts.trans h₁.scripts,
    h₂.coroutines.trans h₁.coroutines, h₂.closures.trans h₁.closures, h₂.cells.trans h₁.cells,
    h₂.token.trans h₁.token, h₂.cancelled ∘ h₁.cancelled, fun h => h₂.stores (h₁.stores h)⟩

/-- The books of one script change. -/
theorem modifyScript (w : World) (i : Nat) {f : Script → Script}
    (hf : ∀ s : Script, (f s).bare = s.bare) :
    w.Apart { w with scripts := w.scripts.modify i f } := by
  refine ⟨rfl, rfl, ?_, rfl, rfl, rfl, rfl, fun h => h, fun h => h⟩
  refine Array.ext_getElem? fun j => ?_
  rw [Array.getElem?_map, Array.getElem?_map, Array.getElem?_modify]
  split
  · rw [Option.map_map]
    exact congrArg (Option.map · _) (funext hf)
  · rfl

/-- Nothing happened to scripts. -/
theorem aside (h : w.Apart w') (hs : w'.scripts = w.scripts) : w.Aside w' := ⟨h, heeds_of_eq hs⟩

end Apart

namespace Aside

theorem refl (w : World) : w.Aside w := (Apart.refl w).aside rfl

theorem trans (h₁ : w.Aside w') (h₂ : w'.Aside w'') : w.Aside w'' :=
  ⟨h₁.toApart.trans h₂.toApart, h₁.heeds.trans h₂.heeds⟩

/-- The books of one script change, and its debugger is heeded. -/
theorem modifyScript (w : World) (i : Nat) {f : Script → Script}
    (hf : ∀ s : Script, (f s).bare = s.bare) (hd : ∀ s : Script, s.debug.Heeds (f s).debug) :
    w.Aside { w with scripts := w.scripts.modify i f } :=
  ⟨.modifyScript w i hf, .modifyScript w i hd⟩

end Aside

end World

namespace Exec

/-! ## Sequences -/

theorem bind_ok {α β : Type} {x : Exec α} {f : α → Exec β} {w w' : World} {a : α}
    (h : x w = .ok a w') : (x >>= f) w = f a w' := by
  change EStateM.bind x f w = f a w'
  unfold EStateM.bind
  rw [h]

theorem bind_error {α β : Type} {x : Exec α} {f : α → Exec β} {w w' : World} {s : Stop}
    (h : x w = .error s w') : (x >>= f) w = .error s w' := by
  change EStateM.bind x f w = .error s w'
  unfold EStateM.bind
  rw [h]

theorem get_eq (w : World) : (get : Exec World) w = .ok w w := rfl

theorem processor_eq (w : World) : processor w = .ok w.processor w := rfl

theorem heap_eq (w : World) : heap w = .ok w.heap w := rfl

theorem script_getD (w : World) : script w = .ok (w.scripts.getD w.active.index default) w := rfl

theorem andSettle_ok {α : Type} {x : Exec α} {a : α} {w w' : World} {onValue onError : World → World}
    (h : x w = .ok a w') : andSettle x onValue onError w = .ok a (onValue w') := by
  unfold andSettle
  rw [h]

theorem andFinally_ok {α : Type} {x : Exec α} {a : α} {w w' : World} {after : World → World}
    (h : x w = .ok a w') : andFinally x after w = .ok a (after w') := by
  unfold andFinally
  rw [h]

theorem of_bind_ok {α β : Type} {x : Exec α} {f : α → Exec β} {w w' : World} {b : β}
    (h : (x >>= f) w = .ok b w') : ∃ a w₁, x w = .ok a w₁ ∧ f a w₁ = .ok b w' := by
  change EStateM.bind x f w = _ at h
  unfold EStateM.bind at h
  split at h
  · next a w₁ ha => exact ⟨a, w₁, ha, h⟩
  · cases h

/-! ## Where computations end -/

/-- However a computation ends, the world after it is related to the world before it. -/
structure Ends (R : World → World → Prop) (x : Exec α) : Prop where
  ok : ∀ {w a w'}, x w = .ok a w' → R w w'
  error : ∀ {w s w'}, x w = .error s w' → R w w'

section Ends

variable {α β : Type} {R : World → World → Prop}

/-- A computation that always succeeds. -/
theorem Ends.of_change {x : Exec α} {value : World → α} {change : World → World}
    (hx : ∀ w, x w = .ok (value w) (change w)) (hw : ∀ w : World, R w (change w)) : Ends R x := by
  constructor
  · intro w a w' h
    rw [hx] at h
    cases h
    exact hw w
  · intro w s w' h
    rw [hx] at h
    cases h

theorem Ends.of_throw (hrefl : ∀ w, R w w) (s : Stop) : Ends R (throw s : Exec α) := by
  constructor
  · intro w a w' h
    cases h
  · intro w s' w' h
    cases h
    exact hrefl w

theorem Ends.bind (htrans : ∀ {u v w}, R u v → R v w → R u w) {x : Exec α}
    {f : α → Exec β} (hx : Ends R x) (hf : ∀ a, Ends R (f a)) : Ends R (x >>= f) := by
  have heq : ∀ w, (x >>= f) w = EStateM.bind x f w := fun _ => rfl
  unfold EStateM.bind at heq
  constructor
  · intro w b w'' h
    rw [heq] at h
    split at h
    · next a w' ha => exact htrans (hx.ok ha) ((hf a).ok h)
    · cases h
  · intro w s w'' h
    rw [heq] at h
    split at h
    · next a w' ha => exact htrans (hx.ok ha) ((hf a).error h)
    · next s' w' hs =>
      cases h
      exact hx.error hs

theorem Ends.mono {R' : World → World → Prop} (hR : ∀ {w w' : World}, R w w' → R' w w')
    {x : Exec α} (hx : Ends R x) : Ends R' x :=
  ⟨fun h => hR (hx.ok h), fun h => hR (hx.error h)⟩

/-- The world that a computation ends in. -/
def final (x : Exec α) (w : World) : World :=
  match x w with
  | .ok _ w' => w'
  | .error _ w' => w'

theorem ends_iff {x : Exec α} : Ends R x ↔ ∀ w, R w (x.final w) := by
  constructor
  · intro hx w
    unfold final
    split
    · next h => exact hx.ok h
    · next h => exact hx.error h
  · intro hx
    constructor <;> intro w _ w' h <;> have hw := hx w <;> unfold final at hw <;> rw [h] at hw
    · exact hw
    · exact hw

end Ends

/-- A computation that changes the world aside only, however it ends. -/
abbrev Aside (x : Exec α) : Prop := x.Ends World.Aside

section Rules

variable {α β : Type}

theorem aside_of_change {x : Exec α} {value : World → α} {change : World → World}
    (hx : ∀ w, x w = .ok (value w) (change w)) (hw : ∀ w : World, w.Aside (change w)) :
    Aside x :=
  .of_change hx hw

theorem aside_pure (a : α) : Aside (pure a) := aside_of_change (fun _ => rfl) .refl

theorem aside_throw (s : Stop) : Aside (throw s : Exec α) := .of_throw .refl s

theorem aside_failWith (e : ScriptError) : Aside (failWith e : Exec α) := aside_throw _

theorem aside_fail (f : Fault) : Aside (fail f : Exec α) := aside_throw _

theorem Aside.bind {x : Exec α} {f : α → Exec β} (hx : Aside x) (hf : ∀ a, Aside (f a)) :
    Aside (x >>= f) :=
  Ends.bind (R := World.Aside) .trans hx hf

theorem aside_lift (x : Except Fault α) : Aside (monadLift x : Exec α) := by
  cases x with
  | ok a => exact aside_pure a
  | error f => exact aside_fail f

end Rules

/-! ## Primitives -/

theorem aside_get : Aside (get : Exec World) := aside_of_change (fun _ => rfl) .refl

theorem aside_modify {f : World → World} (hf : ∀ w : World, w.Aside (f w)) :
    Aside (modify f : Exec Unit) :=
  aside_of_change (fun _ => rfl) hf

theorem aside_heap : Aside heap := aside_get.bind fun _ => aside_pure _

theorem aside_script : Aside script := aside_get.bind fun _ => aside_pure _

theorem aside_processor : Aside processor := aside_get.bind fun _ => aside_pure _

theorem aside_isCancelled : Aside isCancelled := aside_get.bind fun _ => aside_pure _

theorem aside_modifyHeap {f : Heap → Heap} (hco : ∀ h : Heap, (f h).coroutines = h.coroutines)
    (hcl : ∀ h : Heap, (f h).closures = h.closures) (hce : ∀ h : Heap, (f h).cells = h.cells)
    (hob : ∀ (h : Heap) {id : ObjectId}, h.object? id = some .store →
      (f h).object? id = some .store) : Aside (modifyHeap f) :=
  aside_modify fun w =>
    World.Apart.aside ⟨rfl, rfl, rfl, hco w.heap, hcl w.heap, hce w.heap, rfl, fun h => h, hob w.heap⟩ rfl

theorem aside_newTable (t : Table) : Aside (newTable t) :=
  aside_of_change (fun _ => rfl) fun _ => World.Apart.aside ⟨rfl, rfl, rfl, rfl, rfl, rfl, rfl, fun h => h, fun h => h⟩ rfl

theorem aside_newCallback (n : Native) : Aside (newCallback n) :=
  aside_of_change (fun _ => rfl) fun _ => World.Apart.aside ⟨rfl, rfl, rfl, rfl, rfl, rfl, rfl, fun h => h, fun h => h⟩ rfl

theorem aside_setField (id : TableId) (key : String) (value : Value) :
    Aside (setField id key value) :=
  aside_modifyHeap (fun _ => rfl) (fun _ => rfl) (fun _ => rfl) fun _ _ h => h

theorem aside_setIndex (id : TableId) (key value : Value) : Aside (setIndex id key value) := by
  constructor
  · intro w a w' h
    unfold setIndex at h
    split at h
    · cases h
      exact World.Apart.aside ⟨rfl, rfl, rfl, rfl, rfl, rfl, rfl, fun h => h, fun h => h⟩ rfl
    · cases h
  · intro w s w' h
    unfold setIndex at h
    split at h
    · cases h
    · cases h
      exact .refl w

theorem aside_metamethod? (v : Value) (event : String) : Aside (metamethod? v event) :=
  aside_of_change (fun _ => rfl) .refl

theorem aside_handlerOf? (a b : Value) (event : String) : Aside (handlerOf? a b event) :=
  aside_of_change (fun _ => rfl) .refl

theorem aside_readCell (s : Symbol) : Aside (fun w => .ok (w.readCell s) w : Exec Value) :=
  aside_of_change (fun _ => rfl) .refl

theorem aside_newToken : Aside newToken := by
  refine aside_of_change (fun _ => rfl) fun w =>
    World.Apart.aside ⟨rfl, rfl, rfl, rfl, rfl, rfl, rfl, fun {t} ht => ?_, fun h => h⟩ rfl
  rw [Array.getD_eq_getD_getElem?] at ht ⊢
  rw [Array.getElem?_push]
  split
  · next heq =>
    rw [heq, Array.getElem?_eq_none (Nat.le_refl _)] at ht
    exact ht
  · exact ht

theorem aside_cancel (token : Nat) : Aside (cancel token) := by
  refine aside_modify fun w =>
    World.Apart.aside ⟨rfl, rfl, rfl, rfl, rfl, rfl, rfl, fun {t} ht => ?_, fun h => h⟩ rfl
  rw [Array.getD_eq_getD_getElem?] at ht ⊢
  rw [Array.getElem?_setIfInBounds]
  split
  · next heq =>
    subst heq
    split
    · rfl
    · next hsize =>
      rw [Array.getElem?_eq_none (Nat.le_of_not_lt hsize)] at ht
      exact ht
  · exact ht

theorem aside_print (line : String) : Aside (Exec.print line) :=
  aside_modify fun _ => World.Apart.aside ⟨rfl, rfl, rfl, rfl, rfl, rfl, rfl, fun h => h, fun h => h⟩ rfl

theorem aside_tell (v : Value) : Aside (tell v) :=
  aside_modify fun _ => World.Apart.aside ⟨rfl, rfl, rfl, rfl, rfl, rfl, rfl, fun h => h, fun h => h⟩ rfl

theorem aside_safepoint : Aside safepoint := by
  constructor
  · intro w a w' h
    unfold safepoint at h
    split at h
    · cases h
    · cases h
      exact .refl w
  · intro w s w' h
    unfold safepoint at h
    split at h
    · cases h
      exact .refl w
    · cases h

/-! ## The running code -/

theorem aside_of_final {x : Exec α} (hx : ∀ w, x.final w = w) : Aside x :=
  ends_iff.2 fun w => (hx w).symm ▸ .refl w

theorem aside_peek (n : Nat) : Aside (peek n) := by
  refine aside_of_final fun w => ?_
  unfold final peek
  split
  · next h =>
    split at h
    · split at h
      · cases h
        rfl
      · cases h
    · cases h
  · next h =>
    split at h
    · split at h
      · cases h
      · cases h
        rfl
    · cases h
      rfl

theorem aside_topFrameOr (missing : Fault) : Aside (topFrameOr missing) := by
  refine aside_of_final fun w => ?_
  unfold final topFrameOr
  split
  · next h =>
    split at h
    · cases h
      rfl
    · cases h
  · next h =>
    split at h
    · cases h
    · cases h
      rfl

theorem aside_address : Aside address := aside_get.bind fun _ => aside_pure _

theorem aside_checkDepth : Aside checkDepth := by
  unfold checkDepth
  refine aside_processor.bind fun p => aside_script.bind fun s => ?_
  split
  · exact aside_fail _
  · exact aside_pure _

theorem aside_tableOnTop : Aside tableOnTop := by
  unfold tableOnTop
  refine (aside_peek 0).bind fun v => ?_
  split
  · exact aside_pure _
  · exact aside_fail _

theorem aside_storeItems (id : TableId) (i : Nat) (vs : List Value) : Aside (storeItems id i vs) := by
  induction vs generalizing i with
  | nil => exact aside_pure _
  | cons v rest ih => exact (aside_setIndex _ _ _).bind fun _ => ih _

theorem aside_loopNumber (depth : Nat) (what : String) : Aside (loopNumber depth what) := by
  unfold loopNumber
  refine (aside_peek depth).bind fun v => ?_
  split
  · exact aside_pure _
  · exact aside_fail _

theorem aside_loopState : Aside loopState :=
  (aside_peek 2).bind fun _ => (aside_peek 1).bind fun _ => (aside_peek 0).bind fun _ => aside_pure _

/-! ## Calls and host objects -/

theorem aside_followCall (n : Nat) (f : Value) (args : List Value) :
    Aside (followCall n f args) := by
  induction n generalizing f args with
  | zero => exact aside_fail _
  | succ n ih =>
    unfold followCall
    split
    · exact aside_pure _
    · refine (aside_metamethod? f "__call").bind fun handler => ?_
      cases handler with
      | none => exact aside_fail _
      | some handler => exact ih handler _

theorem aside_resolveCallable (f : Value) (args : List Value) : Aside (resolveCallable f args) :=
  aside_followCall _ _ _

/-- A change of an object that leaves stores alone. -/
theorem store_modify {h : Heap} {i : Nat} {f : HostObject → HostObject} {id : ObjectId}
    (hf : f .store = .store) (hid : h.object? id = some .store) :
    ({ h with objects := h.objects.modify i f } : Heap).object? id = some .store := by
  unfold Heap.object? at hid ⊢
  dsimp only
  rw [Array.getElem?_modify, hid]
  split
  · rw [Option.map_some, hf]
  · rfl

theorem aside_setBalance (id : ObjectId) (balance : Number) :
    Aside (modifyHeap (·.setBalance id balance)) :=
  aside_modifyHeap (fun _ => rfl) (fun _ => rfl) (fun _ => rfl) fun _ => store_modify rfl

theorem aside_setReadings (id : ObjectId) (readings : Nat) :
    Aside (modifyHeap (·.setReadings id readings)) :=
  aside_modifyHeap (fun _ => rfl) (fun _ => rfl) (fun _ => rfl) fun _ => store_modify rfl

theorem aside_member? (id : ObjectId) (o : HostObject) (name : String) :
    Aside (o.member? id name) := by
  unfold HostObject.member?
  refine aside_heap.bind fun h => ?_
  split
  · exact aside_pure _
  · split
    · exact (aside_newCallback _).bind fun _ => aside_pure _
    · exact aside_pure _

theorem aside_getMember (id : ObjectId) (key : Value) : Aside (HostObject.getMember id key) := by
  unfold HostObject.getMember
  refine aside_heap.bind fun h => ?_
  dsimp only
  split
  · next o _ =>
    refine (aside_member? id o _).bind fun v? => ?_
    cases v? with
    | none => exact aside_fail _
    | some v => exact aside_pure v
  · exact aside_fail _

theorem aside_setMember (id : ObjectId) (key value : Value) :
    Aside (HostObject.setMember id key value) := by
  unfold HostObject.setMember
  refine aside_heap.bind fun h => ?_
  dsimp only
  split
  · split
    · exact aside_modifyHeap (fun _ => rfl) (fun _ => rfl) (fun _ => rfl) fun _ _ h => h
    · exact aside_modifyHeap (fun _ => rfl) (fun _ => rfl) (fun _ => rfl) fun _ _ h => h
    · split
      · split
        · exact aside_setBalance id _
        · exact aside_fail _
      · split
        · exact aside_fail _
        · exact aside_fail _
    · split
      · exact aside_fail _
      · exact aside_fail _
  · exact aside_fail _

/-! ## The library -/

theorem aside_statusOf (id : CoroutineId) : Aside (statusOf id) := by
  unfold statusOf
  refine aside_heap.bind fun h => ?_
  split
  · split
    · exact aside_script.bind fun _ => aside_pure _
    · exact aside_script.bind fun _ => aside_pure _
    · exact aside_pure _
    · exact aside_pure _
    · exact aside_pure _
  · exact aside_pure _

theorem aside_isyieldable : Aside Library.isyieldable := aside_processor.bind fun _ => aside_pure _

end Exec

namespace Library

open Exec

theorem aside_status (args : Arguments) : Aside (status args) :=
  (aside_lift _).bind fun _ => (aside_statusOf _).bind fun _ => aside_pure _

theorem aside_running : Aside running :=
  aside_script.bind fun _ => aside_heap.bind fun _ => aside_pure _

theorem aside_tonumber (args : Arguments) : Aside (tonumber args) := by
  unfold tonumber
  refine (aside_lift _).bind fun v => ?_
  split
  · split
    · exact aside_pure _
    · exact aside_pure _
    · exact aside_pure _
  · refine (aside_lift _).bind fun base => ?_
    dsimp only
    split
    · exact (aside_fail _).bind fun _ => (aside_lift _).bind fun _ => aside_pure _
    · exact (aside_lift _).bind fun _ => aside_pure _

theorem aside_next (args : Arguments) : Aside (next args) := by
  unfold next
  refine (aside_lift _).bind fun id => aside_heap.bind fun h => ?_
  split
  · exact aside_pure _
  · exact aside_pure _
  · exact aside_fail _

theorem aside_ipairs (args : Arguments) : Aside (ipairs args) :=
  (aside_lift _).bind fun _ => (aside_newCallback _).bind fun _ => aside_pure _

theorem aside_ipairsStep (args : Arguments) : Aside (ipairsStep args) := by
  unfold ipairsStep
  refine (aside_lift _).bind fun id => (aside_lift _).bind fun i => aside_heap.bind fun h => ?_
  dsimp only
  split
  · exact aside_pure _
  · exact aside_pure _

theorem aside_select (args : Arguments) : Aside (select args) := by
  unfold select
  refine (aside_lift _).bind fun selector => ?_
  dsimp only
  split
  · exact aside_pure _
  · split
    · exact aside_fail _
    · split
      · exact aside_pure _
      · split
        · exact aside_pure _
        · exact aside_fail _

theorem aside_unpack (args : Arguments) : Aside (unpack args) := by
  unfold unpack
  refine (aside_lift _).bind fun id => (aside_lift _).bind fun first => aside_heap.bind fun h => ?_
  have hrest : ∀ last : Int, Aside (do
      if first.toInteger > last then return Value.void
      if last - first.toInteger + 1 > maxUnpacked then fail .tooManyResults
      return .ofList ((List.range (last - first.toInteger + 1).toNat).map fun (i : Nat) =>
        (h.table id).get (.ofInt (first.toInteger + i)))) := by
    intro last
    dsimp only
    split
    · exact aside_pure _
    · split
      · exact (aside_fail _).bind fun _ => aside_pure _
      · exact aside_pure _
  dsimp only
  split
  · exact (aside_pure _).bind hrest
  · exact (aside_lift _).bind hrest

theorem aside_error (caller : Option Span) (args : Arguments) : Aside (error caller args) := by
  unfold error
  refine (aside_lift _).bind fun level => ?_
  dsimp only
  split
  · split
    · exact aside_script.bind fun _ => aside_failWith _
    · exact aside_failWith _
  · exact aside_failWith _

theorem aside_assert (args : Arguments) : Aside (assert args) := by
  unfold assert
  split
  · exact aside_pure _
  · split
    · exact aside_fail _
    · exact aside_failWith _

theorem aside_rawget (args : Arguments) : Aside (rawget args) :=
  (aside_lift _).bind fun _ => aside_heap.bind fun _ => aside_pure _

theorem aside_rawset (args : Arguments) : Aside (rawset args) :=
  (aside_lift _).bind fun _ => (aside_setIndex _ _ _).bind fun _ => aside_pure _

theorem aside_rawequal (args : Arguments) : Aside (rawequal args) :=
  (aside_lift _).bind fun _ => (aside_lift _).bind fun _ => aside_pure _

theorem aside_rawlen (args : Arguments) : Aside (rawlen args) := by
  unfold rawlen
  split
  · exact aside_heap.bind fun _ => aside_pure _
  · exact aside_pure _
  · exact aside_fail _

theorem aside_setmetatable (args : Arguments) : Aside (setmetatable args) := by
  unfold setmetatable
  refine (aside_lift _).bind fun id => ?_
  have hrest : ∀ metatable : Option TableId, Aside (do
      if !(protection (← heap) id).isNil then fail .protectedMetatable
      modifyHeap (·.modifyTable id fun t => { t with metatable })
      return Value.table id) := by
    intro metatable
    have hset : Aside (modifyHeap (·.modifyTable id fun t => { t with metatable })) :=
      aside_modifyHeap (fun _ => rfl) (fun _ => rfl) (fun _ => rfl) fun _ _ h => h
    refine aside_heap.bind fun h => ?_
    dsimp only
    split
    · exact (aside_fail _).bind fun _ => hset.bind fun _ => aside_pure _
    · exact hset.bind fun _ => aside_pure _
  dsimp only
  split
  · exact (aside_pure _).bind hrest
  · exact (aside_pure _).bind hrest
  · exact (aside_fail _).bind hrest

theorem aside_getmetatable (args : Arguments) : Aside (getmetatable args) := by
  unfold getmetatable
  split
  · refine aside_heap.bind fun h => ?_
    split
    · exact aside_pure _
    · exact aside_pure _
  · exact aside_pure _

theorem aside_sleep (args : Arguments) : Aside (sleep args) :=
  (aside_lift _).bind fun _ => aside_safepoint.bind fun _ => aside_pure _

theorem aside_addFunctions (table : TableId) (fs : List Native) :
    Aside (addFunctions table fs) := by
  induction fs with
  | nil => exact aside_pure _
  | cons f rest ih =>
    exact (aside_newCallback f).bind fun v => (aside_setField _ _ v).bind fun _ => ih

theorem aside_install (globals : TableId) : Aside (install globals) := by
  refine (aside_addFunctions globals _).bind fun _ => aside_heap.bind fun h => ?_
  refine (aside_newTable {}).bind fun coroutine => (aside_addFunctions _ _).bind fun _ => ?_
  refine (aside_setField globals _ coroutine).bind fun _ => ?_
  exact (aside_setField globals _ _).bind fun _ => aside_setField globals _ _

end Library

namespace Exec

theorem aside_info (caller : Option Span) : Exec.Aside (Probe.info caller) :=
  aside_script.bind fun _ => aside_get.bind fun _ => aside_isyieldable.bind fun _ =>
    aside_isCancelled.bind fun _ => aside_pure _

end Exec

end LuaMachine
