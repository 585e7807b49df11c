import LuaMachine.Proofs.Flat.Frames
import LuaMachine.Proofs.Machine.Calm

/-!
# What computations sift

`Exec.Sifts` is a triple for computations that return. It says that the world has only grown and,
provided that all code is genuine, that a sane world stays sane, that the value that is returned is
what it should be, and that an error carries a single value. What is known before a computation is
known after it as well, so that facts about values add up along a sequence.

A computation that does so from any world is `Exec.Sifting`; the primitives that do not work on the
processor are.
-/

namespace LuaMachine

namespace World

variable {w w' : World}

/-- A world that has grown is sane if coroutines are as they were and tuples where they may be. -/
theorem Sane.grow (h : w.Sane) (hf : w.Follows w') (hg : w'.Genuine)
    (hcoroutines : w'.heap.coroutines = w.heap.coroutines) (hflat : w'.Flat) : w'.Sane := by
  refine ⟨hf.closed hg h.closed, fun c hc => ?_, hflat⟩
  rw [hcoroutines] at hc
  exact (h.poised c hc).mono hf.later

theorem Flat.script (h : w.Flat) : (w.scripts.getD w.active.index default).processor.Flat := by
  rw [Array.getD_eq_getD_getElem?]
  cases hs : w.scripts[w.active.index]? with
  | none => exact Processor.flat_empty
  | some s => exact h.scripts s (Array.mem_of_getElem? hs)

theorem Flat.withHeap (h : w.Flat) {heap : Heap} (hheap : heap.Flat) : ({ w with heap } : World).Flat :=
  ⟨hheap, h.processor, h.scripts⟩

theorem Flat.withProcessor (h : w.Flat) {p : Processor} (hp : p.Flat) :
    ({ w with processor := p } : World).Flat :=
  ⟨h.heap, hp, h.scripts⟩

/-- One script changes, and what waits on its main processor is flat. -/
theorem Flat.modifyScript (h : w.Flat) (i : Nat) {f : Script → Script}
    (hf : ∀ s : Script, s.processor.Flat → (f s).processor.Flat) :
    ({ w with scripts := w.scripts.modify i f } : World).Flat := by
  refine ⟨h.heap, h.processor, fun s hs => ?_⟩
  obtain ⟨j, hj⟩ := Array.getElem?_of_mem hs
  rw [Array.getElem?_modify] at hj
  split at hj
  · obtain ⟨s', hs', rfl⟩ := Option.map_eq_some_iff.1 hj
    exact hf s' (h.scripts s' (Array.mem_of_getElem? hs'))
  · exact h.scripts s (Array.mem_of_getElem? hj)

end World

namespace Exec

/-- A triple for a computation from a world: when it returns, the world has only grown, and if the
world was sane, `P` held and all code is genuine, then the world is sane, `Q` holds after a value, and an
error carries a single value. -/
structure Sifts {α : Type} (x : Exec α) (w : World) (P : Prop) (Q : α → World → Prop) : Prop where
  ok : ∀ {a w'}, x w = .ok a w' → w.Follows w' ∧ (w'.Genuine → w.Sane → P → w'.Sane ∧ Q a w')
  error : ∀ {e w'}, x w = .error (.error e) w' →
    w.Follows w' ∧ (w'.Genuine → w.Sane → P → w'.Sane ∧ e.Single)

section Rules

variable {α β : Type} {w w' : World} {P : Prop} {Q : α → World → Prop} {R : β → World → Prop}
  {x : Exec α}

theorem Sifts.of_ok {a : α} (hx : x w = .ok a w') (hf : w.Follows w')
    (hQ : w'.Genuine → w.Sane → P → w'.Sane ∧ Q a w') : x.Sifts w P Q := by
  refine ⟨?_, ?_⟩
  · intro b w'' hb
    rw [hx] at hb
    cases hb
    exact ⟨hf, hQ⟩
  · intro e w'' he
    rw [hx] at he
    cases he

theorem Sifts.of_error {e : ScriptError} (hx : x w = .error (.error e) w') (hf : w.Follows w')
    (hE : w'.Genuine → w.Sane → P → w'.Sane ∧ e.Single) : x.Sifts w P Q := by
  refine ⟨?_, ?_⟩
  · intro b w'' hb
    rw [hx] at hb
    cases hb
  · intro e' w'' he
    rw [hx] at he
    cases he
    exact ⟨hf, hE⟩

theorem Sifts.mono {P' : Prop} {Q' : α → World → Prop} (h : x.Sifts w P Q) (hP : P' → P)
    (hQ : P' → ∀ a w', Q a w' → Q' a w') : x.Sifts w P' Q' := by
  refine ⟨?_, ?_⟩
  · intro a w' hx
    obtain ⟨hf, hq⟩ := h.ok hx
    refine ⟨hf, fun hg hw hp => ?_⟩
    obtain ⟨hw', hq⟩ := hq hg hw (hP hp)
    exact ⟨hw', hQ hp a w' hq⟩
  · intro e w' hx
    obtain ⟨hf, he⟩ := h.error hx
    exact ⟨hf, fun hg hw hp => he hg hw (hP hp)⟩

/-- A computation from a world that was reached with an intermediate fact, told from the world before. -/
theorem Sifts.after {M : Prop} (hx : x.Sifts w' M Q) (hf : w.Follows w')
    (hM : w'.Genuine → w.Sane → P → w'.Sane ∧ M) : Sifts (fun _ => x w') w P Q := by
  constructor
  · intro a w'' ha
    obtain ⟨hf', hq⟩ := hx.ok ha
    refine ⟨hf.trans hf', fun hg hw hp => ?_⟩
    obtain ⟨hw', hm⟩ := hM (hf'.later.genuine hg) hw hp
    exact hq hg hw' hm
  · intro e w'' ha
    obtain ⟨hf', hq⟩ := hx.error ha
    refine ⟨hf.trans hf', fun hg hw hp => ?_⟩
    obtain ⟨hw', hm⟩ := hM (hf'.later.genuine hg) hw hp
    exact hq hg hw' hm

/-- The rule of composition; what was known before is known in between. -/
theorem Sifts.bind {f : α → Exec β} (hx : x.Sifts w P Q)
    (hf : ∀ a w', w.Follows w' → (f a).Sifts w' (P ∧ Q a w') R) : (x >>= f).Sifts w P R := by
  have heq : (x >>= f) w = EStateM.bind x f w := rfl
  unfold EStateM.bind at heq
  have hthen : ∀ {a w'}, x w = .ok a w' → Sifts (fun _ => f a w') w P R := by
    intro a w' ha
    obtain ⟨hw', hq⟩ := hx.ok ha
    refine (hf a w' hw').after hw' fun hg hw hp => ?_
    obtain ⟨hsane, hq⟩ := hq hg hw hp
    exact ⟨hsane, hp, hq⟩
  constructor
  · intro b w'' hb
    rw [heq] at hb
    split at hb
    · next a w' ha => exact (hthen ha).ok hb
    · cases hb
  · intro e w'' he
    rw [heq] at he
    split at he
    · next a w' ha => exact (hthen ha).error he
    · next e' w' ha =>
      cases he
      exact hx.error ha

theorem Sifts.get_bind {f : World → Exec β} (h : (f w).Sifts w P R) : (get >>= f).Sifts w P R :=
  ⟨h.ok, h.error⟩

theorem Sifts.heap_bind {f : Heap → Exec β} (h : (f w.heap).Sifts w P R) :
    (heap >>= f).Sifts w P R :=
  ⟨h.ok, h.error⟩

theorem Sifts.processor_bind {f : Processor → Exec β} (h : (f w.processor).Sifts w P R) :
    (processor >>= f).Sifts w P R :=
  ⟨h.ok, h.error⟩

theorem Sifts.script_bind {f : Script → Exec β}
    (h : (f (w.scripts.getD w.active.index default)).Sifts w P R) : (script >>= f).Sifts w P R :=
  ⟨h.ok, h.error⟩

theorem Sifts.modify_bind {g : World → World} {f : Unit → Exec β} (hg : w.Follows (g w))
    (hsane : (g w).Genuine → w.Sane → P → (g w).Sane) (h : (f ()).Sifts (g w) P R) :
    ((modify g : Exec Unit) >>= f).Sifts w P R := by
  have hafter := h.after hg fun hc hw hp => ⟨hsane hc hw hp, hp⟩
  exact ⟨hafter.ok, hafter.error⟩

theorem Sifts.catchError {handler : ScriptError → Exec α} (hx : x.Sifts w P Q)
    (hh : ∀ e w', w.Follows w' → (handler e).Sifts w' (P ∧ e.Single) Q) :
    (Exec.catchError x handler).Sifts w P Q := by
  have hthen : ∀ {e w'}, x w = .error (.error e) w' → Sifts (fun _ => handler e w') w P Q := by
    intro e w' he
    obtain ⟨hw', hq⟩ := hx.error he
    refine (hh e w' hw').after hw' fun hg hw hp => ?_
    obtain ⟨hsane, hq⟩ := hq hg hw hp
    exact ⟨hsane, hp, hq⟩
  constructor
  · intro b w'' hb
    unfold Exec.catchError at hb
    split at hb
    · next a w' ha =>
      cases hb
      exact hx.ok ha
    · next e w' he => exact (hthen he).ok hb
    · cases hb
  · intro e w'' he
    unfold Exec.catchError at he
    split at he
    · cases he
    · next e' w' he' => exact (hthen he').error he
    · next hnot _ =>
      cases he
      exact absurd rfl (hnot e)

/-- What is done to the world after a computation that returns. -/
theorem Sifts.andSettle {onValue onError : World → World} {Q' : α → World → Prop} (hx : x.Sifts w P Q)
    (hv : ∀ w' : World, w'.Follows (onValue w')) (he : ∀ w' : World, w'.Follows (onError w'))
    (hQ : ∀ a w', w.Follows w' → (onValue w').Genuine → w'.Sane → P → Q a w' →
      (onValue w').Sane ∧ Q' a (onValue w'))
    (hE : ∀ w', w.Follows w' → (onError w').Genuine → w'.Sane → P → (onError w').Sane) :
    (Exec.andSettle x onValue onError).Sifts w P Q' := by
  refine ⟨?_, ?_⟩
  · intro a w'' ha
    unfold Exec.andSettle at ha
    split at ha
    · next a' w' hr =>
      cases ha
      obtain ⟨hf, hq⟩ := hx.ok hr
      refine ⟨hf.trans (hv w'), fun hg hw hp => ?_⟩
      obtain ⟨hw', hq⟩ := hq ((hv w').later.genuine hg) hw hp
      exact hQ a w' hf hg hw' hp hq
    · cases ha
    · cases ha
  · intro e w'' ha
    unfold Exec.andSettle at ha
    split at ha
    · cases ha
    · next e' w' hr =>
      cases ha
      obtain ⟨hf, hq⟩ := hx.error hr
      refine ⟨hf.trans (he w'), fun hg hw hp => ?_⟩
      obtain ⟨hw', hq⟩ := hq ((he w').later.genuine hg) hw hp
      exact ⟨hE w' hf hg hw' hp, hq⟩
    · next hnot hr =>
      cases ha
      exact absurd rfl (hnot e)

theorem Sifts.andFinally {after : World → World} (hx : x.Sifts w P Q) {Q' : α → World → Prop}
    (hf : ∀ w' : World, w'.Follows (after w'))
    (hsane : ∀ w', w.Follows w' → (after w').Genuine → w'.Sane → P → (after w').Sane)
    (hQ : ∀ a w', Q a w' → Q' a (after w')) : (Exec.andFinally x after).Sifts w P Q' := by
  have hs : (Exec.andSettle x after after).Sifts w P Q' := hx.andSettle hf hf
    (fun a w' hw' hg hw hp hq => ⟨hsane w' hw' hg hw hp, hQ a w' hq⟩) hsane
  refine ⟨?_, ?_⟩
  · intro a w'' ha
    unfold Exec.andFinally at ha
    split at ha
    · next a' w' hr =>
      cases ha
      exact hs.ok (by simp only [Exec.andSettle, hr])
    · cases ha
  · intro e w'' ha
    unfold Exec.andFinally at ha
    split at ha
    · cases ha
    · next s w' hr =>
      cases ha
      exact hs.error (e := e) (by simp only [Exec.andSettle, hr])

/-- What is known of where the world has grown to may be added. -/
theorem Sifts.and_keeps {P' : Prop} {Q' : α → World → Prop} {E : World → Prop} (hx : x.Sifts w P Q)
    (hk : x.Keeps w P' Q' E) (hP : P → P') : x.Sifts w P fun a w' => Q a w' ∧ Q' a w' := by
  refine ⟨?_, hx.error⟩
  intro a w' ha
  obtain ⟨hf, hq⟩ := hx.ok ha
  refine ⟨hf, fun hg hw hp => ?_⟩
  obtain ⟨hw', hq⟩ := hq hg hw hp
  exact ⟨hw', hq, (hk.ok ha).2 hg hw.closed (hP hp)⟩

end Rules

/-- A triple about values, from any world. -/
def Sifting {α : Type} (P : Prop) (x : Exec α) (Q : α → Prop) : Prop := ∀ w, x.Sifts w P fun a _ => Q a

section Sifting

variable {α β : Type} {P P' : Prop} {Q Q' : α → Prop} {R : β → Prop} {x : Exec α}

theorem Sifting.bind {f : α → Exec β} (hx : Sifting P x Q) (hf : ∀ a, Sifting (P ∧ Q a) (f a) R) :
    Sifting P (x >>= f) R :=
  fun w => (hx w).bind fun a w' _ => hf a w'

theorem Sifting.mono (h : Sifting P x Q) (hP : P' → P) (hQ : P' → ∀ a, Q a → Q' a) :
    Sifting P' x Q' :=
  fun w => (h w).mono hP fun hp a _ => hQ hp a

theorem Sifting.weaken (h : Sifting P x Q) (hP : P' → P) : Sifting P' x Q :=
  h.mono hP fun _ _ => id

theorem Sifting.catchError {handler : ScriptError → Exec α} (hx : Sifting P x Q)
    (hh : ∀ e, Sifting (P ∧ e.Single) (handler e) Q) : Sifting P (Exec.catchError x handler) Q :=
  fun w => (hx w).catchError fun e w' _ => hh e w'

theorem sifting_pure {a : α} (h : P → Q a) : Sifting P (pure a) Q :=
  fun w => .of_ok rfl (.refl w) fun _ hw hp => ⟨hw, h hp⟩

theorem sifting_failWith {e : ScriptError} (h : P → e.Single) : Sifting P (failWith e : Exec α) Q :=
  fun w => .of_error rfl (.refl w) fun _ hw hp => ⟨hw, h hp⟩

theorem sifting_fail (f : Fault) : Sifting P (fail f : Exec α) Q := sifting_failWith fun _ => rfl

/-- A computation that breaks down does not return. -/
theorem sifting_panic (message : String) : Sifting P (throw (.panic message) : Exec α) Q := by
  intro w
  constructor
  · intro a w' h
    cases h
  · intro e w' h
    cases h

theorem sifting_exhausted : Sifting P (throw .exhausted : Exec α) Q := by
  intro w
  constructor
  · intro a w' h
    cases h
  · intro e w' h
    cases h

/-- A computation that changes the world, but no coroutine, and only adds code. -/
theorem sifting_of_change {value : World → α} {change : World → World}
    (hx : ∀ w, x w = .ok (value w) (change w)) (hf : ∀ w : World, w.Follows (change w))
    (hcoroutines : ∀ w, (change w).heap.coroutines = w.heap.coroutines)
    (h : ∀ w : World, P → w.Flat → (change w).Flat ∧ Q (value w)) : Sifting P x Q := by
  intro w
  refine .of_ok (hx w) (hf w) fun hg hw hp => ?_
  obtain ⟨hflat, hq⟩ := h w hp hw.flat
  exact ⟨hw.grow (hf w) hg (hcoroutines w) hflat, hq⟩

/-- A computation that changes nothing. -/
theorem sifting_of_read {value : World → α} (hx : ∀ w, x w = .ok (value w) w)
    (h : ∀ w : World, P → w.Flat → Q (value w)) : Sifting P x Q :=
  sifting_of_change hx .refl (fun _ => rfl) fun w hp hw => ⟨hw, h w hp hw⟩

theorem sifting_get : Sifting P (get : Exec World) World.Flat :=
  sifting_of_read (fun _ => rfl) fun _ _ => id

/-! ### The heap -/

theorem sifting_heap : Sifting P heap Heap.Flat := sifting_of_read (fun _ => rfl) fun _ _ h => h.heap

theorem sifting_modifyHeap {f : Heap → Heap} (hf : ∀ h : Heap, (f h).closures = h.closures)
    (hco : ∀ h : Heap, (f h).coroutines = h.coroutines) (h : ∀ h : Heap, P → h.Flat → (f h).Flat) :
    Sifting P (modifyHeap f) fun _ => True := by
  refine sifting_of_change (fun _ => rfl) (fun w => ?_) (fun _ => hco _) fun w hp hw => ?_
  · exact World.follows_of_eq (by simp only [World.core, hf, hco])
  · exact ⟨hw.withHeap (h w.heap hp hw.heap), trivial⟩

theorem sifting_newTable {t : Table} (ht : P → t.Flat) : Sifting P (newTable t) Value.Single :=
  sifting_of_change (fun _ => rfl) (fun _ => World.follows_of_eq rfl) (fun _ => rfl)
    fun _ hp hw => ⟨hw.withHeap (hw.heap.addTable (ht hp)), rfl⟩

theorem sifting_newCell {v : Value} (hv : P → v.Single) : Sifting P (newCell v) fun _ => True :=
  sifting_of_change (fun _ => rfl) (fun _ => World.follows_of_eq rfl) (fun _ => rfl)
    fun _ hp hw => ⟨hw.withHeap (hw.heap.addCell (hv hp)), trivial⟩

theorem sifting_newCallback (n : Native) : Sifting P (newCallback n) Value.Single :=
  sifting_of_change (fun _ => rfl) (fun _ => World.follows_of_eq rfl) (fun _ => rfl)
    fun _ _ hw => ⟨hw.withHeap { hw.heap with }, rfl⟩

theorem sifting_setIndex (table : TableId) (key value : Value) :
    Sifting P (setIndex table key value) fun _ => True := by
  intro w
  cases hk : Key.ofValue key with
  | ok k =>
    have hx : setIndex table key value w =
        .ok () { w with heap := w.heap.modifyTable table fun t => t.put k value.scalar } := by
      simp only [setIndex, hk]
    have hf : w.Follows { w with heap := w.heap.modifyTable table fun t => t.put k value.scalar } :=
      World.follows_of_eq rfl
    refine .of_ok hx hf fun hg hw _ => ⟨hw.grow hf hg rfl ?_, trivial⟩
    exact hw.flat.withHeap (hw.flat.heap.modifyTable table fun _ ht => ht.put k value.single_scalar)
  | error e =>
    have hx : setIndex table key value w = .error (.error (.ofFault (.table e))) w := by
      simp only [setIndex, hk]
    exact .of_error hx (.refl w) fun _ hw _ => ⟨hw, rfl⟩

theorem sifting_metamethod? (v : Value) (event : String) :
    Sifting P (metamethod? v event) fun handler? => ∀ handler ∈ handler?, handler.Single :=
  sifting_of_read (fun _ => rfl) fun _ _ hw _ hm => hw.heap.metamethod? hm

theorem sifting_handlerOf? (a b : Value) (event : String) :
    Sifting P (handlerOf? a b event) fun handler? => ∀ handler ∈ handler?, handler.Single := by
  refine sifting_of_read (fun _ => rfl) fun w _ hw handler hm => ?_
  rcases Option.or_eq_some_iff.1 hm with hm | ⟨-, hm⟩
  · exact hw.heap.metamethod? hm
  · exact hw.heap.metamethod? hm

/-! ### The running script -/

theorem sifting_script : Sifting P script fun _ => True := sifting_of_read (fun _ => rfl) fun _ _ _ => trivial

theorem sifting_processor : Sifting P processor Processor.Flat :=
  sifting_of_read (fun _ => rfl) fun _ _ h => h.processor

theorem sifting_modifyScript {f : Script → Script} (hf : ∀ s : Script, s.code.Grows (f s).code)
    (hp : ∀ s : Script, (f s).processor = s.processor) : Sifting P (modifyScript f) fun _ => True :=
  sifting_of_change (fun _ => rfl) (fun _ => World.follows_modifyScript fun s _ => hf s) (fun _ => rfl)
    fun _ _ hw => ⟨hw.modifyScript _ fun s hs => (hp s).symm ▸ hs, trivial⟩

/-- A computation that leaves heap, scripts and processor alone. -/
theorem sifting_of_flat (hc : Calm x)
    (hx : ∀ {w a w'}, x w = .ok a w' → w'.heap = w.heap ∧ w'.processor = w.processor ∧
      w'.scripts = w.scripts)
    (he : ∀ {w e w'}, x w = .error (.error e) w' → w' = w ∧ e.Single) :
    Sifting P x fun _ => True := by
  intro w
  constructor
  · intro a w' h
    have hf := ((hc w.processor w).ok h).1
    obtain ⟨hheap, hprocessor, hscripts⟩ := hx h
    refine ⟨hf, fun hg hw _ => ⟨hw.grow hf hg (congrArg _ hheap) ⟨?_, ?_, ?_⟩, trivial⟩⟩
    · exact hheap ▸ hw.flat.heap
    · exact hprocessor ▸ hw.flat.processor
    · exact hscripts ▸ hw.flat.scripts
  · intro e w' h
    obtain ⟨rfl, hsingle⟩ := he h
    exact ⟨.refl _, fun _ hw _ => ⟨hw, hsingle⟩⟩

theorem sifting_isCancelled : Sifting P isCancelled fun _ => True :=
  sifting_of_read (fun _ => rfl) fun _ _ _ => trivial

theorem sifting_newToken : Sifting P newToken fun _ => True :=
  sifting_of_flat aside_newToken.calm (fun h => by cases h; exact ⟨rfl, rfl, rfl⟩) nofun

theorem sifting_cancel (token : Nat) : Sifting P (cancel token) fun _ => True :=
  sifting_of_flat (aside_cancel token).calm (fun h => by cases h; exact ⟨rfl, rfl, rfl⟩) nofun

theorem sifting_print (line : String) : Sifting P (Exec.print line) fun _ => True :=
  sifting_of_flat (aside_print line).calm (fun h => by cases h; exact ⟨rfl, rfl, rfl⟩) nofun

theorem sifting_tell (v : Value) : Sifting P (tell v) fun _ => True :=
  sifting_of_flat (aside_tell v).calm (fun h => by cases h; exact ⟨rfl, rfl, rfl⟩) nofun

theorem sifting_safepoint : Sifting P safepoint fun _ => True := by
  refine sifting_of_flat aside_safepoint.calm (fun {w a w'} h => ?_) fun {w e w'} h => ?_
  · unfold safepoint at h
    split at h
    · cases h
    · cases h
      exact ⟨rfl, rfl, rfl⟩
  · unfold safepoint at h
    split at h
    · cases h
      exact ⟨rfl, trivial⟩
    · cases h

/-! ### Control -/

theorem sifting_lift (x : Except Fault α) : Sifting P (monadLift x : Exec α) fun a => x = .ok a := by
  cases x with
  | ok a => exact sifting_pure fun _ => rfl
  | error f => exact sifting_fail f

theorem Sifting.mapM {f : α → Exec β} (hf : ∀ a, Sifting P (f a) fun _ => True) (as : List α) :
    Sifting P (as.mapM f) fun _ => True := by
  induction as with
  | nil => exact sifting_pure fun _ => trivial
  | cons a as ih =>
    rw [List.mapM_cons]
    refine (hf a).bind fun b => ?_
    exact (ih.weaken And.left).bind fun bs => sifting_pure fun _ => trivial

/-- A call of single values comes to a call of single values. -/
theorem sifting_followCall (n : Nat) {f : Value} {args : List Value}
    (h : P → f.Single ∧ ∀ v ∈ args, v.Single) :
    Sifting P (followCall n f args) fun call => call.1.Single ∧ ∀ v ∈ call.2, v.Single := by
  induction n generalizing P f args with
  | zero => exact sifting_fail _
  | succ n ih =>
    unfold followCall
    split
    · exact sifting_pure h
    · refine (sifting_metamethod? f "__call").bind fun handler? => ?_
      cases handler? with
      | none => exact sifting_fail _
      | some handler =>
        refine ih fun hp => ⟨hp.2 handler rfl, fun v hv => ?_⟩
        rcases List.mem_cons.1 hv with rfl | hv
        · exact (h hp.1).1
        · exact (h hp.1).2 v hv

theorem sifting_resolveCallable (f : Value) {args : List Value} (h : P → ∀ v ∈ args, v.Single) :
    Sifting P (resolveCallable f args) fun call => call.1.Single ∧ ∀ v ∈ call.2, v.Single :=
  sifting_followCall _ fun hp => ⟨f.single_scalar, h hp⟩

end Sifting

end Exec

end LuaMachine
