import LuaMachine.Proofs.Machine.Aside
import LuaMachine.Proofs.Machine.Frames

/-!
# What computations keep

`Exec.Keeps` is a triple for computations that return, with a value or with an error; a computation
that breaks down or never ends does not return, and nothing is said of it. The triple says that code
was only added and, provided that all code comes from the compiler, that closures are still made of
functions and coroutines can still be resumed (`World.Follows`), and relates the state before to the
state after.

A computation is calm if it leaves the running processor as it was (`Exec.Calm`). Calm computations
compose, and whatever happens aside from the code in progress is calm (`Exec.Aside.calm`).
-/

namespace LuaMachine

namespace World

/-- The world after a computation: code was only added, the same execution is running, what was
cancelled is so still, closures still belong to scripts and are made of functions, and suspended
coroutines can still be resumed. -/
structure Follows (w w' : World) : Prop where
  later : w.Later w'
  token : w'.token = w.token
  cancelled : ∀ {t : Nat}, w.cancelled.getD t false = true → w'.cancelled.getD t false = true
  owned : w.active.index < w.scripts.size → w.Owned → w'.Owned
  closed : w'.Genuine → w.Closed → w'.Closed
  resumable : w'.Genuine → w.Closed → w.Resumable → w'.Resumable

theorem Follows.trans {w w' w'' : World} (h₁ : w.Follows w') (h₂ : w'.Follows w'') :
    w.Follows w'' :=
  { later := h₁.later.trans h₂.later
    token := h₂.token.trans h₁.token
    cancelled := fun h => h₂.cancelled (h₁.cancelled h)
    owned := fun ha ho => h₂.owned (by rwa [h₁.later.active, h₁.later.size]) (h₁.owned ha ho)
    closed := fun hc hw => h₂.closed hc (h₁.closed (h₂.later.genuine hc) hw)
    resumable := fun hc hw hr => h₂.resumable hc (h₁.closed (h₂.later.genuine hc) hw)
      (h₁.resumable (h₂.later.genuine hc) hw hr) }

/-- What is not a value, a processor or a book of the host. -/
def core (w : World) :
    ScriptId × Array Script × Array Closure × Array Coroutine × Nat × Array Bool :=
  (w.active, w.scripts, w.heap.closures, w.heap.coroutines, w.token, w.cancelled)

theorem follows_of_eq {w w' : World} (h : w'.core = w.core) : w.Follows w' := by
  simp only [core, Prod.mk.injEq] at h
  obtain ⟨hactive, hscripts, hclosures, hcoroutines, htoken, hcancelled⟩ := h
  have hl : w.Later w' := by
    refine ⟨hactive, by rw [hscripts], ?_, ?_⟩
    · intro i s s' hi hi'
      rw [hscripts, hi] at hi'
      cases hi'
      exact .refl _
    · intro i c hi
      exact ⟨c, hcoroutines ▸ hi, rfl⟩
  refine ⟨hl, htoken, fun h => hcancelled ▸ h, fun _ ho i c hi => hl.size ▸ ho i c ?_,
    fun _ hw i c hi => hl.hasHeader (hw i c ?_), fun _ _ hr i c hi => (hr i c ?_).mono hl⟩
  · rw [← hclosures]
    exact hi
  · rw [← hclosures]
    exact hi
  · rw [← hcoroutines]
    exact hi

/-- Code and coroutines are as they were; another script may be running. -/
theorem later_of_code {w w' : World} (hcode : w'.scripts.map (·.code) = w.scripts.map (·.code))
    (hcoroutines : w'.heap.coroutines = w.heap.coroutines) :
    World.Later { w with active := w'.active } w' := by
  refine ⟨rfl, ?_, ?_, fun {i c} hc => ⟨c, hcoroutines ▸ hc, rfl⟩⟩
  · have hsize := congrArg Array.size hcode
    rwa [Array.size_map, Array.size_map] at hsize
  · intro i s s' hs hs'
    have hget : (w'.scripts.map (·.code))[i]? = (w.scripts.map (·.code))[i]? := by rw [hcode]
    have hs : w.scripts[i]? = some s := hs
    rw [Array.getElem?_map, Array.getElem?_map, hs, hs'] at hget
    have hcode' : s'.code = s.code := Option.some_inj.1 hget
    rw [hcode']
    exact .refl _

theorem Apart.follows {w w' : World} (h : w.Apart w') : w.Follows w' := by
  have hcode : w'.scripts.map (·.code) = w.scripts.map (·.code) := by
    have hbare := congrArg (Array.map (·.code)) h.scripts
    rwa [Array.map_map, Array.map_map] at hbare
  have hl : w.Later w' := by
    have hl := later_of_code hcode h.coroutines
    rwa [h.active] at hl
  exact ⟨hl, h.token, h.cancelled, fun _ ho i c hi => hl.size ▸ ho i c (h.closures ▸ hi),
    fun _ hc i c hi => hl.hasHeader (hc i c (h.closures ▸ hi)),
    fun _ _ hr i c hi => (hr i c (h.coroutines ▸ hi)).mono hl⟩

/-- The running execution has been cancelled. -/
def Cancelled (w : World) : Prop := w.cancelled.getD w.token false = true

/-- An execution that has been cancelled stays so. -/
theorem Follows.isCancelled {w w' : World} (h : w.Follows w') (hc : w.Cancelled) :
    w'.Cancelled := by
  unfold Cancelled at hc ⊢
  rw [h.token]
  exact h.cancelled hc

theorem Follows.refl (w : World) : w.Follows w := follows_of_eq rfl

/-- A change of one script that only adds code. -/
theorem follows_modifyScript {w : World} {i : Nat} {f : Script → Script}
    (hf : ∀ s : Script, w.scripts[i]? = some s → s.code.Grows (f s).code) :
    w.Follows { w with scripts := w.scripts.modify i f } := by
  have hl : w.Later { w with scripts := w.scripts.modify i f } := by
    refine ⟨rfl, by simp, ?_, fun {j c} hc => ⟨c, hc, rfl⟩⟩
    intro j s s' hs hs'
    rw [Array.getElem?_modify, hs] at hs'
    split at hs'
    · next hij =>
      cases hs'
      subst hij
      exact hf s hs
    · cases hs'
      exact .refl _
  exact ⟨hl, rfl, id, fun _ ho j c hj => hl.size ▸ ho j c hj,
    fun _ hw j c hj => hl.hasHeader (hw j c hj), fun _ _ hr j c hj => (hr j c hj).mono hl⟩

/-- A new closure of a function of the running script. -/
theorem follows_addClosure {w : World} {c : Closure} (ho : c.owner = w.active)
    (hc : w.Genuine → w.HasHeader c) :
    w.Follows { w with heap := w.heap.addClosure c } := by
  have hl : w.Later { w with heap := w.heap.addClosure c } :=
    ⟨rfl, rfl, (Later.refl w).code, (Later.refl w).owners⟩
  refine ⟨hl, rfl, id, ?_, ?_, fun _ _ hr i c' hi => (hr i c' hi).mono hl⟩
  · intro hactive how i c' hi
    rw [Heap.addClosure, Array.getElem?_push] at hi
    split at hi
    · cases hi
      exact ho ▸ hactive
    · exact how i c' hi
  · intro hcomp hw i c' hi
    rw [Heap.addClosure, Array.getElem?_push] at hi
    split at hi
    · cases hi
      exact hc hcomp
    · exact hw i c' hi

/-- A new coroutine, which starts on a new processor if at all. -/
theorem follows_addCoroutine {w : World} {c : Coroutine} (hc : ∀ w : World, c.Resumable w) :
    w.Follows { w with heap := w.heap.addCoroutine c } := by
  have hl : w.Later { w with heap := w.heap.addCoroutine c } := by
    refine ⟨rfl, rfl, (Later.refl w).code, fun {i c'} hi => ⟨c', ?_, rfl⟩⟩
    have hlt : i < w.heap.coroutines.size := (Array.getElem?_eq_some_iff.1 hi).1
    rw [Heap.addCoroutine, Array.getElem?_push, if_neg (Nat.ne_of_lt hlt)]
    exact hi
  refine ⟨hl, rfl, id, fun _ ho => ho, fun _ hw i c' hi => hl.hasHeader (hw i c' hi),
    fun _ _ hr i c' hi => ?_⟩
  rw [Heap.addCoroutine, Array.getElem?_push] at hi
  split at hi
  · cases hi
    exact hc _
  · exact (hr i c' hi).mono hl

/-- A change of one coroutine, which stays with its script and can be resumed. -/
theorem Follows.modifyCoroutine {w w' : World} (hw : w.Follows w') {id : CoroutineId}
    {f : Coroutine → Coroutine}
    (ho : ∀ c, w'.heap.coroutine? id = some c → (f c).owner = c.owner)
    (hf : ∀ c, w'.heap.coroutine? id = some c → w'.Genuine → w.Closed → w.Resumable →
      c.Resumable w' → (f c).Resumable w') :
    w.Follows { w' with heap := w'.heap.modifyCoroutine id f } := by
  have hl : w'.Later { w' with heap := w'.heap.modifyCoroutine id f } := by
    refine ⟨rfl, rfl, (Later.refl w').code, fun {i c} hi => ?_⟩
    rw [Heap.modifyCoroutine, Array.getElem?_modify, hi]
    split
    · next hid =>
      subst hid
      exact ⟨f c, rfl, ho c hi⟩
    · exact ⟨c, rfl, rfl⟩
  refine ⟨hw.later.trans hl, hw.token, hw.cancelled, hw.owned, fun hg hc i c hi => ?_,
    fun hg hc hr i c hi => ?_⟩
  · exact hl.hasHeader (hw.closed (hl.genuine hg) hc i c hi)
  · have hr' := hw.resumable (hl.genuine hg) hc hr
    rw [Heap.modifyCoroutine, Array.getElem?_modify] at hi
    split at hi
    · next hid =>
      subst hid
      obtain ⟨c₀, hc₀, rfl⟩ := Option.map_eq_some_iff.1 hi
      exact (hf c₀ hc₀ (hl.genuine hg) hc hr (hr' _ c₀ hc₀)).mono hl
    · exact (hr' i c hi).mono hl

end World

namespace Exec

/-- A triple for a computation from a world: when it returns, the world has only grown, and if `P`
held and all code is genuine then `Q` holds after a value and `E` after an error. -/
structure Keeps (x : Exec α) (w : World) (P : Prop) (Q : α → World → Prop) (E : World → Prop) :
    Prop where
  ok : ∀ {a w'}, x w = .ok a w' →
    w.Follows w' ∧ (w'.Genuine → w.Closed → P → Q a w')
  error : ∀ {e w'}, x w = .error (.error e) w' →
    w.Follows w' ∧ (w'.Genuine → w.Closed → P → E w')

section Rules

variable {α β : Type} {w w' : World} {P : Prop} {Q : α → World → Prop} {E : World → Prop}

theorem Keeps.of_ok {x : Exec α} {a : α} (hx : x w = .ok a w') (hf : w.Follows w')
    (hQ : P → Q a w') : x.Keeps w P Q E := by
  refine ⟨?_, ?_⟩
  · intro b w'' hb
    rw [hx] at hb
    cases hb
    exact ⟨hf, fun _ _ => hQ⟩
  · intro e w'' he
    rw [hx] at he
    cases he

theorem Keeps.of_error {x : Exec α} {e : ScriptError} (hx : x w = .error (.error e) w')
    (hf : w.Follows w') (hE : P → E w') : x.Keeps w P Q E := by
  refine ⟨?_, ?_⟩
  · intro b w'' hb
    rw [hx] at hb
    cases hb
  · intro e' w'' he
    rw [hx] at he
    cases he
    exact ⟨hf, fun _ _ => hE⟩

theorem Keeps.mono {x : Exec α} {P' : Prop} {Q' : α → World → Prop} {E' : World → Prop}
    (h : x.Keeps w P Q E) (hP : P' → P) (hQ : P' → ∀ a w', Q a w' → Q' a w')
    (hE : P' → ∀ w', E w' → E' w') : x.Keeps w P' Q' E' := by
  refine ⟨?_, ?_⟩
  · intro a w' hx
    obtain ⟨hf, hq⟩ := h.ok hx
    exact ⟨hf, fun hc hw hp => hQ hp a w' (hq hc hw (hP hp))⟩
  · intro e w' hx
    obtain ⟨hf, he⟩ := h.error hx
    exact ⟨hf, fun hc hw hp => hE hp w' (he hc hw (hP hp))⟩

/-- A computation from a world that was reached with an intermediate fact, told from the world before. -/
theorem Keeps.after {x : Exec α} {M : Prop} (hx : x.Keeps w' M Q E) (hf : w.Follows w')
    (hM : w'.Genuine → w.Closed → P → M) : Keeps (fun _ => x w') w P Q E := by
  constructor
  · intro a w'' ha
    obtain ⟨hf', hq⟩ := hx.ok ha
    refine ⟨hf.trans hf', fun hc hw hp => ?_⟩
    have hc' := hf'.later.genuine hc
    exact hq hc (hf.closed hc' hw) (hM hc' hw hp)
  · intro e w'' ha
    obtain ⟨hf', hq⟩ := hx.error ha
    refine ⟨hf.trans hf', fun hc hw hp => ?_⟩
    have hc' := hf'.later.genuine hc
    exact hq hc (hf.closed hc' hw) (hM hc' hw hp)

/-- The rule of composition; what follows is told from the first world. -/
theorem Keeps.bind_after {x : Exec α} {f : α → Exec β} {R : β → World → Prop}
    (hx : x.Keeps w P Q E) (hf : ∀ a w', w.Follows w' → (w'.Genuine → w.Closed → P → Q a w') →
      Keeps (fun _ => f a w') w P R E) : (x >>= f).Keeps w P R E := by
  have heq : (x >>= f) w = EStateM.bind x f w := rfl
  unfold EStateM.bind at heq
  constructor
  · intro b w'' hb
    rw [heq] at hb
    split at hb
    · next a w' ha =>
      obtain ⟨hw', hq⟩ := hx.ok ha
      exact (hf a w' hw' hq).ok hb
    · cases hb
  · intro e w'' he
    rw [heq] at he
    split at he
    · next a w' ha =>
      obtain ⟨hw', hq⟩ := hx.ok ha
      exact (hf a w' hw' hq).error he
    · next e' w' ha =>
      cases he
      exact hx.error ha

/-- The rule of composition; what follows starts in a world that has grown. -/
theorem Keeps.bind {x : Exec α} {f : α → Exec β} {R : β → World → Prop} (hx : x.Keeps w P Q E)
    (hf : ∀ a w', w.Follows w' → (f a).Keeps w' (Q a w') R E) : (x >>= f).Keeps w P R E :=
  hx.bind_after fun a w' hw' hq => (hf a w' hw').after hw' hq

theorem Keeps.get_bind {f : World → Exec β} {R : β → World → Prop} (h : (f w).Keeps w P R E) :
    (get >>= f).Keeps w P R E :=
  ⟨h.ok, h.error⟩

theorem Keeps.heap_bind {f : Heap → Exec β} {R : β → World → Prop}
    (h : (f w.heap).Keeps w P R E) : (heap >>= f).Keeps w P R E :=
  ⟨h.ok, h.error⟩

theorem Keeps.script_bind {f : Script → Exec β} {R : β → World → Prop}
    (h : (f (w.scripts.getD w.active.index default)).Keeps w P R E) :
    (script >>= f).Keeps w P R E :=
  ⟨h.ok, h.error⟩

theorem Keeps.processor_bind {f : Processor → Exec β} {R : β → World → Prop}
    (h : (f w.processor).Keeps w P R E) : (processor >>= f).Keeps w P R E :=
  ⟨h.ok, h.error⟩

theorem Keeps.modify_bind {g : World → World} {f : Unit → Exec β} {R : β → World → Prop}
    (hg : w.Follows (g w)) (h : (f ()).Keeps (g w) P R E) :
    ((modify g : Exec Unit) >>= f).Keeps w P R E := by
  have hafter := h.after hg fun _ _ hp => hp
  exact ⟨hafter.ok, hafter.error⟩

theorem Keeps.catchError {x : Exec α} {handler : ScriptError → Exec α} {E' : World → Prop}
    (hx : x.Keeps w P Q E)
    (hh : ∀ e w', w.Follows w' → (handler e).Keeps w' (E w') Q E') :
    (Exec.catchError x handler).Keeps w P Q E' := by
  constructor
  · intro b w'' hb
    unfold Exec.catchError at hb
    split at hb
    · next a w' ha =>
      cases hb
      exact hx.ok ha
    · next e w' he =>
      obtain ⟨hw', hq⟩ := hx.error he
      exact ((hh e w' hw').after hw' hq).ok hb
    · cases hb
  · intro e w'' he
    unfold Exec.catchError at he
    split at he
    · cases he
    · next e' w' he' =>
      obtain ⟨hw', hq⟩ := hx.error he'
      exact ((hh e' w' hw').after hw' hq).error he
    · next hnot _ =>
      cases he
      exact absurd rfl (hnot e)

/-- What is done to the world after a computation that returns. -/
theorem Keeps.andSettle {x : Exec α} {onValue onError : World → World} {Q' : α → World → Prop}
    {E' : World → Prop} (hx : x.Keeps w P Q E)
    (hv : ∀ w' : World, w'.Follows (onValue w')) (he : ∀ w' : World, w'.Follows (onError w'))
    (hQ : ∀ a w', Q a w' → Q' a (onValue w')) (hE : ∀ w', E w' → E' (onError w')) :
    (Exec.andSettle x onValue onError).Keeps w P Q' E' := by
  refine ⟨?_, ?_⟩
  · intro a w'' ha
    unfold Exec.andSettle at ha
    split at ha
    · next a' w' hr =>
      cases ha
      obtain ⟨hf, hq⟩ := hx.ok hr
      refine ⟨hf.trans (hv w'), fun hc hw hp => hQ a w' (hq ((hv w').later.genuine hc) hw hp)⟩
    · cases ha
    · cases ha
  · intro e w'' ha
    unfold Exec.andSettle at ha
    split at ha
    · cases ha
    · next e' w' hr =>
      cases ha
      obtain ⟨hf, hq⟩ := hx.error hr
      exact ⟨hf.trans (he w'), fun hc hw hp => hE w' (hq ((he w').later.genuine hc) hw hp)⟩
    · next hnot hr =>
      cases ha
      exact absurd rfl (hnot e)

theorem Keeps.andFinally {x : Exec α} {after : World → World} {Q' : α → World → Prop}
    {E' : World → Prop} (hx : x.Keeps w P Q E) (hf : ∀ w' : World, w'.Follows (after w'))
    (hQ : ∀ a w', Q a w' → Q' a (after w')) (hE : ∀ w', E w' → E' (after w')) :
    (Exec.andFinally x after).Keeps w P Q' E' := by
  have hs := hx.andSettle hf hf hQ hE
  refine ⟨?_, ?_⟩
  · intro a w'' ha
    unfold Exec.andFinally at ha
    split at ha
    · next a' w' hr =>
      cases ha
      exact hs.ok (by simp only [Exec.andSettle, hr])
    · cases ha
  · intro e w'' ha
    unfold Exec.andFinally at ha
    split at ha
    · cases ha
    · next s w' hr =>
      cases ha
      exact hs.error (e := e) (by simp only [Exec.andSettle, hr])

end Rules

/-- A triple about the running processor, from any world. -/
def Moves (φ : Processor → Prop) (x : Exec α) (ψ : α → Processor → Prop) (ε : Processor → Prop) :
    Prop :=
  ∀ w, x.Keeps w (φ w.processor) (fun a w' => ψ a w'.processor) (fun w' => ε w'.processor)

theorem Moves.bind {α β : Type} {φ ε : Processor → Prop} {ψ : α → Processor → Prop}
    {χ : β → Processor → Prop} {x : Exec α} {f : α → Exec β} (hx : Moves φ x ψ ε)
    (hf : ∀ a, Moves (ψ a) (f a) χ ε) : Moves φ (x >>= f) χ ε :=
  fun w => (hx w).bind fun a w' _ => hf a w'

theorem Moves.mono {α : Type} {φ φ' ε ε' : Processor → Prop} {ψ ψ' : α → Processor → Prop}
    {x : Exec α} (hx : Moves φ x ψ ε) (hφ : ∀ p, φ' p → φ p) (hψ : ∀ a p, ψ a p → ψ' a p)
    (hε : ∀ p, ε p → ε' p) : Moves φ' x ψ' ε' :=
  fun w => (hx w).mono (hφ _) (fun _ a _ => hψ a _) fun _ _ => hε _

/-! ## Calm computations -/

/-- A computation that leaves the running processor as it was. -/
def Calm (x : Exec α) : Prop := ∀ p, Moves (· = p) x (fun _ => (· = p)) (· = p)

section Calm

variable {α β : Type}

theorem Calm.moves {x : Exec α} (h : Calm x) (φ : Processor → Prop) :
    Moves φ x (fun _ => φ) φ := by
  intro w
  refine (h w.processor w).mono (fun _ => rfl) ?_ ?_
  · intro hφ a w' hp
    exact hp.symm ▸ hφ
  · intro hφ w' hp
    exact hp.symm ▸ hφ

theorem Calm.bind {x : Exec α} {f : α → Exec β} (hx : Calm x) (hf : ∀ a, Calm (f a)) :
    Calm (x >>= f) :=
  fun p => (hx p).bind fun a => hf a p

theorem Aside.calm {x : Exec α} (hx : Aside x) : Calm x := fun _ _ =>
  ⟨fun h => ⟨(hx.ok h).follows, fun _ _ hp => (hx.ok h).processor.trans hp⟩,
    fun h => ⟨(hx.error h).follows, fun _ _ hp => (hx.error h).processor.trans hp⟩⟩

theorem calm_pure (a : α) : Calm (pure a) := (aside_pure a).calm

theorem calm_failWith (e : ScriptError) : Calm (failWith e : Exec α) := (aside_failWith e).calm

theorem calm_fail (f : Fault) : Calm (fail f : Exec α) := (aside_fail f).calm

/-- A computation that changes the world elsewhere, and only adds code. -/
theorem calm_of_change {x : Exec α} {value : World → α} {change : World → World}
    (hx : ∀ w, x w = .ok (value w) (change w)) (hf : ∀ w : World, w.Follows (change w))
    (hp : ∀ w, (change w).processor = w.processor) : Calm x :=
  fun _ w => .of_ok (hx w) (hf w) fun h => (hp w).trans h

theorem calm_get : Calm (get : Exec World) := aside_get.calm

theorem calm_processor : Calm processor := aside_processor.calm

theorem calm_modify {f : World → World} (hf : ∀ w : World, w.Follows (f w))
    (hp : ∀ w, (f w).processor = w.processor) : Calm (modify f : Exec Unit) :=
  calm_of_change (fun _ => rfl) hf hp

theorem calm_modifyHeap {f : Heap → Heap} (hf : ∀ h : Heap, (f h).closures = h.closures)
    (hco : ∀ h : Heap, (f h).coroutines = h.coroutines) : Calm (modifyHeap f) :=
  calm_modify (fun w => World.follows_of_eq (by simp only [World.core, hf, hco])) fun _ => rfl

theorem calm_newCell (v : Value) : Calm (newCell v) :=
  calm_of_change (fun _ => rfl) (fun _ => World.follows_of_eq rfl) fun _ => rfl

theorem Calm.catchError {x : Exec α} {handler : ScriptError → Exec α} (hx : Calm x)
    (hh : ∀ e, Calm (handler e)) : Calm (Exec.catchError x handler) :=
  fun p w => (hx p w).catchError fun e w' _ => hh e p w'

theorem calm_resolveCallable (f : Value) (args : List Value) : Calm (resolveCallable f args) :=
  (aside_resolveCallable f args).calm

end Calm

end Exec

end LuaMachine
