import LuaMachine.Proofs.Code.Control
import LuaMachine.Proofs.Flat.Values
import LuaMachine.Proofs.Machine.Frames

/-!
# Frames with shapes

The values above the base of a frame have the shape that the code foresees: where it says that a value
is single, it is (`Tops`). `World.Attended` is the counterpart of `World.Running` for shapes, and
`World.Halted` that of `World.Suspended`. In genuine code the first gives the second, and the next
instruction finds what it expects of the stack.

A world is sane if closures are made of functions, coroutines can be resumed with the shapes they were
left with, and there are no tuples but those that are allowed (`World.Sane`).
-/

namespace LuaMachine

/-! ## The top of the stack -/

/-- The values on the stack, from the top down. -/
def Processor.stack (p : Processor) : List Value := p.values.toList.reverse

namespace Processor

variable {p : Processor}

theorem length_stack (p : Processor) : p.stack.length = p.values.size := by
  rw [stack, List.length_reverse, Array.length_toList]

theorem stack_push (p : Processor) (v : Value) :
    ({ p with values := p.values.push v } : Processor).stack = v :: p.stack := by
  rw [stack, Array.toList_push, List.reverse_append]
  rfl

theorem stack_shrink (p : Processor) (n : Nat) :
    ({ p with values := p.values.shrink (p.values.size - n) } : Processor).stack = p.stack.drop n := by
  have htake : (p.values.shrink (p.values.size - n)).toList =
      p.values.toList.take (p.values.size - n) := by
    rw [Array.shrink_eq_take, Array.take, Array.toList_extract, List.extract_eq_take_drop]
    simp
  rw [stack, htake, stack, List.drop_reverse, Array.length_toList]

theorem getElem?_stack (p : Processor) {i : Nat} (hi : i < p.values.size) :
    p.stack[i]? = p.values[p.values.size - 1 - i]? := by
  rw [stack, List.getElem?_reverse (by rwa [Array.length_toList]), Array.length_toList,
    Array.getElem?_toList]

theorem stack_set (p : Processor) (n : Nat) (v : Value) (hn : n < p.values.size) :
    ({ p with values := p.values.setIfInBounds (p.values.size - 1 - n) v } : Processor).stack =
      p.stack.set n v := by
  refine List.ext_getElem? fun i => ?_
  by_cases hi : i < p.values.size
  · rw [getElem?_stack _ (by rwa [Array.size_setIfInBounds]), List.getElem?_set, length_stack,
      Array.size_setIfInBounds, Array.getElem?_setIfInBounds, getElem?_stack p hi]
    by_cases hin : n = i
    · subst hin
      rw [if_pos rfl, if_pos (by omega), if_pos rfl, if_pos hi]
    · rw [if_neg (by omega), if_neg hin]
  · rw [List.getElem?_eq_none, List.getElem?_eq_none]
    · rw [List.length_set, length_stack]
      omega
    · rw [length_stack, Array.size_setIfInBounds]
      omega

end Processor

/-- Above `n` values of others there are values of a shape. -/
structure Tops (n : Nat) (σ : Shape) (p : Processor) : Prop where
  length : p.stack.length = n + σ.length
  single : ∀ {i : Nat} {v : Value}, σ[i]? = some true → p.stack[i]? = some v → v.Single

namespace Tops

variable {n k i : Nat} {b : Bool} {σ : Shape} {p p' : Processor} {v : Value}

theorem of_eq (h : Tops n σ p) (hp : p'.values = p.values) : Tops n σ p' := by
  have hstack : p'.stack = p.stack := congrArg (·.toList.reverse) hp
  exact ⟨hstack ▸ h.length, fun hi hv => h.single hi (hstack ▸ hv)⟩

theorem push (h : Tops n σ p) (hv : b = true → v.Single) :
    Tops n (b :: σ) { p with values := p.values.push v } := by
  refine ⟨?_, fun {i u} hi hu => ?_⟩
  · rw [p.stack_push, List.length_cons, List.length_cons, h.length]
    omega
  · rw [p.stack_push] at hu
    cases i with
    | zero =>
      cases hu
      exact hv (Option.some.inj hi)
    | succ i => exact h.single hi hu

theorem drop (h : Tops n σ p) (hk : k ≤ σ.length) :
    Tops n (σ.drop k) { p with values := p.values.shrink (p.values.size - k) } := by
  refine ⟨?_, fun {i u} hi hu => ?_⟩
  · rw [p.stack_shrink, List.length_drop, List.length_drop, h.length]
    omega
  · rw [p.stack_shrink, List.getElem?_drop] at hu
    rw [List.getElem?_drop] at hi
    exact h.single hi hu

theorem set (h : Tops n σ p) (hi : i < σ.length) (hv : v.Single) :
    Tops n (σ.set i true) { p with values := p.values.setIfInBounds (p.values.size - 1 - i) v } := by
  have hlength := h.length
  rw [p.length_stack] at hlength
  refine ⟨?_, fun {j u} hj hu => ?_⟩
  · rw [p.stack_set i v (by omega), List.length_set, List.length_set, h.length]
  · rw [p.stack_set i v (by omega), List.getElem?_set] at hu
    rw [List.getElem?_set] at hj
    split at hu
    · split at hu
      · cases hu
        exact hv
      · cases hu
    · next hne =>
      rw [if_neg hne] at hj
      exact h.single hj hu

end Tops

/-! ## Activations -/

namespace Activation

/-- The function is about to carry out the instruction at an address, and the values above its base have
a shape. -/
structure Shows (A : Activation) (σ : Shape) (x : Nat) (p : Processor) : Prop where
  place : A.At σ.length x p
  tops : Tops A.outer.values.size σ p

variable {A : Activation} {σ : Shape} {x : Nat} {p : Processor}

theorem Shows.push (h : A.Shows σ x p) (v : Value) :
    A.Shows (false :: σ) x { p with values := p.values.push v } :=
  ⟨h.place.push v, h.tops.push nofun⟩

end Activation

namespace World

variable {w w' : World} {A : Activation} {σ : Shape} {x : Nat} {p bottom : Processor}
  {address : Option Nat}

/-- The function of an activation can come to an address with a shape. -/
structure Traces (w : World) (A : Activation) (σ : Shape) (x : Nat) : Prop where
  owner : A.closure.owner = w.active
  header : w.HasHeader A.closure
  marks : Marks w.ops A.closure.entry x σ
  base_eq : A.base = A.outer.values.size

theorem Traces.mono (h : w.Later w') (ht : w.Traces A σ x) : w'.Traces A σ x :=
  ⟨ht.owner.trans h.active.symm, h.hasHeader ht.header, ht.marks.mono fun _ _ => h.ops, ht.base_eq⟩

/-- Only the running script matters. -/
theorem Traces.of_script (hactive : w'.active = w.active)
    (hscript : w'.scripts[w.active.index]? = w.scripts[w.active.index]?) (ht : w.Traces A σ x) :
    w'.Traces A σ x := by
  refine ⟨ht.owner.trans hactive.symm, fun s hs => ht.header s ?_, ?_, ht.base_eq⟩
  · rw [ht.owner] at hs ⊢
    exact hscript ▸ hs
  · have hops : w'.ops = w.ops := by
      unfold ops
      rw [hactive, Array.getD_eq_getD_getElem?, Array.getD_eq_getD_getElem?, hscript]
    exact hops ▸ ht.marks

theorem Traces.step (ht : w.Traces A σ x) {op : OpCode} (hop : w.ops x = some op) {y : Nat} {τ : Shape}
    (hpass : (y, τ) ∈ op.passes x σ) : w.Traces A τ y :=
  ⟨ht.owner, ht.header, ht.marks.step hop hpass, ht.base_eq⟩

theorem Traces.runs (ht : w.Traces A σ x) (hg : w.Genuine) : w.Runs A σ.length x := by
  refine ⟨ht.owner, ht.header, ?_, ht.base_eq⟩
  have hmarks := ht.marks
  unfold ops at hmarks ⊢
  rw [Array.getD_eq_getD_getElem?] at hmarks ⊢
  cases hs : w.scripts[w.active.index]? with
  | none =>
    rw [hs] at hmarks
    -- without a script there is no code, and control stays at the entry
    cases hmarks with
    | entry => exact .entry
    | step _ hop _ => cases hop
  | some s =>
    rw [hs] at hmarks
    exact (hg _ s hs).reaches_of_marks (ht.header s (ht.owner ▸ hs)) hmarks

/-- Wherever a function can come, the stack is as the next instruction expects it. -/
theorem Traces.admits (ht : w.Traces A σ x) (hg : w.Genuine) {op : OpCode} (hop : w.ops x = some op) :
    op.Admits σ := by
  obtain ⟨s, hs, hops⟩ := exists_script_of_ops hop
  have hmarks := ht.marks
  rw [hops] at hop hmarks
  exact (hg _ s hs).admits (ht.header s (ht.owner ▸ hs)) hmarks hop

/-- A processor whose topmost activation waits for a function to return to an address, with the shapes
of all activations. -/
inductive Attends (w : World) (bottom : Processor) : Processor → Option Nat → Prop where
  | host : Attends w bottom bottom none
  | call {A : Activation} {σ : Shape} {x y : Nat} {p : Processor} :
      Attends w bottom A.outer A.returnAddress → A.Shows σ x p → w.Traces A (false :: σ) y →
      Attends w bottom p (some y)

theorem Attends.mono (h : w.Later w') (hw : w.Attends bottom p address) :
    w'.Attends bottom p address := by
  induction hw with
  | host => exact .host
  | call _ hshows htraces ih => exact .call ih hshows (htraces.mono h)

theorem Attends.of_script (hactive : w'.active = w.active)
    (hscript : w'.scripts[w.active.index]? = w.scripts[w.active.index]?)
    (hw : w.Attends bottom p address) : w'.Attends bottom p address := by
  induction hw with
  | host => exact .host
  | call _ hshows htraces ih => exact .call ih hshows (htraces.of_script hactive hscript)

theorem Attends.waits (hg : w.Genuine) (hw : w.Attends bottom p address) :
    w.Waits none bottom p address := by
  induction hw with
  | host => exact .base
  | call _ hshows htraces ih => exact .call ih hshows.place (htraces.runs hg)

/-- A function above the bottom is about to carry out an instruction, and the values on the stack have
the shapes that the code foresees. -/
def Attended (w : World) (bottom : Processor) : Prop :=
  ∃ A σ x, w.Attends bottom A.outer A.returnAddress ∧ w.Traces A σ x ∧ A.Shows σ x w.processor

theorem Attended.running (h : w.Attended bottom) (hg : w.Genuine) : w.Running bottom := by
  obtain ⟨A, σ, x, hattends, htraces, hshows⟩ := h
  exact ⟨A, σ.length, x, hattends.waits hg, htraces.runs hg, hshows.place⟩

theorem Attended.mono (h : w.Later w') (hp : w'.processor = w.processor) (ha : w.Attended bottom) :
    w'.Attended bottom := by
  obtain ⟨A, σ, x, hattends, htraces, hshows⟩ := ha
  exact ⟨A, σ, x, hattends.mono h, htraces.mono h, hp ▸ hshows⟩

/-- A function that another one waits for has returned with a result. -/
theorem Attends.resume {y : Nat} (hw : w.Attends bottom p (some y)) (result : Value) (h : w.Later w')
    (hp : w'.processor = { p with ip := y, values := p.values.push result }) : w'.Attended bottom := by
  cases hw with
  | @call A σ x y p hattends hshows htraces =>
    obtain ⟨⟨f, own, hf, hk, hplace⟩, htops⟩ := hshows
    refine ⟨A, false :: σ, y, hattends.mono h, htraces.mono h, ⟨f, own.push result, hf, ?_, ?_⟩, ?_⟩
    · rw [Array.size_push, hk, List.length_cons]
    · rw [hp, hplace, ← Array.push_append]
    · rw [hp]
      exact (htops.push (b := false) nofun).of_eq rfl

/-- A run above the bottom was suspended: a function waits for the value of its call, or none was
entered. -/
def Halted (w : World) (bottom : Processor) : Prop :=
  w.processor = bottom ∨ ∃ A σ x, w.Attends bottom A.outer A.returnAddress ∧
    w.Traces A (false :: σ) x ∧ A.Shows σ x w.processor

theorem Halted.mono (h : w.Later w') (hp : w'.processor = w.processor) (hs : w.Halted bottom) :
    w'.Halted bottom := by
  rcases hs with hs | ⟨A, σ, x, hattends, htraces, hshows⟩
  · exact .inl (hp.trans hs)
  · exact .inr ⟨A, σ, x, hattends.mono h, htraces.mono h, hp ▸ hshows⟩

theorem Halted.of_script (hactive : w'.active = w.active)
    (hscript : w'.scripts[w.active.index]? = w.scripts[w.active.index]?)
    (hp : w'.processor = w.processor) (hs : w.Halted bottom) : w'.Halted bottom := by
  rcases hs with hs | ⟨A, σ, x, hattends, htraces, hshows⟩
  · exact .inl (hp.trans hs)
  · exact .inr ⟨A, σ, x, hattends.of_script hactive hscript, htraces.of_script hactive hscript,
      hp ▸ hshows⟩

/-- A suspended coroutine goes on with a value. -/
theorem Halted.push (h : w.Halted .ofCoroutine) {v : Value} (hl : w.Later w')
    (hp : w'.processor = { w.processor with values := w.processor.values.push v }) :
    w'.Attended .ofCoroutine ∨ w'.Adrift := by
  rcases h with h | ⟨A, σ, x, hattends, htraces, hshows⟩
  · refine .inr ⟨?_, .inl ?_⟩
    · rw [hp, h]
      rfl
    · rw [hp, h]
      rfl
  · exact .inl ⟨A, false :: σ, x, hattends.mono hl, htraces.mono hl, hp ▸ hshows.push v⟩

end World

/-! ## Coroutines -/

/-- A coroutine that has a body can be resumed from there, with the shapes that it was left with. -/
structure Coroutine.Poised (w : World) (c : Coroutine) : Prop where
  fresh : ∀ p f, c.body = some { processor := p, function := some f } → p = .ofCoroutine
  suspended : ∀ p, c.body = some { processor := p, function := none } →
    (w.on c.owner p).Halted .ofCoroutine

namespace Coroutine.Poised

variable {w w' : World} {c c' : Coroutine}

theorem mono (h : w.Later w') (hc : c.Poised w) : c.Poised w' :=
  ⟨hc.fresh, fun p hp => (hc.suspended p hp).mono (h.on c.owner p) rfl⟩

/-- The state of a coroutine does not matter. -/
theorem of_eq (hc : c.Poised w) (ho : c'.owner = c.owner) (hb : c'.body = c.body) : c'.Poised w :=
  ⟨fun p f hp => hc.fresh p f (hb ▸ hp), fun p hp => ho ▸ hc.suspended p (hb ▸ hp)⟩

/-- It does not matter which script is running. -/
theorem of_active (hc : c.Poised w) (id : ScriptId) : c.Poised { w with active := id } :=
  ⟨hc.fresh, hc.suspended⟩

theorem of_fresh {f : Value}
    (hb : c.body = some { processor := .ofCoroutine, function := some f }) : c.Poised w := by
  constructor
  · intro p g hp
    rw [hb] at hp
    cases hp
    rfl
  · intro p hp
    rw [hb] at hp
    cases hp

theorem of_none (hb : c.body = none) : c.Poised w := by
  constructor
  · intro p f hp
    rw [hb] at hp
    cases hp
  · intro p hp
    rw [hb] at hp
    cases hp

end Coroutine.Poised

namespace World

/-- Closures are made of functions, coroutines that have a body can be resumed, and tuples are only
where they are allowed. -/
structure Sane (w : World) : Prop where
  closed : w.Closed
  poised : ∀ c ∈ w.heap.coroutines, c.Poised w
  flat : w.Flat

end World

end LuaMachine
