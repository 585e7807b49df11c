import LuaMachine.Proofs.Capture.Histories

/-!
# What leaves variables in their slots

Most of what instructions do leaves the frames of the processor where they are, with the cells of their
slots: operands are taken off the stack and results are put there, tables are changed, the debugger is
told. `World.Reworks` says that some slots of the topmost frame may have been given other cells, all of
them new, and that nothing else has happened to frames, closures and coroutines. A computation is steady
if all slots keep their cells (`Exec.Steady`).
-/

namespace LuaMachine

open Exec

/-! ## Frames that stay -/

theorem getElem?_setSlot (slots : Array (Option CellId)) (slot i : Nat) (cell : CellId) :
    (setSlot slots slot cell)[i]?.join = if i = slot then some cell else slots[i]?.join := by
  unfold setSlot
  split
  · next hlt =>
    rw [Array.getElem?_setIfInBounds]
    by_cases hi : i = slot
    · subst hi
      simp [hlt]
    · rw [if_neg (fun h => hi h.symm), if_neg hi]
  · next hle =>
    have hsize : (slots ++ Array.replicate (slot - slots.size) none).size = slot := by
      simp
      omega
    rw [Array.getElem?_push, hsize]
    split
    · rfl
    · rw [Array.getElem?_append]
      split
      · rfl
      · next hi =>
        rw [Array.getElem?_eq_none (Nat.le_of_not_lt hi), Array.getElem?_replicate]
        split <;> rfl

/-- A frame with another cell in a slot. -/
def ScriptFrame.declare (f : ScriptFrame) (slot : Nat) (cell : CellId) : ScriptFrame :=
  { f with locals := setSlot f.locals slot cell }

theorem ScriptFrame.cell?_declare (f : ScriptFrame) (slot i : Nat) (cell : CellId) :
    (f.declare slot cell).cell? i = if i = slot then some cell else f.cell? i :=
  getElem?_setSlot f.locals slot i cell

/-- A frame belongs to the same activation, and keeps the cells of some slots; its slots keep their names
unless none of them is spared. -/
structure ScriptFrame.Becomes (spared : Nat → Prop) (f f' : ScriptFrame) : Prop where
  closure : f'.closure = f.closure
  returnAddress : f'.returnAddress = f.returnAddress
  symbols : ∀ slot, spared slot → f'.symbols = f.symbols
  cells : ∀ slot cell, spared slot → f.cell? slot = some cell → f'.cell? slot = some cell

@[inherit_doc ScriptFrame.Becomes]
def Frame.Becomes (spared : Nat → Prop) : Frame → Frame → Prop
  | .script f, .script f' => f.Becomes spared f'
  | .host .., .host .. => True
  | _, _ => False

/-- The frames of a processor stay where they are. The topmost one keeps the cells of some slots, the
others keep all. -/
structure Processor.Stands (spared : Nat → Prop) (p p' : Processor) : Prop where
  size : p'.frames.size = p.frames.size
  frames : ∀ {height : Nat} {f : Frame}, p.frames[height]? = some f →
    ∃ f', p'.frames[height]? = some f' ∧
      f.Becomes (fun slot => height + 1 = p.frames.size → spared slot) f'

section Stands

variable {spared : Nat → Prop} {p p' p'' : Processor} {height : Nat}

theorem ScriptFrame.Becomes.trans {f f' f'' : ScriptFrame} (h : f.Becomes spared f')
    (h' : f'.Becomes spared f'') : f.Becomes spared f'' where
  closure := h'.closure.trans h.closure
  returnAddress := h'.returnAddress.trans h.returnAddress
  symbols slot hslot := (h'.symbols slot hslot).trans (h.symbols slot hslot)
  cells slot cell hslot hcell := h'.cells slot cell hslot (h.cells slot cell hslot hcell)

theorem ScriptFrame.Becomes.mono {spared' : Nat → Prop} {f f' : ScriptFrame} (h : f.Becomes spared f')
    (hspared : ∀ slot, spared' slot → spared slot) : f.Becomes spared' f' where
  closure := h.closure
  returnAddress := h.returnAddress
  symbols slot hslot := h.symbols slot (hspared slot hslot)
  cells slot cell hslot := h.cells slot cell (hspared slot hslot)

theorem Frame.Becomes.refl : ∀ f : Frame, f.Becomes spared f
  | .script _ => ⟨rfl, rfl, fun _ _ => rfl, fun _ _ _ => id⟩
  | .host .. => trivial

theorem Frame.Becomes.trans : ∀ {f f' f'' : Frame}, f.Becomes spared f' → f'.Becomes spared f'' →
    f.Becomes spared f''
  | .script _, .script _, .script _, h, h' => ScriptFrame.Becomes.trans h h'
  | .host .., .host .., .host .., _, _ => trivial

theorem Frame.Becomes.mono {spared' : Nat → Prop} (hspared : ∀ slot, spared' slot → spared slot) :
    ∀ {f f' : Frame}, f.Becomes spared f' → f.Becomes spared' f'
  | .script _, .script _, h => ScriptFrame.Becomes.mono h hspared
  | .host .., .host .., _ => trivial

namespace Processor.Stands

theorem of_eq (h : p'.frames = p.frames) : p.Stands spared p' :=
  ⟨congrArg Array.size h, fun {_ f} hf => ⟨f, h ▸ hf, .refl f⟩⟩

theorem trans (h₁ : p.Stands spared p') (h₂ : p'.Stands spared p'') : p.Stands spared p'' := by
  refine ⟨h₂.size.trans h₁.size, fun hf => ?_⟩
  obtain ⟨f', hf', hbecomes'⟩ := h₁.frames hf
  obtain ⟨f'', hf'', hbecomes''⟩ := h₂.frames hf'
  rw [h₁.size] at hbecomes''
  exact ⟨f'', hf'', hbecomes'.trans hbecomes''⟩

/-- The frame of an activation, afterwards. -/
theorem script (h : p.Stands spared p') {f : ScriptFrame}
    (hf : p.frames[height]? = some (.script f)) :
    ∃ f', p'.frames[height]? = some (.script f') ∧
      f.Becomes (fun slot => height + 1 = p.frames.size → spared slot) f' := by
  obtain ⟨f', hf', hbecomes⟩ := h.frames hf
  cases f' with
  | script f' => exact ⟨f', hf', hbecomes⟩
  | host => exact hbecomes.elim

/-- The topmost frame is changed, and belongs to the same activation. -/
theorem of_top {g : ScriptFrame → ScriptFrame}
    (hg : ∀ f, p.frames.back? = some (.script f) → f.Becomes spared (g f))
    (hframes : p'.frames = p.frames.modify (p.frames.size - 1) fun
      | .script f => .script (g f)
      | host => host) : p.Stands spared p' := by
  refine ⟨by rw [hframes, Array.size_modify], fun {height f} hf => ?_⟩
  rw [hframes, Array.getElem?_modify, hf]
  split
  · next htop =>
    have hlt := (Array.getElem?_eq_some_iff.1 hf).1
    refine ⟨_, rfl, ?_⟩
    cases f with
    | host => trivial
    | script f =>
      refine (hg f ?_).mono fun slot hslot => hslot (by omega)
      rw [Array.back?_eq_getElem?, htop]
      exact hf
  · exact ⟨f, rfl, .refl f⟩

end Processor.Stands

end Stands

/-! ## Worlds in which slots keep their cells -/

/-- Slots of the topmost frame that are not spared may have new cells. Otherwise nothing has happened to
frames, closures and coroutines. -/
structure World.Reworks (spared : Nat → Prop) (w w' : World) : Prop where
  active : w'.active = w.active
  scripts : w'.scripts.map Script.bare = w.scripts.map Script.bare
  closures : w'.heap.closures = w.heap.closures
  coroutines : w'.heap.coroutines = w.heap.coroutines
  cells : w.heap.cells.size ≤ w'.heap.cells.size
  ip : w'.processor.ip = w.processor.ip
  stands : w.processor.Stands spared w'.processor
  below : w.processor.Below w.heap.cells.size → w'.processor.Below w'.heap.cells.size

namespace World

variable {spared : Nat → Prop} {w w' w'' : World} {L : Placing} {H : List Execution}

/-- All slots keep their cells. -/
abbrev Steady (w w' : World) : Prop := w.Reworks (fun _ => True) w'

namespace Reworks

theorem trans (h₁ : w.Reworks spared w') (h₂ : w'.Reworks spared w'') : w.Reworks spared w'' where
  active := h₂.active.trans h₁.active
  scripts := h₂.scripts.trans h₁.scripts
  closures := h₂.closures.trans h₁.closures
  coroutines := h₂.coroutines.trans h₁.coroutines
  cells := Nat.le_trans h₁.cells h₂.cells
  ip := h₂.ip.trans h₁.ip
  stands := h₁.stands.trans h₂.stands
  below h := h₂.below (h₁.below h)

theorem mono {spared' : Nat → Prop} (h : w.Reworks spared w')
    (hspared : ∀ slot, spared' slot → spared slot) : w.Reworks spared' w' := by
  refine { h with stands := ⟨h.stands.size, fun {height f} hf => ?_⟩ }
  obtain ⟨f', hf', hbecomes⟩ := h.stands.frames hf
  exact ⟨f', hf', hbecomes.mono fun slot hslot htop => hspared slot (hslot htop)⟩

/-- Books and values have nothing to do with slots. -/
theorem of_eq (hactive : w'.active = w.active)
    (hscripts : w'.scripts.map Script.bare = w.scripts.map Script.bare)
    (hclosures : w'.heap.closures = w.heap.closures)
    (hcoroutines : w'.heap.coroutines = w.heap.coroutines)
    (hcells : w.heap.cells.size ≤ w'.heap.cells.size) (hip : w'.processor.ip = w.processor.ip)
    (hframes : w'.processor.frames = w.processor.frames) : w.Reworks spared w' :=
  { active := hactive, scripts := hscripts, closures := hclosures, coroutines := hcoroutines,
    cells := hcells, ip := hip, stands := .of_eq hframes,
    below := fun h => (h.mono hcells).of_subset fun _ hf => hframes ▸ hf }

theorem refl (w : World) : w.Reworks spared w := of_eq rfl rfl rfl rfl (Nat.le_refl _) rfl rfl

/-- Only the value stack has changed. -/
theorem of_values (w : World) (vs : Array Value) :
    w.Reworks spared { w with processor := { w.processor with values := vs } } :=
  of_eq rfl rfl rfl rfl (Nat.le_refl _) rfl rfl

theorem bare (h : w.Reworks spared w') {i : Nat} {s' : Script} (hs' : w'.scripts[i]? = some s') :
    ∃ s, w.scripts[i]? = some s ∧ s.bare = s'.bare := by
  have hget : (w.scripts.map Script.bare)[i]? = some s'.bare := by
    rw [← h.scripts, Array.getElem?_map, hs']
    rfl
  rw [Array.getElem?_map] at hget
  exact Option.map_eq_some_iff.1 hget

theorem later (h : w.Reworks spared w') : w.Later w' := by
  refine ⟨h.active, ?_, ?_, fun {i c} hc => ⟨c, h.coroutines ▸ hc, rfl⟩⟩
  · have hsize := congrArg Array.size h.scripts
    rwa [Array.size_map, Array.size_map] at hsize
  · intro i s s' hs hs'
    obtain ⟨s₀, hs₀, hbare⟩ := h.bare hs'
    obtain rfl := Option.some.inj (hs.symm.trans hs₀)
    have hcode : s.bare.code = s'.bare.code := congrArg Script.code hbare
    have hcode : s.code = s'.code := hcode
    exact hcode ▸ .refl _

theorem closed (h : w.Reworks spared w') (hw : w.Closed) : w'.Closed :=
  fun i c hc => h.later.hasHeader (hw i c (h.closures ▸ hc))

theorem precedes (h : w.Reworks spared w') : w.Precedes w' :=
  ⟨h.cells, fun hc => h.closures ▸ hc⟩

/-- What has happened before explains the world afterwards. -/
theorem explained (h : w.Reworks spared w') (hw : w.Explained L H) : w'.Explained L H := by
  refine hw.grow (fun _ => id) (hw.recorded.mono h.precedes) h.cells (fun c hc => .inl ?_)
    (fun c hc body hbody => .inl ⟨c, ?_, rfl, hbody⟩) (fun s hs => .inl ?_) (h.below hw.processor)
  · exact h.closures ▸ hc
  · exact h.coroutines ▸ hc
  · obtain ⟨i, hi⟩ := Array.getElem?_of_mem hs
    obtain ⟨s₀, hs₀, hbare⟩ := h.bare hi
    have hprocessor : s₀.bare.processor = s.bare.processor := congrArg Script.processor hbare
    exact ⟨s₀, Array.mem_of_getElem? hs₀, hprocessor⟩

end Reworks

theorem Aside.reworks (h : w.Aside w') : w.Reworks spared w' :=
  .of_eq h.active h.scripts h.closures h.coroutines (Nat.le_of_eq (congrArg Array.size h.cells.symm))
    (congrArg (·.ip) h.processor) (congrArg (·.frames) h.processor)

end World

/-! ## Steady computations -/

namespace Exec

variable {α β : Type} {spared : Nat → Prop} {w : World}

/-- A computation that does no more than to give new cells to slots that are not spared. -/
def Reworking (spared : Nat → Prop) (x : Exec α) : Prop :=
  ∀ w, x.Leads w (fun _ => w.Reworks spared) (w.Reworks spared)

/-- A computation that leaves all cells in their slots. -/
abbrev Steady (x : Exec α) : Prop := x.Reworking fun _ => True

theorem Reworking.bind {x : Exec α} {f : α → Exec β} (hx : x.Reworking spared)
    (hf : ∀ a, (f a).Reworking spared) : (x >>= f).Reworking spared :=
  fun w => (hx w).bind fun a w' hw' => (hf a w').mono (fun _ _ => hw'.trans) fun _ => hw'.trans

theorem Aside.reworking {x : Exec α} (hx : x.Aside) : x.Reworking spared :=
  fun w => (Leads.of_ends hx w).mono (fun _ _ => World.Aside.reworks) fun _ => World.Aside.reworks

theorem reworking_pure (a : α) : (pure a : Exec α).Reworking spared := (aside_pure a).reworking

theorem reworking_fail (f : Fault) : (fail f : Exec α).Reworking spared := (aside_fail f).reworking

theorem reworking_modify {f : World → World} (hf : ∀ w : World, w.Reworks spared (f w)) :
    (modify f : Exec Unit).Reworking spared :=
  fun w => .of_ok rfl (hf w)

/-- Nothing changes on the way to a value or a fault. -/
theorem reworking_of_same {x : Exec α} (hx : ∀ w, (∃ a, x w = .ok a w) ∨ ∃ s, x w = .error s w) :
    x.Reworking spared := by
  intro w
  rcases hx w with ⟨a, ha⟩ | ⟨s, hs⟩
  · exact .of_ok ha (.refl w)
  · constructor
    · intro a w' h
      rw [hs] at h
      cases h
    · intro e w' h
      rw [hs] at h
      cases h
      exact .refl w

/-! ### The value stack -/

theorem reworking_push (v : Value) : (push v).Reworking spared :=
  reworking_modify fun w => .of_values w _

theorem reworking_pushAll (vs : List Value) : (pushAll vs).Reworking spared := by
  induction vs with
  | nil => exact reworking_pure _
  | cons v rest ih => exact (reworking_push v).bind fun _ => ih

theorem reworking_setPeek (n : Nat) (v : Value) : (setPeek n v).Reworking spared :=
  reworking_modify fun w => .of_values w _

theorem reworking_truncate (height : Nat) : (truncate height).Reworking spared :=
  reworking_modify fun w => .of_values w _

theorem reworking_pop : pop.Reworking spared := by
  intro w
  unfold pop
  constructor
  · intro v w' h
    split at h
    · cases h
      exact .of_values w _
    · cases h
  · intro e w' h
    split at h
    · cases h
    · cases h
      exact .refl w

theorem reworking_popMany (n : Nat) : (popMany n).Reworking spared := by
  intro w
  unfold popMany
  constructor
  · intro v w' h
    dsimp only at h
    split at h
    · cases h
      exact .of_values w _
    · cases h
  · intro e w' h
    dsimp only at h
    split at h
    · cases h
    · cases h
      exact .refl w

theorem reworking_peek (n : Nat) : (peek n).Reworking spared := by
  refine reworking_of_same fun w => ?_
  unfold peek
  split
  · split
    · exact .inl ⟨_, rfl⟩
    · exact .inr ⟨_, rfl⟩
  · exact .inr ⟨_, rfl⟩

theorem reworking_topFrameOr (missing : Fault) : (topFrameOr missing).Reworking spared := by
  refine reworking_of_same fun w => ?_
  unfold topFrameOr
  split
  · exact .inl ⟨_, rfl⟩
  · exact .inr ⟨_, rfl⟩

theorem reworking_checkDepth : checkDepth.Reworking spared := by
  unfold checkDepth
  refine aside_processor.reworking.bind fun p => aside_script.reworking.bind fun s => ?_
  split
  · exact reworking_fail _
  · exact reworking_pure _

theorem reworking_called (argc : Nat) : (called argc).Reworking spared := by
  unfold called
  refine aside_processor.reworking.bind fun p => ?_
  have hrest : (do
      let args := Value.flatten (← popMany argc)
      let f ← pop
      safepoint
      resolveCallable f args : Exec (Value × List Value)).Reworking spared := by
    refine (reworking_popMany argc).bind fun args => reworking_pop.bind fun f => ?_
    exact aside_safepoint.reworking.bind fun _ => (aside_resolveCallable f _).reworking
  dsimp only
  split
  · exact (reworking_fail _).bind fun _ => hrest
  · exact hrest

theorem reworking_tableOnTop : tableOnTop.Reworking spared := by
  unfold tableOnTop
  refine (reworking_peek 0).bind fun v => ?_
  split
  · exact reworking_pure _
  · exact reworking_fail _

theorem reworking_storeItems (id : TableId) (i : Nat) (vs : List Value) :
    (storeItems id i vs).Reworking spared := by
  induction vs generalizing i with
  | nil => exact reworking_pure _
  | cons v rest ih => exact (aside_setIndex _ _ _).reworking.bind fun _ => ih _

theorem reworking_loopNumber (depth : Nat) (what : String) :
    (loopNumber depth what).Reworking spared := by
  unfold loopNumber
  refine (reworking_peek depth).bind fun v => ?_
  split
  · exact reworking_pure _
  · exact reworking_fail _

theorem reworking_loopState : loopState.Reworking spared :=
  (reworking_peek 2).bind fun _ => (reworking_peek 1).bind fun _ => (reworking_peek 0).bind fun _ =>
    reworking_pure _

theorem reworking_prepareIteration (triple : Value) : (prepareIteration triple).Reworking spared := by
  unfold prepareIteration
  refine (aside_metamethod? _ _).reworking.bind fun handler? => ?_
  split
  · exact (aside_newCallback _).reworking.bind fun _ => reworking_pushAll _
  · exact reworking_pushAll _

/-! ### Cells and slots -/

theorem reworking_newCell (v : Value) : (newCell v).Reworking spared := by
  refine fun w => .of_ok rfl (.of_eq rfl rfl rfl rfl ?_ rfl rfl)
  change w.heap.cells.size ≤ (w.heap.cells.push v).size
  rw [Array.size_push]
  exact Nat.le_succ _

theorem reworking_setCell (cell : CellId) (v : Value) :
    (modifyHeap (·.setCell cell v)).Reworking spared := by
  refine reworking_modify fun w => .of_eq rfl rfl rfl rfl ?_ rfl rfl
  change w.heap.cells.size ≤ (w.heap.cells.setIfInBounds cell.index v).size
  exact Nat.le_of_eq Array.size_setIfInBounds.symm

end Exec

/-- The world in which a slot of the topmost frame has been given a new cell. -/
def World.declare (w : World) (slot : Nat) (v : Value) : World :=
  { w with
    heap := w.heap.addCell v
    processor := { w.processor with
      frames := w.processor.frames.modify (w.processor.frames.size - 1) fun
        | .script f => .script (f.declare slot ⟨w.heap.cells.size⟩)
        | host => host } }

theorem back?_modify_top {α : Type} (as : Array α) (f : α → α) :
    (as.modify (as.size - 1) f).back? = as.back?.map f := by
  rw [Array.back?_eq_getElem?, Array.back?_eq_getElem?, Array.size_modify, Array.getElem?_modify,
    if_pos rfl]

/-- What is done to the topmost frame concerns that frame only. -/
theorem Processor.Below.modifyTop {p p' : Processor} {n n' : Nat} (h : p.Below n) (hn : n ≤ n')
    {g : ScriptFrame → ScriptFrame} (hg : ∀ f, f.Below n → (g f).Below n')
    (hframes : p'.frames = p.frames.modify (p.frames.size - 1) fun
      | .script f => .script (g f)
      | host => host) : p'.Below n' := by
  refine below_of_frames fun f hf => ?_
  rw [hframes] at hf
  obtain ⟨i, hi⟩ := Array.getElem?_of_mem hf
  rw [Array.getElem?_modify] at hi
  split at hi
  · obtain ⟨f₀, hf₀, heq⟩ := Option.map_eq_some_iff.1 hi
    cases f₀ with
    | script f₀ =>
      cases heq
      exact hg f₀ (h.frame (Array.mem_of_getElem? hf₀))
    | host => cases heq
  · exact (h.frame (Array.mem_of_getElem? hi)).mono hn

namespace World

variable {spared : Nat → Prop} {w : World} {slot : Nat}

theorem reworks_declare (v : Value) (hspared : ∀ f cell, w.processor.frames.back? = some (.script f) →
    spared slot → f.cell? slot ≠ some cell) : w.Reworks spared (w.declare slot v) := by
  have hcells : w.heap.cells.size ≤ (w.declare slot v).heap.cells.size := by
    change _ ≤ (w.heap.cells.push v).size
    rw [Array.size_push]
    exact Nat.le_succ _
  refine ⟨rfl, rfl, rfl, rfl, hcells, rfl, ?_, fun h => ?_⟩
  · refine .of_top (g := fun f => f.declare slot ⟨w.heap.cells.size⟩)
      (fun f hf => ⟨rfl, rfl, fun _ _ => rfl, fun i cell hi hcell => ?_⟩) rfl
    rw [ScriptFrame.cell?_declare]
    split
    · next hslot =>
      subst hslot
      exact absurd hcell (hspared f cell hf hi)
    · exact hcell
  · refine h.modifyTop (g := fun f => f.declare slot ⟨w.heap.cells.size⟩) hcells
      (fun f hf cell => ?_) rfl
    rintro (hclosure | ⟨i, hi⟩)
    · exact Nat.lt_of_lt_of_le (hf cell (.inl hclosure)) hcells
    · rw [ScriptFrame.cell?_declare] at hi
      split at hi
      · cases hi
        change w.heap.cells.size < (w.heap.cells.push v).size
        rw [Array.size_push]
        exact Nat.lt_succ_self _
      · exact Nat.lt_of_lt_of_le (hf cell (.inr ⟨i, hi⟩)) hcells

end World

namespace Exec

variable {spared : Nat → Prop} {w w' : World}

theorem topFrameOr_ok {missing : Fault} {f : ScriptFrame} (h : topFrameOr missing w = .ok f w') :
    w' = w ∧ w.processor.frames.back? = some (.script f) := by
  unfold topFrameOr at h
  split at h
  · next hf =>
    cases h
    exact ⟨rfl, hf⟩
  · cases h

/-- Something is done to the topmost frame, which belongs to the same activation. -/
theorem reworking_modifyTopFrame {g : ScriptFrame → ScriptFrame}
    (hg : ∀ f : ScriptFrame, f.Becomes spared (g f))
    (hcells : ∀ f slot cell, (g f).cell? slot = some cell → f.cell? slot = some cell) :
    (modifyTopFrame g).Reworking spared := by
  refine reworking_modify fun w => ⟨rfl, rfl, rfl, rfl, Nat.le_refl _, rfl, ?_, fun h => ?_⟩
  · exact .of_top (fun f _ => hg f) rfl
  · refine h.modifyTop (g := g) (Nat.le_refl _) (fun f hf cell => ?_) rfl
    rintro (hcell | ⟨slot, hcell⟩)
    · exact hf cell (.inl ((hg f).closure ▸ hcell))
    · exact hf cell (.inr ⟨slot, hcells f slot cell hcell⟩)

/-- A slot without a cell gets one. -/
theorem steady_localCell (missing : Fault) (slot : Nat) : (localCell missing slot).Steady := by
  intro w
  unfold localCell
  cases hf : topFrameOr missing w with
  | error s w' =>
    have hsame : (topFrameOr missing).Steady := reworking_topFrameOr missing
    constructor
    · intro a w'' h
      rw [bind_error hf] at h
      cases h
    · intro e w'' h
      rw [bind_error hf] at h
      cases h
      exact (hsame w).error hf
  | ok f w' =>
    obtain ⟨rfl, htop⟩ := topFrameOr_ok hf
    refine .ok_bind hf ?_
    split
    · exact .of_ok rfl (.refl _)
    · next hnone =>
      have hdeclared : w'.Steady (w'.declare slot .nil) → Leads (do
          let cell ← newCell .nil
          modifyTopFrame fun f => { f with locals := setSlot f.locals slot cell }
          return cell) w' (fun _ => w'.Steady) w'.Steady := fun h => .of_ok rfl h
      refine hdeclared (World.reworks_declare .nil fun f' cell hf' _ h => ?_)
      obtain rfl : f = f' := by
        cases htop.symm.trans hf'
        rfl
      cases hslot : f.locals[slot]? with
      | none =>
        rw [ScriptFrame.cell?, hslot] at h
        cases h
      | some cell? =>
        rw [ScriptFrame.cell?, hslot] at h
        exact hnone cell (hslot.trans (congrArg some h))

end Exec

end LuaMachine
