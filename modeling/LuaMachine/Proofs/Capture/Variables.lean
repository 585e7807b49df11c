import LuaMachine.Proofs.Capture.Reached
import LuaMachine.Proofs.Crossing.Regions

/-!
# Closures capture variables

A variable is what one execution of a declaration has bound. In an activation a name stands for the variable
of its latest visible declaration, as this was carried out last in the activation; if there is none, it
stands for what the closure of the activation holds (`World.Denotes`). A closure holds what the name stood
for in the activation that made it (`Closure.Holds`). So the variable may belong to an activation many
functions further out.

Wherever control comes in code from the compiler, frames and closures have the cells of the variables that
their names stand for, different variables have different cells, and whatever is declared is bound to a
cell that nothing refers to (`World.Hosted.variables_captured`).
-/

namespace LuaMachine

open Exec

/-! ## Cells of activations that live on -/

namespace World

variable {L : Placing} {v v' : World} {op : OpCode} {height : Nat}

theorem Carries.ops_eq (h : v.Carries op v') : v.ops v.processor.ip = some op := by
  obtain ⟨n, depth, i, v₁, hi, rfl, -⟩ := h
  exact ops_of_instruction hi

theorem Carries.steps (L : Placing) (h : v.Carries op v') :
    ∃ depth v₁, v.Aside v₁ ∧ v.Later v' ∧ v₁.Steps L depth op none v' := by
  obtain ⟨n, depth, i, v₁, hi, rfl, hheard, hstep⟩ := h
  have htelling := Reentry.telling_atDepth L n
  exact ⟨depth, v₁, (Reentry.aside_hear _ i).ok hheard,
    (Reentry.recounts_step htelling hi hheard hstep).later,
    (htelling.step (Reentry.calm_atDepth n) depth i).ok hstep⟩

/-- An activation that lives on when an instruction has been carried out has the cells that are spared. -/
theorem Carries.becomes (h : v.Carries op v') (hp : v'.Placed L) (hv : v.Closed) {f : ScriptFrame}
    (hf : v.processor.frames[height]? = some (.script f)) (hheight : height < v'.processor.frames.size) :
    ∃ f', v'.processor.frames[height]? = some (.script f') ∧
      f.Becomes (fun slot => height + 1 = v.processor.frames.size → op.Spares slot) f' := by
  obtain ⟨depth, v₁, haside, -, hsteps⟩ := h.steps L
  have hv₁ := (haside.reworks : v.Steady v₁).closed hv
  rw [← haside.processor] at hf ⊢
  have hsame : v'.processor.frames[height]? = v₁.processor.frames[height]? →
      ∃ f', v'.processor.frames[height]? = some (.script f') ∧
        f.Becomes (fun slot => height + 1 = v₁.processor.frames.size → op.Spares slot) f' :=
    fun heq => ⟨f, heq.trans hf, Frame.Becomes.refl (.script f)⟩
  cases hsteps with
  | proceeds hbound hclosure htells hnames hstands => exact (hstands hp.genuine hv₁).1.script hf
  | @declares w₁ hdeclares hordinary htarget =>
    obtain ⟨f', hf', hbecomes⟩ := hdeclares.reworks.stands.script hf
    exact ⟨f', hf', hbecomes.mono fun slot hspares htop => (hspares htop).1⟩
  | makes hop hprecedes hstands hmakes =>
    obtain ⟨f', hf', hbecomes⟩ := (hstands hp.genuine hv₁).script hf
    exact ⟨f', hf', hbecomes.mono fun _ _ _ => trivial⟩
  | enters hop hclosure howner hlocals hsymbols hreturn =>
    have hlt := (Array.getElem?_eq_some_iff.1 hf).1
    exact hsame ((Array.getElem?_push_lt hlt).trans (Array.getElem?_eq_getElem hlt).symm)
  | @leaves values x g vs hop hg hreturn hdepth =>
    have hlt : height < v₁.processor.frames.size - 1 := Array.size_pop ▸ hheight
    exact hsame (Array.getElem?_pop.trans (if_pos hlt))

/-- A closure is made without a change of the call stack. -/
theorem Carries.size_eq {entry : Nat} {captures : List Symbol}
    (h : v.Carries (.closure entry captures) v') (hp : v'.Placed L) (hv : v.Closed) :
    v'.processor.frames.size = v.processor.frames.size := by
  obtain ⟨depth, v₁, haside, -, hsteps⟩ := h.steps L
  have hv₁ := (haside.reworks : v.Steady v₁).closed hv
  rw [← haside.processor]
  cases hsteps with
  | makes hop hprecedes hstands hmakes => exact (hstands hp.genuine hv₁).size
  | proceeds hbound hclosure => exact absurd rfl (hclosure entry captures)
  | declares hdeclares hordinary => cases hordinary
  | enters hop | leaves hop => cases hop

/-- What a declaration binds has a new cell, each slot its own. -/
theorem Carries.binds (h : v.Carries op v') {slot : Nat} (hslot : slot ∈ op.bound) :
    ∃ f cell, v'.processor.frames.back? = some (.script f) ∧ f.cell? slot = some cell ∧
      v.heap.cells.size ≤ cell.index ∧ ∀ slot' ∈ op.bound, f.cell? slot' = some cell → slot' = slot := by
  obtain ⟨depth, v₁, haside, -, hsteps⟩ := h.steps fun _ _ => ⟨⟨[], []⟩, []⟩
  cases hsteps with
  | @declares w₁ hdeclares hordinary htarget =>
    obtain ⟨f, hf, hcells, hdistinct⟩ := hdeclares.binds
    obtain ⟨cell, hcell, hnew, -⟩ := hcells slot hslot
    exact ⟨f, cell, hf, hcell, haside.cells ▸ hnew, fun slot' hslot' hcell' =>
      hdistinct slot' hslot' slot hslot (hcell'.trans hcell.symm)⟩
  | proceeds hbound =>
    rw [hbound] at hslot
    cases hslot
  | makes hop | enters hop | leaves hop =>
    subst hop
    cases hslot

end World

section Lives

variable {L : Placing} {d : String × Nat} {height : Nat} {u v : World}

/-- While an activation lives on and a declaration is visible, its slot keeps its cell. -/
theorem Lives.cell {f : ScriptFrame} {cell : CellId} (h : Lives L d height u v)
    (hf : u.processor.frames[height]? = some (.script f)) (hcell : f.cell? d.2 = some cell) :
    ∃ f', v.processor.frames[height]? = some (.script f') ∧ f'.cell? d.2 = some cell := by
  induction h with
  | here => exact ⟨f, hf, hcell⟩
  | @carried v v' op _ hcarries hplaced hclosed hvisible hheight ih =>
    obtain ⟨f₁, hf₁, hcell₁⟩ := ih
    obtain ⟨depth, v₁, -, hlater, -⟩ := hcarries.steps L
    obtain ⟨f', hf', hbecomes⟩ := hcarries.becomes hplaced hclosed hf₁ hheight
    refine ⟨f', hf', hbecomes.cells d.2 cell (fun htop => ?_) hcell₁⟩
    exact ((hplaced.of_later hlater).suits hcarries.ops_eq).spares (hvisible htop.symm)
  | @suspended v _ y _ ih =>
    have hprocessor := ((Reentry.aside_hear _ _).ok y.heard).processor
    have hframes : y.after.advanced.processor.frames = v.processor.frames := by
      rw [called_world y.called, ← hprocessor]
      rfl
    rw [hframes]
    exact ih
  | resumed _ _ _ hpush ih =>
    cases hpush
    exact ih
  | cancelled _ hcancel ih =>
    rw [((aside_cancel _).ok hcancel).processor]
    exact ih

end Lives

/-! ## Variables -/

/-- A variable is what an execution of a declaration has bound to a slot of the activation at a height of
the call stack; or it is the environment that a function was loaded with. -/
inductive Variable where
  | declared (e : Execution) (height slot : Nat)
  | environment (c : Closure)

/-- The cell of a variable. -/
def Variable.HasCell : Variable → CellId → Prop
  | .declared e height slot, cell => e.Binds height slot cell
  | .environment c, cell => c.upvalue? 0 = some cell

/-- What a name stands for in the topmost activation: the variable of its latest visible declaration, as
this was carried out last in the activation; without one, what the closure of the activation holds. -/
def World.Denotes (L : Placing) (H : List Execution) (name : String)
    (holds : Closure → Variable → Prop) (v : World) (y : Variable) : Prop :=
  ∃ height f, v.processor.frames.size = height + 1 ∧ v.processor.frames[height]? = some (.script f) ∧
    match (L v.active v.processor.ip).visible.slot? name with
    | some slot => ∃ e ∈ H, (∃ cell, e.Binds height slot cell) ∧ Lives L (name, slot) height e.after v ∧
        y = .declared e height slot
    | none => holds f.closure y

/-- What a closure holds under a name: what the name stood for in the activation that made the closure; or
the environment that it was loaded with. -/
def Closure.Holds (L : Placing) (name : String) : List Execution → Closure → Variable → Prop
  | [], c, y => c.Loaded L ∧ name = envName ∧ y = .environment c
  | e :: H, c, y => e.Makes c ∧ e.before.Denotes L H name (Holds L name H) y ∨
      ¬e.Makes c ∧ Holds L name H c y

/-- What a name stands for in the topmost activation. -/
abbrev World.StandsFor (L : Placing) (H : List Execution) (v : World) (name : String) (y : Variable) :
    Prop :=
  v.Denotes L H name (Closure.Holds L name H) y

section Denotes

variable {L : Placing} {H : List Execution} {v w : World} {height : Nat} {f : ScriptFrame} {s : Symbol}
  {holds : Closure → Variable → Prop} {y : Variable} {c : Closure} {name : String}

/-- In an activation that is explained a name stands for something. -/
theorem ScriptFrame.Explained.exists_denotes (h : f.Explained L H v height v.processor.ip)
    (hheight : v.processor.frames.size = height + 1)
    (hf : v.processor.frames[height]? = some (.script f)) (hs : s.isVariable = true)
    (hnames : (L v.active v.processor.ip).Names s)
    (hholds : s.name ∈ (L f.closure.owner f.closure.entry).captured → ∃ y, holds f.closure y) :
    ∃ y, v.Denotes L H s.name holds y := by
  cases s with
  | «local» name slot =>
    have hslot : (L v.active v.processor.ip).visible.slot? name = some slot := hnames
    obtain ⟨cell, -, e, he, hbinds, hlives⟩ := h.locals _ (World.mem_visible_of_slot? hslot)
    refine ⟨.declared e height slot, height, f, hheight, hf, ?_⟩
    rw [Symbol.name, hslot]
    exact ⟨e, he, ⟨cell, hbinds⟩, hlives, rfl⟩
  | upvalue name i =>
    obtain ⟨hnone, hi⟩ := hnames
    obtain ⟨y, hy⟩ := hholds (by
      rw [h.owner, ← h.captured]
      exact List.mem_of_getElem? hi)
    refine ⟨y, height, f, hheight, hf, ?_⟩
    rw [Symbol.name, hnone]
    exact hy
  | global name env => cases hs
  | defaultEnv => cases hs

/-- In an activation that is explained the cell of a symbol is that of the variable that its name stands
for, if that is so for what the closure has captured. -/
theorem ScriptFrame.Explained.cellOf?_iff (h : f.Explained L H v height v.processor.ip)
    (hheight : v.processor.frames.size = height + 1)
    (hf : v.processor.frames[height]? = some (.script f)) (hs : s.isVariable = true)
    (hnames : (L v.active v.processor.ip).Names s) (hy : v.Denotes L H s.name holds y)
    (hholds : ∀ i, (L f.closure.owner f.closure.entry).captured[i]? = some s.name →
      holds f.closure y → ∀ cell, f.closure.upvalue? i = some cell ↔ y.HasCell cell) (cell : CellId) :
    v.cellOf? s = some cell ↔ y.HasCell cell := by
  obtain ⟨height', f', hheight', hf', hy⟩ := hy
  obtain rfl : height = height' := Nat.succ.inj (hheight.symm.trans hheight')
  rw [hf] at hf'
  cases hf'
  have hback : v.processor.frames.back? = some (.script f) := by
    rw [Array.back?_eq_getElem?, hheight]
    exact hf
  cases s with
  | «local» name slot =>
    have hslot : (L v.active v.processor.ip).visible.slot? name = some slot := hnames
    rw [Symbol.name, hslot] at hy
    obtain ⟨e, -, ⟨cell₀, hbinds⟩, hlives, rfl⟩ := hy
    have hbound := hbinds
    obtain ⟨-, -, f₀, hf₀, hcell₀⟩ := hbound
    obtain ⟨f₁, hf₁, hcell₁⟩ := hlives.cell hf₀ hcell₀
    rw [hf] at hf₁
    cases hf₁
    rw [World.cellOf?_local hback, hcell₁]
    exact ⟨fun heq => Option.some.inj heq ▸ hbinds, fun hbinds' => congrArg some (hbinds.unique hbinds')⟩
  | upvalue name i =>
    obtain ⟨hnone, hi⟩ := hnames
    rw [Symbol.name, hnone] at hy
    rw [World.cellOf?_upvalue hback]
    refine hholds i ?_ hy cell
    rw [h.owner, ← h.captured]
    exact hi
  | global name env => cases hs
  | defaultEnv => cases hs

/-- A capture of a function is a variable where the closure is made, and has its name. -/
theorem Execution.Sound.capture {e : Execution} (h : e.Sound L) (hmakes : e.Makes c) {i : Nat}
    (hi : (L c.owner c.entry).captured[i]? = some name) :
    ∃ s, s.name = name ∧ s.isVariable = true ∧ (L e.before.active e.before.processor.ip).Names s ∧
      c.upvalue? i = e.before.cellOf? s := by
  obtain ⟨entry, captures, hop⟩ := hmakes.1
  obtain ⟨hcaptured, -, hupvalue⟩ := h.makes hop hmakes
  have hsuits := h.suits
  rw [hop] at hsuits
  rw [hcaptured, List.getElem?_map] at hi
  obtain ⟨s, hs, rfl⟩ := Option.map_eq_some_iff.1 hi
  obtain ⟨hvariable, hnames⟩ := hsuits s (List.mem_of_getElem? hs)
  refine ⟨s, rfl, hvariable, hnames, ?_⟩
  rw [hupvalue, hs]
  rfl

/-- A closure holds something under each name that its function has captured. -/
theorem Recorded.exists_holds (h : Recorded L H w) (hc : c.Told L H)
    (hname : name ∈ (L c.owner c.entry).captured) : ∃ y, c.Holds L name H y := by
  induction h generalizing c with
  | nil =>
    obtain hloaded | ⟨e, he, -⟩ := hc
    · exact ⟨.environment c, hloaded, List.mem_singleton.1 (hloaded.2.subset hname), rfl⟩
    · cases he
  | @cons e H f height w h hheight hf hexplained hsound hw ih =>
    by_cases hmakes : e.Makes c
    · obtain ⟨i, hi⟩ := List.getElem?_of_mem hname
      obtain ⟨s, rfl, hs, hnames, -⟩ := hsound.capture hmakes hi
      obtain ⟨y, hy⟩ := hexplained.exists_denotes hheight hf hs hnames fun hmem =>
        ih hexplained.told hmem
      exact ⟨y, .inl ⟨hmakes, hy⟩⟩
    · have hold : c.Told L H := hc.imp_right fun ⟨e', he', hmakes'⟩ =>
        ⟨e', (List.mem_cons.1 he').resolve_left fun heq => hmakes (heq ▸ hmakes'), hmakes'⟩
      obtain ⟨y, hy⟩ := ih hold hname
      exact ⟨y, .inr ⟨hmakes, hy⟩⟩

/-- What a closure has captured under a name is the cell of the variable that it holds. -/
theorem Recorded.upvalue?_iff (h : Recorded L H w) {i : Nat}
    (hi : (L c.owner c.entry).captured[i]? = some name) (hy : c.Holds L name H y) (cell : CellId) :
    c.upvalue? i = some cell ↔ y.HasCell cell := by
  induction h generalizing c i cell with
  | nil =>
    obtain ⟨hloaded, -, rfl⟩ := hy
    obtain ⟨hlt, -⟩ := List.getElem?_eq_some_iff.1 (getElem?_mono hloaded.2 hi)
    obtain rfl : i = 0 := Nat.lt_one_iff.1 hlt
    exact Iff.rfl
  | @cons e H f height w h hheight hf hexplained hsound hw ih =>
    rcases hy with ⟨hmakes, hy⟩ | ⟨-, hy⟩
    · obtain ⟨s, rfl, hs, hnames, heq⟩ := hsound.capture hmakes hi
      rw [heq]
      exact hexplained.cellOf?_iff hheight hf hs hnames hy (fun i hi hy cell => ih hi hy cell) cell
    · exact ih hi hy cell

end Denotes

/-! ## Accesses -/

/-- The symbol that an operation loads or stores. -/
def OpCode.accessed? : OpCode → Option Symbol
  | load s | store s _ => some s
  | _ => none

/-- The variable that an access to a symbol goes to: the local or captured one that the symbol is, or that
its environment is. -/
def Symbol.root? : Symbol → Option Symbol
  | .local name slot => some (.local name slot)
  | .upvalue name i => some (.upvalue name i)
  | .global _ env => env.root?
  | .defaultEnv => none

theorem OpCode.Suits.names {op : OpCode} {p : Place} {s : Symbol} (h : op.Suits p)
    (hs : op.accessed? = some s) : p.Names s := by
  cases op with
  | load s | store s i =>
    cases hs
    exact h
  | _ => cases hs

theorem Place.Names.of_root? {p : Place} {s t : Symbol} (h : p.Names s) (ht : s.root? = some t) :
    t.isVariable = true ∧ p.Names t := by
  induction s with
  | «local» name slot | upvalue name i =>
    cases ht
    exact ⟨rfl, h⟩
  | global name env ih => exact ih h ht
  | defaultEnv => cases ht

/-- With the frames that there are a symbol is read from a cell and assigned to it. -/
def World.Accesses (v : World) (s : Symbol) (cell : CellId) : Prop :=
  ∀ (r : Reentry) (u : World), u.processor = v.processor →
    r.readSymbol s u = .ok (u.heap.cell cell) u ∧
      ∀ value, r.assignSymbol s value u = .ok () { u with heap := u.heap.setCell cell value.scalar }

/-- A local or captured variable of the topmost activation is accessed by its cell. -/
theorem World.accesses_of_cellOf? {v : World} {s : Symbol} {f : ScriptFrame} {cell : CellId}
    (hs : s.isVariable = true) (hf : v.processor.frames.back? = some (.script f))
    (h : v.cellOf? s = some cell) : v.Accesses s cell := by
  intro r u hu
  have hcell : u.cellOf? s = some cell := World.cellOf?_congr hu ▸ h
  cases s with
  | «local» name slot =>
    have hread : u.readCell (.local name slot) = u.heap.cell cell := by
      unfold World.readCell
      dsimp only
      rw [hcell]
    have hback : u.processor.frames.back? = some (.script f) := hu ▸ hf
    have hslot := (World.cellOf?_local hback name slot).symm.trans hcell
    have hlocal : localCell .noScriptFrame slot u = .ok cell u := by
      have htop : topFrameOr .noScriptFrame u = .ok f u := by
        unfold topFrameOr
        rw [hback]
      unfold localCell
      rw [bind_ok htop, Option.join_eq_some_iff.1 hslot]
      rfl
    exact ⟨congrArg (EStateM.Result.ok · u) hread, fun value => bind_ok hlocal⟩
  | upvalue name i =>
    have hread : u.readCell (.upvalue name i) = u.heap.cell cell := by
      unfold World.readCell
      dsimp only
      rw [hcell]
    refine ⟨congrArg (EStateM.Result.ok · u) hread, fun value => ?_⟩
    unfold Reentry.assignSymbol
    dsimp only
    rw [bind_ok (get_eq _), hcell]
    rfl
  | global name env => cases hs
  | defaultEnv => cases hs

/-! ## The variables of a world -/

/-- What a name may stand for: a variable that was declared, or the environment of a function that was
loaded. -/
def Variable.Told (L : Placing) (H : List Execution) (name : String) : Variable → Prop
  | .declared e height slot => e ∈ H ∧ ∃ cell, e.Binds height slot cell
  | .environment c => name = envName ∧ c.Loaded L

/-- Frames and closures have the cells of variables, as a history tells. -/
structure World.Variables (L : Placing) (H : List Execution) (v : World) : Prop where
  recorded : Recorded L H v
  /-- Each execution of a declaration has bound cells of its own. -/
  apart : ∀ {e e' : Execution} {height height' slot slot' : Nat} {cell : CellId}, e ∈ H → e' ∈ H →
    e.Binds height slot cell → e'.Binds height' slot' cell → e = e' ∧ height = height' ∧ slot = slot'
  /-- A closure has captured the cells of the variables that it holds. -/
  closures : ∀ c ∈ v.heap.closures, ∀ {i : Nat} {name : String}, c.upvalueNames[i]? = some name →
    (∃ y, c.Holds L name H y) ∧ ∀ {y}, c.Holds L name H y →
      y.Told L H name ∧ ∀ cell, c.upvalue? i = some cell ↔ y.HasCell cell
  /-- A closure shares its cells with the activation that made it, as long as this lives on and the
  declarations are visible. -/
  shared : ∀ {e : Execution} {entry : Nat} {captures : List Symbol} {c : Closure} {i : Nat}
    {name : String} {slot height : Nat}, e ∈ H → e.op = .closure entry captures → e.Makes c →
    captures[i]? = some (.local name slot) → e.before.processor.frames.size = height + 1 →
    Lives L (name, slot) height e.after v →
      ∃ f cell, v.processor.frames[height]? = some (.script f) ∧ f.cell? slot = some cell ∧
        c.upvalue? i = some cell
  /-- What is loaded or stored goes by the cell of the variable that the name stands for. -/
  accesses : ∀ {op : OpCode} {s t : Symbol}, v.ops v.processor.ip = some op → op.accessed? = some s →
    s.root? = some t → (∃ y, v.StandsFor L H t.name y) ∧ ∀ {y}, v.StandsFor L H t.name y →
      y.Told L H t.name ∧ ∀ cell, (v.cellOf? t = some cell ↔ y.HasCell cell) ∧ (y.HasCell cell → v.Accesses t cell)

section Variables

variable {L : Placing} {H : List Execution} {v w : World} {c : Closure} {name : String} {y : Variable}
  {cell : CellId}

theorem Variable.Told.mono {H' : List Execution} (h : y.Told L H name) (hH : H ⊆ H') :
    y.Told L H' name := by
  cases y with
  | declared e height slot => exact ⟨hH h.1, h.2⟩
  | environment c => exact h

theorem World.StandsFor.told (h : v.StandsFor L H name y)
    (hholds : ∀ c : Closure, c.Holds L name H y → y.Told L H name) : y.Told L H name := by
  obtain ⟨height, f, -, -, hy⟩ := h
  cases hslot : (L v.active v.processor.ip).visible.slot? name with
  | some slot =>
    rw [hslot] at hy
    obtain ⟨e, he, hbinds, -, rfl⟩ := hy
    exact ⟨he, hbinds⟩
  | none =>
    rw [hslot] at hy
    exact hholds f.closure hy

theorem Closure.Holds.told (h : c.Holds L name H y) : y.Told L H name := by
  induction H generalizing c with
  | nil =>
    obtain ⟨hloaded, hname, rfl⟩ := h
    exact ⟨hname, hloaded⟩
  | cons e H ih =>
    refine Variable.Told.mono ?_ (List.subset_cons_self e H)
    rcases h with ⟨-, hy⟩ | ⟨-, hy⟩
    · exact World.StandsFor.told hy fun c => ih
    · exact ih hy

/-- The activation in which an instruction of the history was carried out. -/
theorem Recorded.exists_explained (h : Recorded L H w) {e : Execution} (he : e ∈ H) :
    ∃ H' height f, e.before.processor.frames.size = height + 1 ∧
      e.before.processor.frames[height]? = some (.script f) ∧
      f.Explained L H' e.before height e.before.processor.ip := by
  induction h with
  | nil => cases he
  | @cons latest H f height w _ hheight hf hexplained _ _ ih =>
    rcases List.mem_cons.1 he with rfl | hold
    · exact ⟨H, height, f, hheight, hf, hexplained⟩
    · exact ih hold

/-- A closure shares its cells with the activation that made it. -/
theorem Recorded.shared (h : Recorded L H w) {e : Execution} {entry : Nat} {captures : List Symbol}
    {i slot height : Nat} (he : e ∈ H) (hop : e.op = .closure entry captures) (hmakes : e.Makes c)
    (hi : captures[i]? = some (.local name slot)) (hheight : e.before.processor.frames.size = height + 1)
    (hlives : Lives L (name, slot) height e.after v) :
    ∃ f cell, v.processor.frames[height]? = some (.script f) ∧ f.cell? slot = some cell ∧
      c.upvalue? i = some cell := by
  have hsound := h.sound e he
  obtain ⟨H', height', f, hheight', hf, hexplained⟩ := h.exists_explained he
  obtain rfl : height = height' := Nat.succ.inj (hheight.symm.trans hheight')
  have hback : e.before.processor.frames.back? = some (.script f) := by
    rw [Array.back?_eq_getElem?, hheight]
    exact hf
  have hsuits := hsound.suits
  rw [hop] at hsuits
  have hvisible := World.mem_visible_of_slot? (hsuits _ (List.mem_of_getElem? hi)).2
  obtain ⟨cell, hcell, -⟩ := hexplained.locals _ hvisible
  have hupvalue : c.upvalue? i = some cell := by
    rw [(hsound.makes hop hmakes).2.2 i, hi]
    exact (World.cellOf?_local hback name slot).trans hcell
  have hsize := (hop ▸ e.carries).size_eq hsound.placed hsound.closed
  obtain ⟨f₁, hf₁, hbecomes⟩ := e.carries.becomes hsound.placed hsound.closed hf (by omega)
  have hcell₁ := hbecomes.cells slot cell (fun _ => hop ▸ ⟨List.not_mem_nil, nofun⟩) hcell
  obtain ⟨f', hf', hcell'⟩ := hlives.cell hf₁ hcell₁
  exact ⟨f', cell, hf', hcell', hupvalue⟩

/-- Nothing refers to a cell that is not there. -/
theorem World.Explained.not_refers (h : w.Explained L H) (hcell : w.heap.cells.size ≤ cell.index) :
    ¬w.Refers cell := by
  refine fun hrefers => absurd ?_ (Nat.not_lt_of_le hcell)
  cases hrefers with
  | closure hc hrefers => exact (h.closures _ hc).2 cell hrefers
  | suspended hc hbody hrefers => exact (h.coroutines _ hc _ hbody).1 cell hrefers
  | idle hs hrefers => exact h.scripts _ hs cell hrefers
  | running hrefers => exact h.processor cell hrefers

/-- The variables of a world that has a history. -/
theorem World.Explained.hasVariables {depth : Nat} (hH : v.Explained L H) (hp : v.Placed L)
    (hlexical : v.Lexical L H depth)
    (hframes : ∀ {op s}, v.ops v.processor.ip = some op → op.accessed? = some s →
      0 < v.processor.frames.size) : v.Variables L H := by
  refine ⟨hH.recorded, hH.recorded.binds_unique, fun c hc {i name} hi => ?_, hH.recorded.shared, ?_⟩
  · have htold := (hH.closures c hc).1
    have hcaptured := getElem?_mono (htold.names hH.recorded.sound) hi
    exact ⟨hH.recorded.exists_holds htold (List.mem_of_getElem? hcaptured), fun hy =>
      ⟨hy.told, hH.recorded.upvalue?_iff hcaptured hy⟩⟩
  · intro op s t hop hs ht
    obtain ⟨hvariable, hnames⟩ := ((hp.suits hop).names hs).of_root? ht
    have hne := hframes hop hs
    obtain ⟨height, f, -, hheight, hf, hback, hexplained⟩ := hlexical.top hne
    refine ⟨hexplained.exists_denotes hheight hf hvariable hnames
      (hH.recorded.exists_holds hexplained.told), fun hy => ⟨hy.told fun c => Closure.Holds.told, ?_⟩⟩
    intro cell
    have hcell := hexplained.cellOf?_iff hheight hf hvariable hnames hy
      (fun i hi hy => hH.recorded.upvalue?_iff hi hy) cell
    exact ⟨hcell, fun hy => World.accesses_of_cellOf? hvariable hback (hcell.2 hy)⟩

end Variables

/-! ## A text that is run -/

namespace World.Hosted

variable {w v : World}

/-- What the compiler makes of the only text of a world is noted with the scopes that it had there. -/
theorem noted_of_arrives {source : String} {body : Block} (h : Arrives source body w v) :
    v.Noted fun _ x => ((Course.chunk body).notes (.start true)).getD x default := by
  obtain ⟨i, w₀, s₀, x, hcreate, hs₀, -, hparse, hload⟩ := h.loads
  refine code_of_sizes (code_compile (code_createScript (fun _ _ hs => by cases hs) (fun _ => .empty)
    hcreate) (fun s chunk segment hs hcompile => ?_) hload) h.later h.sizes
  have hempty : s.code = {} := code_createScript (P := fun _ c => c = {}) (fun _ _ hs => by cases hs)
    (fun _ => rfl) hcreate _ s hs
  rw [hempty] at hcompile
  obtain rfl := Option.some.inj (hs₀.symm.trans hs)
  refine .compile .empty rfl hparse hcompile fun i scopes hi => ?_
  change ((Course.chunk body).notes (.start true)).getD (0 + i) default = scopes
  rw [Nat.zero_add, List.getD_eq_getElem?_getD, hi]
  rfl

theorem active_of_arrives {source : String} {body : Block} (h : Arrives source body w v) :
    w.active.index < w.scripts.size := by
  obtain ⟨i, w₀, s, x, -, hs, -, -, hload⟩ := h.loads
  have hloaded : w₀.Later w :=
    (((Script.Provides.loadFunction _ none none).sifting (P := True) w₀).ok hload).1.later
  rw [hloaded.active, hloaded.size]
  exact (Array.getElem?_eq_some_iff.1 hs).1

end World.Hosted

/-! ## Wherever control comes -/

namespace World.Hosted

variable {S : Noting} {n m depth fuel : Nat} {q : Request} {w v : World}

/-- Where something is loaded or stored there is an activation. -/
theorem frames_pos (hw : w.Hosted) (h : Comes n (.request q) w m (.loop depth fuel) v) (hg : v.Genuine)
    {op : OpCode} {s : Symbol} (hop : v.ops v.processor.ip = some op) (hs : op.accessed? = some s) :
    0 < v.processor.frames.size := by
  have hg₀ := h.inherits.genuine hg
  have hsane := hw.sane hg₀
  obtain ⟨bottom, -, hrunning | hadrift⟩ := h.fits hg hsane.closed (hsane.resumable hg₀) trivial
  · exact Nat.lt_of_le_of_lt (Nat.zero_le _) hrunning.size_lt
  · rcases hadrift.begins hg hop with ⟨name, kind, k, rfl⟩ | ⟨locals, rfl⟩ <;> cases hs

/-- Closures capture variables, not values. Wherever control comes to an instruction while a request of a
host is in progress, in code that comes from the compiler, there is a history which tells what variables
names stand for, and closures and frames have their cells (`World.Variables`). If the instruction declares
variables, then each is bound to a cell of its own that is new: no closure and no frame refers to it in any
world that control has come through. -/
theorem variables_captured (hw : w.Hosted) (hactive : w.active.index < w.scripts.size)
    (h : Comes n (.request q) w m (.loop depth fuel) v) (hS : v.Noted S) :
    ∃ L H, v.Placed L ∧ v.Charted S L ∧ v.Variables L H ∧
      ∀ {op : OpCode} {v' : World} {slot : Nat}, v.Carries op v' → slot ∈ op.bound →
        ∃ f cell, v'.processor.frames.back? = some (.script f) ∧ f.cell? slot = some cell ∧
          (∀ slot' ∈ op.bound, f.cell? slot' = some cell → slot' = slot) ∧
          v.heap.cells.size ≤ cell.index ∧
          ∀ {k : Nat} {spot : Spot} {u : World}, Comes n (.request q) w k spot u →
            Comes k spot u m (.loop depth fuel) v → ¬u.Refers cell := by
  obtain ⟨L, hp, hcharted⟩ := hS.exists_placed
  have hp₀ := h.placed hp
  obtain ⟨H₀, hH₀⟩ := hw.explained hp₀
  have hclosed := (hw.sane hp₀.genuine).closed
  have hlive : w.Live := ⟨hw.resting.orderly.1, hactive⟩
  obtain ⟨H, hH, hlexical⟩ := h.explained hp hclosed hlive hH₀ trivial
  refine ⟨L, H, hp, hcharted, hH.hasVariables hp hlexical (hw.frames_pos h hp.genuine), ?_⟩
  intro op v' slot hcarries hslot
  obtain ⟨f, cell, hf, hcell, hnew, hdistinct⟩ := hcarries.binds hslot
  refine ⟨f, cell, hf, hcell, hdistinct, hnew, fun hfirst hrest => ?_⟩
  obtain ⟨H', hH', -⟩ := hfirst.explained (hrest.placed hp) hclosed hlive hH₀ trivial
  exact hH'.not_refers (Nat.le_trans hrest.cells_le hnew)

/-- A counter, two functions further in than its variable: when it is called, the variable's own activation
is over, and it is assigned to by its cell. -/
theorem variables_captured_counter : ∃ (S : Noting) (w v : World) (q : Request) (fuel : Nat),
    w.Hosted ∧ w.active.index < w.scripts.size ∧ Comes 1 (.request q) w 1 (.loop 0 fuel) v ∧
      v.Noted S ∧ (∃ op, v.ops v.processor.ip = some op ∧ op.accessed? = some (.upvalue "t" 0)) ∧
      ∃ L H e height slot cell, v.StandsFor L H "t" (.declared e height slot) ∧
        e.Binds height slot cell ∧ v.Accesses (.upvalue "t" 0) cell := by
  have hcheck : comesTo "local function g() local t = 1 return function() return function()
      t = t + 1 return t end end end return g()()()" [] 39
      (fun _ v => (v.ops v.processor.ip).bind OpCode.accessed? == some (.upvalue "t" 0)) = true := by
    decide +kernel
  obtain ⟨w, v, q, fuel, body, harrives, hcomes, htest⟩ := exists_of_comesTo (by decide) hcheck
  have hw := harrives.hosted
  have hactive := active_of_arrives harrives
  have hnoted := noted_of_arrives harrives
  obtain ⟨op, hop, hs⟩ := Option.bind_eq_some_iff.1 (beq_iff_eq.1 htest)
  obtain ⟨L, H, -, -, hvariables, -⟩ := variables_captured hw hactive hcomes hnoted
  obtain ⟨⟨y, hy⟩, haccesses⟩ := hvariables.accesses hop hs rfl
  obtain ⟨htold, hcells⟩ := haccesses hy
  cases y with
  | environment c => exact absurd htold.1 (by decide)
  | declared e height slot =>
    obtain ⟨cell, hbinds⟩ := htold.2
    exact ⟨_, w, v, q, fuel, hw, hactive, hcomes, hnoted, ⟨op, hop, hs⟩, L, H, e, height, slot, cell, hy,
      hbinds, (hcells cell).2 hbinds⟩

end World.Hosted

end LuaMachine
