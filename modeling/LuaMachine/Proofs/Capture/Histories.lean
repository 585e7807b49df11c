import LuaMachine.Proofs.Capture.Statements
import LuaMachine.Proofs.Coroutine.Conversation

/-!
# Histories of variables

Cells have no names, and nothing in a world tells by which declaration a cell was bound. That is told by
the history of the world: the instructions that were carried out before and that declared variables or
made closures (`Execution`), latest first. An activation lives on from one instruction to the next, while
functions that it has called are running, and over suspensions (`Lives`).

A frame is explained by a history if each of its visible declarations has the cell that the latest
execution of the declaration in this activation bound, and if its closure was made by an instruction in
the history, or loaded (`ScriptFrame.Explained`). The frames in which the instructions of the history
were carried out are themselves explained by what came before (`Recorded`).
-/

namespace LuaMachine

open Exec

/-! ## Places in all scripts -/

/-- Places for the addresses of all scripts. -/
abbrev Placing := ScriptId → Nat → Place

/-- All code is genuine and has the given places. -/
structure World.Placed (L : Placing) (w : World) : Prop where
  genuine : w.Genuine
  scoping : ∀ (i : Nat) (s : Script), w.scripts[i]? = some s → s.code.Scoping (L ⟨i⟩)

/-- Scopes for the addresses of all scripts. -/
abbrev Noting := ScriptId → Nat → ScopeStack

/-- All code comes from the compiler, which had the given scopes when it made the instructions. -/
def World.Noted (S : Noting) (w : World) : Prop :=
  ∀ (i : Nat) (s : Script), w.scripts[i]? = some s → s.code.Noted (S ⟨i⟩)

/-- The places of instructions are what scopes stand for. -/
def World.Charted (S : Noting) (L : Placing) (w : World) : Prop :=
  ∀ (i : Nat) (s : Script), w.scripts[i]? = some s →
    ∀ {x op}, s.code.ops x = some op → (L ⟨i⟩ x).Means (S ⟨i⟩ x)

theorem World.Noted.compiled {S : Noting} {w : World} (h : w.Noted S) : w.Compiled :=
  fun i s hs => (h i s hs).compiled

/-- Code that comes from the compiler can be given the places that its scopes stand for. -/
theorem World.Noted.exists_placed {S : Noting} {w : World} (h : w.Noted S) :
    ∃ L, w.Placed L ∧ w.Charted S L := by
  have hall : ∀ id : ScriptId, ∃ label, ∀ s : Script, w.scripts[id.index]? = some s →
      s.code.Scoping label ∧ ∀ {x op}, s.code.ops x = some op → (label x).Means (S id x) := by
    intro id
    by_cases hs : ∃ s, w.scripts[id.index]? = some s
    · obtain ⟨s, hs⟩ := hs
      obtain ⟨label, hlabel, hmeans⟩ := (h _ s hs).exists_scoping
      refine ⟨label, fun s' hs' => ?_⟩
      obtain rfl := Option.some.inj (hs.symm.trans hs')
      exact ⟨hlabel, hmeans⟩
    · exact ⟨fun _ => ⟨⟨[], []⟩, []⟩, fun s hs' => absurd ⟨s, hs'⟩ hs⟩
  choose L hL using hall
  exact ⟨L, ⟨h.compiled.genuine, fun i s hs => (hL ⟨i⟩ s hs).1⟩, fun i s hs => (hL ⟨i⟩ s hs).2⟩

/-- The place of an instruction of the running script. -/
theorem World.Charted.means {S : Noting} {L : Placing} {w : World} {x : Nat} {op : OpCode}
    (h : w.Charted S L) (hop : w.ops x = some op) : (L w.active x).Means (S w.active x) := by
  obtain ⟨s, hs, hops⟩ := exists_script_of_ops hop
  exact h _ s hs (hops ▸ hop)

namespace World.Placed

variable {L : Placing} {w w' : World} {x : Nat} {op : OpCode}

/-- Code that has grown has the places that it had before. -/
theorem of_later (h : w'.Placed L) (hl : w.Later w') : w.Placed L := by
  refine ⟨hl.genuine h.genuine, fun i s hs => ?_⟩
  obtain ⟨s', hs'⟩ := hl.after hs
  exact (h.scoping i s' hs').of_grows (hl.code hs hs')

/-- Instructions of the running script suit their places. -/
theorem suits (h : w.Placed L) (hop : w.ops x = some op) : op.Suits (L w.active x) := by
  obtain ⟨s, hs, hops⟩ := exists_script_of_ops hop
  exact (h.scoping _ s hs).suits (hops ▸ hop)

/-- Instructions of the running script lead to places that agree with what they declare. -/
theorem passes (h : w.Placed L) (hop : w.ops x = some op) {y : Nat} (hy : y ∈ op.targets x) :
    op.Passes (L w.active x) (L w.active y) := by
  obtain ⟨s, hs, hops⟩ := exists_script_of_ops hop
  exact (h.scoping _ s hs).passes (hops ▸ hop) y hy

/-- The place where a function begins tells what it has captured. -/
theorem closures (h : w.Placed L) {entry : Nat} {captures : List Symbol}
    (hop : w.ops x = some (.closure entry captures)) :
    (L w.active entry).captured = captures.map Symbol.name := by
  obtain ⟨s, hs, hops⟩ := exists_script_of_ops hop
  exact (h.scoping _ s hs).closures (hops ▸ hop)

/-- Functions begin without declarations, and before they have named their slots. -/
theorem entry (h : w.Placed L) {c : Closure} (hc : w.HasHeader c)
    (howner : c.owner.index < w.scripts.size) :
    (L c.owner c.entry).visible = [] ∧ (L c.owner c.entry).slots = [] := by
  have hs := Array.getElem?_eq_getElem howner
  obtain ⟨name, kind, n, hheader⟩ := hc _ hs
  exact (h.scoping _ _ hs).suits hheader

end World.Placed

/-! ## Cells that are referred to -/

/-- The cell of a slot, if it has been declared. -/
def ScriptFrame.cell? (f : ScriptFrame) (slot : Nat) : Option CellId := f.locals[slot]?.join

/-- A closure has captured a cell. -/
def Closure.Refers (c : Closure) (cell : CellId) : Prop := ∃ i, c.upvalue? i = some cell

/-- A frame has a cell in one of its slots, or its closure has captured it. -/
def ScriptFrame.Refers (f : ScriptFrame) (cell : CellId) : Prop :=
  f.closure.Refers cell ∨ ∃ slot, f.cell? slot = some cell

/-- One of the frames on a processor refers to a cell. -/
def Processor.Refers (p : Processor) (cell : CellId) : Prop :=
  ∃ f, Frame.script f ∈ p.frames ∧ f.Refers cell

/-- Something refers to a cell: a closure, or a frame on a processor that is running, suspended or
idle. -/
inductive World.Refers (w : World) (cell : CellId) : Prop where
  | closure {c : Closure} (hc : c ∈ w.heap.closures) (h : c.Refers cell)
  | suspended {c : Coroutine} {body : CoroutineBody} (hc : c ∈ w.heap.coroutines)
    (hbody : c.body = some body) (h : body.processor.Refers cell)
  | idle {s : Script} (hs : s ∈ w.scripts) (h : s.processor.Refers cell)
  | running (h : w.processor.Refers cell)

/-- Only the first `n` cells are referred to. -/
def Closure.Below (n : Nat) (c : Closure) : Prop := ∀ cell, c.Refers cell → cell.index < n

@[inherit_doc Closure.Below]
def ScriptFrame.Below (n : Nat) (f : ScriptFrame) : Prop := ∀ cell, f.Refers cell → cell.index < n

@[inherit_doc Closure.Below]
def Processor.Below (n : Nat) (p : Processor) : Prop := ∀ cell, p.Refers cell → cell.index < n

section Below

variable {n n' : Nat} {c : Closure} {f : ScriptFrame} {p p' : Processor}

theorem Closure.Below.mono (h : c.Below n) (hn : n ≤ n') : c.Below n' :=
  fun cell hcell => Nat.lt_of_lt_of_le (h cell hcell) hn

theorem ScriptFrame.Below.mono (h : f.Below n) (hn : n ≤ n') : f.Below n' :=
  fun cell hcell => Nat.lt_of_lt_of_le (h cell hcell) hn

theorem Processor.Below.mono (h : p.Below n) (hn : n ≤ n') : p.Below n' :=
  fun cell hcell => Nat.lt_of_lt_of_le (h cell hcell) hn

theorem Processor.Below.frame (h : p.Below n) (hf : Frame.script f ∈ p.frames) : f.Below n :=
  fun cell hcell => h cell ⟨f, hf, hcell⟩

theorem Processor.below_of_frames (h : ∀ f, Frame.script f ∈ p.frames → f.Below n) : p.Below n := by
  rintro cell ⟨f, hf, hcell⟩
  exact h f hf cell hcell

/-- Only frames refer to cells. -/
theorem Processor.Below.of_subset (h : p.Below n)
    (hframes : ∀ f, Frame.script f ∈ p'.frames → Frame.script f ∈ p.frames) : p'.Below n :=
  below_of_frames fun f hf => h.frame (hframes f hf)

theorem Processor.below_of_empty (h : p.frames = #[]) : p.Below n := by
  refine below_of_frames fun f hf => ?_
  rw [h] at hf
  exact absurd hf (Array.not_mem_empty _)

end Below

/-! ## What was carried out -/

/-- The heap has only grown: no cell has gone, and closures are what they were. -/
structure World.Precedes (w w' : World) : Prop where
  cells : w.heap.cells.size ≤ w'.heap.cells.size
  closures : ∀ {i : Nat} {c : Closure}, w.heap.closures[i]? = some c → w'.heap.closures[i]? = some c

theorem World.Precedes.refl (w : World) : w.Precedes w := ⟨Nat.le_refl _, id⟩

theorem World.Precedes.trans {w w' w'' : World} (h₁ : w.Precedes w') (h₂ : w'.Precedes w'') :
    w.Precedes w'' :=
  ⟨Nat.le_trans h₁.cells h₂.cells, fun h => h₂.closures (h₁.closures h)⟩

/-- A loop carries out an operation and goes on with the next instruction. -/
def World.Carries (v : World) (op : OpCode) (v' : World) : Prop :=
  ∃ (n depth : Nat) (i : Instruction) (v₁ : World),
    (v.scripts.getD v.active.index default).code.instruction? v.processor.ip = some i ∧ i.op = op ∧
      Reentry.hear (v.scripts.getD v.active.index default) i v = .ok () v₁ ∧
      (Reentry.atDepth n).step depth i v₁ = .ok none v'

/-- An operation that was carried out. -/
structure Execution where
  before : World
  op : OpCode
  after : World
  carries : before.Carries op after

namespace Execution

variable (e : Execution)

/-- A slot of the frame at a height of the call stack is bound to a cell. -/
def Binds (height slot : Nat) (cell : CellId) : Prop :=
  slot ∈ e.op.bound ∧ e.before.processor.frames.size = height + 1 ∧
    ∃ f, e.after.processor.frames[height]? = some (.script f) ∧ f.cell? slot = some cell

/-- A closure is made. -/
def Makes (c : Closure) : Prop :=
  (∃ entry captures, e.op = .closure entry captures) ∧
    e.after.heap.closures[e.before.heap.closures.size]? = some c

/-- What an operation that declares variables or makes a closure does: variables are bound to new cells,
each to its own, and a closure captures the cells of its variables. -/
structure Sound (L : Placing) : Prop where
  placed : e.after.Placed L
  closed : e.before.Closed
  precedes : e.before.Precedes e.after
  suits : e.op.Suits (L e.before.active e.before.processor.ip)
  new : ∀ {height slot : Nat} {cell : CellId}, e.Binds height slot cell →
    e.before.heap.cells.size ≤ cell.index ∧ cell.index < e.after.heap.cells.size
  distinct : ∀ {height slot slot' : Nat} {cell : CellId}, e.Binds height slot cell →
    e.Binds height slot' cell → slot = slot'
  makes : ∀ {entry : Nat} {captures : List Symbol} {c : Closure}, e.op = .closure entry captures →
    e.Makes c → (L c.owner c.entry).captured = captures.map Symbol.name ∧
      c.upvalueNames = captures.map Symbol.name ∧
      ∀ i, c.upvalue? i = captures[i]?.bind e.before.cellOf?

end Execution

/-- The activation at a height of the call stack lives on from one world to another one, and a declaration,
which consists of a name and a slot, is visible wherever it carries out an instruction of its own. So none
of these instructions declares the slot again. -/
inductive Lives (L : Placing) (d : String × Nat) (height : Nat) (u : World) : World → Prop where
  | here : Lives L d height u u
  | carried {v v' : World} {op : OpCode} (h : Lives L d height u v) (hcarries : v.Carries op v')
    (hplaced : v'.Placed L) (hclosed : v.Closed)
    (hvisible : v.processor.frames.size = height + 1 → d ∈ (L v.active v.processor.ip).visible)
    (hheight : height < v'.processor.frames.size) : Lives L d height u v'
  | suspended {v : World} (h : Lives L d height u v) (y : v.YieldPoint)
    (hvisible : v.processor.frames.size = height + 1 → d ∈ (L v.active v.processor.ip).visible) :
    Lives L d height u y.after.advanced
  | resumed {z w s : World} {id : CoroutineId} {c : Coroutine} {args : List Value}
    (h : Lives L d height u z) (hc : w.MayResume id c)
    (hbody : c.body = some { processor := z.processor, function := none })
    (hpush : push (.ofList (Value.flatten args)) (w.nested.resuming id z.processor) = .ok () s) :
    Lives L d height u s
  | cancelled {v v' : World} {token : Nat} (h : Lives L d height u v)
    (hcancel : Exec.cancel token v = .ok () v') : Lives L d height u v'

/-- A declaration has been carried out by the activation at a height of the call stack, and has been visible
since. The cell is the one that was bound then. -/
def Bound (L : Placing) (H : List Execution) (v : World) (height : Nat) (d : String × Nat)
    (cell : CellId) : Prop :=
  ∃ e ∈ H, e.Binds height d.2 cell ∧ Lives L d height e.after v

/-- A function that has captured nothing but, perhaps, its environment. -/
def Closure.Loaded (L : Placing) (c : Closure) : Prop :=
  c.upvalueNames <+: (L c.owner c.entry).captured ∧ (L c.owner c.entry).captured <+: [envName]

/-- A closure was loaded, or an instruction has made it. -/
def Closure.Told (L : Placing) (H : List Execution) (c : Closure) : Prop :=
  c.Loaded L ∨ ∃ e ∈ H, e.Makes c

/-- The visible declarations of an activation at an address have the cells that they were bound to, its
slots have the names that they have there, and its closure was made, or loaded. -/
structure ScriptFrame.Explained (L : Placing) (H : List Execution) (v : World) (height x : Nat)
    (f : ScriptFrame) : Prop where
  owner : f.closure.owner = v.active
  told : f.closure.Told L H
  captured : (L v.active x).captured = (L v.active f.closure.entry).captured
  symbols : f.symbols = (L v.active x).slots
  locals : ∀ d ∈ (L v.active x).visible, ∃ cell, f.cell? d.2 = some cell ∧ Bound L H v height d cell

/-- What was carried out before a world is reached, one after the other. The frames in which that was
done are explained by what was done before. -/
inductive Recorded (L : Placing) : List Execution → World → Prop where
  | nil {w : World} : Recorded L [] w
  | cons {e : Execution} {H : List Execution} {f : ScriptFrame} {height : Nat} {w : World}
    (h : Recorded L H e.before) (hheight : e.before.processor.frames.size = height + 1)
    (hf : e.before.processor.frames[height]? = some (.script f))
    (hexplained : f.Explained L H e.before height e.before.processor.ip) (hsound : e.Sound L)
    (hw : e.after.Precedes w) : Recorded L (e :: H) w

/-- The address at which the activation at a height of the call stack goes on. -/
def Processor.StandsAt (p : Processor) (height x : Nat) : Prop :=
  height + 1 = p.frames.size ∧ x = p.ip ∨
    ∃ g, p.frames[height + 1]? = some (.script g) ∧ g.returnAddress = some x

/-- The activations above some frames of the call stack are explained. -/
structure World.Lexical (L : Placing) (H : List Execution) (base : Nat) (v : World) : Prop where
  above : base < v.processor.frames.size ∨ base = 0
  explained : ∀ {height : Nat} {g : Frame}, base ≤ height → v.processor.frames[height]? = some g →
    ∃ f x, g = .script f ∧ v.processor.StandsAt height x ∧ f.Explained L H v height x

/-- What a coroutine goes on with: a function that is entered on an empty processor, or activations that
are explained. -/
structure CoroutineBody.Explained (L : Placing) (H : List Execution) (owner : ScriptId)
    (body : CoroutineBody) : Prop where
  fresh : ∀ {f : Value}, body.function = some f → body.processor.frames = #[]
  suspended : body.function = none →
    ∃ z : World, z.processor = body.processor ∧ z.active = owner ∧ z.Lexical L H 0

/-- A history of a world: closures were made, or loaded, the activations of suspended coroutines are
explained, and nothing refers to a cell that is not there. -/
structure World.Explained (L : Placing) (H : List Execution) (w : World) : Prop where
  recorded : Recorded L H w
  closures : ∀ c ∈ w.heap.closures, c.Told L H ∧ c.Below w.heap.cells.size
  coroutines : ∀ c ∈ w.heap.coroutines, ∀ body, c.body = some body →
    body.processor.Below w.heap.cells.size ∧ body.Explained L H c.owner
  scripts : ∀ s ∈ w.scripts, s.processor.Below w.heap.cells.size
  processor : w.processor.Below w.heap.cells.size

/-! ## Longer histories -/

section Mono

variable {L : Placing} {H H' : List Execution} {v w w' : World} {height x base : Nat}

theorem Bound.mono {d : String × Nat} {cell : CellId} (h : Bound L H v height d cell) (hH : H ⊆ H') :
    Bound L H' v height d cell := by
  obtain ⟨e, he, hrest⟩ := h
  exact ⟨e, hH he, hrest⟩

theorem Closure.Told.mono {c : Closure} (h : c.Told L H) (hH : H ⊆ H') : c.Told L H' :=
  h.imp_right fun ⟨e, he, hmakes⟩ => ⟨e, hH he, hmakes⟩

theorem ScriptFrame.Explained.mono {f : ScriptFrame} (h : f.Explained L H v height x) (hH : H ⊆ H') :
    f.Explained L H' v height x := by
  refine ⟨h.owner, h.told.mono hH, h.captured, h.symbols, fun d hd => ?_⟩
  obtain ⟨cell, hcell, hbound⟩ := h.locals d hd
  exact ⟨cell, hcell, hbound.mono hH⟩

theorem World.Lexical.mono (h : v.Lexical L H base) (hH : H ⊆ H') : v.Lexical L H' base := by
  refine ⟨h.above, fun hbase hf => ?_⟩
  obtain ⟨f, x, hscript, hx, hexplained⟩ := h.explained hbase hf
  exact ⟨f, x, hscript, hx, hexplained.mono hH⟩

theorem CoroutineBody.Explained.mono {owner : ScriptId} {body : CoroutineBody}
    (h : body.Explained L H owner) (hH : H ⊆ H') : body.Explained L H' owner := by
  refine ⟨h.fresh, fun hnone => ?_⟩
  obtain ⟨z, hp, hactive, hz⟩ := h.suspended hnone
  exact ⟨z, hp, hactive, hz.mono hH⟩

theorem Recorded.mono (h : Recorded L H w) (hw : w.Precedes w') : Recorded L H w' := by
  cases h with
  | nil => exact .nil
  | cons h hheight hf hexplained hsound hbefore =>
    exact .cons h hheight hf hexplained hsound (hbefore.trans hw)

/-- A world that has grown out of another one, with a longer history. -/
theorem World.Explained.grow (h : w.Explained L H) (hH : H ⊆ H') (hrecorded : Recorded L H' w')
    (hcells : w.heap.cells.size ≤ w'.heap.cells.size)
    (hclosures : ∀ c ∈ w'.heap.closures,
      c ∈ w.heap.closures ∨ c.Told L H' ∧ c.Below w'.heap.cells.size)
    (hcoroutines : ∀ c ∈ w'.heap.coroutines, ∀ body, c.body = some body →
      (∃ c₀ ∈ w.heap.coroutines, c₀.owner = c.owner ∧ c₀.body = some body) ∨
        body.processor.Below w'.heap.cells.size ∧ body.Explained L H' c.owner)
    (hscripts : ∀ s ∈ w'.scripts, (∃ s₀ ∈ w.scripts, s₀.processor = s.processor) ∨
      s.processor.Below w'.heap.cells.size)
    (hprocessor : w'.processor.Below w'.heap.cells.size) : w'.Explained L H' := by
  refine ⟨hrecorded, fun c hc => ?_, fun c hc body hbody => ?_, fun s hs => ?_, hprocessor⟩
  · rcases hclosures c hc with hold | hnew
    · obtain ⟨htold, hbelow⟩ := h.closures c hold
      exact ⟨htold.mono hH, hbelow.mono hcells⟩
    · exact hnew
  · rcases hcoroutines c hc body hbody with ⟨c₀, hc₀, howner, hbody₀⟩ | hnew
    · obtain ⟨hbelow, hexplained⟩ := h.coroutines c₀ hc₀ body hbody₀
      exact ⟨hbelow.mono hcells, howner ▸ hexplained.mono hH⟩
    · exact hnew
  · rcases hscripts s hs with ⟨s₀, hs₀, heq⟩ | hnew
    · exact heq ▸ (h.scripts s₀ hs₀).mono hcells
    · exact hnew

/-- Another processor comes in. -/
theorem World.Explained.withProcessor (h : w.Explained L H) {p : Processor}
    (hp : p.Below w.heap.cells.size) : World.Explained L H { w with processor := p } :=
  { h with recorded := h.recorded.mono ⟨Nat.le_refl _, id⟩, processor := hp }

end Mono

/-! ## What histories tell -/

section Recorded

variable {L : Placing} {H : List Execution} {w : World}

theorem getElem?_mono {α : Type} {as bs : List α} {i : Nat} {a : α} (h : as <+: bs)
    (hi : as[i]? = some a) : bs[i]? = some a := by
  obtain ⟨hlt, rfl⟩ := List.getElem?_eq_some_iff.1 hi
  exact List.prefix_iff_getElem?.1 h i hlt

theorem Recorded.sound (h : Recorded L H w) : ∀ e ∈ H, e.Sound L := by
  induction h with
  | nil => exact fun e he => absurd he List.not_mem_nil
  | cons _ _ _ _ hsound _ ih => exact List.forall_mem_cons.2 ⟨hsound, ih⟩

/-- Cells that were bound are there. -/
theorem Recorded.cells_le (h : Recorded L H w) :
    ∀ e ∈ H, e.after.heap.cells.size ≤ w.heap.cells.size := by
  induction h with
  | nil => exact fun e he => absurd he List.not_mem_nil
  | cons _ _ _ _ hsound hw ih =>
    refine List.forall_mem_cons.2 ⟨hw.cells, fun e he => ?_⟩
    exact Nat.le_trans (ih e he) (Nat.le_trans hsound.precedes.cells hw.cells)

/-- A slot is bound to one cell. -/
theorem Execution.Binds.unique {e : Execution} {height slot : Nat} {cell cell' : CellId}
    (h : e.Binds height slot cell) (h' : e.Binds height slot cell') : cell = cell' := by
  obtain ⟨-, -, f, hf, hcell⟩ := h
  obtain ⟨-, -, f', hf', hcell'⟩ := h'
  rw [hf] at hf'
  cases hf'
  exact Option.some.inj (hcell.symm.trans hcell')

/-- Each execution of a declaration has bound a cell of its own. -/
theorem Recorded.binds_unique (h : Recorded L H w) {e e' : Execution} {height height' slot slot' : Nat}
    {cell : CellId} (he : e ∈ H) (he' : e' ∈ H) (hbinds : e.Binds height slot cell)
    (hbinds' : e'.Binds height' slot' cell) : e = e' ∧ height = height' ∧ slot = slot' := by
  suffices heq : e = e' by
    subst heq
    obtain rfl : height = height' := Nat.succ.inj (hbinds.2.1.symm.trans hbinds'.2.1)
    exact ⟨rfl, rfl, (h.sound e he).distinct hbinds hbinds'⟩
  induction h with
  | nil => cases he
  | @cons latest H f _ w h _ _ _ hsound _ ih =>
    -- what was bound earlier is below the cells that the latest execution has found
    have hearlier : ∀ {e : Execution} {height slot : Nat}, e ∈ H → e.Binds height slot cell →
        cell.index < latest.before.heap.cells.size := fun he hbinds =>
      Nat.lt_of_lt_of_le ((h.sound _ he).new hbinds).2 (h.cells_le _ he)
    rcases List.mem_cons.1 he with hlatest | hold <;> rcases List.mem_cons.1 he' with hlatest' | hold'
    · rw [hlatest, hlatest']
    · subst hlatest
      exact absurd (hsound.new hbinds).1 (Nat.not_le_of_lt (hearlier hold' hbinds'))
    · subst hlatest'
      exact absurd (hsound.new hbinds').1 (Nat.not_le_of_lt (hearlier hold hbinds))
    · exact ih hold hold'

/-- A closure has captured what its function captures, or less of it. -/
theorem Closure.Told.names {c : Closure} (h : c.Told L H) (hsound : ∀ e ∈ H, e.Sound L) :
    c.upvalueNames <+: (L c.owner c.entry).captured := by
  rcases h with hloaded | ⟨e, he, hmakes⟩
  · exact hloaded.1
  · obtain ⟨entry, captures, hop⟩ := hmakes.1
    obtain ⟨hcaptured, hnames, -⟩ := (hsound e he).makes hop hmakes
    exact (hnames.trans hcaptured.symm) ▸ List.prefix_refl _

end Recorded

end LuaMachine
