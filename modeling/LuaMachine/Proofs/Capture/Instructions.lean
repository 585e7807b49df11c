import LuaMachine.Proofs.Capture.Telling
import LuaMachine.Proofs.Semantics.Assignment

/-!
# Variables and single instructions

What one instruction does to variables (`World.Steps`). Most of them go on with the frames that there
were. Some declare variables of the topmost frame. One makes a closure, which captures the cells of its
variables. A call may put a frame on top, and a return takes one away; a suspension leaves the frames as
they are.
-/

namespace LuaMachine

open Exec

/-! ## Going on with the same frames -/

namespace World

variable {L : Placing} {w w' w'' : World}

/-- Code goes on with the frames that there were. -/
structure Works (L : Placing) (w w' : World) : Prop where
  tells : w.Tells L w'
  stands : w'.Genuine → w.Closed →
    w.processor.Stands (fun _ => True) w'.processor ∧ w'.processor.ip = w.processor.ip

theorem Works.trans (h₁ : w.Works L w') (h₂ : w'.Works L w'') : w.Works L w'' := by
  refine ⟨h₁.tells.trans h₂.tells, fun hg hw => ?_⟩
  have hg' := h₂.tells.later.genuine hg
  obtain ⟨hstands, hip⟩ := h₁.stands hg' hw
  obtain ⟨hstands', hip'⟩ := h₂.stands hg (h₁.tells.closed hg' hw)
  exact ⟨hstands.trans hstands', hip'.trans hip⟩

theorem Reworks.works (h : w.Steady w') : w.Works L w' := ⟨h.tells, fun _ _ => ⟨h.stands, h.ip⟩⟩

theorem Works.refl (w : World) : w.Works L w := (Reworks.refl w).works

end World

namespace Exec

variable {α β : Type} {L : Placing} {w : World}

/-- A computation after which code goes on with the frames that there were. -/
def Working (L : Placing) (x : Exec α) : Prop := ∀ w, x.Leads w (fun _ => w.Works L) (w.Tells L)

theorem Reworking.working {x : Exec α} (hx : x.Steady) : x.Working L :=
  fun w => (hx w).mono (fun _ _ => World.Reworks.works) fun _ => World.Reworks.tells

theorem Aside.working {x : Exec α} (hx : x.Aside) : x.Working L := (hx.reworking : x.Steady).working

theorem Working.telling {x : Exec α} (hx : x.Working L) : x.Telling L :=
  fun w => (hx w).mono (fun _ _ => World.Works.tells) fun _ => id

theorem Working.bind {x : Exec α} {f : α → Exec β} (hx : x.Working L) (hf : ∀ a, (f a).Working L) :
    (x >>= f).Working L :=
  fun w => (hx w).bind fun a w' hw' => (hf a w').mono (fun _ _ => hw'.trans) fun _ => hw'.tells.trans

/-- The answers of the machine leave the processor as it was. -/
theorem Calm.working {x : Exec α} (hc : Exec.Calm x) (hx : x.Telling L) : x.Working L := by
  refine fun w => ⟨fun {a w'} h => ⟨(hx w).ok h, fun hg hw => ?_⟩, (hx w).error⟩
  have hprocessor := ((hc w.processor w).ok h).2 hg hw rfl
  exact ⟨.of_eq (congrArg (·.frames) hprocessor), congrArg (·.ip) hprocessor⟩

end Exec

/-! ## What an instruction does -/

namespace OpCode

/-- The operation neither declares anything nor makes a closure, and leaves the slots as they are. -/
structure Plain (op : OpCode) : Prop where
  bound : op.bound = []
  closure : ∀ entry captures, op ≠ .closure entry captures
  beginFn : ∀ locals, op ≠ .beginFn locals

/-- A slot of the topmost frame keeps its cell. -/
def Spares (op : OpCode) (slot : Nat) : Prop := slot ∉ op.bound ∧ ∀ locals, op ≠ .beginFn locals

theorem Plain.spares {op : OpCode} (h : op.Plain) (slot : Nat) : op.Spares slot :=
  ⟨h.bound ▸ List.not_mem_nil, h.beginFn⟩

end OpCode

namespace World

/-- Slots of the topmost frame are given new cells, each its own. -/
structure Declares (slots : List Nat) (w w' : World) : Prop where
  reworks : w.Reworks (· ∉ slots) w'
  binds : ∃ f, w'.processor.frames.back? = some (.script f) ∧
    (∀ slot ∈ slots, ∃ cell, f.cell? slot = some cell ∧
      w.heap.cells.size ≤ cell.index ∧ cell.index < w'.heap.cells.size) ∧
    ∀ slot ∈ slots, ∀ slot' ∈ slots, f.cell? slot = f.cell? slot' → slot = slot'

/-- A local or captured variable, which has a cell if it is one of the topmost frame. -/
structure MayCapture (w : World) (s : Symbol) : Prop where
  isVariable : s.isVariable = true
  declared : ∀ {name : String} {slot : Nat} {f : ScriptFrame}, s = .local name slot →
    w.processor.frames.back? = some (.script f) → ∃ cell, f.cell? slot = some cell

/-- A closure of a function has the cells of its captures. -/
structure Captures (w : World) (entry : Nat) (captures : List Symbol) (c : Closure) : Prop where
  owner : c.owner = w.active
  entry_eq : c.entry = entry
  names : c.upvalueNames = captures.map Symbol.name
  upvalue : ∀ i, c.upvalue? i = captures[i]?.bind w.cellOf?
  declared : ∀ s ∈ captures, ∃ cell, w.cellOf? s = some cell

/-- Code goes on with the instruction at an address. -/
def standing (w : World) (vs : Array Value) (x : Nat) : World :=
  { w with processor := { w.processor with values := vs, ip := x } }

/-- A function that is called has a frame on top of the others. -/
def calls (w : World) (f : ScriptFrame) (vs : Array Value) : World :=
  { w with processor := { w.processor with
      values := vs, frames := w.processor.frames.push (.script f), ip := f.closure.entry } }

/-- The topmost frame is gone. -/
def leaves (w : World) (vs : Array Value) (x : Nat) : World :=
  { w with processor := { w.processor with values := vs, frames := w.processor.frames.pop, ip := x } }

/-- What one instruction does to variables in a loop that was entered at a height of the call stack. -/
inductive Steps (L : Placing) (depth : Nat) (op : OpCode) (w : World) : Option Exit → World → Prop
  | proceeds {w' : World} (hbound : op.bound = [])
    (hclosure : ∀ entry captures, op ≠ .closure entry captures) (htells : w.Tells L w')
    (hnames : ∀ names f, op = .beginFn names → w'.processor.frames.back? = some (.script f) →
      f.symbols = names)
    (hstands : w'.Genuine → w.Closed → w.processor.Stands op.Spares w'.processor ∧
      w'.processor.ip ∈ op.targets w.processor.ip) : Steps L depth op w none w'
  | declares {w₁ : World} (hdeclares : w.Declares op.bound w₁) (hordinary : op.isOrdinary = true)
    (htarget : w.processor.ip + 1 ∈ op.targets w.processor.ip) : Steps L depth op w none w₁.advanced
  | makes {entry : Nat} {captures : List Symbol} {w' : World} (hop : op = .closure entry captures)
    (hprecedes : w.Precedes w')
    (hstands : w'.Genuine → w.Closed → w.processor.Stands (fun _ => True) w'.processor) (hmakes : (∀ s ∈ captures, w.MayCapture s) →
      ∃ c vs, w.Captures entry captures c ∧
        w' = { w with heap := w.heap.addClosure c }.standing vs (w.processor.ip + 1)) :
    Steps L depth op w none w'
  | enters {argc : Nat} {f : ScriptFrame} {vs : Array Value} (hop : op = .call argc)
    (hclosure : f.closure ∈ w.heap.closures) (howner : f.closure.owner = w.active)
    (hlocals : f.locals = #[]) (hsymbols : f.symbols = [])
    (hreturn : f.returnAddress = some (w.processor.ip + 1)) : Steps L depth op w none (w.calls f vs)
  | leaves {values x : Nat} {f : Frame} {vs : Array Value} (hop : op = .ret values)
    (hf : w.processor.frames.back? = some f) (hreturn : f.returnAddress = some x)
    (hdepth : depth < w.processor.frames.pop.size) : Steps L depth op w none (w.leaves vs x)
  | returns {values : Nat} {vs : Array Value} {v : Value} (hop : op = .ret values) :
    Steps L depth op w (some (.returned v)) (w.leaves vs w.processor.ip)
  | yields {argc : Nat} {c : Callback} {args : List Value} {w₁ : World} (hop : op = .call argc)
    (hcalled : called argc w = .ok (.callback c, args) w₁) (hnative : c.native = .yield)
    (hallowed : w₁.processor.canYield = true) :
    Steps L depth op w (some (.yielded (.ofList args))) w₁.advanced

end World

/-! ## Plain instructions -/

section Plain

variable {α : Type} {L : Placing} {depth : Nat} {op : OpCode} {w w₁ : World}

theorem World.Works.steps_goTo (h : w.Works L w₁) (hplain : op.Plain) {y : Nat}
    (hy : w₁.processor.ip = w.processor.ip → y ∈ op.targets w.processor.ip) :
    w.Steps L depth op none { w₁ with processor := { w₁.processor with ip := y } } := by
  refine .proceeds hplain.bound hplain.closure (h.tells.trans ?_)
    (fun names _ hop => absurd hop (hplain.beginFn names)) fun hg hw => ?_
  · exact World.tells_withProcessor fun H hH => hH.processor.of_subset fun _ => id
  · obtain ⟨hstands, hip⟩ := h.stands hg hw
    refine ⟨?_, hy hip⟩
    have hspares : w.processor.Stands op.Spares w₁.processor := by
      refine ⟨hstands.size, fun {height f} hf => ?_⟩
      obtain ⟨f', hf', hbecomes⟩ := hstands.frames hf
      exact ⟨f', hf', hbecomes.mono fun _ _ _ => trivial⟩
    exact hspares.trans (.of_eq rfl)

/-- A computation goes on to an address. -/
theorem World.Works.leads_goTo (h : w.Works L w₁) (hplain : op.Plain) {y : Nat}
    (hy : y ∈ op.targets w.processor.ip) :
    (do goTo y; return none : Exec (Option Exit)).Leads w₁ (w.Steps L depth op) (w.Tells L) :=
  .of_ok rfl (h.steps_goTo hplain fun _ => hy)

theorem World.Works.leads_advance (h : w.Works L w₁) (hplain : op.Plain)
    (htarget : w.processor.ip + 1 ∈ op.targets w.processor.ip) :
    (do advance; return none : Exec (Option Exit)).Leads w₁ (w.Steps L depth op) (w.Tells L) :=
  .of_ok rfl (h.steps_goTo hplain fun hip => by rw [hip]; exact htarget)

theorem World.Works.leads_jump (h : w.Works L w₁) (hplain : op.Plain) {y : Nat}
    (hy : y ∈ op.targets w.processor.ip) :
    (do jump y; return none : Exec (Option Exit)).Leads w₁ (w.Steps L depth op) (w.Tells L) := by
  unfold jump
  change (address >>= fun a => (if y ≤ a then do safepoint; goTo y else goTo y : Exec Unit) >>=
    fun _ => pure none : Exec (Option Exit)).Leads _ _ _
  refine .ok_bind rfl ?_
  split
  · rw [bind_assoc]
    refine Leads.bind (Leads.of_ends aside_safepoint w₁ |>.mono (fun _ u hu => ?_) fun u hu => ?_)
      fun _ u hu => World.Works.leads_goTo hu hplain hy
    · exact h.trans hu.reworks.works
    · exact h.tells.trans hu.tells
  · exact h.leads_goTo hplain hy

/-- Something that leaves the frames as they were comes first. -/
theorem Exec.Working.leads_bind {x : Exec α} {f : α → Exec (Option Exit)} (hx : x.Working L)
    (h : w.Works L w₁) (hf : ∀ a u, w.Works L u →
      (f a).Leads u (w.Steps L depth op) (w.Tells L)) :
    (x >>= f).Leads w₁ (w.Steps L depth op) (w.Tells L) :=
  Leads.bind ((hx w₁).mono (fun _ _ => h.trans) fun _ => h.tells.trans) hf

/-- An instruction that goes on to the next one. -/
theorem Exec.Working.onward {x : Exec Unit} (hx : x.Working L) (hplain : op.Plain)
    (htarget : w.processor.ip + 1 ∈ op.targets w.processor.ip) :
    (do x; advance; return none : Exec (Option Exit)).Leads w (w.Steps L depth op) (w.Tells L) :=
  hx.leads_bind (.refl w) fun _ _ hu => hu.leads_advance hplain htarget

end Plain

/-! ## Declarations -/

section Declarations

variable {L : Placing} {w w' : World}

theorem World.back?_declare {f : ScriptFrame} (hf : w.processor.frames.back? = some (.script f))
    (slot : Nat) (v : Value) : (w.declare slot v).processor.frames.back? =
      some (.script (f.declare slot ⟨w.heap.cells.size⟩)) := by
  unfold World.declare
  dsimp only
  rw [back?_modify_top, hf]
  rfl

theorem declareLocal_eq {f : ScriptFrame} (hf : w.processor.frames.back? = some (.script f))
    (slot : Nat) (v : Value) : declareLocal slot v w = .ok () (w.declare slot v) := by
  have htop : topFrame w = .ok f w := by
    unfold topFrame topFrameOr
    rw [hf]
  unfold declareLocal
  rw [bind_ok htop]
  rfl

theorem reworking_declareLocal (slot : Nat) (v : Value) :
    (declareLocal slot v).Reworking (· ≠ slot) := by
  intro w
  cases hf : topFrame w with
  | ok f w₁ =>
    obtain ⟨rfl, htop⟩ := topFrameOr_ok hf
    exact .of_ok (declareLocal_eq htop slot v) (World.reworks_declare v fun _ _ _ h => absurd rfl h)
  | error s w₁ =>
    unfold declareLocal
    constructor
    · intro u w' h
      rw [bind_error hf] at h
      cases h
    · intro e w' h
      rw [bind_error hf] at h
      cases h
      exact (reworking_topFrameOr _ w).error hf

theorem reworking_declareLocals (start : Nat) (vs : List Value) :
    (declareLocals start vs).Reworking (· ∉ List.range' start vs.length) := by
  induction vs generalizing start with
  | nil => exact reworking_pure _
  | cons v rest ih =>
    have hslots : ∀ slot, slot ∉ List.range' start (v :: rest).length →
        slot ≠ start ∧ slot ∉ List.range' (start + 1) rest.length := by
      intro slot hslot
      rw [List.length_cons, List.range'_succ, List.mem_cons, not_or] at hslot
      exact hslot
    refine Reworking.bind (fun w => ?_) fun _ w => ?_
    · exact (reworking_declareLocal start v w).mono (fun _ _ h => h.mono fun i hi => (hslots i hi).1)
        fun _ h => h.mono fun i hi => (hslots i hi).1
    · exact (ih (start + 1) w).mono (fun _ _ h => h.mono fun i hi => (hslots i hi).2)
        fun _ h => h.mono fun i hi => (hslots i hi).2

/-- The cells of consecutive slots that are declared are consecutive as well. -/
theorem declareLocals_ok {start : Nat} {vs : List Value} {f : ScriptFrame} {u : Unit}
    (hf : w.processor.frames.back? = some (.script f)) (h : declareLocals start vs w = .ok u w') :
    ∃ f', w'.processor.frames.back? = some (.script f') ∧
      w'.heap.cells.size = w.heap.cells.size + vs.length ∧
      (∀ i < vs.length, f'.cell? (start + i) = some ⟨w.heap.cells.size + i⟩) ∧
      ∀ slot < start, f'.cell? slot = f.cell? slot := by
  induction vs generalizing start w f with
  | nil =>
    cases h
    exact ⟨f, hf, rfl, fun i hi => absurd hi (Nat.not_lt_zero i), fun _ _ => rfl⟩
  | cons v rest ih =>
    unfold declareLocals at h
    rw [bind_ok (declareLocal_eq hf start v)] at h
    obtain ⟨f', hf', hsize, hcells, hbelow⟩ := ih (World.back?_declare hf start v) h
    have hpush : (w.declare start v).heap.cells.size = w.heap.cells.size + 1 := Array.size_push _
    rw [hpush] at hsize hcells
    refine ⟨f', hf', ?_, fun i hi => ?_, fun slot hslot => ?_⟩
    · rw [hsize, List.length_cons]
      omega
    · cases i with
      | zero =>
        rw [Nat.add_zero, hbelow start (Nat.lt_succ_self _), ScriptFrame.cell?_declare, if_pos rfl]
        rfl
      | succ i =>
        rw [← Nat.add_assoc, Nat.add_right_comm, hcells i (Nat.lt_of_succ_lt_succ hi), Nat.add_assoc,
          Nat.add_comm 1 i]
    · rw [hbelow slot (Nat.lt_succ_of_lt hslot), ScriptFrame.cell?_declare, if_neg (Nat.ne_of_lt hslot)]

/-- Slots whose cells are consecutive are declared. -/
theorem World.declares_of_cells {slots : List Nat} {start n : Nat} {f : ScriptFrame}
    (hreworks : w.Reworks (· ∉ slots) w') (hf : w'.processor.frames.back? = some (.script f))
    (hslots : ∀ slot ∈ slots, ∃ i < n, slot = start + i)
    (hcells : ∀ i < n, f.cell? (start + i) = some ⟨w.heap.cells.size + i⟩)
    (hsize : w'.heap.cells.size = w.heap.cells.size + n) : w.Declares slots w' := by
  refine ⟨hreworks, f, hf, fun slot hslot => ?_, fun slot hslot slot' hslot' heq => ?_⟩
  · obtain ⟨i, hi, rfl⟩ := hslots slot hslot
    refine ⟨_, hcells i hi, Nat.le_add_right _ _, ?_⟩
    rw [hsize]
    exact Nat.add_lt_add_left hi _
  · obtain ⟨i, hi, rfl⟩ := hslots slot hslot
    obtain ⟨j, hj, rfl⟩ := hslots slot' hslot'
    rw [hcells i hi, hcells j hj, Option.some.injEq, CellId.mk.injEq] at heq
    omega

/-- One slot is declared. -/
theorem leads_declareLocal (slot : Nat) (v : Value) :
    (declareLocal slot v).Leads w (fun _ => w.Declares [slot]) (w.Tells L) := by
  have hreworking := reworking_declareLocal slot v w
  refine ⟨fun {u w'} h => ?_, fun h => (hreworking.error h).tells⟩
  have hreworks : w.Reworks (· ∉ [slot]) w' := (hreworking.ok h).mono fun i hi => by simpa using hi
  unfold declareLocal at h
  obtain ⟨f, w₁, htop, hrest⟩ := of_bind_ok h
  obtain ⟨rfl, hf⟩ := topFrameOr_ok htop
  have hdeclared : declareLocals slot [v] w₁ = .ok () w' := by
    unfold declareLocals
    rw [bind_ok (declareLocal_eq hf slot v)]
    rw [bind_ok htop] at h
    exact h
  obtain ⟨f', hf', hsize, hcells, -⟩ := declareLocals_ok hf hdeclared
  refine World.declares_of_cells hreworks hf' (fun i hi => ⟨0, Nat.one_pos, ?_⟩) hcells hsize
  exact List.mem_singleton.1 hi

/-- The arguments of a call are bound to the first slots. -/
theorem leads_bindArguments (params : Nat) (varargs : Bool) :
    (bindArguments params varargs).Leads w (fun _ => w.Declares (List.range params)) (w.Tells L) := by
  cases hf : topFrame w with
  | error s w₁ =>
    unfold bindArguments
    constructor
    · intro u w' h
      rw [bind_error hf] at h
      cases h
    · intro e w' h
      rw [bind_error hf] at h
      cases h
      exact ((reworking_topFrameOr _ : topFrame.Steady) w |>.error hf).tells
  | ok f w₁ =>
    obtain ⟨rfl, htop⟩ := topFrameOr_ok hf
    let spared (slot : Nat) : Prop := slot ∉ List.range params
    let vs := (f.pending ++ List.replicate (params - f.pending.length) Value.nil).take params
    have hlength : vs.length = params := by
      simp only [vs, List.length_take, List.length_append, List.length_replicate]
      omega
    let clear (f : ScriptFrame) : ScriptFrame := { f with pending := [] }
    let keep (f' : ScriptFrame) : ScriptFrame := { f' with varargs := f.pending.drop params }
    have hclear : (modifyTopFrame clear).Reworking spared :=
      reworking_modifyTopFrame (fun _ => ⟨rfl, rfl, fun _ _ => rfl, fun _ _ _ => id⟩) fun _ _ _ => id
    have hkeep : (modifyTopFrame keep).Reworking spared :=
      reworking_modifyTopFrame (fun _ => ⟨rfl, rfl, fun _ _ => rfl, fun _ _ _ => id⟩) fun _ _ _ => id
    have hdeclare : (declareLocals 0 vs).Reworking spared := by
      have h := reworking_declareLocals 0 vs
      rwa [hlength, ← List.range_eq_range'] at h
    have hrest : (do
        modifyTopFrame clear
        declareLocals 0 vs
        if varargs then modifyTopFrame keep).Reworking spared := by
      refine hclear.bind fun _ => hdeclare.bind fun _ => ?_
      split
      · exact hkeep
      · exact reworking_pure _
    refine .ok_bind hf ⟨fun {u w'} h => ?_, fun h => ((hrest w₁).error h).tells⟩
    have hreworks := (hrest w₁).ok h
    obtain ⟨u₁, w₂, hcleared, h⟩ := of_bind_ok h
    obtain ⟨u₂, w₃, hdeclared, h⟩ := of_bind_ok h
    have hback : w₂.processor.frames.back? = some (.script (clear f)) := by
      cases hcleared
      dsimp only
      rw [back?_modify_top, htop]
      rfl
    have hsame : w₂.heap = w₁.heap := by
      cases hcleared
      rfl
    obtain ⟨f', hf', hsize, hcells, -⟩ := declareLocals_ok hback hdeclared
    rw [hsame, hlength] at hsize hcells
    have hslots : ∀ slot ∈ List.range params, ∃ i < params, slot = 0 + i := fun slot hslot =>
      ⟨slot, List.mem_range.1 hslot, (Nat.zero_add slot).symm⟩
    cases varargs with
    | false =>
      cases h
      exact World.declares_of_cells hreworks hf' hslots hcells hsize
    | true =>
      refine World.declares_of_cells (f := keep f') hreworks ?_ hslots hcells ?_
      · cases h
        dsimp only
        rw [back?_modify_top, hf']
        rfl
      · cases h
        exact hsize

/-- An instruction that declares variables goes on to the next one. -/
theorem World.leads_declares {op : OpCode} {depth : Nat} {x : Exec Unit}
    (hx : x.Leads w (fun _ => w.Declares op.bound) (w.Tells L)) (hordinary : op.isOrdinary = true)
    (htarget : w.processor.ip + 1 ∈ op.targets w.processor.ip) :
    (do x; advance; return none : Exec (Option Exit)).Leads w (w.Steps L depth op) (w.Tells L) :=
  hx.bind fun _ _ hdeclares => .of_ok rfl (.declares hdeclares hordinary htarget)

end Declarations

end LuaMachine
