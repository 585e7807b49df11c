import LuaMachine.Proofs.Capture.Instructions

/-!
# Closures, calls and returns

A closure instruction takes the cells of the variables that it captures, which are there, and makes
nothing else of them (`captureAll_ok`). A call of a function of the script puts a frame without cells on
top; a return takes the topmost frame away.

Main statement: `Reentry.Telling.step`, what any instruction does to variables.
-/

namespace LuaMachine

open Exec

/-! ## The frame of a function begins -/

section Beginning

variable {L : Placing} {w w₁ : World} {depth : Nat} {op : OpCode} {spared : Nat → Prop}

/-- An instruction has given new cells to some slots, and goes on to the next one. -/
theorem World.Reworks.steps_advanced (h : w.Reworks spared w₁) (hbound : op.bound = [])
    (hclosure : ∀ entry captures, op ≠ .closure entry captures)
    (hnames : ∀ names f, op = .beginFn names → w₁.processor.frames.back? = some (.script f) →
      f.symbols = names)
    (hspares : ∀ slot, op.Spares slot → spared slot)
    (htarget : w.processor.ip + 1 ∈ op.targets w.processor.ip) :
    w.Steps L depth op none w₁.advanced := by
  refine .proceeds hbound hclosure (h.tells.trans ?_) hnames fun _ _ => ⟨?_, ?_⟩
  · exact World.tells_withProcessor fun H hH => hH.processor.of_subset fun _ => id
  · exact (h.mono hspares).stands.trans (.of_eq rfl)
  · change w₁.processor.ip + 1 ∈ _
    rw [h.ip]
    exact htarget

/-- The slots of a function that begins are empty. -/
theorem reworking_beginFn (locals : List String) : Exec.Reworking (fun _ => False) (do
    let _ ← topFrame
    modifyTopFrame fun f =>
      { f with locals := Array.replicate locals.length none, symbols := locals }) := by
  refine (reworking_topFrameOr _).bind fun _ => ?_
  refine reworking_modifyTopFrame (fun _ => ⟨rfl, rfl, fun _ => False.elim, fun _ _ h => h.elim⟩)
    fun f slot cell h => ?_
  rw [ScriptFrame.cell?, Array.getElem?_replicate] at h
  split at h <;> cases h

/-- The slots of a function that begins have names. -/
theorem leads_beginFn (locals : List String) : (do
    let _ ← topFrame
    modifyTopFrame fun f =>
      { f with locals := Array.replicate locals.length none, symbols := locals } : Exec Unit).Leads w
      (fun _ w₁ => w.Reworks (fun _ => False) w₁ ∧
        ∀ f, w₁.processor.frames.back? = some (.script f) → f.symbols = locals) (w.Tells L) := by
  refine ⟨fun {u w'} h => ⟨(reworking_beginFn locals w).ok h, fun f hf => ?_⟩,
    fun h => ((reworking_beginFn locals w).error h).tells⟩
  obtain ⟨f₀, w₁, htop, hrest⟩ := of_bind_ok h
  obtain ⟨rfl, hf₀⟩ := topFrameOr_ok htop
  cases hrest
  dsimp only at hf
  rw [back?_modify_top, hf₀] at hf
  cases hf
  rfl

end Beginning

/-! ## Closures -/

/-- The cells of captures, by name. -/
def Reentry.captureAll (r : Reentry) (captures : List Symbol) : Exec (List (String × CellId)) :=
  captures.mapM fun s => return (s.name, ← r.capture s)

section Closures

variable {L : Placing} {r : Reentry} {w w' : World} {depth : Nat} {captures : List Symbol}

/-- The cell of a local variable of the topmost frame. -/
theorem World.cellOf?_local {f : ScriptFrame} (hf : w.processor.frames.back? = some (.script f))
    (name : String) (slot : Nat) : w.cellOf? (.local name slot) = f.cell? slot := by
  unfold World.cellOf? ScriptFrame.cell?
  rw [Processor.scriptFrame?_of_back? hf]
  dsimp only
  cases f.locals[slot]? <;> rfl

/-- The cell of a variable that the closure of the topmost frame has captured. -/
theorem World.cellOf?_upvalue {f : ScriptFrame} (hf : w.processor.frames.back? = some (.script f))
    (name : String) (i : Nat) : w.cellOf? (.upvalue name i) = f.closure.upvalue? i := by
  unfold World.cellOf?
  rw [Processor.scriptFrame?_of_back? hf]

/-- The cell of a variable that has one is captured. -/
theorem capture_ok {s : Symbol} {cell : CellId} (hs : w.MayCapture s)
    (h : r.capture s w = .ok cell w') : w' = w ∧ w.cellOf? s = some cell := by
  unfold Reentry.capture at h
  cases s with
  | global name env => cases hs.isVariable
  | defaultEnv => cases hs.isVariable
  | «local» name slot =>
    obtain ⟨f, w₁, htop, hread⟩ := of_bind_ok h
    obtain ⟨rfl, hf⟩ := topFrameOr_ok htop
    obtain ⟨cell', hcell⟩ := hs.declared rfl hf
    rw [Option.join_eq_some_iff.1 hcell] at hread
    cases hread
    exact ⟨rfl, (World.cellOf?_local hf name slot).trans hcell⟩
  | upvalue name i =>
    dsimp only at h
    rw [bind_ok (get_eq _)] at h
    cases hcell : w.cellOf? (.upvalue name i) with
    | some cell' =>
      rw [hcell] at h
      cases h
      exact ⟨rfl, rfl⟩
    | none =>
      rw [hcell] at h
      cases h

/-- The cells that a closure captures are those of its variables. -/
theorem captureAll_ok {cells : List (String × CellId)}
    (hall : ∀ s ∈ captures, w.MayCapture s)
    (h : r.captureAll captures w = .ok cells w') :
    w' = w ∧ captures.map w.cellOf? = cells.map (fun u => some u.2) ∧
      captures.map Symbol.name = cells.map (·.1) := by
  unfold Reentry.captureAll at h
  induction captures generalizing cells w' with
  | nil =>
    cases h
    exact ⟨rfl, rfl, rfl⟩
  | cons s rest ih =>
    obtain ⟨hs, hrest⟩ := List.forall_mem_cons.1 hall
    rw [List.mapM_cons] at h
    obtain ⟨u, w₁, hnamed, hlater⟩ := of_bind_ok h
    obtain ⟨cell, w₂, hcell, hu⟩ := of_bind_ok hnamed
    obtain ⟨rfl, hfound⟩ := capture_ok hs hcell
    cases hu
    obtain ⟨us, w₃, hus, hcells⟩ := of_bind_ok hlater
    obtain ⟨rfl, hmap, hnames⟩ := ih hrest hus
    cases hcells
    refine ⟨rfl, ?_, ?_⟩
    · rw [List.map_cons, List.map_cons, hfound, hmap]
    · rw [List.map_cons, List.map_cons, hnames]

theorem working_capture (hc : r.Calm) (hr : r.Telling L) (s : Symbol) : (r.capture s).Working L := by
  have hnew : ∀ v, (newCell v).Working L := fun v => (reworking_newCell v : (newCell v).Steady).working
  unfold Reentry.capture
  split
  · exact (steady_localCell _ _).working
  · refine aside_get.working.bind fun w => ?_
    split
    · exact (aside_pure _).working
    · exact (aside_fail _).working
  · exact aside_get.working.bind fun w => hnew _
  · exact ((hc.alike.readSymbol _).working (hr.alike.readSymbol _)).bind fun v => hnew v

theorem working_captureAll (hc : r.Calm) (hr : r.Telling L) (captures : List Symbol) :
    (r.captureAll captures).Working L := by
  unfold Reentry.captureAll
  induction captures with
  | nil => exact (aside_pure _).working
  | cons s rest ih =>
    rw [List.mapM_cons]
    refine Working.bind ?_ fun _ => ih.bind fun _ => (aside_pure _).working
    exact (working_capture hc hr s).bind fun _ => (aside_pure _).working

/-- The closure of a function with the cells that were captured. -/
theorem captures_of_cells {entry : Nat} {cells : List (String × CellId)}
    (h : captures.map w.cellOf? = cells.map fun u => some u.2)
    (hnames : captures.map Symbol.name = cells.map (·.1)) :
    w.Captures entry captures ⟨w.active, entry, cells.toArray⟩ := by
  have hat : ∀ i : Nat, captures[i]?.map w.cellOf? = cells[i]?.map fun u => some u.2 := by
    intro i
    rw [← List.getElem?_map, ← List.getElem?_map, h]
  refine ⟨rfl, rfl, ?_, fun i => ?_, fun s hs => ?_⟩
  · rw [hnames, Closure.upvalueNames, List.map_toArray]
  · have hi := hat i
    unfold Closure.upvalue?
    rw [List.getElem?_toArray]
    cases hs : captures[i]? with
    | none =>
      rw [hs] at hi
      rw [Option.map_eq_none_iff.1 hi.symm]
      rfl
    | some s =>
      rw [hs] at hi
      obtain ⟨u, hu, hcell⟩ := Option.map_eq_some_iff.1 hi.symm
      rw [hu]
      exact hcell
  · obtain ⟨i, hi⟩ := List.getElem?_of_mem hs
    have heq := hat i
    rw [hi] at heq
    obtain ⟨u, -, hcell⟩ := Option.map_eq_some_iff.1 heq.symm
    exact ⟨u.2, hcell.symm⟩

/-- What a closure instruction does. -/
theorem leads_closure (hc : r.Calm) (hr : r.Telling L) (entry : Nat) (captures : List Symbol) :
    (do (do push (← r.makeClosure entry captures)); advance; return none : Exec (Option Exit)).Leads w
      (w.Steps L depth (.closure entry captures)) (w.Tells L) := by
  have hcapture := working_captureAll hc hr captures w
  have hmade : (r.makeClosure entry captures).Leads w (fun _ w₁ => ∃ cells w₀,
      r.captureAll captures w = .ok cells w₀ ∧
        w₁ = { w₀ with heap := w₀.heap.addClosure ⟨w₀.active, entry, cells.toArray⟩ })
      (w.Tells L) := by
    refine Leads.bind (Q := fun cells w₀ => r.captureAll captures w = .ok cells w₀)
      ⟨id, hcapture.error⟩ fun cells w₀ hw₀ => ?_
    exact .of_ok rfl ⟨cells, w₀, hw₀, rfl⟩
  refine Leads.bind (Q := fun _ w₂ => ∃ cells w₀ v, r.captureAll captures w = .ok cells w₀ ∧
    w₂ = { w₀ with
      heap := w₀.heap.addClosure ⟨w₀.active, entry, cells.toArray⟩
      processor := { w₀.processor with values := w₀.processor.values.push v } })
    (hmade.bind ?_) ?_
  · rintro v w₁ ⟨cells, w₀, hw₀, rfl⟩
    exact .of_ok rfl ⟨cells, w₀, v, hw₀, rfl⟩
  · rintro - w₁ ⟨cells, w₀, v, hw₀, rfl⟩
    refine .of_ok rfl (.makes rfl ?_ (fun hg hw => ?_) fun hall => ?_)
    · obtain ⟨hcells, hclosures⟩ := (hcapture.ok hw₀).tells.precedes.trans
        (w₀.precedes_addClosure ⟨w₀.active, entry, cells.toArray⟩)
      exact ⟨hcells, hclosures⟩
    · exact ((hcapture.ok hw₀).stands hg hw).1.trans (.of_eq rfl)
    · obtain ⟨rfl, hmap, hnames⟩ := captureAll_ok hall hw₀
      exact ⟨_, _, captures_of_cells hmap hnames, rfl⟩

end Closures

/-! ## Calls -/

section Calls

variable {L : Placing} {r : Reentry} {w w' : World} {depth : Nat}

theorem leads_fail {α : Type} {Q : α → World → Prop} (f : Fault) :
    (fail f : Exec α).Leads w Q (w.Tells L) := by
  refine ⟨fun h => ?_, ((aside_fail f).telling w).error⟩
  cases h

theorem leads_checkDepth : checkDepth.Leads w (fun _ w' => w' = w) (w.Tells L) := by
  have hsteady : checkDepth.Steady := reworking_checkDepth
  refine ⟨fun {u w'} h => ?_, (hsteady.telling w).error⟩
  unfold checkDepth at h
  rw [bind_ok (processor_eq _), bind_ok (script_getD _)] at h
  split at h <;> cases h
  rfl

/-- A function that is entered has a frame on top, with no cells in its slots. -/
theorem leads_enterClosure (id : ClosureId) (args : List Value) (address : Option Nat)
    (site : Option Span) : (enterClosure id args address site).Leads w
      (fun _ w' => ∃ f : ScriptFrame, f.closure ∈ w.heap.closures ∧ f.closure.owner = w.active ∧
        f.locals = #[] ∧ f.symbols = [] ∧ f.returnAddress = address ∧
        w' = w.calls f w.processor.values)
      (w.Tells L) := by
  unfold enterClosure
  refine .get_bind ?_
  dsimp only
  split
  · exact leads_fail _
  · next c hc =>
    have hmem : c ∈ w.heap.closures := Array.mem_of_getElem? hc
    by_cases howner : c.owner = w.active
    · rw [if_neg (by simp [howner])]
      refine leads_checkDepth.bind ?_
      rintro - _ rfl
      exact .of_ok rfl ⟨_, hmem, howner, rfl, rfl, rfl, rfl⟩
    · rw [if_pos (by simp [howner])]
      exact (leads_fail _).bind fun _ _ => False.elim

theorem telling_suspend (args : List Value) : (suspend args).Telling L := by
  have hend : (do
      advance
      return some (.yielded (.ofList args)) : Exec (Option Exit)).Telling L := by
    refine Telling.bind (telling_modify fun w => ?_) fun _ => telling_pure _
    exact World.tells_withProcessor fun H hH => hH.processor.of_subset fun _ => id
  have hsecond : ∀ p : Processor, (do
      if !p.canYield then fail .yieldAcrossHost
      advance
      return some (.yielded (.ofList args)) : Exec (Option Exit)).Telling L := by
    intro p
    dsimp only
    split
    · exact (telling_fail _).bind fun _ => hend
    · exact hend
  unfold suspend
  refine aside_processor.telling.bind fun p => ?_
  dsimp only
  split
  · exact (telling_fail _).bind fun _ => hsecond p
  · exact hsecond p

theorem working_invoke (hc : r.Calm) (hr : r.Telling L) (c : Callback) (args : List Value)
    (caller : Option Span) : (invoke r c args caller).Working L :=
  (hc.invoke c args caller).working (hr.invoke c args caller)

/-- What a call does. -/
theorem leads_stepCall (hc : r.Calm) (hr : r.Telling L) (argc : Nat) (span : Option Span) :
    (r.stepCall argc span).Leads w (w.Steps L depth (.call argc)) (w.Tells L) := by
  have htaken : w.Works L (w.taken (argc + 1)) :=
    (World.Reworks.of_values w _ : w.Steady (w.taken (argc + 1))).works
  have hplain : OpCode.Plain (.call argc) := ⟨rfl, nofun, nofun⟩
  unfold Reentry.stepCall
  refine Leads.bind (Q := fun call w₁ => called argc w = .ok call w₁)
    ⟨id, ((reworking_called argc : (called argc).Steady).telling w).error⟩ ?_
  rintro ⟨f, args⟩ w₁ hcalled
  obtain rfl := called_world hcalled
  dsimp only
  split
  · refine .ok_bind rfl (((leads_enterClosure _ args _ span).mono (fun _ _ => id)
      fun _ => htaken.tells.trans).bind ?_)
    rintro - w₂ ⟨f, hf, howner, hlocals, hsymbols, hreturn, rfl⟩
    exact .of_ok rfl (.enters rfl hf howner hlocals hsymbols hreturn)
  · next c =>
    split
    · next hyield =>
      refine ⟨fun {exit w₂} h => ?_, fun h => htaken.tells.trans ((telling_suspend args _).error h)⟩
      obtain ⟨hallowed, rfl, rfl⟩ := exists_of_suspend_ok h
      exact .yields rfl hcalled hyield hallowed
    · refine (working_invoke hc hr c args span).leads_bind htaken fun v w₂ hw₂ => ?_
      refine (reworking_push v : (push v).Steady).working.leads_bind hw₂ fun _ w₃ hw₃ => ?_
      exact hw₃.leads_advance hplain (List.mem_singleton_self _)
  · exact (leads_fail _).mono (fun _ _ => id) fun _ => htaken.tells.trans

end Calls

/-! ## Returns -/

section Returns

variable {L : Placing} {w : World} {depth : Nat}

/-- The topmost frame is taken away, and its caller goes on, or the loop is left. -/
theorem leads_leaveWith (values : Nat) (result : Value) (vs : Array Value) :
    (Reentry.leaveWith depth result).Leads (w.standing vs w.processor.ip)
      (w.Steps L depth (.ret values)) (w.Tells L) := by
  have hstanding : w.Tells L (w.standing vs w.processor.ip) :=
    (World.Reworks.of_values w vs : w.Steady _).tells
  have hprocessor : ∀ u : World, processor u = .ok u.processor u := fun _ => rfl
  unfold Reentry.leaveWith
  refine .ok_bind (hprocessor _) ?_
  split
  · exact (leads_fail _).mono (fun _ _ => id) fun _ => hstanding.trans
  · next f hf =>
    refine .ok_bind rfl (.ok_bind rfl ?_)
    unfold Reentry.handBack
    split
    · next x hreturn =>
      refine .ok_bind (hprocessor _) ?_
      split
      · next hdepth => exact .of_ok rfl (.leaves rfl hf hreturn hdepth)
      · exact .of_ok rfl (.returns rfl)
    · exact .of_ok rfl (.returns rfl)

theorem leads_leaveFrame (values : Nat) :
    (leaveFrame depth values).Leads w (w.Steps L depth (.ret values)) (w.Tells L) := by
  rw [Reentry.leaveFrame_eq]
  refine Leads.bind (Q := fun _ w₁ => ∃ vs, w₁ = w.standing vs w.processor.ip) ?_ ?_
  · split
    · exact .of_ok rfl ⟨w.processor.values, rfl⟩
    · have hsteady : pop.Steady := reworking_pop
      refine ⟨fun {v w₁} h => ?_, (hsteady.telling w).error⟩
      unfold pop at h
      split at h <;> cases h
      exact ⟨_, rfl⟩
  · rintro result _ ⟨vs, rfl⟩
    exact leads_leaveWith values result vs

end Returns

/-! ## Instructions -/

section Instructions

variable {α : Type} {L : Placing} {r : Reentry} {w : World} {depth : Nat} {op : OpCode}

theorem working_assignSymbol (hc : r.Calm) (hr : r.Telling L) (s : Symbol) (v : Value) :
    (r.assignSymbol s v).Working L := by
  have hset : ∀ cell : CellId, (modifyHeap (·.setCell cell v.scalar)).Working L := fun cell =>
    (reworking_setCell cell _ : Exec.Steady _).working
  have hfail : ∀ f : Fault, (fail f : Exec Unit).Working L := fun f => (aside_fail f).working
  unfold Reentry.assignSymbol
  split
  · exact (steady_localCell _ _).working.bind fun cell => hset cell
  · refine aside_get.working.bind fun w => ?_
    split
    · exact hset _
    · exact hfail _
  · refine ((hc.alike.readSymbol _).working (hr.alike.readSymbol _)).bind fun env => ?_
    split
    · exact (hc.alike.setIndex _ _ _).working (hr.alike.setIndex _ _ _)
    · exact hfail _
  · exact hfail _

/-- A variable is declared with something that is made of an operand. -/
theorem leads_declareOperand (n slot : Nat) (g : Value → Value) (hordinary : op.isOrdinary = true) (hbound : op.bound = [slot])
    (htarget : w.processor.ip + 1 ∈ op.targets w.processor.ip) :
    (do (do declareLocal slot (g (← peek n))); advance; return none : Exec (Option Exit)).Leads w
      (w.Steps L depth op) (w.Tells L) := by
  have hsteady : (peek n).Steady := reworking_peek n
  refine World.leads_declares (Leads.bind (Q := fun _ w' => w' = w) ⟨fun {v w'} h => ?_,
    (hsteady.telling w).error⟩ ?_) hordinary htarget
  · unfold peek at h
    split at h
    · split at h <;> cases h
      rfl
    · cases h
  · rintro v _ rfl
    rw [hbound]
    exact leads_declareLocal slot _

/-- What an instruction does to variables. -/
theorem Reentry.Telling.step (hr : r.Telling L) (hc : r.Calm) (depth : Nat) (i : Instruction) :
    (r.step depth i).Leads w (w.Steps L depth i.op) (w.Tells L) := by
  obtain ⟨op, span⟩ := i
  have hsteady : ∀ {β : Type} {x : Exec β}, x.Steady → x.Working L := fun hx => hx.working
  have hpush : ∀ v, (push v).Working L := fun v => hsteady (reworking_push v)
  have hpop : pop.Working L := hsteady reworking_pop
  have hpeek : ∀ n, (peek n).Working L := fun n => hsteady (reworking_peek n)
  have hnext : w.processor.ip + 1 ∈ [w.processor.ip + 1] := List.mem_singleton_self _
  have hjump : ∀ t, t ∈ [t, w.processor.ip + 1] := fun t => List.mem_cons_self
  have hfall : ∀ t, w.processor.ip + 1 ∈ [t, w.processor.ip + 1] := fun t =>
    List.mem_cons_of_mem _ hnext
  have hplain : op.bound = [] → (∀ entry captures, op ≠ .closure entry captures) →
      (∀ locals, op ≠ .beginFn locals) → op.Plain := fun h₁ h₂ h₃ => ⟨h₁, h₂, h₃⟩
  cases op with
  | nop => exact (aside_pure _).working.onward (hplain rfl nofun nofun) hnext
  | header name params varargs =>
    exact (aside_pure _).working.onward (hplain rfl nofun nofun) hnext
  | beginFn locals =>
    refine Leads.bind (leads_beginFn locals) ?_
    rintro - w₁ ⟨hw₁, hsymbols⟩
    refine .of_ok rfl (hw₁.steps_advanced rfl nofun ?_ (fun _ h => h.2 _ rfl) hnext)
    rintro names f hop hf
    cases hop
    exact hsymbols f hf
  | args params varargs =>
    exact World.leads_declares (leads_bindArguments params varargs) rfl hnext
  | literal v => exact (hpush v).onward (hplain rfl nofun nofun) hnext
  | pop n =>
    have htruncate : ∀ height, (truncate height).Working L := fun height =>
      hsteady (reworking_truncate height)
    refine Working.onward (aside_processor.working.bind fun p => ?_) (hplain rfl nofun nofun)
      hnext
    dsimp only
    split
    · exact (aside_fail _).working.bind fun _ => htruncate _
    · exact htruncate _
  | copy n =>
    exact Working.onward ((hpeek n).bind fun v => hpush v) (hplain rfl nofun nofun) hnext
  | load s =>
    refine Working.onward (Working.bind ?_ fun v => hpush v) (hplain rfl nofun nofun) hnext
    exact (hc.alike.readSymbol s).working (hr.alike.readSymbol s)
  | store s index =>
    exact Working.onward ((hpeek 0).bind fun v => working_assignSymbol hc hr s _)
      (hplain rfl nofun nofun) hnext
  | «local» slot index =>
    exact leads_declareOperand 0 slot (·.nth index) rfl rfl hnext
  | closure entry captures => exact leads_closure hc hr entry captures
  | varargs =>
    refine Working.onward ?_ (hplain rfl nofun nofun) hnext
    exact (hsteady (reworking_topFrameOr _)).bind fun f => hpush _
  | call argc => exact leads_stepCall hc hr argc span
  | method name =>
    refine Working.onward (hpop.bind fun object => ?_) (hplain rfl nofun nofun) hnext
    refine ((hc.alike.index _ _).working (hr.alike.index _ _)).bind fun v => ?_
    exact (hpush v).bind fun _ => hpush object
  | ret values => exact leads_leaveFrame values
  | jump target =>
    exact (World.Works.refl w).leads_jump (hplain rfl nofun nofun) (List.mem_singleton_self _)
  | jumpIfFalse target =>
    refine hpop.leads_bind (.refl w) fun v u hu => ?_
    dsimp only
    split
    · exact hu.leads_advance (hplain rfl nofun nofun) (hfall target)
    · exact hu.leads_jump (hplain rfl nofun nofun) (hjump target)
  | jumpFalseOrPop target =>
    refine (hpeek 0).leads_bind (.refl w) fun v u hu => ?_
    dsimp only
    split
    · refine hpop.leads_bind hu fun _ u' hu' => ?_
      exact hu'.leads_advance (hplain rfl nofun nofun) (hfall target)
    · exact hu.leads_jump (hplain rfl nofun nofun) (hjump target)
  | jumpTrueOrPop target =>
    refine (hpeek 0).leads_bind (.refl w) fun v u hu => ?_
    dsimp only
    split
    · exact hu.leads_jump (hplain rfl nofun nofun) (hjump target)
    · refine hpop.leads_bind hu fun _ u' hu' => ?_
      exact hu'.leads_advance (hplain rfl nofun nofun) (hfall target)
  | binary op =>
    refine Working.onward (hpop.bind fun b => hpop.bind fun a => ?_) (hplain rfl nofun nofun)
      hnext
    exact ((hc.alike.binary op a b).working (hr.alike.binary op a b)).bind fun v => hpush v
  | not =>
    exact Working.onward (hpop.bind fun v => hpush _) (hplain rfl nofun nofun) hnext
  | neg =>
    refine Working.onward (hpop.bind fun a => ?_) (hplain rfl nofun nofun) hnext
    exact ((hc.alike.negate a).working (hr.alike.negate a)).bind fun v => hpush v
  | len =>
    refine Working.onward (hpop.bind fun a => ?_) (hplain rfl nofun nofun) hnext
    exact ((hc.alike.length a).working (hr.alike.length a)).bind fun v => hpush v
  | newTable =>
    exact Working.onward ((aside_newTable _).working.bind fun v => hpush v)
      (hplain rfl nofun nofun) hnext
  | tableSet =>
    refine Working.onward (hpop.bind fun v => hpop.bind fun key => ?_) (hplain rfl nofun nofun)
      hnext
    exact (hsteady reworking_tableOnTop).bind fun id => (aside_setIndex id _ v).working
  | tableAppend index expand =>
    refine Working.onward (hpop.bind fun v => ?_) (hplain rfl nofun nofun) hnext
    exact (hsteady reworking_tableOnTop).bind fun id => hsteady (reworking_storeItems id index _)
  | index =>
    refine Working.onward (hpop.bind fun k => hpop.bind fun object => ?_) (hplain rfl nofun nofun)
      hnext
    exact ((hc.alike.index _ _).working (hr.alike.index _ _)).bind fun v => hpush v
  | indexSet index =>
    refine Working.onward (hpop.bind fun k => hpop.bind fun object => (hpeek 0).bind fun v => ?_)
      (hplain rfl nofun nofun) hnext
    exact (hc.alike.setIndex _ _ _).working (hr.alike.setIndex _ _ _)
  | makeTuple n =>
    exact Working.onward ((hsteady (reworking_popMany n)).bind fun vs => hpush _)
      (hplain rfl nofun nofun) hnext
  | scalar =>
    exact Working.onward (hpop.bind fun v => hpush _) (hplain rfl nofun nofun) hnext
  | forPrep =>
    have hnumber : ∀ n what, (loopNumber n what).Working L := fun n what =>
      hsteady (reworking_loopNumber n what)
    have hset : ∀ n v, (setPeek n v).Working L := fun n v => hsteady (reworking_setPeek n v)
    have hrest : Exec.Working L (do
        let first ← loopNumber 2 "initial value"
        let limit ← loopNumber 1 "limit"
        let step ← loopNumber 0 "step"
        setPeek 2 (.number first)
        setPeek 1 (.number limit)
        setPeek 0 (.number step)) := by
      refine (hnumber _ _).bind fun first => (hnumber _ _).bind fun limit => ?_
      refine (hnumber _ _).bind fun step => (hset _ _).bind fun _ => ?_
      exact (hset _ _).bind fun _ => hset _ _
    refine Working.onward (aside_processor.working.bind fun p => ?_) (hplain rfl nofun nofun)
      hnext
    dsimp only
    split
    · exact (aside_fail _).working.bind fun _ => hrest
    · exact hrest
  | forLoop exit =>
    refine (hsteady reworking_loopState).leads_bind (.refl w) fun state u hu => ?_
    dsimp only
    split
    · exact hu.leads_goTo (hplain rfl nofun nofun) (hjump exit)
    · exact hu.leads_advance (hplain rfl nofun nofun) (hfall exit)
  | forStep =>
    refine Working.onward ((hsteady reworking_loopState).bind fun state => ?_)
      (hplain rfl nofun nofun) hnext
    exact hsteady (reworking_setPeek _ _)
  | forVar slot => exact leads_declareOperand 2 slot id rfl rfl hnext
  | iterPrep =>
    exact Working.onward (hpop.bind fun triple => hsteady (reworking_prepareIteration triple))
      (hplain rfl nofun nofun) hnext
  | iterCheck exit =>
    refine hpop.leads_bind (.refl w) fun result u hu => ?_
    dsimp only
    split
    · exact hu.leads_goTo (hplain rfl nofun nofun) (hjump exit)
    · refine (hpeek 0).leads_bind hu fun _ u hu => ?_
      refine (hsteady (reworking_setPeek _ _)).leads_bind hu fun _ u hu => ?_
      refine (hpush result).leads_bind hu fun _ u hu => ?_
      exact hu.leads_advance (hplain rfl nofun nofun) (hfall exit)

end Instructions

end LuaMachine
