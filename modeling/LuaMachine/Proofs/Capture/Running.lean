import LuaMachine.Proofs.Capture.Stepping
import LuaMachine.Proofs.Coroutine.Continuing

/-!
# Variables from one instruction to the next

If the activations of a loop are explained by a history, and an instruction is carried out, then they
are explained afterwards, by a longer history if the instruction has declared variables or made a
closure (`Reentry.recounts_step`). The cells that are visible at the next address are those that were
visible before, and those that have just been bound; what the instruction binds was not visible.
-/

namespace LuaMachine

open Exec

/-! ## Frames at their heights -/

namespace Processor

variable {p p' : Processor} {height x : Nat} {spared : Nat → Prop}

/-- Nothing returns into the topmost frame. -/
theorem StandsAt.eq_ip (h : p.StandsAt height x) (htop : p.frames.size = height + 1) : x = p.ip := by
  rcases h with ⟨-, hx⟩ | ⟨g, hg, -⟩
  · exact hx
  · have hlt := (Array.getElem?_eq_some_iff.1 hg).1
    omega

/-- A frame below others goes on where it did. -/
theorem Stands.standsAt (h : p.Stands spared p') (hx : p.StandsAt height x)
    (hnot : p.frames.size ≠ height + 1) : p'.StandsAt height x := by
  rcases hx with ⟨htop, -⟩ | ⟨g, hg, hreturn⟩
  · exact absurd htop.symm hnot
  · obtain ⟨g', hg', hbecomes⟩ := h.script hg
    exact .inr ⟨g', hg', hbecomes.returnAddress.trans hreturn⟩

theorem mem_of_scriptFrame? {f : ScriptFrame} (h : p.scriptFrame? = some f) : Frame.script f ∈ p.frames := by
  unfold scriptFrame? at h
  split at h
  · split at h
    · next hf =>
      cases h
      exact Array.mem_of_getElem? hf
    · cases h
  · cases h

end Processor

/-! ## Visible declarations -/

namespace OpCode

variable {op : OpCode} {p q : Place} {d : String × Nat}

/-- Operations leave the cells of visible declarations in their slots. -/
theorem Suits.spares (h : op.Suits p) (hd : d ∈ p.visible) : op.Spares d.2 := by
  have hempty : p.visible = [] → False := fun hnil => List.not_mem_nil (hnil ▸ hd)
  cases op with
  | beginFn locals => exact (hempty h).elim
  | args params varargs => exact (hempty h).elim
  | «local» slot index =>
    exact ⟨fun hslot => h d hd (List.mem_singleton.1 hslot), nofun⟩
  | forVar slot => exact ⟨fun hslot => h d hd (List.mem_singleton.1 hslot), nofun⟩
  | _ => exact ⟨List.not_mem_nil, nofun⟩

/-- What is visible afterwards was visible before, or has been declared. -/
theorem Passes.visible (h : op.Passes p q) (hd : d ∈ q.visible) : d ∈ p.visible ∨ d.2 ∈ op.bound := by
  obtain ⟨-, added, hadded, hsuffix⟩ := h
  rcases List.mem_append.1 (hsuffix.subset hd) with hnew | hold
  · have hslot := List.mem_map_of_mem (f := (·.2)) hnew
    rw [hadded] at hslot
    exact .inr (List.mem_reverse.1 hslot)
  · exact .inl hold

end OpCode

/-! ## Activations that live on -/

namespace World

variable {L : Placing} {H H' : List Execution} {v v' : World} {depth height x y : Nat}
  {spared : Nat → Prop}

/-- Activations that have a frame in both worlds live on from the one to the other. -/
def Sustains (L : Placing) (v v' : World) : Prop :=
  ∀ {d : String × Nat} {height : Nat} {u : World}, Lives L d height u v →
    (v.processor.frames.size = height + 1 → d ∈ (L v.active v.processor.ip).visible) →
    height < v'.processor.frames.size → Lives L d height u v'

theorem Carries.sustains {op : OpCode} (h : v.Carries op v') (hp : v'.Placed L) (hv : v.Closed) :
    v.Sustains L v' :=
  fun hlives hvisible hheight => hlives.carried h hp hv hvisible hheight

theorem YieldPoint.sustains (y : v.YieldPoint) : v.Sustains L y.after.advanced :=
  fun hlives hvisible _ => hlives.suspended y hvisible

/-- A visible declaration of an activation that lives on stays bound. -/
theorem Sustains.bound {d : String × Nat} {cell : CellId} (h : v.Sustains L v') (hH : H ⊆ H')
    (hx : v.processor.StandsAt height x) (hd : d ∈ (L v.active x).visible) (hheight : height < v'.processor.frames.size)
    (hbound : Bound L H v height d cell) : Bound L H' v' height d cell := by
  obtain ⟨e, he, hbinds, hlives⟩ := hbound
  exact ⟨e, hH he, hbinds, h hlives (fun htop => hx.eq_ip htop ▸ hd) hheight⟩

/-- A frame stays explained if visible declarations keep their cells, and the others have been bound. -/
theorem Sustains.explained {f f' : ScriptFrame} (h : v.Sustains L v') (hH : H ⊆ H')
    (hactive : v'.active = v.active) (hx : v.processor.StandsAt height x)
    (hf : f.Explained L H v height x) (hclosure : f'.closure = f.closure)
    (hcaptured : (L v.active y).captured = (L v.active x).captured)
    (hsymbols : f'.symbols = (L v.active y).slots) (hheight : height < v'.processor.frames.size)
    (hvisible : ∀ d ∈ (L v.active y).visible,
      d ∈ (L v.active x).visible ∧ (∀ cell, f.cell? d.2 = some cell → f'.cell? d.2 = some cell) ∨
        ∃ cell, f'.cell? d.2 = some cell ∧ Bound L H' v' height d cell) :
    f'.Explained L H' v' height y := by
  refine ⟨?_, ?_, ?_, hactive ▸ hsymbols, fun d hd => ?_⟩
  · rw [hclosure, hf.owner, hactive]
  · exact hclosure ▸ hf.told.mono hH
  · rw [hactive, hclosure, hcaptured, hf.captured]
  · rw [hactive] at hd
    rcases hvisible d hd with ⟨hold, hkept⟩ | hnew
    · obtain ⟨cell, hcell, hbound⟩ := hf.locals d hold
      exact ⟨cell, hkept cell hcell, h.bound hH hx hold hheight hbound⟩
    · exact hnew

/-- The topmost frame of explained activations. -/
theorem Lexical.top (h : v.Lexical L H depth) (hne : 0 < v.processor.frames.size) :
    ∃ height f, depth ≤ height ∧ v.processor.frames.size = height + 1 ∧
      v.processor.frames[height]? = some (.script f) ∧
      v.processor.frames.back? = some (.script f) ∧ f.Explained L H v height v.processor.ip := by
  obtain ⟨height, hheight⟩ := Nat.exists_eq_succ_of_ne_zero (Nat.ne_of_gt hne)
  have hdepth : depth ≤ height := by
    rcases h.above with hlt | rfl
    · omega
    · exact Nat.zero_le _
  have hget : v.processor.frames[height]? = v.processor.frames.back? := by
    rw [Array.back?_eq_getElem?, hheight, Nat.succ_sub_one]
  have hlt : height < v.processor.frames.size := by omega
  have hsome := Array.getElem?_eq_getElem hlt
  obtain ⟨f, x, hscript, hx, hf⟩ := h.explained hdepth hsome
  rw [hscript] at hsome
  exact ⟨height, f, hdepth, hheight, hsome, hget ▸ hsome, hx.eq_ip hheight ▸ hf⟩

/-- Activations that live on stay explained, where the topmost one goes on at another address. -/
theorem Lexical.sustained (h : v.Lexical L H depth) (hH : H ⊆ H') (hactive : v'.active = v.active)
    (hsustains : v.Sustains L v') (hstands : v.processor.Stands spared v'.processor)
    (hcaptured : (L v.active v'.processor.ip).captured = (L v.active v.processor.ip).captured)
    (hsymbols : ∀ {height : Nat} {f f' : ScriptFrame}, v'.processor.frames.size = height + 1 →
      v'.processor.frames[height]? = some (.script f') → f.Becomes spared f' →
      f.symbols = (L v.active v.processor.ip).slots → f'.symbols = (L v.active v'.processor.ip).slots)
    (hvisible : ∀ {height : Nat} {f' : ScriptFrame}, v'.processor.frames.size = height + 1 →
      v'.processor.frames[height]? = some (.script f') →
      ∀ d ∈ (L v.active v'.processor.ip).visible,
        d ∈ (L v.active v.processor.ip).visible ∧ spared d.2 ∨
          ∃ cell, f'.cell? d.2 = some cell ∧ Bound L H' v' height d cell) :
    v'.Lexical L H' depth := by
  refine ⟨hstands.size ▸ h.above, fun {height g'} hdepth hg' => ?_⟩
  have hlt' := (Array.getElem?_eq_some_iff.1 hg').1
  have hlt : height < v.processor.frames.size := hstands.size ▸ hlt'
  have hg := Array.getElem?_eq_getElem hlt
  obtain ⟨f, x, hscript, hx, hf⟩ := h.explained hdepth hg
  rw [hscript] at hg
  obtain ⟨f', hf', hbecomes⟩ := hstands.script hg
  obtain rfl := Option.some.inj (hg'.symm.trans hf')
  by_cases htop : v.processor.frames.size = height + 1
  · have htop' := hstands.size.trans htop
    obtain rfl := hx.eq_ip htop
    refine ⟨f', _, rfl, .inl ⟨htop'.symm, rfl⟩, ?_⟩
    have hbecomes : f.Becomes spared f' := hbecomes.mono fun slot hslot _ => hslot
    refine hsustains.explained hH hactive hx hf hbecomes.closure hcaptured
      (hsymbols htop' hf' hbecomes hf.symbols) hlt' fun d hd => ?_
    refine (hvisible htop' hf' d hd).imp_left fun ⟨hold, hspared⟩ => ⟨hold, fun cell => ?_⟩
    exact hbecomes.cells d.2 cell hspared
  · refine ⟨f', x, rfl, hstands.standsAt hx htop, ?_⟩
    have hspared : ∀ slot, height + 1 = v.processor.frames.size → spared slot :=
      fun slot hsize => absurd hsize.symm htop
    refine hsustains.explained hH hactive hx hf hbecomes.closure rfl
      ((hbecomes.symbols 0 (hspared 0)).trans hf.symbols) hlt' fun d hd => .inl ⟨hd, fun cell => ?_⟩
    exact hbecomes.cells d.2 cell (hspared d.2)

/-- An operation that neither declares variables nor calls passes control on. -/
theorem Lexical.proceeds {op : OpCode} (h : v.Lexical L H depth) (hH : H ⊆ H')
    (hactive : v'.active = v.active) (hsustains : v.Sustains L v') (hp : v.Placed L)
    (hop : v.ops v.processor.ip = some op) (hbound : op.bound = [])
    (hnames : ∀ names f, op = .beginFn names → v'.processor.frames.back? = some (.script f) →
      f.symbols = names)
    (hstands : v.processor.Stands op.Spares v'.processor)
    (htarget : v'.processor.ip ∈ op.targets v.processor.ip) : v'.Lexical L H' depth := by
  have hpasses := hp.passes hop htarget
  refine h.sustained hH hactive hsustains hstands hpasses.captured ?_ fun _ _ d hd => ?_
  · intro height f f' htop hf' hbecomes hf
    by_cases hbegin : ∃ names, op = .beginFn names
    · obtain ⟨names, rfl⟩ := hbegin
      rw [hnames names f' rfl (by rw [Array.back?_eq_getElem?, htop]; exact hf')]
      exact (congrArg Outline.slots hpasses.1).symm
    · have hbegin := not_exists.1 hbegin
      rw [hpasses.slots hbegin, ← hf]
      exact hbecomes.symbols 0 ⟨hbound ▸ List.not_mem_nil, hbegin⟩
  · rcases hpasses.visible hd with hold | hnew
    · exact .inl ⟨hold, (hp.suits hop).spares hold⟩
    · rw [hbound] at hnew
      cases hnew

/-! ## Declarations -/

/-- Slots of the topmost frame that have been declared. -/
theorem Declares.cells {slots : List Nat} (h : v.Declares slots v') {f : ScriptFrame}
    (htop : v'.processor.frames.size = height + 1)
    (hf : v'.processor.frames[height]? = some (.script f)) :
    (∀ slot ∈ slots, ∃ cell, f.cell? slot = some cell ∧
      v.heap.cells.size ≤ cell.index ∧ cell.index < v'.heap.cells.size) ∧
    ∀ slot ∈ slots, ∀ slot' ∈ slots, f.cell? slot = f.cell? slot' → slot = slot' := by
  obtain ⟨f', hf', hcells⟩ := h.binds
  rw [Array.back?_eq_getElem?, htop, Nat.add_sub_cancel, hf] at hf'
  cases hf'
  exact hcells

/-- What was carried out last is the latest entry of the history. -/
theorem Explained.record {w : World} {e : Execution} (h : w.Explained L H)
    (hrecorded : Recorded L (e :: H) w) : w.Explained L (e :: H) :=
  h.grow (List.subset_cons_self _ _) hrecorded (Nat.le_refl _) (fun _ => .inl)
    (fun c hc _ hbody => .inl ⟨c, hc, rfl, hbody⟩) (fun s hs => .inl ⟨s, hs, rfl⟩) h.processor

/-! ## Calls and returns -/

/-- A function that has been called has no visible declarations yet. -/
theorem explained_of_called {f : ScriptFrame} (howner : f.closure.owner = v.active)
    (hsymbols : f.symbols = []) (hentry : f.closure.Told L H ∧
      (L v.active f.closure.entry).visible = [] ∧ (L v.active f.closure.entry).slots = []) :
    f.Explained L H v height f.closure.entry := by
  obtain ⟨htold, hvisible, hslots⟩ := hentry
  refine ⟨howner, htold, rfl, hsymbols.trans hslots.symm, fun d hd => ?_⟩
  rw [hvisible] at hd
  cases hd

theorem Explained.entry {w : World} (h : w.Explained L H) (hp : w.Placed L) (hclosed : w.Closed)
    {c : Closure} (hc : c ∈ w.heap.closures) (hactive : w.active.index < w.scripts.size)
    (howner : c.owner = w.active) :
    c.Told L H ∧ (L w.active c.entry).visible = [] ∧ (L w.active c.entry).slots = [] := by
  obtain ⟨i, hi⟩ := Array.getElem?_of_mem hc
  refine ⟨(h.closures c hc).1, ?_⟩
  rw [← howner]
  exact hp.entry (hclosed i c hi) (howner ▸ hactive)

/-- The frame of a function that has been called is on top of the others. -/
theorem Lexical.calls {f : ScriptFrame} (h : v.Lexical L H depth) (hactive : v'.active = v.active)
    (hframes : v'.processor.frames = v.processor.frames.push (.script f))
    (hip : v'.processor.ip = f.closure.entry) (hsustains : v.Sustains L v') (hreturn : f.returnAddress = some y)
    (hcaptured : (L v.active y).captured = (L v.active v.processor.ip).captured)
    (hslots : (L v.active y).slots = (L v.active v.processor.ip).slots)
    (hvisible : ∀ d ∈ (L v.active y).visible, d ∈ (L v.active v.processor.ip).visible)
    (hf : ∀ height, f.Explained L H v' height f.closure.entry) : v'.Lexical L H depth := by
  have hsize : v'.processor.frames.size = v.processor.frames.size + 1 := by
    rw [hframes]
    exact Array.size_push _
  refine ⟨h.above.imp_left fun hlt => by omega, fun {height g} hdepth hg => ?_⟩
  have hlt' := (Array.getElem?_eq_some_iff.1 hg).1
  by_cases htop : height = v.processor.frames.size
  · subst htop
    rw [hframes, Array.getElem?_push_size] at hg
    cases hg
    exact ⟨f, _, rfl, .inl ⟨hsize.symm, hip.symm⟩, hf _⟩
  · have hbelow : height < v.processor.frames.size := by omega
    have hold : v.processor.frames[height]? = some g := by
      rw [← hg, hframes]
      exact ((Array.getElem?_push_lt hbelow).trans (Array.getElem?_eq_getElem hbelow).symm).symm
    obtain ⟨f₀, x, rfl, hx, hf₀⟩ := h.explained hdepth hold
    rcases hx with ⟨hcaller, rfl⟩ | ⟨g, hg', hreturn'⟩
    · refine ⟨f₀, y, rfl, .inr ⟨f, ?_, hreturn⟩, ?_⟩
      · rw [hframes, hcaller]
        exact Array.getElem?_push_size
      · exact hsustains.explained (fun _ => id) hactive (.inl ⟨hcaller, rfl⟩) hf₀ rfl hcaptured
          (hf₀.symbols.trans hslots.symm) hlt' fun d hd => .inl ⟨hvisible d hd, fun _ => id⟩
    · have hlt := (Array.getElem?_eq_some_iff.1 hg').1
      refine ⟨f₀, x, rfl, .inr ⟨g, ?_, hreturn'⟩, ?_⟩
      · rw [← hg', hframes]
        exact (Array.getElem?_push_lt hlt).trans (Array.getElem?_eq_getElem hlt).symm
      · exact hsustains.explained (fun _ => id) hactive (.inr ⟨g, hg', hreturn'⟩) hf₀ rfl rfl
          hf₀.symbols hlt' fun d hd => .inl ⟨hd, fun _ => id⟩

/-- The caller goes on when the topmost frame is gone. -/
theorem Lexical.leaves {f : Frame} (h : v.Lexical L H depth) (hactive : v'.active = v.active)
    (hframes : v'.processor.frames = v.processor.frames.pop) (hip : v'.processor.ip = y)
    (hsustains : v.Sustains L v') (hf : v.processor.frames.back? = some f)
    (hreturn : f.returnAddress = some y) (hdepth : depth < v.processor.frames.pop.size) :
    v'.Lexical L H depth := by
  refine ⟨.inl (hframes ▸ hdepth), fun {height g} hheight hg => ?_⟩
  have hlt' := (Array.getElem?_eq_some_iff.1 hg).1
  have hpop : ∀ {i : Nat}, i < v.processor.frames.pop.size →
      v'.processor.frames[i]? = v.processor.frames[i]? := by
    intro i hi
    rw [Array.size_pop] at hi
    rw [hframes, Array.getElem?_pop, if_pos hi]
  have hlt : height < v.processor.frames.pop.size := hframes ▸ hlt'
  rw [hpop hlt] at hg
  obtain ⟨f₀, x, rfl, hx, hf₀⟩ := h.explained hheight hg
  have hkept : f₀.Explained L H v' height x :=
    hsustains.explained (fun _ => id) hactive hx hf₀ rfl rfl hf₀.symbols hlt'
      fun d hd => .inl ⟨hd, fun _ => id⟩
  rw [Array.size_pop] at hlt
  refine ⟨f₀, x, rfl, ?_, hkept⟩
  rcases hx with ⟨htop, -⟩ | ⟨g, hg', hreturn'⟩
  · omega
  · by_cases hlast : height + 2 = v.processor.frames.size
    · have hback : v.processor.frames.back? = some (.script g) := by
        rw [Array.back?_eq_getElem?, ← hlast]
        exact hg'
      rw [hf] at hback
      cases hback
      refine .inl ⟨?_, ?_⟩
      · rw [hframes, Array.size_pop]
        omega
      · exact (Option.some.inj (hreturn'.symm.trans hreturn)).trans hip.symm
    · have hlt₁ := (Array.getElem?_eq_some_iff.1 hg').1
      refine .inr ⟨g, ?_, hreturn'⟩
      rw [hpop (by rw [Array.size_pop]; omega)]
      exact hg'

/-! ## Declarations and closures -/

variable {v₁ : World} {op : OpCode}

/-- Variables are declared: the topmost frame has their cells, which are new. -/
theorem Lexical.declares {w₁ : World} (h : v.Lexical L H depth) (hH : v.Explained L H)
    (hp : v.Placed L) (hp' : w₁.advanced.Placed L) (hv : v.Closed)
    (hop : v.ops v.processor.ip = some op) (hcarries : v.Carries op w₁.advanced)
    (hdeclares : v.Declares op.bound w₁) (hordinary : op.isOrdinary = true)
    (htarget : v.processor.ip + 1 ∈ op.targets v.processor.ip) :
    ∃ H', H <:+ H' ∧ w₁.advanced.Explained L H' ∧ w₁.advanced.Lexical L H' depth := by
  have hreworks := hdeclares.reworks
  have hactive : w₁.advanced.active = v.active := hreworks.active
  have hip : w₁.advanced.processor.ip = v.processor.ip + 1 := congrArg (· + 1) hreworks.ip
  have hstands : v.processor.Stands op.Spares w₁.advanced.processor :=
    (hreworks.mono fun _ hspares => hspares.1).stands.trans (.of_eq rfl)
  obtain ⟨f₁, hf₁, -⟩ := hdeclares.binds
  obtain ⟨height, f, -, hheight, hf, -, hexplained⟩ := h.top (by
    rw [← hreworks.stands.size]
    exact Array.size_pos_iff.2 fun hempty => by simp [hempty] at hf₁)
  let e : Execution := ⟨v, op, w₁.advanced, hcarries⟩
  have hcells : ∀ {height : Nat} {f' : ScriptFrame}, v.processor.frames.size = height + 1 →
      w₁.advanced.processor.frames[height]? = some (.script f') → _ := fun htop hf' =>
    hdeclares.cells (hreworks.stands.size.trans htop) hf'
  have hsound : e.Sound L := by
    refine ⟨hp', hv, ⟨hreworks.precedes.cells, hreworks.precedes.closures⟩, hp.suits hop, ?_, ?_,
      fun h => absurd h (OpCode.ne_closure hordinary _ _)⟩
    · rintro height slot cell ⟨hslot, htop, f', hf', hcell⟩
      obtain ⟨cell', hcell', hnew⟩ := (hcells htop hf').1 slot hslot
      rw [hcell] at hcell'
      cases hcell'
      exact hnew
    · rintro height slot slot' cell ⟨hslot, htop, f', hf', hcell⟩ ⟨hslot', -, f'', hf'', hcell'⟩
      rw [hf'] at hf''
      cases hf''
      exact (hcells htop hf').2 slot hslot slot' hslot' (hcell.trans hcell'.symm)
  have hwithout : w₁.advanced.Explained L H := by
    have hw₁ := hreworks.explained hH
    exact hw₁.withProcessor (hw₁.processor.of_subset fun _ => id)
  refine ⟨e :: H, List.suffix_cons e H, hwithout.record ?_, ?_⟩
  · exact .cons hH.recorded hheight hf hexplained hsound (.refl _)
  · have hpasses := hp.passes hop htarget
    rw [← hip] at hpasses
    have hbegin : ∀ names, op ≠ .beginFn names := by
      rintro names rfl
      cases hordinary
    refine h.sustained (List.subset_cons_self e H) hactive (hcarries.sustains hp' hv) hstands
      hpasses.captured ?_ ?_
    · intro height f f' _ _ hbecomes hf
      obtain ⟨slot, hslot⟩ := op.exists_not_mem_bound
      rw [hpasses.slots hbegin, ← hf]
      exact hbecomes.symbols slot ⟨hslot, hbegin⟩
    · intro height f' htop hf' d hd
      rcases hpasses.visible hd with hold | hnew
      · exact .inl ⟨hold, (hp.suits hop).spares hold⟩
      · have htop' := hstands.size.symm.trans htop
        obtain ⟨cell, hcell, -⟩ := (hcells htop' hf').1 d.2 hnew
        exact .inr ⟨cell, hcell, e, List.mem_cons_self, ⟨hnew, htop', f', hf', hcell⟩, .here⟩

theorem cellOf?_congr (h : v₁.processor = v.processor) : v₁.cellOf? = v.cellOf? := by
  funext s
  unfold cellOf?
  rw [h]

/-- The cell of a symbol is one that a frame refers to. -/
theorem refers_of_cellOf? {s : Symbol} {cell : CellId} (h : v.cellOf? s = some cell) :
    v.processor.Refers cell := by
  unfold cellOf? at h
  split at h
  · cases h
  · next f hf =>
    refine ⟨f, Processor.mem_of_scriptFrame? hf, ?_⟩
    split at h
    · next slot =>
      refine .inr ⟨slot, ?_⟩
      split at h
      · next hslot =>
        rw [ScriptFrame.cell?, hslot]
        exact h
      · cases h
    · next i => exact .inl ⟨i, h⟩
    · cases h

theorem mem_visible_of_slot? {vis : Visible} {name : String} {slot : Nat}
    (h : vis.slot? name = some slot) : (name, slot) ∈ vis := by
  obtain ⟨⟨name', slot'⟩, hfind, rfl⟩ := Option.map_eq_some_iff.1 h
  obtain rfl : name' = name := by simpa using List.find?_some hfind
  exact List.mem_of_find?_eq_some hfind

/-- The variables that a closure captures are there. -/
theorem Lexical.mayCapture {entry : Nat} {captures : List Symbol} (h : v.Lexical L H depth)
    (hp : v.Placed L) (hop : v.ops v.processor.ip = some (.closure entry captures)) :
    ∀ s ∈ captures, v.MayCapture s := by
  intro s hs
  obtain ⟨hvariable, hnames⟩ := hp.suits hop s hs
  refine ⟨hvariable, ?_⟩
  rintro name slot f rfl hf
  obtain ⟨height, f', -, -, -, hf', hexplained⟩ := h.top (Array.size_pos_iff.2 fun hempty => by
    simp [hempty] at hf)
  rw [hf] at hf'
  cases hf'
  obtain ⟨cell, hcell, -⟩ := hexplained.locals _ (mem_visible_of_slot? hnames)
  exact ⟨cell, hcell⟩

/-- A closure is made, which has the cells of its variables. -/
theorem Lexical.makes {entry : Nat} {captures : List Symbol} {c : Closure} {vs : Array Value}
    (h : v.Lexical L H depth) (hH : v.Explained L H) (hp : v.Placed L) (hp' : v'.Placed L)
    (hv : v.Closed) (hop : v.ops v.processor.ip = some (.closure entry captures)) (haside : v.Aside v₁)
    (hv' : v' = { v₁ with heap := v₁.heap.addClosure c }.standing vs (v.processor.ip + 1))
    (hcarries : v.Carries (.closure entry captures) v') (hcaptures : v.Captures entry captures c) :
    ∃ H', H <:+ H' ∧ v'.Explained L H' ∧ v'.Lexical L H' depth := by
  have hprocessor : v'.processor = { v.processor with values := vs, ip := v.processor.ip + 1 } := by
    rw [hv', ← haside.processor]
    rfl
  have hprecedes : v.Precedes v' := by
    obtain ⟨hcells, hclosures⟩ :=
      (haside.reworks : v.Steady v₁).precedes.trans (v₁.precedes_addClosure c)
    exact hv' ▸ ⟨hcells, hclosures⟩
  have hclosures : v'.heap.closures = v.heap.closures.push c := by
    rw [hv', ← haside.closures]
    rfl
  have hlexical : ∀ {H' : List Execution}, H ⊆ H' → v'.Lexical L H' depth := by
    intro H' hH'
    refine h.proceeds hH' (hv' ▸ haside.active) (hcarries.sustains hp' hv) hp hop rfl ?_ (.of_eq ?_) ?_
    · rintro names f hop'
      cases hop'
    · rw [hprocessor]
    · rw [hprocessor]
      exact List.mem_singleton_self _
  have hplace := hp.closures hop
  rw [← hcaptures.entry_eq, ← hcaptures.owner] at hplace
  have hbelow : c.Below v'.heap.cells.size := by
    rintro cell ⟨i, hi⟩
    rw [hcaptures.upvalue] at hi
    obtain ⟨s, -, hcell⟩ := Option.bind_eq_some_iff.1 hi
    exact Nat.lt_of_lt_of_le (hH.processor cell (refers_of_cellOf? hcell)) hprecedes.cells
  have hgrow : ∀ {H' : List Execution}, H ⊆ H' → Recorded L H' v' → c.Told L H' →
      v'.Explained L H' := by
    intro H' hH' hrecorded htold
    have hv₁ : v₁.Explained L H := (haside.reworks : v.Steady v₁).explained hH
    refine hv₁.grow hH' hrecorded (hv' ▸ Nat.le_refl _) (fun c' hc' => ?_)
      (fun c' hc' body hbody => .inl ⟨c', ?_, rfl, hbody⟩) (fun s hs => .inl ⟨s, ?_, rfl⟩) ?_
    · rw [hclosures] at hc'
      rcases Array.mem_push.1 hc' with hold | rfl
      · exact .inl (haside.closures ▸ hold)
      · exact .inr ⟨htold, hbelow⟩
    · rw [hv'] at hc'
      exact hc'
    · rw [hv'] at hs
      exact hs
    · refine (hH.processor.mono hprecedes.cells).of_subset fun f hf => ?_
      rw [hprocessor] at hf
      exact hf
  by_cases hempty : v.processor.frames.size = 0
  · -- without a frame there is nothing to capture, as in a function that was loaded
    have hnil : captures = [] := List.eq_nil_iff_forall_not_mem.2 fun s hs => by
      obtain ⟨cell, hcell⟩ := hcaptures.declared s hs
      obtain ⟨f, hf, -⟩ := refers_of_cellOf? hcell
      rw [Array.size_eq_zero_iff.1 hempty] at hf
      exact Array.not_mem_empty _ hf
    have hnames := hcaptures.names
    rw [hnil] at hplace hnames
    refine ⟨H, List.suffix_refl H, hgrow (fun _ => id) (hH.recorded.mono hprecedes) ?_,
      hlexical fun _ => id⟩
    refine .inl ?_
    unfold Closure.Loaded
    rw [hplace, hnames]
    exact ⟨List.nil_prefix, List.nil_prefix⟩
  · obtain ⟨height, f, -, hheight, hf, -, hexplained⟩ := h.top (Nat.pos_of_ne_zero hempty)
    let e : Execution := ⟨v, .closure entry captures, v', hcarries⟩
    have hmade : v'.heap.closures[v.heap.closures.size]? = some c := by
      rw [hclosures]
      exact Array.getElem?_push_size
    have hsound : e.Sound L := by
      refine ⟨hp', hv, hprecedes, hp.suits hop, ?_, ?_, ?_⟩
      · rintro height slot cell ⟨hslot, -⟩
        cases hslot
      · rintro height slot slot' cell ⟨hslot, -⟩
        cases hslot
      · rintro entry' captures' c' hop' ⟨-, hmade'⟩
        cases hop'
        obtain rfl := Option.some.inj (hmade.symm.trans hmade')
        exact ⟨hplace, hcaptures.names, hcaptures.upvalue⟩
    refine ⟨e :: H, List.suffix_cons e H, hgrow (List.subset_cons_self e H) ?_ (.inr ?_),
      hlexical (List.subset_cons_self e H)⟩
    · exact .cons hH.recorded hheight hf hexplained hsound (.refl _)
    · exact ⟨e, List.mem_cons_self, ⟨entry, captures, rfl⟩, hmade⟩

end World

end LuaMachine
