import LuaMachine.Proofs.Flat.Library
import LuaMachine.Proofs.Machine.Running

/-!
# What instructions sift

An instruction that finds the shape it expects leaves the shape that the code foresees, keeps a sane
world sane, and gives flat values to the stack (`Reentry.Sifting.steps`). A computation in the frame of
a function takes one shape to another one (`Exec.Bears`), as it takes one number of values to another one
in `Activation.Takes`.
-/

namespace LuaMachine

open Exec

/-- Control is at an address, and above `n` values of others there are values of a shape. -/
structure Lies (n : Nat) (σ : Shape) (x : Nat) (p : Processor) : Prop where
  ip : p.ip = x
  tops : Tops n σ p

namespace Exec

variable {α β : Type} {n : Nat} {σ π τ : Shape} {P P' : Prop} {Q : α → Prop} {R : β → Prop}

/-- A computation in the frame of a function takes values of one shape to values of another one. -/
def Bears (n : Nat) (σ τ : Shape) (P : Prop) (e : Exec α) (Q : α → Prop) : Prop :=
  ∀ x w, e.Sifts w (Lies n σ x w.processor ∧ P) fun a w' => Lies n τ x w'.processor ∧ Q a

theorem Bears.bind {e : Exec α} {f : α → Exec β} (he : Bears n σ π P e Q)
    (hf : ∀ a, Bears n π τ (P ∧ Q a) (f a) R) : Bears n σ τ P (e >>= f) R := by
  intro x w
  refine (he x w).bind fun a w' _ => (hf a x w').mono ?_ fun _ _ _ => id
  exact fun h => ⟨h.2.1, h.1.2, h.2.2⟩

theorem Bears.mono {e : Exec α} {Q' : α → Prop} (h : Bears n σ τ P e Q) (hP : P' → P)
    (hQ : ∀ a, Q a → Q' a) : Bears n σ τ P' e Q' :=
  fun x w => (h x w).mono (fun h => ⟨h.1, hP h.2⟩) fun _ a _ h => ⟨h.1, hQ a h.2⟩

theorem Bears.weaken {e : Exec α} (h : Bears n σ τ P e Q) (hP : P' → P) : Bears n σ τ P' e Q :=
  h.mono hP fun _ => id

theorem Bears.start {e : Exec α} (he : Bears n σ τ P e Q) {x : Nat} {w : World}
    (h : P → Lies n σ x w.processor) : e.Sifts w P fun a w' => Lies n τ x w'.processor ∧ Q a :=
  (he x w).mono (fun hp => ⟨h hp, hp⟩) fun _ _ _ => id

/-- What leaves the processor alone leaves the shape of its stack. -/
theorem bears_of_calm {e : Exec α} (hc : Calm e) (hs : Sifting P e Q) : Bears n σ σ P e Q := by
  intro x w
  have hboth := ((hs w).mono And.right fun _ _ _ => id).and_keeps (hc.moves (Lies n σ x) w) And.left
  exact hboth.mono id fun _ _ _ h => ⟨h.2, h.1⟩

theorem bears_pure {a : α} (h : P → Q a) : Bears n σ σ P (pure a) Q :=
  bears_of_calm (calm_pure a) (sifting_pure h)

theorem bears_fail (f : Fault) : Bears n σ τ P (fail f : Exec α) Q :=
  fun _ w => .of_error rfl (.refl w) fun _ hw _ => ⟨hw, rfl⟩

theorem sifts_modifyProcessor {f : Processor → Processor} {w : World} {Q : Unit → World → Prop}
    (h : w.Flat → P → (f w.processor).Flat ∧ Q () { w with processor := f w.processor }) :
    (modifyProcessor f).Sifts w P Q := by
  have hf : w.Follows { w with processor := f w.processor } := World.follows_of_eq rfl
  refine .of_ok rfl hf fun hg hw hp => ?_
  obtain ⟨hflat, hq⟩ := h hw.flat hp
  exact ⟨hw.grow hf hg rfl (hw.flat.withProcessor hflat), hq⟩

theorem bears_modifyProcessor {f : Processor → Processor}
    (hflat : ∀ p : Processor, P → p.Flat → (f p).Flat)
    (hlies : ∀ x p, P → Lies n σ x p → Lies n τ x (f p)) :
    Bears n σ τ P (modifyProcessor f) fun _ => True :=
  fun x _ => sifts_modifyProcessor fun hw hp =>
    ⟨hflat _ hp.2 hw.processor, hlies x _ hp.2 hp.1, trivial⟩

/-! ### Values -/

theorem bears_push {v : Value} {b : Bool} (hv : P → v.Flat) (hb : P → b = true → v.Single) :
    Bears n σ (b :: σ) P (push v) fun _ => True :=
  bears_modifyProcessor (fun _ hp h => h.push (hv hp)) fun _ _ hp h => ⟨h.ip, h.tops.push (hb hp)⟩

theorem bears_pop (hn : 1 ≤ σ.length) :
    Bears n σ (σ.drop 1) P pop fun v => v.Flat ∧ (σ[0]? = some true → v.Single) := by
  intro x w
  cases hv : w.processor.values.back? with
  | none =>
    have hpop : pop w = .error (.error (.ofFault .stackUnderflow)) w := by
      simp only [pop, hv]
    exact .of_error hpop (.refl w) fun _ hw _ => ⟨hw, rfl⟩
  | some v =>
    have hpop : pop w = .ok v { w with processor :=
        { w.processor with values := w.processor.values.pop } } := by
      simp only [pop, hv]
    have hf : w.Follows { w with processor :=
        { w.processor with values := w.processor.values.pop } } := World.follows_of_eq rfl
    have hlast : w.processor.values[w.processor.values.size - 1]? = some v := by
      rw [← hv, Array.back?]
    have hlt := (Array.getElem?_eq_some_iff.1 hlast).1
    refine .of_ok hpop hf fun hg hw hp => ⟨hw.grow hf hg rfl ?_, ?_, ?_, fun hi => ?_⟩
    · exact hw.flat.withProcessor hw.flat.processor.popValue
    · refine ⟨hp.1.ip, ?_⟩
      have hdrop := hp.1.tops.drop hn
      rw [Array.shrink_eq_take, Array.take, Array.extract_eq_pop rfl] at hdrop
      exact hdrop
    · exact hw.flat.processor.values v (Array.mem_of_getElem? hlast)
    · refine hp.1.tops.single hi ?_
      rw [Processor.getElem?_stack _ (by omega)]
      exact hlast

theorem bears_popMany {k : Nat} (hk : k ≤ σ.length) :
    Bears n σ (σ.drop k) P (popMany k) fun _ => True := by
  intro x w
  by_cases hsize : k ≤ w.processor.values.size
  · have hf : w.Follows { w with processor := { w.processor with
        values := w.processor.values.shrink (w.processor.values.size - k) } } := World.follows_of_eq rfl
    refine .of_ok (if_pos hsize) hf fun hg hw hp => ⟨hw.grow hf hg rfl ?_, ?_, trivial⟩
    · exact hw.flat.withProcessor (hw.flat.processor.shrink _)
    · exact ⟨hp.1.ip, hp.1.tops.drop hk⟩
  · exact .of_error (if_neg hsize) (.refl w) fun _ hw _ => ⟨hw, rfl⟩

theorem bears_peek (d : Nat) :
    Bears n σ σ P (peek d) fun v => v.Flat ∧ (σ[d]? = some true → v.Single) := by
  intro x w
  have hunder : peek d w = .error (.error (.ofFault .stackUnderflow)) w ∨
      ∃ v, d < w.processor.values.size ∧
        w.processor.values[w.processor.values.size - 1 - d]? = some v ∧ peek d w = .ok v w := by
    unfold peek
    split
    · next hd =>
      split
      · next v hv => exact .inr ⟨v, hd, hv, rfl⟩
      · exact .inl rfl
    · exact .inl rfl
  rcases hunder with h | ⟨v, hd, hv, h⟩
  · exact .of_error h (.refl w) fun _ hw _ => ⟨hw, rfl⟩
  · refine .of_ok h (.refl w) fun _ hw hp => ⟨hw, hp.1, ?_, fun hi => ?_⟩
    · exact hw.flat.processor.values v (Array.mem_of_getElem? hv)
    · exact hp.1.tops.single hi ((Processor.getElem?_stack _ hd).trans hv)

theorem bears_setPeek {d : Nat} (hd : d < σ.length) {v : Value} (hv : P → v.Single) :
    Bears n σ (σ.set d true) P (setPeek d v) fun _ => True := by
  refine bears_modifyProcessor (fun p hp h => ?_) fun x p hp h => ⟨h.ip, h.tops.set hd (hv hp)⟩
  refine ⟨fun u hu => ?_, h.frames⟩
  rcases Array.mem_or_eq_of_mem_setIfInBounds hu with hu | rfl
  · exact h.values u hu
  · exact (hv hp).flat

/-! ### The frame -/

theorem sifting_topFrameOr (missing : Fault) : Sifting P (topFrameOr missing) ScriptFrame.Flat := by
  intro w
  unfold topFrameOr
  cases hback : w.processor.frames.back? with
  | none =>
    refine .of_error (e := .ofFault missing) (by simp only [hback]) (.refl w) fun _ hw _ => ⟨hw, rfl⟩
  | some frame =>
    cases frame with
    | host name base site =>
      refine .of_error (e := .ofFault missing) (by simp only [hback]) (.refl w) fun _ hw _ => ?_
      exact ⟨hw, rfl⟩
    | script f =>
      refine .of_ok (a := f) (by simp only [hback]) (.refl w) fun _ hw _ => ⟨hw, ?_⟩
      exact hw.flat.processor.frames f (Array.mem_of_getElem? hback)

theorem bears_topFrameOr (missing : Fault) :
    Bears n σ σ P (topFrameOr missing) ScriptFrame.Flat :=
  bears_of_calm (aside_topFrameOr missing).calm (sifting_topFrameOr missing)

theorem bears_modifyTopFrame {g : ScriptFrame → ScriptFrame}
    (hg : ∀ f : ScriptFrame, P → f.Flat → (g f).Flat) :
    Bears n σ σ P (modifyTopFrame g) fun _ => True := by
  refine bears_modifyProcessor (fun p hp h => ⟨h.values, fun f hf => ?_⟩)
    fun x p _ h => ⟨h.ip, h.tops.of_eq rfl⟩
  obtain ⟨i, hi⟩ := Array.getElem?_of_mem hf
  rw [Array.getElem?_modify] at hi
  split at hi
  · obtain ⟨frame, hframe, hf⟩ := Option.map_eq_some_iff.1 hi
    cases frame with
    | host name base site => cases hf
    | script f' =>
      cases hf
      exact hg f' hp (h.frames f' (Array.mem_of_getElem? hframe))
  · exact h.frames f (Array.mem_of_getElem? hi)

theorem bears_declareLocal (slot : Nat) {v : Value} (hv : P → v.Single) :
    Bears n σ σ P (declareLocal slot v) fun _ => True := by
  refine (bears_topFrameOr _).bind fun _ => ?_
  refine (bears_of_calm (calm_newCell v) (sifting_newCell fun hp => hv hp.1)).bind fun cell => ?_
  exact bears_modifyTopFrame fun f _ hf => ⟨hf.varargs, hf.pending⟩

theorem bears_declareLocals (slot : Nat) {vs : List Value} (hvs : P → ∀ v ∈ vs, v.Single) :
    Bears n σ σ P (declareLocals slot vs) fun _ => True := by
  induction vs generalizing P slot with
  | nil => exact bears_pure fun _ => trivial
  | cons v vs ih =>
    refine (bears_declareLocal slot fun hp => hvs hp v List.mem_cons_self).bind fun _ => ?_
    exact ih (slot + 1) fun hp u hu => hvs hp.1 u (List.mem_cons_of_mem _ hu)

theorem bears_localCell (missing : Fault) (slot : Nat) :
    Bears n σ σ P (localCell missing slot) fun _ => True := by
  unfold localCell
  refine (bears_topFrameOr missing).bind fun f => ?_
  split
  · exact bears_pure fun _ => trivial
  · refine (bears_of_calm (calm_newCell .nil) (sifting_newCell fun _ => rfl)).bind fun cell => ?_
    refine Bears.bind (bears_modifyTopFrame ?_) fun _ => bears_pure fun _ => trivial
    exact fun f _ hf => ⟨hf.varargs, hf.pending⟩

theorem bears_bindArguments (params : Nat) (varargs : Bool) :
    Bears n σ σ P (bindArguments params varargs) fun _ => True := by
  unfold bindArguments
  refine (bears_topFrameOr _).bind fun f => ?_
  refine Bears.bind (bears_modifyTopFrame ?_) fun _ => (bears_declareLocals _ ?_).bind fun _ => ?_
  · exact fun f _ hf => ⟨hf.varargs, fun v hv => absurd hv List.not_mem_nil⟩
  · intro hp v hv
    rcases List.mem_append.1 (List.mem_of_mem_take hv) with hv | hv
    · exact hp.1.2.pending v hv
    · rw [List.eq_of_mem_replicate hv]
      rfl
  · split
    · refine bears_modifyTopFrame fun f' hp hf => ⟨fun v hv => ?_, hf.pending⟩
      exact hp.1.1.2.pending v (List.mem_of_mem_drop hv)
    · exact bears_pure fun _ => trivial

/-! ### Variables and closures -/

theorem bears_setCell (cell : CellId) (v : Value) :
    Bears n σ σ P (modifyHeap (·.setCell cell v.scalar)) fun _ => True :=
  bears_of_calm (Activation.calm_setCell cell _)
    (sifting_modifyHeap (fun _ => rfl) (fun _ => rfl) fun _ _ hh => hh.setCell cell v.single_scalar)

end Exec

namespace Reentry.Sifting

variable {r : Reentry} (hc : r.Calm) (hr : r.Sifting) {n : Nat} {σ : Shape} {P : Prop}

include hc hr

theorem bears_readSymbol (s : Symbol) : Bears n σ σ P (r.readSymbol s) Value.Single :=
  bears_of_calm (hc.alike.readSymbol s) (hr.readSymbol s)

theorem bears_assignSymbol (s : Symbol) (v : Value) :
    Bears n σ σ P (r.assignSymbol s v) fun _ => True := by
  cases s with
  | «local» name slot => exact (bears_localCell _ slot).bind fun cell => bears_setCell cell v
  | upvalue name i =>
    unfold Reentry.assignSymbol
    refine (bears_of_calm calm_get sifting_get).bind fun w => ?_
    split
    · exact bears_setCell _ v
    · exact bears_fail _
  | global name env =>
    unfold Reentry.assignSymbol
    refine (hr.bears_readSymbol hc env).bind fun e => ?_
    split
    · exact bears_of_calm (hc.alike.setIndex _ _ _) (hr.setIndex _ _ _)
    · exact bears_fail _
  | defaultEnv => exact bears_fail _

theorem bears_capture (s : Symbol) : Bears n σ σ P (r.capture s) fun _ => True := by
  cases s with
  | «local» name slot => exact bears_localCell _ slot
  | upvalue name i =>
    unfold Reentry.capture
    refine (bears_of_calm calm_get sifting_get).bind fun w => ?_
    split
    · exact bears_pure fun _ => trivial
    · exact bears_fail _
  | global name env =>
    exact (hr.bears_readSymbol hc _).bind fun v =>
      bears_of_calm (calm_newCell v) (sifting_newCell fun hp => hp.2)
  | defaultEnv =>
    refine (bears_of_calm calm_get sifting_get).bind fun w => ?_
    refine bears_of_calm (calm_newCell _) (sifting_newCell fun _ => ?_)
    unfold World.globals
    split <;> rfl

theorem bears_captures (captures : List Symbol) :
    Bears n σ σ P (captures.mapM fun s => do return (s.name, ← r.capture s)) fun _ => True := by
  induction captures generalizing P with
  | nil => exact bears_pure fun _ => trivial
  | cons s captures ih =>
    rw [List.mapM_cons]
    refine Bears.bind (Q := fun _ => True) ?_ fun _ => ih.bind fun _ => bears_pure fun _ => trivial
    exact (hr.bears_capture hc s).bind fun _ => bears_pure fun _ => trivial

/-- A new closure of a function of the running script. -/
theorem sifts_makeClosure {w : World} {x entry : Nat} (captures : List Symbol)
    (hentry : w.Genuine → ∀ s : Script, w.scripts[w.active.index]? = some s →
      s.code.HasHeader entry) :
    (r.makeClosure entry captures).Sifts w (Lies n σ x w.processor ∧ P)
      fun v w' => Lies n σ x w'.processor ∧ v.Single := by
  refine (hr.bears_captures hc captures x w).bind fun cells w' hw' => .get_bind ?_
  have hf : w'.Follows
      { w' with heap := w'.heap.addClosure ⟨w'.active, entry, cells.toArray⟩ } := by
    refine World.follows_addClosure rfl fun hc => ?_
    have hheader : w.HasHeader ⟨w'.active, entry, cells.toArray⟩ := by
      intro s hs
      rw [hw'.later.active] at hs
      exact hentry (hw'.later.genuine hc) s hs
    exact hw'.later.hasHeader hheader
  refine .of_ok rfl hf fun hg hw hp => ⟨hw.grow hf hg rfl ?_, hp.2.1, rfl⟩
  exact hw.flat.withHeap { hw.flat.heap with }

end Reentry.Sifting

/-! ## Control -/

namespace Exec

variable {α β : Type} {n x : Nat} {σ π τ : Shape} {P : Prop} {w : World} {op : OpCode}

theorem sifts_goTo (y : Nat) :
    (goTo y).Sifts w (Lies n σ x w.processor ∧ P) fun _ w' => Lies n σ y w'.processor :=
  sifts_modifyProcessor fun hw hp =>
    ⟨hw.processor.of_eq rfl rfl, rfl, hp.1.tops.of_eq rfl⟩

theorem sifts_advance :
    advance.Sifts w (Lies n σ x w.processor ∧ P) fun _ w' => Lies n σ (x + 1) w'.processor :=
  sifts_modifyProcessor fun hw hp =>
    ⟨hw.processor.of_eq rfl rfl, congrArg (· + 1) hp.1.ip, hp.1.tops.of_eq rfl⟩

theorem sifts_jump (y : Nat) :
    (jump y).Sifts w (Lies n σ x w.processor ∧ P) fun _ w' => Lies n σ y w'.processor := by
  have haddress : Bears n σ σ P address fun _ => True :=
    bears_of_calm (calm_get.bind fun _ => calm_pure _)
      (sifting_get.bind fun _ => sifting_pure fun _ => trivial)
  have hsafe : ∀ {P : Prop}, Bears n σ σ P safepoint fun _ => True :=
    bears_of_calm aside_safepoint.calm sifting_safepoint
  unfold jump
  refine (haddress x w).bind fun here w' _ => ?_
  have hgo : ∀ {w : World} {P : Prop} (_ : P → Lies n σ x w.processor),
      (goTo y).Sifts w P fun _ w' => Lies n σ y w'.processor :=
    fun h => (sifts_goTo (P := True) y).mono (fun hp => ⟨h hp, trivial⟩) fun _ _ _ => id
  dsimp only
  split
  · exact (hsafe.start fun hp => hp.2.1).bind fun _ w'' _ => hgo fun hp => hp.2.1
  · exact hgo fun hp => hp.2.1

/-- The end of an instruction: control has passed on as the code foresees. -/
def Passed (n : Nat) (σ : Shape) (x : Nat) (op : OpCode) (exit : Option Exit) (w : World) : Prop :=
  exit = none ∧ ∃ y τ, (y, τ) ∈ op.passes x σ ∧ Lies n τ y w.processor

/-- An instruction passes control on as the code foresees. -/
def Steps (n : Nat) (σ : Shape) (x : Nat) (P : Prop) (op : OpCode) (e : Exec (Option Exit))
    (w : World) : Prop :=
  e.Sifts w (Lies n σ x w.processor ∧ P) (Passed n σ x op)

variable {y : Nat}

theorem sifts_done {e : Exec Unit} (he : e.Sifts w P fun _ w' => Lies n τ y w'.processor)
    (hpass : (y, τ) ∈ op.passes x σ) : (do e; return none).Sifts w P (Passed n σ x op) :=
  he.bind fun _ w' _ => .of_ok rfl (.refl w') fun _ hw hp => ⟨hw, rfl, y, τ, hpass, hp.2⟩

theorem sifts_onward (h : P → Lies n τ x w.processor) (hpass : (x + 1, τ) ∈ op.passes x σ) :
    (do advance; return none).Sifts w P (Passed n σ x op) :=
  sifts_done ((sifts_advance (P := True)).mono (fun hp => ⟨h hp, trivial⟩) fun _ _ _ => id) hpass

theorem sifts_away (h : P → Lies n τ x w.processor) (hpass : (y, τ) ∈ op.passes x σ) :
    (do jump y; return none).Sifts w P (Passed n σ x op) :=
  sifts_done ((sifts_jump (P := True) y).mono (fun hp => ⟨h hp, trivial⟩) fun _ _ _ => id) hpass

theorem sifts_exit (h : P → Lies n τ x w.processor) (hpass : (y, τ) ∈ op.passes x σ) :
    (do goTo y; return none).Sifts w P (Passed n σ x op) :=
  sifts_done ((sifts_goTo (P := True) y).mono (fun hp => ⟨h hp, trivial⟩) fun _ _ _ => id) hpass

theorem steps_onward {body : Exec Unit} (hbody : Bears n σ (op.shape σ) P body fun _ => True)
    (hpass : (x + 1, op.shape σ) ∈ op.passes x σ) :
    Steps n σ x P op (do body; advance; return none) w :=
  (hbody x w).bind fun _ _ _ => sifts_onward (fun hp => hp.2.1) hpass

/-! ### Tables and loops -/

theorem bears_pushAll {vs : List Value} (hvs : P → ∀ v ∈ vs, v.Single) :
    Bears n σ (List.replicate vs.length true ++ σ) P (pushAll vs) fun _ => True := by
  induction vs generalizing P σ with
  | nil => exact bears_pure fun _ => trivial
  | cons v vs ih =>
    have hv : P → v.Single := fun hp => hvs hp v List.mem_cons_self
    rw [List.length_cons, List.replicate_succ', List.append_assoc]
    refine (bears_push (b := true) (fun hp => (hv hp).flat) fun hp _ => hv hp).bind fun _ => ?_
    exact ih fun hp u hu => hvs hp.1 u (List.mem_cons_of_mem _ hu)

theorem bears_tableOnTop : Bears n σ σ P tableOnTop fun _ => True := by
  refine (bears_peek 0).bind fun v => ?_
  split
  · exact bears_pure fun _ => trivial
  · exact bears_fail _

theorem bears_setIndex (id : TableId) (key value : Value) :
    Bears n σ σ P (Exec.setIndex id key value) fun _ => True :=
  bears_of_calm (aside_setIndex id key value).calm (sifting_setIndex id key value)

theorem bears_storeItems (id : TableId) (i : Nat) (vs : List Value) :
    Bears n σ σ P (storeItems id i vs) fun _ => True := by
  induction vs generalizing P i with
  | nil => exact bears_pure fun _ => trivial
  | cons v vs ih => exact (bears_setIndex id _ v).bind fun _ => ih (i + 1)

theorem bears_loopNumber (depth : Nat) (what : String) :
    Bears n σ σ P (loopNumber depth what) fun _ => True := by
  refine (bears_peek depth).bind fun v => ?_
  split
  · exact bears_pure fun _ => trivial
  · exact bears_fail _

theorem bears_loopState : Bears n σ σ P loopState fun _ => True :=
  (bears_peek 2).bind fun _ => (bears_peek 1).bind fun _ => (bears_peek 0).bind fun _ =>
    bears_pure fun _ => trivial

/-- The control values of a generic loop are single ones. -/
theorem bears_prepareIteration (triple : Value) :
    Bears n σ (true :: true :: true :: σ) P (prepareIteration triple) fun _ => True := by
  unfold prepareIteration
  refine (bears_of_calm (aside_metamethod? _ _).calm (sifting_metamethod? _ _)).bind fun handler? => ?_
  split
  · next id hf _ =>
    refine (bears_of_calm (aside_newCallback _).calm (sifting_newCallback _)).bind fun f => ?_
    refine bears_pushAll fun hp => ?_
    simpa using ⟨hp.2, triple.single_nth 0, rfl⟩
  · refine bears_pushAll fun _ => ?_
    simpa using ⟨triple.single_nth 0, triple.single_nth 1, triple.single_nth 2⟩

theorem bears_drop {k : Nat} (hk : k ≤ σ.length) : Bears n σ (σ.drop k) P (do
    let size := (← processor).values.size
    if size < k then fail .stackUnderflow
    truncate (size - k)) fun _ => True := by
  intro x w
  refine .processor_bind ?_
  have htruncate : (truncate (w.processor.values.size - k)).Sifts w (Lies n σ x w.processor ∧ P)
      fun _ w' => Lies n (σ.drop k) x w'.processor ∧ True :=
    sifts_modifyProcessor fun hw hp =>
      ⟨hw.processor.shrink _, ⟨hp.1.ip, hp.1.tops.drop hk⟩, trivial⟩
  dsimp only
  split
  · exact .of_error rfl (.refl w) fun _ hw _ => ⟨hw, rfl⟩
  · exact htruncate

/-- The control values of a numeric loop are single ones from here on. -/
theorem bears_forPrep {a b c : Bool} :
    Bears n (a :: b :: c :: σ) (true :: true :: true :: σ) P (do
      if (← processor).values.size < 3 then fail .stackUnderflow
      let first ← loopNumber 2 "initial value"
      let limit ← loopNumber 1 "limit"
      let step ← loopNumber 0 "step"
      setPeek 2 (.number first)
      setPeek 1 (.number limit)
      setPeek 0 (.number step)) fun _ => True := by
  have hset : ∀ {P : Prop} {σ : Shape} {d : Nat} (m : Number), d < σ.length →
      Bears n σ (σ.set d true) P (setPeek d (.number m)) fun _ => True :=
    fun m hd => bears_setPeek hd fun _ => rfl
  have hbody : ∀ {P : Prop}, Bears n (a :: b :: c :: σ) (true :: true :: true :: σ) P (do
      let first ← loopNumber 2 "initial value"
      let limit ← loopNumber 1 "limit"
      let step ← loopNumber 0 "step"
      setPeek 2 (.number first)
      setPeek 1 (.number limit)
      setPeek 0 (.number step)) fun _ => True := by
    intro P
    refine (bears_loopNumber 2 _).bind fun first => (bears_loopNumber 1 _).bind fun limit =>
      (bears_loopNumber 0 _).bind fun step => ?_
    refine (hset first (by simp)).bind fun _ => (hset limit (by simp)).bind fun _ => ?_
    exact hset step (by simp)
  refine (bears_of_calm calm_processor sifting_processor).bind fun p => ?_
  dsimp only
  split
  · exact Bears.bind (Q := fun _ => True) (bears_fail _) fun _ => hbody
  · exact hbody

end Exec

namespace Reentry.Sifting

variable {r : Reentry} (hc : r.Calm) (hr : r.Sifting) {n x : Nat} {σ : Shape} {P : Prop} {w : World}

include hc hr

/-- Every instruction but a call and a return leaves the shape that the code foresees; a closure is to
be made of a function. -/
theorem steps (depth : Nat) (i : Instruction) (hadmits : i.op.Admits σ)
    (hcall : ∀ n, i.op ≠ .call n) (hret : ∀ n, i.op ≠ .ret n)
    (hclosure : ∀ entry captures, i.op = .closure entry captures → w.Genuine →
      ∀ s : Script, w.scripts[w.active.index]? = some s → s.code.HasHeader entry) :
    Steps n σ x P i.op (r.step depth i) w := by
  obtain ⟨op, span⟩ := i
  obtain ⟨hneeds, hadmits⟩ := hadmits
  have hnext : op.passes x σ = [(x + 1, op.shape σ)] → (x + 1, op.shape σ) ∈ op.passes x σ := by
    intro h
    rw [h]
    exact List.mem_singleton_self _
  -- the result of a computation on operands that were taken off
  have hresult : ∀ {e : Exec Value} {P : Prop} {σ : Shape}, Exec.Calm e →
      Exec.Sifting P e Value.Single → Bears n σ (false :: σ) P (e >>= push) fun _ => True :=
    fun hce he => (bears_of_calm hce he).bind fun v => bears_push (fun hp => hp.2.flat) nofun
  cases op with
  | call n => exact absurd rfl (hcall n)
  | ret n => exact absurd rfl (hret n)
  | closure entry captures =>
    have hmake := hr.sifts_makeClosure hc (n := n) (σ := σ) (P := P) (x := x) captures
      (hclosure entry captures rfl)
    have hpush := hmake.bind (R := fun _ w' => Lies n (false :: σ) x w'.processor ∧ True)
      fun v w' _ => (bears_push (fun hp => hp.2.2.flat) nofun).start fun hp => hp.2.1
    exact hpush.bind fun _ w' _ => sifts_onward (fun hp => hp.2.1) (hnext rfl)
  | nop => exact steps_onward (bears_pure fun _ => trivial) (hnext rfl)
  | header name kind n => exact steps_onward (bears_pure fun _ => trivial) (hnext rfl)
  | beginFn locals =>
    refine steps_onward ((bears_topFrameOr _).bind fun _ => ?_) (hnext rfl)
    exact bears_modifyTopFrame fun f _ hf => ⟨hf.varargs, hf.pending⟩
  | args params varargs => exact steps_onward (bears_bindArguments params varargs) (hnext rfl)
  | literal v =>
    exact steps_onward (bears_push (fun _ => Value.Single.flat hadmits) nofun) (hnext rfl)
  | pop n => exact steps_onward (bears_drop hneeds) (hnext rfl)
  | copy n =>
    refine steps_onward ((bears_peek n).bind fun v => ?_) (hnext rfl)
    exact bears_push (fun hp => hp.2.1) nofun
  | load s => exact steps_onward (hresult (hc.alike.readSymbol s) (hr.readSymbol s)) (hnext rfl)
  | store s j =>
    refine steps_onward ((bears_peek 0).bind fun v => ?_) (hnext rfl)
    exact hr.bears_assignSymbol hc s _
  | «local» slot j =>
    refine steps_onward ((bears_peek 0).bind fun v => ?_) (hnext rfl)
    exact bears_declareLocal slot fun _ => v.single_nth j
  | varargs =>
    refine steps_onward ((bears_topFrameOr _).bind fun f => ?_) (hnext rfl)
    exact bears_push (fun hp => Value.flat_ofList hp.2.varargs) nofun
  | method name =>
    refine steps_onward ((bears_pop hneeds).bind fun object => ?_) (hnext rfl)
    refine (bears_of_calm (hc.alike.index object _) (hr.index object _)).bind fun v => ?_
    refine (bears_push (b := false) (fun hp => hp.2.flat) nofun).bind fun _ => ?_
    exact bears_push (fun hp => hp.1.1.2.1) nofun
  | jump t => exact sifts_away (fun hp => hp.1) (List.mem_singleton_self _)
  | jumpIfFalse t =>
    refine (bears_pop hneeds x _).bind fun v w' _ => ?_
    dsimp only
    split
    · exact sifts_onward (fun hp => hp.2.1) (List.mem_cons_of_mem _ (List.mem_singleton_self _))
    · exact sifts_away (fun hp => hp.2.1) List.mem_cons_self
  | jumpFalseOrPop t =>
    refine (bears_peek 0 x _).bind fun v w' _ => ?_
    dsimp only
    split
    · refine ((bears_pop hneeds).start fun hp => hp.2.1).bind fun _ w' _ => ?_
      exact sifts_onward (fun hp => hp.2.1) (List.mem_cons_of_mem _ (List.mem_singleton_self _))
    · exact sifts_away (fun hp => hp.2.1) List.mem_cons_self
  | jumpTrueOrPop t =>
    refine (bears_peek 0 x _).bind fun v w' _ => ?_
    dsimp only
    split
    · exact sifts_away (fun hp => hp.2.1) List.mem_cons_self
    · refine ((bears_pop hneeds).start fun hp => hp.2.1).bind fun _ w' _ => ?_
      exact sifts_onward (fun hp => hp.2.1) (List.mem_cons_of_mem _ (List.mem_singleton_self _))
  | binary op =>
    have htwo : 2 ≤ σ.length := hneeds
    have hone : 1 ≤ (σ.drop 1).length := by simp; omega
    refine steps_onward ((bears_pop (by omega)).bind fun b => (bears_pop hone).bind fun a => ?_)
      (hnext rfl)
    rw [List.drop_drop]
    exact hresult (hc.alike.binary op a b) (hr.binary op a b)
  | not =>
    refine steps_onward ((bears_pop hneeds).bind fun v => ?_) (hnext rfl)
    exact bears_push (fun _ => Value.Single.flat rfl) nofun
  | neg =>
    refine steps_onward ((bears_pop hneeds).bind fun v => ?_) (hnext rfl)
    exact hresult (hc.alike.negate v) (hr.negate v)
  | len =>
    refine steps_onward ((bears_pop hneeds).bind fun v => ?_) (hnext rfl)
    exact hresult (hc.alike.length v) (hr.length v)
  | newTable =>
    refine steps_onward (hresult (aside_newTable {}).calm (sifting_newTable fun _ => ?_)) (hnext rfl)
    exact Table.flat_empty
  | tableSet =>
    have hthree : 3 ≤ σ.length := hneeds
    have hone : 1 ≤ (σ.drop 1).length := by simp; omega
    refine steps_onward ((bears_pop (by omega)).bind fun value => (bears_pop hone).bind fun key => ?_)
      (hnext rfl)
    rw [List.drop_drop]
    exact bears_tableOnTop.bind fun id => bears_setIndex id _ value
  | tableAppend j expand =>
    have htwo : 2 ≤ σ.length := hneeds
    refine steps_onward ((bears_pop (by omega)).bind fun value => ?_) (hnext rfl)
    exact bears_tableOnTop.bind fun id => bears_storeItems id j _
  | index =>
    have htwo : 2 ≤ σ.length := hneeds
    have hone : 1 ≤ (σ.drop 1).length := by simp; omega
    refine steps_onward ((bears_pop (by omega)).bind fun key => (bears_pop hone).bind fun object => ?_)
      (hnext rfl)
    rw [List.drop_drop]
    exact hresult (hc.alike.index object _) (hr.index object _)
  | indexSet j =>
    have hthree : 3 ≤ σ.length := hneeds
    have hone : 1 ≤ (σ.drop 1).length := by simp; omega
    refine steps_onward ((bears_pop (by omega)).bind fun key => (bears_pop hone).bind fun object => ?_)
      (hnext rfl)
    rw [List.drop_drop]
    refine (bears_peek 0).bind fun v => ?_
    exact bears_of_calm (hc.alike.setIndex object _ _) (hr.setIndex object _ _)
  | makeTuple n =>
    refine steps_onward ((bears_popMany hneeds).bind fun vs => ?_) (hnext rfl)
    exact bears_push (fun _ => Value.flat_ofList fun _ => Value.single_of_mem_flatten) nofun
  | scalar =>
    refine steps_onward ((bears_pop hneeds).bind fun v => ?_) (hnext rfl)
    exact bears_push (fun _ => v.single_scalar.flat) nofun
  | forPrep =>
    have hthree : 3 ≤ σ.length := hneeds
    match σ, hthree with
    | a :: b :: c :: π, _ => exact steps_onward bears_forPrep (List.mem_singleton_self _)
  | forLoop exit =>
    refine (bears_loopState x _).bind fun state w' _ => ?_
    dsimp only
    split
    · exact sifts_exit (fun hp => hp.2.1) List.mem_cons_self
    · exact sifts_onward (fun hp => hp.2.1) (List.mem_cons_of_mem _ (List.mem_singleton_self _))
  | forStep =>
    obtain ⟨π, rfl⟩ := hadmits
    refine steps_onward (bears_loopState.bind fun state => ?_) (hnext rfl)
    exact bears_setPeek (d := 2) (by simp) fun _ => rfl
  | forVar slot =>
    obtain ⟨π, rfl⟩ := hadmits
    refine steps_onward ((bears_peek 2).bind fun v => ?_) (hnext rfl)
    exact bears_declareLocal slot fun hp => hp.2.2 rfl
  | iterPrep =>
    refine steps_onward ((bears_pop hneeds).bind fun triple => ?_) (hnext rfl)
    exact bears_prepareIteration triple
  | iterCheck exit =>
    obtain ⟨b, π, rfl⟩ := hadmits
    refine (bears_pop (by simp) x _).bind fun result w' _ => ?_
    dsimp only
    split
    · exact sifts_exit (fun hp => hp.2.1) List.mem_cons_self
    · refine ((bears_peek 0).start fun hp => hp.2.1).bind fun _ w' _ => ?_
      have hset := bears_setPeek (n := n) (σ := true :: true :: true :: π) (P := True) (d := 0)
        (by simp) fun _ => result.single_nth 0
      refine ((hset.weaken fun _ => trivial).start fun hp => hp.2.1).bind fun _ w' _ => ?_
      refine Sifts.bind (Bears.start (bears_push (b := b) ?_ ?_) fun hp => hp.2.1) fun _ w' _ => ?_
      · exact fun hp => hp.1.1.2.2.1
      · rintro hp rfl
        exact hp.1.1.2.2.2 rfl
      · exact sifts_onward (fun hp => hp.2.1) (List.mem_cons_of_mem _ (List.mem_singleton_self _))

end Reentry.Sifting

end LuaMachine
