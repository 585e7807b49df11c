import LuaMachine.Proofs.Flat.Running
import LuaMachine.Proofs.Machine.Aside
import LuaMachine.Proofs.Machine.Transparency

/-!
# The machine and tuples

The machine re-enters itself for operators, native functions, coroutines and scripts. All the ways into
it keep a sane world sane and give flat values, by induction on the depth of re-entry
(`Reentry.sifting_atDepth`).
-/

namespace LuaMachine

open Exec

/-! ## Changes that are not made by instructions -/

namespace World

variable {w w' : World}

/-- Neither the execution nor the books of a script matter. -/
theorem Sane.of_later (h : w.Sane) (hl : w.Later w') (hclosures : w'.heap.closures = w.heap.closures)
    (hcoroutines : w'.heap.coroutines = w.heap.coroutines) (hflat : w'.Flat) : w'.Sane := by
  refine ⟨fun i c hi => hl.hasHeader (h.closed i c (hclosures ▸ hi)), fun c hc => ?_, hflat⟩
  rw [hcoroutines] at hc
  exact (h.poised c hc).mono hl

/-- It does not matter which script is running. -/
theorem Sane.withActive (h : w.Sane) (id : ScriptId) : ({ w with active := id } : World).Sane :=
  ⟨h.closed, fun c hc => (h.poised c hc).of_active id, h.flat.heap, h.flat.processor, h.flat.scripts⟩

/-- One coroutine changes, and stays with its script. -/
theorem Sane.modifyCoroutine (h : w.Sane) {id : CoroutineId} {f : Coroutine → Coroutine}
    (hf : ∀ c, w.heap.coroutine? id = some c →
      (f c).owner = c.owner ∧ (f c).Poised w ∧ (f c).Flat) :
    World.Sane { w with heap := w.heap.modifyCoroutine id f } := by
  have hl : w.Later { w with heap := w.heap.modifyCoroutine id f } := by
    refine ⟨rfl, rfl, (Later.refl w).code, fun {i c} hi => ?_⟩
    rw [Heap.modifyCoroutine, Array.getElem?_modify, hi]
    split
    · next hid =>
      subst hid
      exact ⟨f c, rfl, (hf c hi).1⟩
    · exact ⟨c, rfl, rfl⟩
  refine ⟨fun i c hi => hl.hasHeader (h.closed i c hi), fun c hc => ?_, ?_⟩
  · obtain ⟨i, hi⟩ := Array.getElem?_of_mem hc
    rw [Heap.modifyCoroutine, Array.getElem?_modify] at hi
    split at hi
    · next hid =>
      subst hid
      obtain ⟨c₀, hc₀, rfl⟩ := Option.map_eq_some_iff.1 hi
      exact (hf c₀ hc₀).2.1.mono hl
    · exact (h.poised c (Array.mem_of_getElem? hi)).mono hl
  · exact h.flat.withHeap (h.flat.heap.modifyCoroutine id fun c hc => (hf c hc).2.2)

end World

namespace Exec

variable {α : Type} {e : Exec α} {w : World} {P P' : Prop} {Q : α → World → Prop}

/-- Two triples about different cases. -/
theorem Sifts.or (h : e.Sifts w P Q) (h' : e.Sifts w P' Q) : e.Sifts w (P ∨ P') Q := by
  constructor
  · intro a w' hok
    exact ⟨(h.ok hok).1, fun hg hw hp => hp.elim ((h.ok hok).2 hg hw) ((h'.ok hok).2 hg hw)⟩
  · intro err w' herr
    exact ⟨(h.error herr).1, fun hg hw hp => hp.elim ((h.error herr).2 hg hw) ((h'.error herr).2 hg hw)⟩

/-- A level of nesting has nothing to do with values. -/
theorem sifts_nested {Q : α → Prop} (he : ∀ w₁ : World, w₁.heap = w.heap → w₁.active = w.active →
    e.Sifts w₁ P fun a _ => Q a) : (nested e).Sifts w P fun a _ => Q a := by
  have hshift : ∀ (i : Nat) (f : Nat → Nat) (w : World), w.Follows { w with
      scripts := w.scripts.modify i fun s => { s with nesting := f s.nesting } } :=
    fun i f w => World.follows_modifyScript fun s _ => .refl _
  have hsane : ∀ (i : Nat) (f : Nat → Nat) {w : World}, World.Genuine { w with
      scripts := w.scripts.modify i fun s => { s with nesting := f s.nesting } } → w.Sane →
      World.Sane { w with scripts := w.scripts.modify i fun s => { s with nesting := f s.nesting } } :=
    fun i f w hg hw => hw.grow (hshift i f w) hg rfl (hw.flat.modifyScript i fun _ h => h)
  unfold nested
  refine .script_bind ?_
  dsimp only
  split
  · exact sifts_fail _
  · refine .get_bind (.modify_bind (hshift _ _ w) (fun hg hw _ => hsane _ (· + 1) hg hw) ?_)
    refine Sifts.andFinally (he _ ?_ ?_) (hshift _ (· - 1)) (fun w' _ hg hw _ => ?_) fun _ _ h => h
    · rfl
    · rfl
    · exact hsane _ (· - 1) hg hw

end Exec

namespace Reentry.Sifting

variable {r : Reentry} {w : World} {P : Prop}

/-! ## Calls -/

/-- A function that is entered on the processor `p`, with single values. -/
theorem enterFunction (hc : r.Calm) (hr : r.Sifting) (f : Value) {args : List Value} {p : Processor}
    (h : P → w.processor = p ∧ ∀ v ∈ args, v.Single) :
    (r.enterFunction p.frames.size f args).Sifts w P fun exit w' => w'.Shown p (some exit) := by
  unfold Reentry.enterFunction
  have hresolve := (sifting_resolveCallable f (P := P) (fun hp => (h hp).2) w).and_keeps
    (calm_resolveCallable f args p w) fun hp => (h hp).1
  refine hresolve.bind fun call w₁ _ => ?_
  obtain ⟨f, args⟩ := call
  dsimp only
  split
  · next f =>
    refine Sifts.bind (Q := fun _ w₂ => w₂.Attended p) ?_ fun _ w₂ _ =>
      (run hc hr p stepLimit w₂).mono And.right fun _ _ _ => id
    refine (sifts_enterClosure f none none fun hp => hp.2.1.2).mono id ?_
    rintro hp - w₂ ⟨c, htraces, hshows⟩
    exact ⟨_, [], c.entry, hp.2.2 ▸ .host, htraces, hshows⟩
  · next c =>
    split
    · exact .of_ok rfl (.refl w₁) fun _ hw hp => ⟨hw, Value.flat_ofList hp.2.1.2, .inl hp.2.2⟩
    · refine Sifts.bind (Q := fun v _ => v.Flat) ?_ fun v w₂ _ =>
        .of_ok rfl (.refl w₂) fun _ hw hp => ⟨hw, hp.2⟩
      exact hr.invoke c none (fun hp => hp.2.1.2) w₁
  · exact sifts_fail _

/-- A call gives a flat value. -/
theorem callFunction (hc : r.Calm) (hr : r.Sifting) (f : Value) (args : List Value) :
    Exec.Sifting P (r.callFunction f args) Value.Flat := by
  refine fun w => sifts_nested fun w _ _ => .get_bind ?_
  have henter : (r.enterFunction w.processor.frames.size f (Value.flatten args)).Sifts w P
      fun exit w' => w'.Shown w.processor (some exit) :=
    enterFunction hc hr f fun _ => ⟨rfl, fun _ => Value.single_of_mem_flatten⟩
  have hsane : ∀ {w' : World} (q : Processor), World.Genuine { w' with processor := q } → w'.Sane →
      q.Flat → World.Sane { w' with processor := q } :=
    fun q hg hw' hq => hw'.grow (World.follows_of_eq rfl) hg rfl (hw'.flat.withProcessor hq)
  refine Sifts.andSettle (henter.bind (R := fun v _ => v.Flat) fun exit w' _ => ?_) ?_ ?_ ?_ ?_
  · cases exit with
    | returned v => exact .of_ok rfl (.refl w') fun _ hw hp => ⟨hw, hp.2⟩
    | yielded v => exact sifts_fail _
  · exact fun _ => World.follows_of_eq rfl
  · exact fun _ => World.follows_of_eq rfl
  · exact fun v w' _ hg hw' _ hv => ⟨hsane _ hg hw' (hw'.flat.processor.of_eq rfl rfl), hv⟩
  · exact fun w' _ hg hw' _ => hsane _ hg hw' ((hw'.flat.processor.unwind _ _).of_eq rfl rfl)

/-! ## Coroutines -/

/-- A coroutine goes on from where it stands. -/
theorem continueBody (hc : r.Calm) (hr : r.Sifting) (start : Option Value) (args : List Value)
    {c : Coroutine} (ho : c.owner = w.active)
    (hb : c.body = some { processor := w.processor, function := start }) :
    (r.continueBody start args).Sifts w (c.Poised w)
      fun exit w' => w'.Shown .ofCoroutine (some exit) := by
  cases start with
  | some f =>
    exact enterFunction hc hr f (p := .ofCoroutine)
      fun h => ⟨h.fresh _ f hb, fun _ => Value.single_of_mem_flatten⟩
  | none =>
    have hpush : (push (.ofList (Value.flatten args))).Sifts w (c.Poised w)
        fun _ w' => w'.Attended .ofCoroutine ∨ w'.Adrift := by
      refine sifts_modifyProcessor fun hw h => ⟨?_, ?_⟩
      · exact hw.processor.push (Value.flat_ofList fun _ => Value.single_of_mem_flatten)
      · have hhalted := h.suspended w.processor hb
        rw [ho] at hhalted
        have hfollows : w.Follows { w with processor := { w.processor with
            values := w.processor.values.push (.ofList (Value.flatten args)) } } :=
          World.follows_of_eq rfl
        exact World.Halted.push hhalted hfollows.later rfl
    refine hpush.bind fun _ w' _ => ?_
    have hrun := Sifts.or (run hc hr .ofCoroutine stepLimit w')
      ((run_adrift hc .ofCoroutine stepLimit w').mono id fun _ _ _ => False.elim)
    exact hrun.mono And.right fun _ _ _ => id

/-- What a body that ran leaves: a processor, and a flat value or an error with a single one. One that
suspended can be resumed again. -/
structure Left (result : Except ScriptError Exit × Processor) (w : World) : Prop where
  processor : result.2.Flat
  returned : ∀ v, result.1 = .ok (.returned v) → v.Flat
  yielded : ∀ v, result.1 = .ok (.yielded v) →
    v.Flat ∧ (w.on w.active result.2).Halted .ofCoroutine
  error : ∀ e, result.1 = .error e → e.Single

/-- The body of a coroutine runs on its own processor. -/
theorem runBody (hc : r.Calm) (hr : r.Sifting) (id : CoroutineId) {body : CoroutineBody}
    (args : List Value) {c : Coroutine} (ho : c.owner = w.active) (hb : c.body = some body) :
    (r.runBody id body args).Sifts w (c.Poised w ∧ c.Flat) Left := by
  -- the world in which the coroutine goes on, and the one after it
  let inside : World := { w with
    processor := body.processor
    scripts := w.scripts.modify w.active.index fun s => { s with running := id :: s.running } }
  let after (w' : World) : World := { w' with
    scripts := w'.scripts.modify w'.active.index fun s => { s with running := s.running.tail } }
  have hinside : w.Follows inside := by
    have hmodify : w.Follows { w with scripts := w.scripts.modify w.active.index fun s =>
        { s with running := id :: s.running } } := World.follows_modifyScript fun _ _ => .refl _
    exact hmodify.trans (World.follows_of_eq rfl)
  have hafter : ∀ w' : World, w'.Follows (after w') :=
    fun _ => World.follows_modifyScript fun _ _ => .refl _
  have hback : ∀ w' : World, w'.Follows { w' with processor := w.processor } :=
    fun _ => World.follows_of_eq rfl
  have hstart : inside.Genuine → w.Sane → c.Poised w ∧ c.Flat → inside.Sane ∧ c.Poised inside := by
    rintro hg hw ⟨hpoised, hflat⟩
    have hscripts := hw.flat.modifyScript w.active.index
      (f := fun s => { s with running := id :: s.running }) fun _ h => h
    refine ⟨hw.grow hinside hg rfl ?_, hpoised.mono hinside.later⟩
    exact ⟨hw.flat.heap, (hflat _ hb).1, hscripts.scripts⟩
  have hcontinue : (andFinally (r.continueBody body.function args) after).Sifts inside (c.Poised inside)
      fun exit w' => w'.Shown .ofCoroutine (some exit) := by
    refine (continueBody (w := inside) hc hr body.function args ho hb).andFinally hafter
      (fun w' _ hg hw' _ => hw'.grow (hafter w') hg rfl (hw'.flat.modifyScript _ fun _ h => h)) ?_
    rintro exit w' hshown
    cases exit with
    | returned v => exact hshown
    | yielded v => exact ⟨hshown.1, hshown.2.mono (hafter w').later rfl⟩
  have hstarted := hcontinue.after hinside hstart
  have hsane : ∀ {w' : World}, World.Genuine { w' with processor := w.processor } → w'.Sane →
      w.Sane → World.Sane { w' with processor := w.processor } :=
    fun {w'} hg hw' hw => hw'.grow (hback w') hg rfl (hw'.flat.withProcessor hw.flat.processor)
  constructor
  · intro result w' hok
    unfold Reentry.runBody at hok
    dsimp only at hok
    split at hok
    · next exit w₁ h =>
      cases hok
      obtain ⟨hw₁, hq⟩ := hstarted.ok h
      refine ⟨hw₁.trans (hback w₁), fun hg hw hp => ?_⟩
      obtain ⟨hw', hshown⟩ := hq hg hw hp
      refine ⟨hsane hg hw' hw, hw'.flat.processor, ?_, ?_, nofun⟩
      · rintro v hv
        cases hv
        exact hshown
      · rintro v hv
        cases hv
        exact hshown
    · next e w₁ h =>
      cases hok
      obtain ⟨hw₁, hq⟩ := hstarted.error h
      refine ⟨hw₁.trans (hback w₁), fun hg hw hp => ?_⟩
      obtain ⟨hw', he⟩ := hq hg hw hp
      refine ⟨hsane hg hw' hw, hw'.flat.processor, nofun, nofun, ?_⟩
      rintro e' he'
      cases he'
      exact he
    · cases hok
  · intro e w' herr
    unfold Reentry.runBody at herr
    dsimp only at herr
    split at herr
    · cases herr
    · cases herr
    · next hnot _ =>
      cases herr
      exact absurd rfl (hnot e)

theorem sifting_takeBody (id : CoroutineId) : Exec.Sifting P (setBody id none) fun _ => True := by
  intro w
  have hf : w.Follows { w with heap := w.heap.modifyCoroutine id fun c => { c with body := none } } :=
    (World.Follows.refl w).modifyCoroutine (fun _ _ => rfl) fun _ _ _ _ _ _ => .of_none rfl
  refine .of_ok rfl hf fun _ hw _ => ⟨hw.modifyCoroutine fun c _ => ?_, trivial⟩
  exact ⟨rfl, .of_none rfl, nofun⟩

theorem sifting_transition (id : CoroutineId) (state : CoroutineState) :
    Exec.Sifting P (transition id state) fun _ => True := by
  intro w
  unfold transition
  refine .heap_bind ?_
  cases hc : w.heap.coroutine? id with
  | none => exact sifts_fail _
  | some c =>
    unfold Coroutine.become
    dsimp only
    split
    · have hsame : ∀ {c'}, w.heap.coroutine? id = some c' → c = c' :=
        fun hc' => Option.some_inj.1 (hc.symm.trans hc')
      have hf : w.Follows
          { w with heap := w.heap.modifyCoroutine id fun _ => { c with state } } := by
        refine (World.Follows.refl w).modifyCoroutine (fun c' hc' => ?_) fun c' hc' _ _ _ hr => ?_
        · rw [← hsame hc']
        · obtain rfl := hsame hc'
          exact hr.of_eq rfl rfl
      refine .of_ok rfl hf fun _ hw _ => ⟨hw.modifyCoroutine fun c' hc' => ?_, trivial⟩
      have hmem := Array.mem_of_getElem? hc
      exact ⟨hsame hc' ▸ rfl, (hw.poised c hmem).of_eq rfl rfl, hw.flat.heap.coroutines c hmem⟩
    · exact sifts_fail _

/-- What becomes of a coroutine that did not suspend. -/
theorem finishBody (id : CoroutineId) {result : Except ScriptError Exit × Processor}
    (hnot : ∀ v, result.1 ≠ .ok (.yielded v)) (h : P → Left result w) :
    (finishBody id result).Sifts w P fun v _ => v.Flat := by
  unfold Reentry.finishBody
  split
  · next v hv => exact absurd hv (hnot v)
  · next v hv =>
    exact (sifting_transition id .dead w).bind fun _ w' _ =>
      .of_ok rfl (.refl w') fun _ hw hp => ⟨hw, (h hp.1).returned v hv⟩
  · next e he =>
    exact (sifting_transition id .dead w).bind fun _ w' _ =>
      .of_error rfl (.refl w') fun _ hw hp => ⟨hw, (h hp.1).error e he⟩

/-- A coroutine that suspended gets its body back. -/
theorem giveBody {id : CoroutineId} {c : Coroutine} {p : Processor} (hw : w.Sane)
    (hid : w.heap.coroutine? id = some c) (ho : c.owner = w.active)
    (hhalted : (w.on w.active p).Halted .ofCoroutine) (hp : p.Flat) :
    World.Sane { w with heap := w.heap.modifyCoroutine id fun c =>
      { c with body := some { processor := p, function := none } } } := by
  refine hw.modifyCoroutine fun c' hc' => ⟨rfl, ⟨nofun, ?_⟩, ?_⟩
  · rintro p' h
    cases h
    obtain rfl : c = c' := Option.some_inj.1 (hid.symm.trans hc')
    exact ho ▸ hhalted
  · rintro b h
    cases h
    exact ⟨hp, nofun⟩

/-- A coroutine of the running script gives what it returned or suspended with. -/
theorem resumeBody (hc : r.Calm) (hr : r.Sifting) {id : CoroutineId} {c : Coroutine}
    {body : CoroutineBody} (args : List Value) (hid : w.heap.coroutine? id = some c)
    (ho : c.owner = w.active) (hb : c.body = some body) :
    (r.resumeBody id body args).Sifts w P fun v _ => v.Flat := by
  have hgrows := keeps_resumeBody hc args hid ho hb
  have hrun : (do setBody id none; transition id .running; r.runBody id body args :
      Exec (Except ScriptError Exit × Processor)).Sifts w (c.Poised w ∧ c.Flat) Left := by
    refine (sifting_takeBody id w).bind fun _ w₁ hw₁ =>
      (sifting_transition id .running w₁).bind fun _ w₂ hw₂ => ?_
    have hl := (hw₁.trans hw₂).later
    refine (runBody hc hr id args (ho.trans hl.active.symm) hb).mono ?_ fun _ _ _ h => h
    exact fun hp => ⟨hp.1.1.1.mono hl, hp.1.1.2⟩
  have hposed : w.Sane → c.Poised w ∧ c.Flat := fun hw =>
    ⟨hw.poised c (Array.mem_of_getElem? hid), hw.flat.heap.coroutines c (Array.mem_of_getElem? hid)⟩
  rw [resumeBody_eq] at hgrows ⊢
  -- all but a suspension is told step by step; what a suspension leaves is told as a whole
  have hother : ∀ {result w₃}, (∀ v, result.1 ≠ .ok (.yielded v)) →
      (Reentry.finishBody id result).Sifts w₃ (Left result w₃) fun v _ => v.Flat :=
    fun hnot => finishBody id hnot fun h => h
  constructor
  · intro v w' hok
    refine ⟨(hgrows.ok hok).1, fun hg hw _ => ?_⟩
    obtain ⟨⟨outcome, p⟩, w₃, hran, hfinish⟩ := of_bind_ok hok
    obtain ⟨hw₃, hq⟩ := hrun.ok hran
    by_cases hyield : ∃ v', outcome = .ok (.yielded v')
    · obtain ⟨v', rfl⟩ := hyield
      obtain ⟨_, w₄, htransition, hgive⟩ := of_bind_ok hfinish
      cases hgive
      obtain ⟨hw₄, hmiddle⟩ := (sifting_transition (P := Left _ w₃) id .suspended w₃).ok htransition
      have hg : w₄.Genuine := hg
      obtain ⟨hsane, hleft⟩ := hq (hw₄.later.genuine hg) hw (hposed hw)
      obtain ⟨hflat, hhalted⟩ := hleft.yielded _ rfl
      obtain ⟨c', hid', ho'⟩ := (hw₃.trans hw₄).later.owners hid
      have hactive := (hw₃.trans hw₄).later.active
      refine ⟨giveBody (hmiddle hg hsane hleft).1 hid' ?_ ?_ hleft.processor, hflat⟩
      · exact (ho'.trans ho).trans hactive.symm
      · exact hw₄.later.active ▸ hhalted.mono (hw₄.later.on _ p) rfl
    · obtain ⟨hf, hlast⟩ := (hother (not_exists.1 hyield)).ok hfinish
      obtain ⟨hsane, hleft⟩ := hq (hf.later.genuine hg) hw (hposed hw)
      exact hlast hg hsane hleft
  · intro e w' herr
    refine ⟨(hgrows.error herr).1, fun hg hw _ => ?_⟩
    cases hran : (do setBody id none; transition id .running; r.runBody id body args :
        Exec (Except ScriptError Exit × Processor)) w with
    | error s w₃ =>
      rw [bind_error hran] at herr
      cases herr
      exact (hrun.error hran).2 hg hw (hposed hw)
    | ok result w₃ =>
      rw [bind_ok hran] at herr
      obtain ⟨hw₃, hq⟩ := hrun.ok hran
      obtain ⟨outcome, p⟩ := result
      by_cases hyield : ∃ v', outcome = .ok (.yielded v')
      · obtain ⟨v', rfl⟩ := hyield
        have hset : ∀ w₄, (do
            setBody id (some { processor := p, function := none })
            return v' : Exec Value) w₄ ≠ .error (.error e) w' := fun w₄ h => by cases h
        cases htransition : transition id .suspended w₃ with
        | ok u w₄ => exact absurd ((bind_ok htransition).symm.trans herr) (hset w₄)
        | error s w₄ =>
          cases (bind_error htransition).symm.trans herr
          obtain ⟨hf, hlast⟩ := (sifting_transition (P := True) id .suspended w₃).error htransition
          exact hlast hg (hq (hf.later.genuine hg) hw (hposed hw)).1 trivial
      · obtain ⟨hf, hlast⟩ := (hother (not_exists.1 hyield)).error herr
        obtain ⟨hsane, hleft⟩ := hq (hf.later.genuine hg) hw (hposed hw)
        exact hlast hg hsane hleft

theorem resumeCoroutine (hc : r.Calm) (hr : r.Sifting) (id : CoroutineId) (args : List Value) :
    Exec.Sifting P (r.resumeCoroutine id args) Value.Flat := by
  intro w
  unfold Reentry.resumeCoroutine
  refine .get_bind ?_
  cases hid : w.heap.coroutine? id with
  | none => exact sifts_fail _
  | some c =>
    dsimp only
    split
    · exact sifts_fail _
    · next howner =>
      have howner : c.owner = w.active := by simpa using howner
      cases c.state with
      | dead => exact sifts_fail _
      | main => exact sifts_fail _
      | running => exact sifts_fail _
      | notStarted | suspended =>
        refine sifts_nested fun w₁ hheap hactive => ?_
        cases hb : c.body with
        | none => exact sifts_fail _
        | some body => exact resumeBody hc hr args (hheap ▸ hid) (howner.trans hactive.symm) hb

/-! ## Scripts -/

theorem sifting_acquire : Exec.Sifting P acquire fun _ => True := by
  unfold acquire
  refine sifting_script.bind fun s => sifting_get.bind fun w => ?_
  dsimp only
  split
  · exact sifting_modifyScript (fun _ => .refl _) fun _ => rfl
  · split
    · exact sifting_fail _
    · split
      · exact sifting_failWith fun _ => trivial
      · exact sifting_exhausted

/-- What runs on the main processor of a script finds a flat one, and leaves a flat one. -/
theorem sifting_onMainProcessor {α : Type} {Q : α → Prop} (token : Nat) {e : Exec α}
    (hcalm : Exec.Calm e) (he : Exec.Sifting P e Q) :
    Exec.Sifting P (onMainProcessor token e) Q := by
  intro w
  -- the world in which the computation runs, and the one that comes after it
  let inside : World :=
    { w with processor := (w.scripts.getD w.active.index default).processor, token }
  let after (w' : World) : World :=
    { w' with
      scripts := w'.scripts.modify w.active.index fun s =>
        { s with processor := w'.processor, owner := none, counters := s.counters.countExecution }
      processor := w.processor
      token := w.token }
  have hgrows := keeps_onMainProcessor token hcalm w.processor w
  have hinside : w.Sane → inside.Sane := fun hw =>
    hw.of_later ((World.Later.refl w).elsewhere _ token) rfl rfl
      ⟨hw.flat.heap, hw.flat.script, hw.flat.scripts⟩
  have hlater : ∀ w' : World, w'.Later (after w') := by
    intro w'
    have hscripts : w'.Follows { w' with scripts := w'.scripts.modify w.active.index fun s =>
        { s with processor := w'.processor, owner := none, counters := s.counters.countExecution } } :=
      World.follows_modifyScript fun _ _ => .refl _
    exact hscripts.later.elsewhere w.processor w.token
  have hafter : ∀ w' : World, w.Sane → w'.Sane → (after w').Sane := by
    intro w' hw hw'
    have hscripts := hw'.flat.modifyScript w.active.index (f := fun s =>
      { s with processor := w'.processor, owner := none, counters := s.counters.countExecution })
      fun _ _ => hw'.flat.processor
    exact hw'.of_later (hlater w') rfl rfl ⟨hw'.flat.heap, hw.flat.processor, hscripts.scripts⟩
  have hrun := he inside
  constructor
  · intro a w'' hok
    refine ⟨(hgrows.ok hok).1, fun hg hw hp => ?_⟩
    unfold onMainProcessor Exec.andFinally at hok
    dsimp only at hok
    split at hok
    · next a' w' h =>
      cases hok
      obtain ⟨hw', hq⟩ := (hrun.ok h).2 ((hlater w').genuine hg) (hinside hw) hp
      exact ⟨hafter w' hw hw', hq⟩
    · cases hok
  · intro err w'' herr
    refine ⟨(hgrows.error herr).1, fun hg hw hp => ?_⟩
    unfold onMainProcessor Exec.andFinally at herr
    dsimp only at herr
    split at herr
    · cases herr
    · next w' h =>
      cases herr
      obtain ⟨hw', hq⟩ := (hrun.error h).2 ((hlater w').genuine hg) (hinside hw) hp
      exact ⟨hafter w' hw hw', hq⟩

theorem callScript (hc : r.Calm) (hr : r.Sifting) (token : Nat) (f : Value) (args : List Value) :
    Exec.Sifting P (r.callScript token f args) Value.Flat := by
  intro w
  have hended : ∀ w' : World, w'.Follows { w' with
      scripts := w'.scripts.modify w'.active.index fun s =>
        { s with debug := s.debug.executionEnded } } :=
    fun w' => World.follows_modifyScript fun _ _ => .refl _
  have hsane : ∀ w' : World, World.Genuine { w' with
      scripts := w'.scripts.modify w'.active.index fun s =>
        { s with debug := s.debug.executionEnded } } → w'.Sane → World.Sane { w' with
      scripts := w'.scripts.modify w'.active.index fun s =>
        { s with debug := s.debug.executionEnded } } :=
    fun w' hg hw' => hw'.grow (hended w') hg rfl (hw'.flat.modifyScript _ fun _ h => h)
  unfold Reentry.callScript
  refine (sifting_acquire w).bind fun _ w₁ _ => ?_
  have hmain := sifting_onMainProcessor (P := P ∧ True) token (calm_callFunction hc f args)
    (callFunction hc hr f args)
  exact (hmain w₁).andSettle hended hended (fun _ w' _ hg hw' _ hv => ⟨hsane w' hg hw', hv⟩)
    fun w' _ hg hw' _ => hsane w' hg hw'

/-- What is done for another script. -/
theorem sifts_within {α : Type} {Q : α → Prop} {e : Exec α} (hcalm : Exec.Calm e)
    (he : Exec.Sifting P e Q) {id : ScriptId} (hid : id.index < w.scripts.size) :
    (within id e).Sifts w P fun a _ => Q a := by
  have hgrows := keeps_within hcalm w.processor hid
  have hinside := he { w with active := id }
  constructor
  · intro a w'' hok
    refine ⟨(hgrows.ok hok).1, fun hg hw hp => ?_⟩
    unfold within Exec.andFinally at hok
    dsimp only at hok
    split at hok
    · next w' h =>
      cases hok
      obtain ⟨hw', hq⟩ := (hinside.ok h).2 hg (hw.withActive id) hp
      exact ⟨hw'.withActive _, hq⟩
    · cases hok
  · intro err w'' herr
    refine ⟨(hgrows.error herr).1, fun hg hw hp => ?_⟩
    unfold within Exec.andFinally at herr
    dsimp only at herr
    split at herr
    · cases herr
    · next w' h =>
      cases herr
      obtain ⟨hw', hq⟩ := (hinside.error h).2 hg (hw.withActive id) hp
      exact ⟨hw'.withActive _, hq⟩

theorem enterScript (hc : r.Calm) (hr : r.Sifting) (id : ScriptId) (code : String) :
    Exec.Sifting P (r.enterScript id code) Value.Flat := by
  have hcalm : Exec.Calm (do
      let f ← loadString code none none
      r.callScript (← newToken) f []) := by
    refine (calm_loadString code none none).bind fun f => aside_newToken.calm.bind fun token => ?_
    exact calm_callScript hc token f []
  have hinside : Exec.Sifting P (do
      let f ← loadString code none none
      r.callScript (← newToken) f []) Value.Flat :=
    (sifting_loadString code none none).bind fun f => sifting_newToken.bind fun token =>
      callScript hc hr token f []
  intro w
  unfold Reentry.enterScript
  refine .get_bind ?_
  dsimp only
  split
  · exact sifting_panic _ w
  · next hid => exact sifts_within hcalm hinside (Nat.lt_of_not_le hid)

end Reentry.Sifting

/-! ## The machine at any depth -/

namespace Reentry

/-- All the ways into the machine keep a sane world sane and give flat values. -/
theorem sifting_atDepth (n : Nat) : (atDepth n).Sifting := by
  induction n with
  | zero => exact ⟨fun _ _ => sifting_exhausted, fun _ _ => sifting_exhausted,
      fun _ _ => sifting_exhausted⟩
  | succ n ih =>
    have hc := calm_atDepth n
    refine ⟨?_, ?_, ?_⟩
    · exact fun f args => Sifting.callFunction hc ih f args
    · exact fun id args => Sifting.resumeCoroutine hc ih id args
    · exact fun id code => Sifting.enterScript hc ih id code

end Reentry

end LuaMachine
