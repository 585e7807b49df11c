import LuaMachine.Proofs.Coroutine.Instructions
import LuaMachine.Proofs.Debug.Listening

/-!
# Requests and coroutines

Whatever is asked of the machine, to call a function, to resume a coroutine or to enter a script,
leaves the coroutines in order and the stacks as they were, if it returns with a value or an error.
This is shown for all depths of re-entry at once (`Reentry.tidy_atDepth`). In between, while a resumed
coroutine runs, the coroutines are in order as well, with that coroutine on top of the stack.
-/

namespace LuaMachine

open Exec

namespace World

/-- Coroutines are in order, and the script that is running exists. -/
structure Live (w : World) : Prop where
  orderly : w.Orderly
  active : w.active.index < w.scripts.size

variable {w w' : World}

theorem Continues.live (h : w.Continues w') (hw : w.Live) : w'.Live := by
  refine ⟨h.orderly, ?_⟩
  rw [h.active, h.size]
  exact hw.active

theorem Quiet.live (h : w.Quiet w') (hw : w.Live) : w'.Live := (h.continues hw.orderly).live hw

theorem Live.refl (hw : w.Live) : w.Continues w := .refl hw.orderly

theorem Live.lasting (hw : w.Live) : Lasting w.Continues where
  quiet := Continues.quiet
  create h _ := h.trans (h.orderly.create (h.live hw).active (.inl ⟨rfl, rfl⟩))

/-! ## Levels of nesting -/

/-- The running script may reserve one more level of nesting. -/
def MayNest (w : World) : Prop :=
  (w.scripts.getD w.active.index default).nesting <
    (w.scripts.getD w.active.index default).options.maxNestedCalls

/-- The world with one more level of nesting. -/
def nested (w : World) : World :=
  { w with scripts := w.scripts.modify w.active.index fun s => { s with nesting := s.nesting + 1 } }

/-- The world without the level of nesting that a script reserved. -/
def unnested (w : World) (i : ScriptId) : World :=
  { w with scripts := w.scripts.modify i.index fun s => { s with nesting := s.nesting - 1 } }

/-- A coroutine that the running script may resume. -/
structure MayResume (w : World) (id : CoroutineId) (c : Coroutine) : Prop where
  coroutine : w.heap.coroutine? id = some c
  owner : c.owner = w.active
  state : c.state = .notStarted ∨ c.state = .suspended
  nest : w.MayNest

/-- A resumption is rejected: no such coroutine, one of another script, one that is running, dead or
stands for a main processor, or too many calls and resumptions in progress. -/
def Rejects (w : World) (id : CoroutineId) : Prop :=
  ∀ c, w.heap.coroutine? id = some c →
    c.owner ≠ w.active ∨ c.state = .running ∨ c.state = .dead ∨ c.state = .main ∨ ¬w.MayNest

/-- A coroutine whose resumption is not rejected may be resumed. -/
theorem exists_mayResume {id : CoroutineId} (h : ¬w.Rejects id) : ∃ c, w.MayResume id c := by
  unfold Rejects at h
  push Not at h
  obtain ⟨c, hc, howner, hrunning, hdead, hmain, hnest⟩ := h
  refine ⟨c, hc, howner, ?_, hnest⟩
  cases hs : c.state with
  | notStarted => exact .inl rfl
  | suspended => exact .inr rfl
  | running => exact absurd hs hrunning
  | dead => exact absurd hs hdead
  | main => exact absurd hs hmain

/-- A coroutine that may be resumed has a body. -/
theorem Live.exists_body (hw : w.Live) {id : CoroutineId} {c : Coroutine}
    (hc : w.MayResume id c) : ∃ body, c.body = some body :=
  Option.isSome_iff_exists.1 ((hw.orderly.body hc.coroutine).2 hc.state)

theorem quiet_nested (w : World) : w.Quiet w.nested :=
  Quiet.modifyScript w _ (fun _ => rfl) fun _ => .refl _

theorem quiet_unnested (w : World) (i : ScriptId) : w.Quiet (w.unnested i) :=
  Quiet.modifyScript w _ (fun _ => rfl) fun _ => .refl _

/-! ## The two ends of a resumption -/

theorem modifyCoroutine_modifyCoroutine (h : Heap) (id : CoroutineId) (f g : Coroutine → Coroutine) :
    (h.modifyCoroutine id f).modifyCoroutine id g = h.modifyCoroutine id (g ∘ f) := by
  unfold Heap.modifyCoroutine
  congr 1
  refine Array.ext_getElem? fun i => ?_
  simp only [Array.getElem?_modify]
  split
  · rw [Option.map_map]
  · rfl

theorem modifyCoroutine_congr {h : Heap} {id : CoroutineId} {c : Coroutine}
    (hc : h.coroutine? id = some c) {f g : Coroutine → Coroutine} (hfg : f c = g c) :
    h.modifyCoroutine id f = h.modifyCoroutine id g := by
  unfold Heap.modifyCoroutine
  congr 1
  refine Array.ext_getElem? fun i => ?_
  simp only [Array.getElem?_modify]
  split
  · next hi =>
    subst hi
    have hc' : h.coroutines[id.index]? = some c := hc
    rw [hc']
    exact congrArg some hfg
  · rfl

variable {id : CoroutineId} {c : Coroutine}

theorem evolves_resuming (hc : w.heap.coroutine? id = some c)
    (hs : c.state = .notStarted ∨ c.state = .suspended) (p : Processor) :
    w.Evolves (w.resuming id p) := by
  have hbody : Coroutine.Change w.heap.coroutines
      (w.heap.modifyCoroutine id fun c => { c with body := none }).coroutines := .body _ none
  have hstate : Coroutine.Change
      (w.heap.modifyCoroutine id fun c => { c with body := none }).coroutines
      ((w.heap.modifyCoroutine id fun c => { c with body := none }).modifyCoroutine id
        fun c => { c with state := .running }).coroutines := by
    refine .become (c := { c with body := none }) ?_ ?_
    · have hget := coroutine?_modify w.heap id id fun c => { c with body := none }
      rw [if_pos rfl, hc] at hget
      exact hget
    · rcases hs with h | h
      · change c.state.canBecome .running = true
        rw [h]
        rfl
      · change c.state.canBecome .running = true
        rw [h]
        rfl
  have hboth := Relation.ReflTransGen.tail (.single hbody) hstate
  rw [modifyCoroutine_modifyCoroutine] at hboth
  exact hboth

theorem evolves_stopping (hc : w.heap.coroutine? id = some c) {s : CoroutineState}
    (hs : c.state.canBecome s = true) (b : Option CoroutineBody) (p : Processor) :
    w.Evolves (w.stopping id s b p) := by
  have hstate : Coroutine.Change w.heap.coroutines
      (w.heap.modifyCoroutine id fun c => { c with state := s }).coroutines := .become hc hs
  have hbody : Coroutine.Change
      (w.heap.modifyCoroutine id fun c => { c with state := s }).coroutines
      ((w.heap.modifyCoroutine id fun c => { c with state := s }).modifyCoroutine id
        fun c => { c with body := b }).coroutines := .body _ b
  have hboth := Relation.ReflTransGen.tail (.single hstate) hbody
  rw [modifyCoroutine_modifyCoroutine] at hboth
  exact hboth

theorem Live.resuming (hw : w.Live) (hc : w.heap.coroutine? id = some c) (ho : c.owner = w.active)
    (hs : c.state = .notStarted ∨ c.state = .suspended) (p : Processor) :
    (w.resuming id p).Live := by
  refine ⟨hw.orderly.resuming hc ho hs p, ?_⟩
  have hsize : (w.resuming id p).scripts.size = w.scripts.size := Array.size_modify
  rw [hsize]
  exact hw.active

/-- When a resumed coroutine stops, the world continues the one in which it was resumed. -/
theorem Live.stopping (hw : w.Live) (hc : w.heap.coroutine? id = some c) (ho : c.owner = w.active)
    (hs : c.state = .notStarted ∨ c.state = .suspended) {p : Processor}
    (h : (w.resuming id p).Continues w') {s : CoroutineState} {b : Option CoroutineBody}
    (hstop : s = .suspended ∧ b.isSome ∨ s = .dead ∧ b = none) (q : Processor) :
    w.Continues (w'.stopping id s b q) := by
  have hlive := hw.resuming hc ho hs p
  have hactive : w'.active = w.active := h.active
  have hsize : w'.scripts.size = w.scripts.size := h.size.trans Array.size_modify
  have hlt : w'.active.index < w'.scripts.size := by
    rw [hactive, hsize]
    exact hw.active
  have hstack : ∀ i, w'.stack i = if i = w.active then id :: w.stack i else w.stack i :=
    fun i => (h.stack i).trans (stack_resuming hw.active p i)
  have htop : w'.stack w'.active = id :: w.stack w.active := by
    rw [hstack, hactive, if_pos rfl]
  -- the coroutine is still running, since it is on the stack
  obtain ⟨c', hc', ho'⟩ := h.orderly.stacked (htop ▸ List.mem_cons_self)
  have hrunning : c'.state = .running := by
    refine (h.orderly.running hc').2 ?_
    rw [ho', htop]
    exact List.mem_cons_self
  have hbecome : c'.state.canBecome s = true := by
    rw [hrunning]
    rcases hstop with ⟨rfl, -⟩ | ⟨rfl, -⟩ <;> rfl
  refine ⟨h.orderly.stopping hlt htop hstop q, hactive, ?_, ?_, ?_⟩
  · exact Eq.trans Array.size_modify hsize
  · intro i
    rw [stack_stopping hlt, hstack, hactive]
    by_cases hi : i = w.active
    · rw [if_pos hi, if_pos hi]
      rfl
    · rw [if_neg hi, if_neg hi]
  · have hstart : w.Evolves (w.resuming id p) := evolves_resuming hc hs p
    exact Relation.ReflTransGen.trans (Relation.ReflTransGen.trans hstart h.evolves)
      (evolves_stopping hc' hbecome b q)

end World

namespace Exec

variable {α : Type} {w : World}

/-- What a computation that is over leaves of the coroutines. -/
abbrev Tidies (x : Exec α) (w : World) : Prop := x.Leads w (fun _ => w.Continues) w.Continues

theorem Tidies.bind {β : Type} {x : Exec α} {f : α → Exec β} (hw : w.Live) (hx : x.Tidies w)
    (hf : ∀ a w', w'.Live → (f a).Tidies w') : (x >>= f).Tidies w := by
  refine Leads.bind hx fun a w' hw' => ?_
  exact (hf a w' (hw'.live hw)).mono (fun _ _ => hw'.trans) fun _ => hw'.trans

theorem Quiet.tidies {x : Exec α} (hx : x.Quiet) (hw : w.Live) : x.Tidies w :=
  (Leads.of_ends hx w).mono (fun _ _ h => h.continues hw.orderly)
    fun _ h => h.continues hw.orderly

/-- What begins in a world to which nothing happened. -/
theorem Tidies.after {x : Exec α} {w' : World} (hw : w.Live) (h : w.Quiet w')
    (hx : x.Tidies w') : x.Leads w' (fun _ => w.Continues) w.Continues :=
  hx.mono (fun _ _ => (h.continues hw.orderly).trans) fun _ => (h.continues hw.orderly).trans

end Exec

namespace Reentry

/-- The answers of a machine leave the coroutines in order. -/
structure Tidy (r : Reentry) : Prop where
  call : ∀ f args {w}, World.Live w → (r.call f args).Tidies w
  resume : ∀ id args {w}, World.Live w → (r.resume id args).Tidies w
  enter : ∀ id code {w}, World.Live w → (r.enter id code).Tidies w

variable {r r' : Reentry} {w : World}

/-- Two machines that give the same answers in all worlds that continue a world. -/
theorem Tidy.alike (hr : r.Tidy) (hw : w.Live)
    (hcall : ∀ f args w', w.Continues w' → r.call f args w' = r'.call f args w')
    (hresume : ∀ id args w', w.Continues w' → r.resume id args w' = r'.resume id args w')
    (henter : ∀ id code w', w.Continues w' → r.enter id code w' = r'.enter id code w') :
    Alike (AgreeOn w.Continues) r r' := by
  refine ⟨hw.lasting.uniform, ?_, ?_, ?_⟩
  · intro f args w' hw'
    refine ⟨hcall f args w' hw', ?_⟩
    exact (hr.call f args (hw'.live hw)).mono (fun _ _ => hw'.trans) fun _ => hw'.trans
  · intro id args w' hw'
    refine ⟨hresume id args w' hw', ?_⟩
    exact (hr.resume id args (hw'.live hw)).mono (fun _ _ => hw'.trans) fun _ => hw'.trans
  · intro id code w' hw'
    refine ⟨henter id code w' hw', ?_⟩
    exact (hr.enter id code (hw'.live hw)).mono (fun _ _ => hw'.trans) fun _ => hw'.trans

theorem Tidy.self (hr : r.Tidy) (hw : w.Live) : Alike (AgreeOn w.Continues) r r :=
  hr.alike hw (fun _ _ _ _ => rfl) (fun _ _ _ _ => rfl) fun _ _ _ _ => rfl

/-! ## Runs -/

theorem Tidy.step (hr : r.Tidy) (hw : w.Live) (depth : Nat) (i : Instruction) :
    (r.step depth i).Tidies w :=
  ((hr.self hw).step hw.lasting depth i w hw.refl).2

/-- A debugger hears of an instruction without anything else being done. -/
theorem aside_hear (s : Script) (i : Instruction) : (hear s i).Aside := by
  unfold hear
  split
  · exact aside_listen i.span
  · exact aside_pure ()

theorem quiet_hear (s : Script) (i : Instruction) : (hear s i).Quiet := (aside_hear s i).quiet

/-- What holds of a run of instructions: an invariant of single instructions, which the debugger is of
no matter for, and what they leave the loop with. -/
theorem leads_run {depth : Nat} {Q : Option Exit → World → Prop} {E : World → Prop}
    (hstep : ∀ (i : Instruction) {w : World}, Q none w → (r.step depth i).Leads w Q E)
    (haside : ∀ {w w' : World}, Q none w → w.Aside w' → Q none w')
    (hfault : ∀ {w : World}, Q none w → E w)
    (htrace : ∀ {w w' : World}, E w → w.Aside w' → E w') (fuel : Nat) {w : World} (hw : Q none w) :
    (r.run depth fuel).Leads w (fun exit => Q (some exit)) E := by
  induction fuel generalizing w with
  | zero =>
    constructor
    · intro exit w' h
      cases h
    · intro e w' h
      cases h
  | succ n ih =>
    cases hi : (w.scripts.getD w.active.index default).code.instruction? w.processor.ip with
    | none =>
      have hrun : r.run depth (n + 1) w =
          .error (.error (.ofFault (.invalidAddress w.processor.ip))) w := by
        rw [Reentry.run]
        simp only [hi]
      constructor
      · intro exit w' h
        rw [hrun] at h
        cases h
      · intro e w' h
        rw [hrun] at h
        cases h
        exact hfault hw
    | some i =>
      have hcompleted : ∀ (e : ScriptError) {w : World}, E w →
          (trace e i.span >>= failWith : Exec Exit).Leads w (fun exit => Q (some exit)) E := by
        intro e w he
        refine Leads.bind ((Leads.of_ends (aside_trace e i.span) w).mono (fun _ _ => htrace he)
          fun _ => htrace he) fun _ w' he' => ⟨fun h => ?_, fun h => ?_⟩
        · cases h
        · cases h
          exact he'
      have hthen : ∀ {w : World}, Q none w →
          (r.stepThen depth i (r.run depth n)).Leads w (fun exit => Q (some exit)) E := by
        intro w hw
        have hone := hstep i hw
        constructor
        · intro exit w' h
          unfold stepThen at h
          split at h
          · next h₁ => exact (ih (hone.ok h₁)).ok h
          · next h₁ =>
            cases h
            exact hone.ok h₁
          · next h₁ => exact (hcompleted _ (hone.error h₁)).ok h
          · cases h
        · intro e w' h
          unfold stepThen at h
          split at h
          · next h₁ => exact (ih (hone.ok h₁)).error h
          · cases h
          · next h₁ => exact (hcompleted _ (hone.error h₁)).error h
          · next hnot _ =>
            cases h
            exact absurd rfl (hnot e)
      have hheard := (Leads.of_ends (aside_hear (w.scripts.getD w.active.index default) i) w).mono
        (fun _ _ => haside hw) fun _ => htrace (hfault hw)
      have hall := hheard.bind fun _ _ => hthen
      exact ⟨fun h => hall.ok ((run_eq r _ n hi).symm.trans h),
        fun h => hall.error ((run_eq r _ n hi).symm.trans h)⟩

theorem Tidy.run (hr : r.Tidy) (hw : w.Live) (depth fuel : Nat) :
    (r.run depth fuel).Tidies w :=
  leads_run (Q := fun _ => w.Continues)
    (fun i _ h => (hr.step (h.live hw) depth i).mono (fun _ _ => h.trans) fun _ => h.trans)
    (fun h ha => h.quiet ha.quiet) id (fun h ha => h.quiet ha.quiet) fuel hw.refl

theorem Tidy.enterFunction (hr : r.Tidy) (hw : w.Live) (depth : Nat) (f : Value)
    (args : List Value) : (r.enterFunction depth f args).Tidies w := by
  unfold Reentry.enterFunction
  refine Tidies.bind hw ((aside_resolveCallable f args).quiet.tidies hw) fun call w₁ hw₁ => ?_
  obtain ⟨f, args⟩ := call
  dsimp only
  split
  · next id =>
    refine Tidies.bind hw₁ ((quiet_enterClosure id args _ _).tidies hw₁) fun _ w₂ hw₂ => ?_
    exact hr.run hw₂ depth stepLimit
  · next c =>
    split
    · exact (quiet_pure _).tidies hw₁
    · have hinvoke := ((hr.self hw₁).invoke hw₁.lasting c args none w₁ hw₁.refl).2
      exact Tidies.bind hw₁ hinvoke fun v w₂ hw₂ => (quiet_pure _).tidies hw₂
  · exact (quiet_fail _).tidies hw₁

/-! ## Calls -/

/-- A computation at a level of nesting of its own. -/
theorem nested_eq {α : Type} (x : Exec α) (h : w.MayNest) :
    nested x w = andFinally x (·.unnested w.active) w.nested := by
  have hroom : ¬(w.scripts.getD w.active.index default).nesting ≥
      (w.scripts.getD w.active.index default).options.maxNestedCalls := Nat.not_le_of_lt h
  unfold nested
  change (if _ then _ else _ : Exec α) w = _
  rw [if_neg hroom]
  rfl

/-- A level of nesting that is reserved and given back. -/
theorem unnested_nested (w : World) : w.nested.unnested w.active = w := by
  have hscripts : (w.scripts.modify w.active.index fun s => { s with nesting := s.nesting + 1 }).modify
      w.active.index (fun s => { s with nesting := s.nesting - 1 }) = w.scripts := by
    refine Array.ext_getElem? fun i => ?_
    simp only [Array.getElem?_modify]
    split
    · rw [Option.map_map]
      exact Option.map_id'
    · rfl
  unfold World.unnested World.nested
  simp only [hscripts]

/-- The result of a function is the result of its call. -/
theorem callFunction_ok {id : ClosureId} {v : Value} {w' u : World} (h : w.MayNest)
    (henter : enterClosure id [] none none w.nested = .ok () w')
    (hrun : r.run w.processor.frames.size stepLimit w' = .ok (.returned v) u) :
    r.callFunction (.function id) [] w = .ok v
      ({ u with processor := { u.processor with ip := w.processor.ip } }.unnested w.active) := by
  have hentered : r.enterFunction w.processor.frames.size (.function id) [] w.nested =
      .ok (.returned v) u := (enterFunction_function henter).trans hrun
  unfold callFunction
  rw [nested_eq _ h]
  exact andFinally_ok ((bind_ok (get_eq _)).trans (andSettle_ok ((bind_ok hentered).trans rfl)))

/-- Without a level of nesting left, nothing is begun. -/
theorem nested_full {α : Type} (x : Exec α) (h : ¬w.MayNest) :
    nested x w = .error (.error (.ofFault .stackOverflow)) w := by
  have hfull : (w.scripts.getD w.active.index default).nesting ≥
      (w.scripts.getD w.active.index default).options.maxNestedCalls := Nat.le_of_not_lt h
  unfold nested
  change (if _ then _ else _ : Exec α) w = _
  rw [if_pos hfull]
  rfl

/-- What holds at the end of a computation at a level of nesting of its own. -/
theorem leads_nested {α : Type} {x : Exec α} {Q Q' : α → World → Prop} {E E' : World → Prop}
    (hx : w.MayNest → x.Leads w.nested Q E) (hq : ∀ a w', Q a w' → Q' a (w'.unnested w.active))
    (he : ∀ w', E w' → E' (w'.unnested w.active)) (hfull : E' w) : (nested x).Leads w Q' E' := by
  by_cases hnest : w.MayNest
  · have hall := (hx hnest).andFinally (·.unnested w.active) hq he
    have heq := nested_eq x hnest
    exact ⟨fun h => hall.ok (heq.symm.trans h), fun h => hall.error (heq.symm.trans h)⟩
  · have heq := nested_full x hnest
    constructor
    · intro a w' h
      rw [heq] at h
      cases h
    · intro e w' h
      rw [heq] at h
      cases h
      exact hfull

theorem tidies_nested {α : Type} {x : Exec α} (hw : w.Live)
    (hx : ∀ w' : World, w.Quiet w' → x.Tidies w') : (nested x).Tidies w :=
  leads_nested (fun _ => Tidies.after hw w.quiet_nested (hx _ w.quiet_nested))
    (fun _ w' h => h.quiet (w'.quiet_unnested _)) (fun w' h => h.quiet (w'.quiet_unnested _)) hw.refl

theorem Tidy.callFunction (hr : r.Tidy) (hw : w.Live) (f : Value) (args : List Value) :
    (r.callFunction f args).Tidies w := by
  refine tidies_nested hw fun w' hquiet => .get_bind ?_
  have hw' := hquiet.live hw
  refine Leads.andSettle (Q := fun _ => w'.Continues) (E := w'.Continues)
    (Tidies.bind hw' (hr.enterFunction hw' _ f _) fun exit w₁ hw₁ => ?_) _ _
    (fun _ _ h => h.quiet ⟨rfl, rfl, rfl, fun h => h, .refl _⟩) fun _ h => h.quiet ⟨rfl, rfl, rfl, fun h => h, .refl _⟩
  cases exit with
  | returned v => exact (quiet_pure _).tidies hw₁
  | yielded v => exact (quiet_fail _).tidies hw₁

/-! ## Resumptions -/

theorem Tidy.continueBody (hr : r.Tidy) (hw : w.Live) (start : Option Value)
    (args : List Value) : (r.continueBody start args).Tidies w := by
  cases start with
  | some f => exact hr.enterFunction hw 0 f _
  | none =>
    exact Tidies.bind hw ((quiet_push _).tidies hw) fun _ w₁ hw₁ => hr.run hw₁ 0 stepLimit

theorem transition_eq {id : CoroutineId} {c : Coroutine} (hc : w.heap.coroutine? id = some c)
    {s : CoroutineState} (hs : c.state.canBecome s = true) :
    transition id s w =
      .ok () { w with heap := w.heap.modifyCoroutine id fun c => { c with state := s } } := by
  have hbecome : c.become s = .ok { c with state := s } := if_pos hs
  have hsame := World.modifyCoroutine_congr hc (f := fun _ => { c with state := s })
    (g := fun c => { c with state := s }) rfl
  unfold transition
  rw [bind_ok (heap_eq _), hc]
  dsimp only
  rw [hbecome, ← hsame]
  rfl

theorem start_eq {id : CoroutineId} {c : Coroutine} (hc : w.heap.coroutine? id = some c)
    (hs : c.state = .notStarted ∨ c.state = .suspended) :
    (do setBody id none; transition id .running : Exec Unit) w = .ok () { w with
      heap := w.heap.modifyCoroutine id fun c => { c with state := .running, body := none } } := by
  have hc' : (w.heap.modifyCoroutine id fun c => { c with body := none }).coroutine? id =
      some { c with body := none } := by
    rw [World.coroutine?_modify, if_pos rfl, hc]
    rfl
  have hbecome : c.state.canBecome .running = true := by
    rcases hs with h | h <;> rw [h] <;> rfl
  have hbody : setBody id none w = .ok () { w with
    heap := w.heap.modifyCoroutine id fun c => { c with body := none } } := rfl
  have hstate := transition_eq
    (w := { w with heap := w.heap.modifyCoroutine id fun c => { c with body := none } })
    (c := { c with body := none }) hc' hbecome
  rw [World.modifyCoroutine_modifyCoroutine] at hstate
  exact (bind_ok hbody).trans hstate

/-- The body of a resumed coroutine runs in the world of its resumption; afterwards the coroutine is
off the stack, and the outer processor is back. -/
theorem runBody_eq (r : Reentry) (id : CoroutineId) (body : CoroutineBody) (args : List Value)
    (w : World) :
    r.runBody id body args { w with
        heap := w.heap.modifyCoroutine id fun c => { c with state := .running, body := none } } =
      match r.continueBody body.function args (w.resuming id body.processor) with
      | .ok exit u => .ok (.ok exit, u.processor) (u.popped w.processor)
      | .error (.error e) u => .ok (.error e, u.processor) (u.popped w.processor)
      | .error stop u => .error stop (u.popped w.processor) := by
  unfold Reentry.runBody
  change (match andFinally (r.continueBody body.function args)
      (fun w => { w with scripts := w.scripts.modify w.active.index fun s =>
        { s with running := s.running.tail } }) (w.resuming id body.processor) with
    | .ok exit w' => _
    | .error (.error e) w' => _
    | .error stop w' => _) = _
  unfold andFinally
  cases r.continueBody body.function args (w.resuming id body.processor) with
  | ok exit u => rfl
  | error stop u => cases stop <;> rfl

/-- A resumed coroutine is still running when its body is over, and can stop. -/
theorem stop_eq {id : CoroutineId} {p : Processor} {u : World} (hw : w.Live)
    (hu : (w.resuming id p).Continues u) {s : CoroutineState}
    (hstop : s = .suspended ∨ s = .dead) (q : Processor) :
    transition id s (u.popped q) = .ok () (u.stopping id s none q) := by
  have htop : id ∈ u.stack w.active := by
    rw [hu.stack, World.stack_resuming hw.active, if_pos rfl]
    exact List.mem_cons_self
  obtain ⟨c, hc, ho⟩ := hu.orderly.stacked htop
  have hrunning : c.state = .running := (hu.orderly.running hc).2 (ho ▸ htop)
  have hbody : c.body = none := by
    have hiff := hu.orderly.body hc
    rw [hrunning] at hiff
    simpa using hiff
  have hbecome : c.state.canBecome s = true := by
    rw [hrunning]
    rcases hstop with rfl | rfl <;> rfl
  have hc' : (u.popped q).heap.coroutine? id = some c := hc
  have hsame : u.heap.modifyCoroutine id (fun c => { c with state := s }) =
      u.heap.modifyCoroutine id fun c => { c with state := s, body := none } := by
    refine World.modifyCoroutine_congr hc ?_
    rw [hbody]
  rw [transition_eq hc' hbecome]
  unfold World.stopping
  rw [← hsame]
  rfl

theorem setBody_stopping (u : World) (id : CoroutineId) (s : CoroutineState)
    (b : Option CoroutineBody) (q : Processor) :
    setBody id b (u.stopping id s none q) = .ok () (u.stopping id s b q) := by
  have htwice := World.modifyCoroutine_modifyCoroutine u.heap id
    (fun c => { c with state := s, body := none }) fun c => { c with body := b }
  have hset : setBody id b (u.stopping id s none q) = .ok () { u.popped q with
    heap := (u.heap.modifyCoroutine id fun c => { c with state := s, body := none }).modifyCoroutine
      id fun c => { c with body := b } } := rfl
  rw [hset, htwice]
  rfl

/-- What comes of the resumption of a coroutine, by how its body ends. -/
def concluding (id : CoroutineId) (outer : Processor) :
    EStateM.Result Stop World Exit → EStateM.Result Stop World Value
  | .ok (.yielded v) u =>
    .ok v (u.stopping id .suspended (some { processor := u.processor, function := none }) outer)
  | .ok (.returned v) u => .ok v (u.stopping id .dead none outer)
  | .error (.error e) u => .error (.error e) (u.stopping id .dead none outer)
  | .error stop u => .error stop (u.popped outer)

/-- The resumption of a coroutine that can be resumed. -/
theorem Tidy.resumeBody_eq (hr : r.Tidy) (hw : w.Live) {id : CoroutineId} {c : Coroutine}
    (hc : w.heap.coroutine? id = some c) (ho : c.owner = w.active)
    (hs : c.state = .notStarted ∨ c.state = .suspended) (body : CoroutineBody)
    (args : List Value) :
    r.resumeBody id body args w = concluding id w.processor
      (r.continueBody body.function args (w.resuming id body.processor)) := by
  have hstart := start_eq hc hs
  have hrun := runBody_eq r id body args w
  have hlive := hw.resuming (p := body.processor) hc ho hs
  have htidies := hr.continueBody hlive body.function args
  unfold Reentry.resumeBody
  rw [← bind_assoc, bind_ok hstart]
  cases hx : r.continueBody body.function args (w.resuming id body.processor) with
  | ok exit u =>
    rw [hx] at hrun
    have hu := htidies.ok hx
    rw [bind_ok hrun]
    cases exit with
    | yielded v =>
      refine (bind_ok (stop_eq hw hu (.inl rfl) w.processor)).trans ?_
      exact bind_ok (setBody_stopping u id .suspended _ w.processor)
    | returned v => exact bind_ok (stop_eq hw hu (.inr rfl) w.processor)
  | error stop u =>
    rw [hx] at hrun
    cases stop with
    | error e =>
      have hu := htidies.error hx
      rw [bind_ok hrun]
      exact bind_ok (stop_eq hw hu (.inr rfl) w.processor)
    | panic message => exact bind_error hrun
    | exhausted => exact bind_error hrun

theorem Tidy.resumeBody (hr : r.Tidy) (hw : w.Live) {id : CoroutineId} {c : Coroutine}
    (hc : w.heap.coroutine? id = some c) (ho : c.owner = w.active)
    (hs : c.state = .notStarted ∨ c.state = .suspended) (body : CoroutineBody)
    (args : List Value) : (r.resumeBody id body args).Tidies w := by
  have heq := hr.resumeBody_eq hw hc ho hs body args
  have hlive := hw.resuming (p := body.processor) hc ho hs
  have htidies := hr.continueBody hlive body.function args
  constructor
  · intro v w' h
    rw [heq] at h
    cases hx : r.continueBody body.function args (w.resuming id body.processor) with
    | ok exit u =>
      rw [hx] at h
      cases exit with
      | yielded v =>
        cases h
        exact hw.stopping hc ho hs (htidies.ok hx) (.inl ⟨rfl, rfl⟩) w.processor
      | returned v =>
        cases h
        exact hw.stopping hc ho hs (htidies.ok hx) (.inr ⟨rfl, rfl⟩) w.processor
    | error stop u =>
      rw [hx] at h
      cases stop <;> cases h
  · intro e w' h
    rw [heq] at h
    cases hx : r.continueBody body.function args (w.resuming id body.processor) with
    | ok exit u =>
      rw [hx] at h
      cases exit <;> cases h
    | error stop u =>
      rw [hx] at h
      cases stop with
      | error e =>
        cases h
        exact hw.stopping hc ho hs (htidies.error hx) (.inr ⟨rfl, rfl⟩) w.processor
      | panic message => cases h
      | exhausted => cases h

/-- A coroutine that may be resumed is resumed at a level of nesting of its own. -/
theorem resumeCoroutine_nested (r : Reentry) {id : CoroutineId} {c : Coroutine}
    (hc : w.MayResume id c) {body : CoroutineBody} (hbody : c.body = some body)
    (args : List Value) :
    r.resumeCoroutine id args w = nested (r.resumeBody id body args) w := by
  have howner : (c.owner != w.active) = false := by simp [hc.owner]
  unfold Reentry.resumeCoroutine
  rw [bind_ok (get_eq _), hc.coroutine]
  dsimp only
  rw [howner, hbody]
  rcases hc.state with h | h
  · rw [h]
    rfl
  · rw [h]
    rfl

/-- What comes of a request to resume a coroutine that may be resumed. -/
theorem Tidy.resumeCoroutine_eq (hr : r.Tidy) (hw : w.Live) {id : CoroutineId} {c : Coroutine}
    (hc : w.MayResume id c) {body : CoroutineBody} (hbody : c.body = some body)
    (args : List Value) :
    r.resumeCoroutine id args w = andFinally
      (fun w => concluding id w.processor
        (r.continueBody body.function args (w.resuming id body.processor)))
      (·.unnested w.active) w.nested := by
  rw [r.resumeCoroutine_nested hc hbody, nested_eq _ hc.nest]
  unfold andFinally
  rw [hr.resumeBody_eq (w.quiet_nested.live hw) hc.coroutine hc.owner hc.state body args]

/-- A resumption that is rejected fails, and changes nothing. -/
theorem resume_rejected (r : Reentry) {id : CoroutineId} (h : w.Rejects id) (args : List Value) :
    ∃ e, r.resumeCoroutine id args w = .error (.error e) w := by
  unfold Reentry.resumeCoroutine
  rw [bind_ok (get_eq _)]
  cases hc : w.heap.coroutine? id with
  | none => exact ⟨_, rfl⟩
  | some c =>
    dsimp only
    split
    · exact ⟨_, rfl⟩
    · next howner =>
      have howner : c.owner = w.active := by simpa using howner
      cases hs : c.state with
      | dead => exact ⟨_, rfl⟩
      | main => exact ⟨_, rfl⟩
      | running => exact ⟨_, rfl⟩
      | notStarted | suspended =>
        have hfull : ¬w.MayNest := by simpa [howner, hs] using h c hc
        exact ⟨_, nested_full _ hfull⟩

theorem Tidy.resumeCoroutine (hr : r.Tidy) (hw : w.Live) (id : CoroutineId)
    (args : List Value) : (r.resumeCoroutine id args).Tidies w := by
  by_cases h : w.Rejects id
  · obtain ⟨e, he⟩ := r.resume_rejected h args
    constructor
    · intro v w' hv
      rw [he] at hv
      cases hv
    · intro e' w' hv
      rw [he] at hv
      cases hv
      exact hw.refl
  · obtain ⟨c, hc⟩ := World.exists_mayResume h
    obtain ⟨body, hbody⟩ := hw.exists_body hc
    have heq := r.resumeCoroutine_nested hc hbody args
    have hnested : (nested (r.resumeBody id body args)).Tidies w := by
      refine tidies_nested hw fun w' hquiet => ?_
      have hc' : w'.heap.coroutine? id = some c := (hquiet.coroutine? id).trans hc.coroutine
      exact hr.resumeBody (hquiet.live hw) hc' (hc.owner.trans hquiet.active.symm) hc.state body args
    exact ⟨fun h => hnested.ok (heq.symm.trans h), fun h => hnested.error (heq.symm.trans h)⟩

/-! ## Scripts -/

theorem quiet_acquire : Exec.Quiet acquire := by
  unfold acquire
  refine aside_script.quiet.bind fun s => quiet_get.bind fun w => ?_
  dsimp only
  split
  · exact quiet_modifyScript (fun _ => rfl) fun _ => .refl _
  · split
    · exact quiet_fail _
    · split
      · exact (aside_failWith _).quiet
      · exact (aside_throw _).quiet

theorem tidies_onMainProcessor {α : Type} {x : Exec α} (hw : w.Live) (token : Nat)
    (hx : ∀ w' : World, w.Quiet w' → x.Tidies w') : (onMainProcessor token x).Tidies w := by
  let main := (w.scripts.getD w.active.index default).processor
  have hinside : w.Quiet { w with processor := main, token } := ⟨rfl, rfl, rfl, fun h => h, .refl _⟩
  have hback : ∀ w' : World, w'.Quiet { w' with
      scripts := w'.scripts.modify w.active.index fun s =>
        { s with processor := w'.processor, owner := none, counters := s.counters.countExecution }
      processor := w.processor
      token := w.token } := by
    intro w'
    have hscripts : w'.Quiet { w' with scripts := w'.scripts.modify w.active.index fun s =>
        { s with processor := w'.processor, owner := none
                 counters := s.counters.countExecution } } :=
      World.Quiet.modifyScript w' w.active.index (fun _ => rfl) fun _ => .refl _
    exact hscripts.trans ⟨rfl, rfl, rfl, fun h => h, .refl _⟩
  have hall := Leads.andFinally (Tidies.after hw hinside (hx _ hinside)) _
    (fun _ w' h => h.quiet (hback w')) fun w' h => h.quiet (hback w')
  exact ⟨hall.ok, hall.error⟩

theorem Tidy.callScript (hr : r.Tidy) (hw : w.Live) (token : Nat) (f : Value)
    (args : List Value) : (r.callScript token f args).Tidies w := by
  have hended : ∀ w' : World, w'.Quiet { w' with
      scripts := w'.scripts.modify w'.active.index fun s =>
        { s with debug := s.debug.executionEnded } } :=
    fun w' => World.Quiet.modifyScript w' w'.active.index (fun _ => rfl) fun s => s.debug.heeds_executionEnded
  refine Tidies.bind hw (quiet_acquire.tidies hw) fun _ w₁ hw₁ => ?_
  have hcall := tidies_onMainProcessor hw₁ token fun w' hquiet =>
    hr.callFunction (hquiet.live hw₁) f args
  exact Leads.andSettle hcall _ _ (fun _ w' h => h.quiet (hended w'))
    fun w' h => h.quiet (hended w')

theorem Tidy.enterScript (hr : r.Tidy) (hw : w.Live) (id : ScriptId) (code : String) :
    (r.enterScript id code).Tidies w := by
  have hinside : id.index < w.scripts.size → (within id do
      let f ← loadString code none none
      r.callScript (← newToken) f []).Tidies w := by
    intro hid
    have hlive : World.Live { w with active := id } := ⟨hw.orderly.withActive id, hid⟩
    have hrun : (do
        let f ← loadString code none none
        r.callScript (← newToken) f []).Tidies { w with active := id } := by
      refine Tidies.bind hlive ((quiet_loadString _ _ _).tidies hlive) fun f w₁ hw₁ => ?_
      refine Tidies.bind hw₁ (aside_newToken.quiet.tidies hw₁) fun token w₂ hw₂ => ?_
      exact hr.callScript hw₂ token f []
    -- the script that was running is running again
    have hback : ∀ w' : World, World.Continues { w with active := id } w' →
        w.Continues { w' with active := w.active } := by
      intro w' h
      exact ⟨h.orderly.withActive w.active, rfl, h.size, h.stack, h.evolves⟩
    have hall := Leads.andFinally hrun (fun w' => { w' with active := w.active })
      (fun _ w' h => hback w' h) fun w' h => hback w' h
    exact ⟨hall.ok, hall.error⟩
  unfold Reentry.enterScript
  refine .get_bind ?_
  dsimp only
  split
  · constructor
    · intro v w' h
      cases h
    · intro e w' h
      cases h
  · next hid => exact hinside (Nat.lt_of_not_le hid)

/-! ## The machine at any depth -/

/-- All answers of the machine leave the coroutines in order. -/
theorem tidy_atDepth (n : Nat) : (atDepth n).Tidy := by
  have hexhausted : ∀ w : World, (throw .exhausted : Exec Value).Tidies w := by
    intro w
    constructor
    · intro v w' h
      cases h
    · intro e w' h
      cases h
  induction n with
  | zero => exact ⟨fun _ _ _ _ => hexhausted _, fun _ _ _ _ => hexhausted _,
      fun _ _ _ _ => hexhausted _⟩
  | succ n ih =>
    refine ⟨?_, ?_, ?_⟩
    · exact fun f args w hw => ih.callFunction hw f args
    · exact fun id args w hw => ih.resumeCoroutine hw id args
    · exact fun id code w hw => ih.enterScript hw id code

end Reentry

end LuaMachine
