import LuaMachine.Proofs.Flat.Machine
import LuaMachine.Proofs.Loops.Bounded

/-!
# What a run comes to is sane

Wherever control comes from a request in a sane world, the world is sane, and where control is fits what
the code foresees (`Comes.sane`): a loop of instructions is above the height that it was entered at with
the shapes of all its functions, and a function that is entered has single arguments.

A request that is asked in the middle of an instruction is asked in a sane world as well: a machine
that cancels it there would be left in that very world.
-/

namespace LuaMachine

open Exec

namespace Reentry

variable {r : Reentry} {w u v : World} {q : Request} {i : Instruction} {bottom : Processor}

/-! ## Requests in the middle of something -/

/-- A machine that answers one request in one world with a cancellation still keeps tuples in their
place. -/
theorem Sifting.answering_cancelled (hr : r.Sifting) (q : Request) (v : World) :
    (r.answering q v (.error (.error .cancelled) v)).Sifting := by
  have hanswer : ∀ {P p : Prop} {x x' : Exec Value}, Exec.Sifting P x Value.Flat →
      (∀ w, p ∧ w = v → x' w = .error (.error .cancelled) v) →
      (∀ w, ¬(p ∧ w = v) → x' w = x w) → Exec.Sifting P x' Value.Flat := by
    intro P p x x' hx hthere helsewhere w
    by_cases h : p ∧ w = v
    · have hx' := hthere w h
      obtain ⟨-, rfl⟩ := h
      exact .of_error hx' (.refl w) fun _ hw _ => ⟨hw, trivial⟩
    · have hx' := helsewhere w h
      exact ⟨fun h => (hx w).ok (hx'.symm.trans h), fun h => (hx w).error (hx'.symm.trans h)⟩
  refine ⟨fun f args => ?_, fun id args => ?_, fun id code => ?_⟩
  · exact hanswer (hr.call f args) (fun _ h => if_pos h) fun _ h => if_neg h
  · exact hanswer (hr.resume id args) (fun _ h => if_pos h) fun _ h => if_neg h
  · exact hanswer (hr.enter id code) (fun _ h => if_pos h) fun _ h => if_neg h

end Reentry

namespace World

variable {w w' : World} {bottom : Processor}

/-- A loop of instructions is under way above the bottom, with the shapes of its functions. -/
def InShape (w : World) (bottom : Processor) : Prop := w.Attended bottom ∨ w.Adrift

theorem InShape.mono (h : w.InShape bottom) (hl : w.Later w') (hp : w'.processor = w.processor) :
    w'.InShape bottom :=
  h.imp (·.mono hl hp) (·.mono hl hp)

end World

namespace Reentry.Sifting

variable {r : Reentry} {w u v : World} {q : Request} {i : Instruction} {bottom : Processor} {a : Nat}

/-- An instruction that does not end a loop leads to the next one. -/
theorem step_inShape (hc : r.Calm) (hr : r.Sifting) (hi : w.ops a = some i.op) :
    (r.step bottom.frames.size i).Sifts w (w.processor.ip = a ∧ w.InShape bottom)
      fun exit w' => exit = none → w'.InShape bottom := by
  have hattended : (r.step bottom.frames.size i).Sifts w (w.processor.ip = a ∧ w.Attended bottom)
      fun exit w' => exit = none → w'.InShape bottom := by
    refine (step hc hr hi).mono id ?_
    rintro - exit w' h rfl
    exact .inl h
  have hadrift : (r.step bottom.frames.size i).Sifts w (w.processor.ip = a ∧ w.Adrift)
      fun exit w' => exit = none → w'.InShape bottom :=
    (step_adrift hc hi).mono id fun _ _ _ h _ => .inr h.2
  refine (hattended.or hadrift).mono ?_ fun _ _ _ => id
  rintro ⟨hip, h | h⟩
  · exact .inl ⟨hip, h⟩
  · exact .inr ⟨hip, h⟩

/-- What an instruction that calls nothing asks the machine for is asked in a sane world. -/
theorem asks_step (hc : r.Calm) (hr : r.Sifting) (hi : w.ops w.processor.ip = some i.op)
    (hcall : ∀ argc, i.op ≠ .call argc) (hasks : Asks (·.step bottom.frames.size i) r w q v)
    (hg : v.Genuine) (hw : w.Sane) (h : w.InShape bottom) : v.Sane := by
  have hcancelled := cancelled_of_asks hasks fun hr' => (paired_cancelled hr').step _ i hcall
  have hstep := (step_inShape (hc.answering_cancelled q v) (hr.answering_cancelled q v) hi).error
    hcancelled
  exact (hstep.2 hg hw ⟨rfl, h⟩).1

end Reentry.Sifting

namespace Reentry

variable {r : Reentry} {w v : World} {q : Request}

/-- Another answer in another world makes no difference to a probe that enters a script. -/
theorem attempt_answering (r : Reentry) (q : Request) {u v : World} (huv : u ≠ v)
    (a : EStateM.Result Stop World Value) (home : ScriptId) (code : String) :
    Probe.attempt (r.answering q v a) home code u = Probe.attempt r home code u := by
  have henter : (r.answering q v a).enter home code u = r.enter home code u :=
    if_neg fun h => huv h.2
  simp only [Probe.attempt, catchError, henter]

/-- A probe that makes a text of every error enters a script in the world where it begins, or from
another thread. -/
theorem world_of_asks_probe {p : Probe} {home : ScriptId} {caller : Option Span} {args : Arguments}
    (hp : ¬(Native.probe home p).LetsPass) (hasks : Asks (p.run · home caller args) r w q v) :
    v = w ∨ v = { w with thread := intruderThread } := by
  obtain ⟨a, ha⟩ := hasks
  by_contra hv
  obtain ⟨hhere, hthread⟩ := not_or.1 hv
  have hcode : ∀ {x x' : String → Exec Value}, (∀ code, x code w = x' code w) →
      ((monadLift (args.string 0 p.name) : Exec String) >>= x) w =
        ((monadLift (args.string 0 p.name) : Exec String) >>= x') w := by
    intro x x' h
    cases args.string 0 p.name with
    | error e => rfl
    | ok code => exact h code
  cases p with
  | reenter => exact ha (hcode fun code => attempt_answering r q (Ne.symm hhere) a home code)
  | intrude =>
    refine ha (hcode fun code => ?_)
    have hinside : Probe.intruding (Probe.attempt (r.answering q v a) home code) w =
        Probe.intruding (Probe.attempt r home code) w := by
      unfold Probe.intruding andFinally
      simp only [attempt_answering r q (Ne.symm hthread) a home code]
    change (do
      if (w.scripts[home.index]?).map (·.options.checkThreadAccess) != some true then
        Exec.fail .intrudeNeedsCheck
      Probe.intruding (Probe.attempt (r.answering q v a) home code) : Exec Value) w = (do
      if (w.scripts[home.index]?).map (·.options.checkThreadAccess) != some true then
        Exec.fail .intrudeNeedsCheck
      Probe.intruding (Probe.attempt r home code) : Exec Value) w
    dsimp only
    split
    · rfl
    · exact hinside
  | _ => exact hp trivial

end Reentry

namespace Reentry.Sifting

variable {r : Reentry} {w u v : World} {q : Request} {i : Instruction} {bottom : Processor} {a : Nat}

/-- What a native function asks the machine for is asked in a sane world. -/
theorem asks_native (hr : r.Sifting) {f : Native} {caller : Option Span}
    {args : Arguments} (hasks : Asks (f.run · caller args) r w q v) (hg : v.Genuine) (hw : w.Sane)
    (hargs : args.Single) : v.Sane := by
  by_cases hf : f.LetsPass
  · have hcancelled := cancelled_of_asks hasks fun hr' =>
      (paired_cancelled hr').toPaired.native caller args f hf
    have hrun := ((hr.answering_cancelled q v).native caller f w).error hcancelled
    exact (hrun.2 hg hw hargs).1
  · cases f with
    | probe home p =>
      rcases world_of_asks_probe hf hasks with rfl | rfl
      · exact hw
      · refine hw.grow (World.follows_of_eq rfl) hg rfl ?_
        exact ⟨hw.flat.heap, hw.flat.processor, hw.flat.scripts⟩
    | _ => exact absurd trivial hf

/-! ## Calls -/

theorem sifting_pop {P : Prop} : Exec.Sifting P pop fun _ => True := by
  intro w
  cases hv : w.processor.values.back? with
  | none =>
    have hpop : pop w = .error (.error (.ofFault .stackUnderflow)) w := by
      simp only [pop, hv]
    exact .of_error hpop (.refl w) fun _ hw _ => ⟨hw, rfl⟩
  | some v =>
    have hpop : pop w = .ok v { w with processor :=
        { w.processor with values := w.processor.values.pop } } := by
      simp only [pop, hv]
    have hf : w.Follows { w with processor :=
        { w.processor with values := w.processor.values.pop } } := World.follows_of_eq rfl
    refine .of_ok hpop hf fun hg hw _ => ⟨hw.grow hf hg rfl ?_, trivial⟩
    exact hw.flat.withProcessor hw.flat.processor.popValue

theorem sifting_popMany {P : Prop} (n : Nat) : Exec.Sifting P (popMany n) fun _ => True := by
  intro w
  by_cases hsize : n ≤ w.processor.values.size
  · have hf : w.Follows { w with processor := { w.processor with
        values := w.processor.values.shrink (w.processor.values.size - n) } } := World.follows_of_eq rfl
    refine .of_ok (if_pos hsize) hf fun hg hw _ => ⟨hw.grow hf hg rfl ?_, trivial⟩
    exact hw.flat.withProcessor (hw.flat.processor.shrink _)
  · exact .of_error (if_neg hsize) (.refl w) fun _ hw _ => ⟨hw, rfl⟩

/-- What is called and what it is called with are single values, whatever lies on the stack. -/
theorem sifting_called {P : Prop} (argc : Nat) :
    Exec.Sifting P (called argc) fun call => call.1.Single ∧ ∀ v ∈ call.2, v.Single := by
  unfold called
  have hrest : ∀ {P : Prop} (_ : Unit), Exec.Sifting P (do
      let args := Value.flatten (← popMany argc)
      let f ← pop
      safepoint
      resolveCallable f args) fun call => call.1.Single ∧ ∀ v ∈ call.2, v.Single :=
    fun _ => (sifting_popMany argc).bind fun args => sifting_pop.bind fun f =>
      sifting_safepoint.bind fun _ => sifting_resolveCallable f fun _ _ => Value.single_of_mem_flatten
  refine sifting_processor.bind fun p => ?_
  dsimp only
  split
  · exact (sifting_fail _ (Q := fun _ => True)).bind hrest
  · exact hrest ()

end Reentry.Sifting

/-! ## On the way inwards -/

namespace World

variable {w : World}

theorem Sane.nested (hw : w.Sane) : w.nested.Sane := by
  have hf : w.Follows w.nested := follows_modifyScript fun _ _ => .refl _
  have hscripts := hw.flat.modifyScript w.active.index (f := fun s =>
    { s with nesting := s.nesting + 1 }) fun _ h => h
  exact hw.of_later hf.later rfl rfl hscripts

/-- A coroutine goes on on its own processor. -/
theorem Sane.resuming (hw : w.Sane) (id : CoroutineId) {p : Processor} (hp : p.Flat) :
    (w.resuming id p).Sane := by
  have hstarted : World.Sane { w with heap := w.heap.modifyCoroutine id fun c =>
      { c with state := .running, body := none } } :=
    hw.modifyCoroutine fun c _ => ⟨rfl, .of_none rfl, nofun⟩
  have hscripts := hstarted.flat.modifyScript w.active.index (f := fun s =>
    { s with running := id :: s.running }) fun _ h => h
  have hpushed : ∀ w : World, w.Follows { w with scripts := w.scripts.modify w.active.index fun s =>
      { s with running := id :: s.running } } := fun _ => World.follows_modifyScript fun _ _ => .refl _
  exact hstarted.of_later ((hpushed _).later.elsewhere p w.token) rfl rfl
    ⟨hstarted.flat.heap, hp, hscripts.scripts⟩

/-- A native function has just been given a frame. -/
theorem Sane.inside (hw : w.Sane) (c : Callback) (caller : Option Span) : (w.inside c caller).Sane := by
  refine hw.of_later ((Later.refl w).elsewhere _ w.token) rfl rfl (hw.flat.withProcessor ?_)
  refine ⟨hw.flat.processor.values, fun f hf => ?_⟩
  rcases Array.mem_push.1 hf with hf | hf
  · exact hw.flat.processor.frames f hf
  · cases hf

/-- The main processor of the running script comes in. -/
theorem Sane.onMain (hw : w.Sane) (token : Nat) :
    ({ w with processor := (w.scripts.getD w.active.index default).processor, token } : World).Sane :=
  hw.of_later ((Later.refl w).elsewhere _ token) rfl rfl
    ⟨hw.flat.heap, hw.flat.script, hw.flat.scripts⟩

end World

/-- What is under way has the shape that the code foresees: a loop is above the height that it was
entered at, and functions have single arguments. -/
def Spot.InShape (w : World) : Spot → Prop
  | .loop depth _ => ∃ bottom : Processor, bottom.frames.size = depth ∧ w.InShape bottom
  | .function depth _ args => w.processor.frames.size = depth ∧ ∀ v ∈ args, v.Single
  | .native _ args _ => ∀ v ∈ args, v.Single
  | .request _ => True

variable {n k m : Nat} {spot between inner : Spot} {w w₁ v : World}
  {link : List (ScriptId × CoroutineId)}

/-- An instruction is heard of by the debugger. -/
theorem sane_of_hear {s : Script} {i : Instruction} (h : Reentry.hear s i w = .ok () w₁)
    (hg : w₁.Genuine) (hw : w.Sane) :
    w₁.Sane ∧ w.Later w₁ ∧ w₁.processor = w.processor := by
  have hsane := ((Reentry.Sifting.sifting_hear (P := True) s i w).ok h).2 hg hw trivial
  obtain ⟨hf, hp⟩ := (Reentry.calm_hear s i w.processor w).ok h
  exact ⟨hsane.1, hf.later, hp hg hw.closed rfl⟩

/-- From a spot in a sane world, control goes to one in a sane world, and what is under way there has
the shape that the code foresees. -/
theorem Inward.sane (h : Inward n spot w link k between w₁) (hg : w₁.Genuine) (hw : w.Sane)
    (hs : spot.InShape w) : w₁.Sane ∧ between.InShape w₁ := by
  cases h with
  | next hi hheard hstep =>
    obtain ⟨bottom, rfl, hshape⟩ := hs
    have hops := World.ops_of_instruction hi
    have hf := ((Reentry.calm_hear _ _ w.processor w).ok hheard).1
    have hkeeps := (Reentry.keeps_step (Reentry.calm_atDepth n) (hf.later.ops hops)).ok hstep
    obtain ⟨hw', hl, hp⟩ := sane_of_hear hheard (hkeeps.1.later.genuine hg) hw
    obtain ⟨hsane, hnext⟩ := ((Reentry.Sifting.step_inShape (Reentry.calm_atDepth n)
      (Reentry.sifting_atDepth n) (hl.ops hops)).ok hstep).2 hg hw'
      ⟨congrArg (·.ip) hp, hshape.mono hl hp⟩
    exact ⟨hsane, bottom, rfl, hnext rfl⟩
  | asked hi hheard hcall hasks =>
    obtain ⟨bottom, rfl, hshape⟩ := hs
    have hops := World.ops_of_instruction hi
    have hf := ((Reentry.calm_hear _ _ w.processor w).ok hheard).1
    have hinherits := (Reentry.calm_atDepth _).asks_step (hf.later.ops hops) hcall hasks
    obtain ⟨hw', hl, hp⟩ := sane_of_hear hheard (hinherits.genuine hg) hw
    refine ⟨(Reentry.sifting_atDepth _).asks_step (Reentry.calm_atDepth _) ?_ hcall hasks hg hw'
      (hshape.mono hl hp), trivial⟩
    rw [hp]
    exact hl.ops hops
  | @invoked _ _ _ argc _ w₂ w₃ span c args hi hheard hcalled hyield hdepth =>
    have hg : w₃.Genuine := hg
    have hcall := (Reentry.Sifting.sifting_called (P := True) argc w₂).ok hcalled
    obtain ⟨hw', -, -⟩ := sane_of_hear hheard (hcall.1.later.genuine hg) hw
    obtain ⟨hsane, -, hargs⟩ := hcall.2 hg hw' trivial
    exact ⟨hsane.inside c span, hargs⟩
  | nativeAsked hf hasks =>
    exact ⟨(Reentry.sifting_atDepth _).asks_native hasks hg hw hs, trivial⟩
  | @closure _ depth f args args' id _ w₂ _ hf henter =>
    obtain ⟨rfl, hargs⟩ := hs
    have hentered := (Reentry.Sifting.sifts_enterClosure (w := w₂) (P := ∀ v ∈ args', v.Single)
      id none none fun h => h).ok henter
    have hresolved := (sifting_resolveCallable (P := True) f (fun _ => hargs) w).ok hf
    have hg₂ := hentered.1.later.genuine hg
    obtain ⟨hw₂, -, hargs'⟩ := hresolved.2 hg₂ hw trivial
    have hp := ((calm_resolveCallable f args w.processor w).ok hf).2 hg₂ hw.closed rfl
    obtain ⟨hsane, c, htraces, hshows⟩ := hentered.2 hg hw₂ hargs'
    exact ⟨hsane, w₂.processor, by rw [hp], .inl ⟨_, [], c.entry, .host, htraces, hshows⟩⟩
  | @callback _ _ f args _ c _ w₂ hf hyield hdepth =>
    have hg : w₂.Genuine := hg
    have hresolved := (sifting_resolveCallable (P := True) f (fun _ => hs.2) w).ok hf
    obtain ⟨hw₂, -, hargs⟩ := hresolved.2 hg hw trivial
    exact ⟨hw₂.inside c none, hargs⟩
  | call hnest => exact ⟨hw.nested, rfl, fun _ => Value.single_of_mem_flatten⟩
  | start hc hbody =>
    have hmem := Array.mem_of_getElem? hc.coroutine
    refine ⟨hw.nested.resuming _ (hw.flat.heap.coroutines _ hmem _ hbody).1, ?_,
      fun _ => Value.single_of_mem_flatten⟩
    rw [World.resuming, (hw.poised _ hmem).fresh _ _ hbody]
    rfl
  | @again _ id c p args _ _ hc hbody hpush =>
    have hmem := Array.mem_of_getElem? hc.coroutine
    have hnested : w.Follows w.nested := World.follows_modifyScript fun _ _ => .refl _
    have hfollows := hnested.trans (Reentry.follows_resuming _ id p)
    have hresumed := hw.nested.resuming id (hw.flat.heap.coroutines _ hmem _ hbody).1
    have hhalted := (hw.poised _ hmem).suspended p hbody
    rw [hc.owner] at hhalted
    cases hpush
    have hpushed : World.Follows (w.nested.resuming id p) { w.nested.resuming id p with
        processor := { p with values := p.values.push (.ofList (Value.flatten args)) } } :=
      World.follows_of_eq rfl
    refine ⟨hresumed.grow hpushed hg rfl (hresumed.flat.withProcessor ?_), .ofCoroutine, rfl, ?_⟩
    · exact hresumed.flat.processor.push (Value.flat_ofList fun _ => Value.single_of_mem_flatten)
    · obtain ⟨hactive, hsize, hcode, howners⟩ := (hfollows.trans hpushed).later
      exact World.Halted.push hhalted ⟨hactive, hsize, hcode, howners⟩ rfl
  | @host _ token _ _ _ w₂ hacquire =>
    have hg : w₂.Genuine := hg
    have hacquired := ((Reentry.Sifting.sifting_acquire (P := True) w).ok hacquire).2 hg hw trivial
    exact ⟨hacquired.1.onMain token, trivial⟩
  | enter hid hload htoken =>
    have htokened := (sifting_newToken (P := True) _).ok htoken
    have hloaded := (sifting_loadString (P := True) _ none none _).ok hload
    have hg₁ := htokened.1.later.genuine hg
    have hw₁ := (hloaded.2 hg₁ (hw.withActive _) trivial).1
    exact ⟨(htokened.2 hg hw₁ trivial).1, trivial⟩

/-- What is under way keeps its shape when others cancel an execution. -/
theorem sane_of_cancel {token : Nat} (h : Exec.cancel token w = .ok () w₁) (hg : w₁.Genuine)
    (hw : w.Sane) (hs : spot.InShape w) : w₁.Sane ∧ spot.InShape w₁ := by
  have hsane := ((sifting_cancel (P := True) token w).ok h).2 hg hw trivial
  have hf := (((aside_cancel token).calm w.processor w).ok h).1
  have hp : w₁.processor = w.processor := by
    cases h
    rfl
  refine ⟨hsane.1, ?_⟩
  cases spot with
  | loop depth fuel =>
    obtain ⟨bottom, hbottom, hshape⟩ := hs
    exact ⟨bottom, hbottom, hshape.mono hf.later hp⟩
  | function depth f args => exact ⟨(congrArg (·.frames.size) hp).trans hs.1, hs.2⟩
  | native f args caller => exact hs
  | request q => trivial

/-- Wherever control comes from a sane world, the world is sane, and what is under way there has the
shape that the code foresees. -/
theorem Comes.sane (h : Comes n spot w m inner v) (hg : v.Genuine) (hw : w.Sane)
    (hs : spot.InShape w) : v.Sane ∧ inner.InShape v := by
  induction h with
  | here => exact ⟨hw, hs⟩
  | inward hfirst hrest ih =>
    obtain ⟨hw₁, hs₁⟩ := hfirst.sane (hrest.inherits.genuine hg) hw hs
    exact ih hg hw₁ hs₁
  | asked hasks hrest ih =>
    exact ih hg ((Reentry.sifting_atDepth _).asks_native hasks (hrest.inherits.genuine hg) hw hs) trivial
  | cancelled hcancel hrest ih =>
    obtain ⟨hw₁, hs₁⟩ := sane_of_cancel hcancel (hrest.inherits.genuine hg) hw hs
    exact ih hg hw₁ hs₁

/-! ## Values that are under way -/

namespace OpCode

/-- How far below the top of the stack an operation of a loop finds the values that control it. The
function, the state and the control value of a generic loop are copied for each call. -/
def controls : OpCode → List Nat
  | forLoop _ | forStep | forVar _ => [0, 1, 2]
  | iterCheck _ => [1, 2, 3]
  | copy n => [n]
  | _ => []

/-- Where the code foresees it, they are known to be single ones. -/
theorem Admits.controls {op : OpCode} {σ : Shape} (h : op.Admits σ) {d : Nat}
    (hd : d ∈ op.controls) : σ[d]? = some true := by
  obtain ⟨-, h⟩ := h
  cases op with
  | forLoop _ | forStep | forVar _ =>
    obtain ⟨π, rfl⟩ := h
    simp only [OpCode.controls, List.mem_cons, List.not_mem_nil, or_false] at hd
    rcases hd with rfl | rfl | rfl <;> rfl
  | iterCheck _ =>
    obtain ⟨b, π, rfl⟩ := h
    simp only [OpCode.controls, List.mem_cons, List.not_mem_nil, or_false] at hd
    rcases hd with rfl | rfl | rfl <;> rfl
  | copy n =>
    cases List.mem_singleton.1 hd
    exact h
  | _ => cases hd

end OpCode

namespace World

variable {bottom : Processor} {op : OpCode} {d : Nat} {u : Value}

/-- The values that control a loop are single. -/
theorem InShape.controls (h : w.InShape bottom) (hg : w.Genuine)
    (hop : w.ops w.processor.ip = some op) (hd : d ∈ op.controls)
    (hu : w.processor.stack[d]? = some u) : u.Single := by
  rcases h with ⟨A, σ, x, -, htraces, hshows⟩ | ⟨-, hip⟩
  · rw [hshows.place.ip_eq] at hop
    exact hshows.tops.single ((htraces.admits hg hop).controls hd) hu
  · rcases hip with hip | ⟨hip, locals, hbegin⟩
    · obtain ⟨s, hs, hops⟩ := exists_script_of_ops hop
      rw [hops, hip] at hop
      obtain ⟨⟨name, kind, k, rfl⟩, -⟩ := (hg _ s hs).first hop
      cases hd
    · rw [hip, hbegin] at hop
      cases hop
      cases hd

end World

/-- The value that a run of code ends with. -/
def Exit.value : Exit → Value
  | .returned v | .yielded v => v

namespace Spot

/-- Carry out what is under way. -/
def run (r : Reentry) : Spot → Exec Value
  | .request q => r.perform q
  | .function depth f args => do return (← r.enterFunction depth f args).value
  | .loop depth fuel => do return (← r.run depth fuel).value
  | .native f args caller => f.run r caller ⟨args⟩

/-- What is under way works on single values: those that control a loop, a function that is called
and its arguments. -/
def Single (w : World) : Spot → Prop
  | .loop .. => ∀ op, w.ops w.processor.ip = some op →
    (∀ d ∈ op.controls, ∀ u, w.processor.stack[d]? = some u → u.Single) ∧
      ∀ argc f args w', op = .call argc → called argc w = .ok (f, args) w' →
        f.Single ∧ ∀ v ∈ args, v.Single
  | .function _ _ args | .native _ args _ => ∀ v ∈ args, v.Single
  | .request _ => True

theorem InShape.single (h : spot.InShape w) (hg : w.Genuine) (hw : w.Sane) : spot.Single w := by
  cases spot with
  | loop depth fuel =>
    obtain ⟨bottom, -, hshape⟩ := h
    refine fun op hop => ⟨fun d hd u hu => hshape.controls hg hop hd hu, ?_⟩
    rintro argc f args w' - hcalled
    refine (((Reentry.Sifting.sifting_called (P := True) argc w).ok hcalled).2 ?_ hw trivial).2
    rw [called_world hcalled]
    exact hg
  | function depth f args => exact h.2
  | native f args caller => exact h
  | request q => trivial

/-- A run ends with a flat value. -/
theorem sifts_loop (n depth fuel : Nat) (w : World) :
    ((Reentry.atDepth n).run depth fuel).Sifts w (InShape w (.loop depth fuel))
      fun exit _ => exit.value.Flat := by
  have hc := Reentry.calm_atDepth n
  have hr := Reentry.sifting_atDepth n
  obtain ⟨anywhere, rfl⟩ := Processor.exists_bottom depth
  refine .assume (Reentry.keeps_run hc anywhere fuel w) ?_
  rintro - - ⟨bottom, hbottom, hshape⟩
  rw [← hbottom]
  have hattended : ((Reentry.atDepth n).run bottom.frames.size fuel).Sifts w (w.Attended bottom)
      fun exit _ => exit.value.Flat := by
    refine (hr.run hc bottom fuel w).mono id ?_
    rintro - (v | v) w' h
    · exact h
    · exact h.1
  have hadrift := (Reentry.Sifting.run_adrift hc bottom fuel w).mono id fun _ exit _ =>
    False.elim (C := exit.value.Flat)
  exact (hattended.or hadrift).mono (fun _ => hshape) fun _ _ _ => id

/-- A function that is entered ends with a flat value. -/
theorem sifts_function (n depth : Nat) (f : Value) (args : List Value) (w : World) :
    ((Reentry.atDepth n).enterFunction depth f args).Sifts w (InShape w (.function depth f args))
      fun exit _ => exit.value.Flat := by
  have hc := Reentry.calm_atDepth n
  have hr := Reentry.sifting_atDepth n
  have hvalue : ∀ {p : Processor} {exit : Exit} {w' : World}, w'.Shown p (some exit) →
      exit.value.Flat := by
    rintro p (v | v) w' h
    · exact h
    · exact h.1
  by_cases hdepth : w.processor.frames.size = depth
  · subst hdepth
    exact (hr.enterFunction hc f fun hp => ⟨rfl, hp.2⟩).mono id fun _ _ _ => hvalue
  · obtain ⟨anywhere, rfl⟩ := Processor.exists_bottom depth
    exact (hr.enterFunction hc f fun hp => absurd hp.1 hdepth).mono id fun _ _ _ => hvalue

/-- Whatever is carried out gives a flat value, or an error with a single one. -/
theorem sifts_run (n : Nat) (spot : Spot) (w : World) :
    (spot.run (Reentry.atDepth n)).Sifts w (spot.InShape w) fun v _ => v.Flat := by
  have hc := Reentry.calm_atDepth n
  have hr := Reentry.sifting_atDepth n
  cases spot with
  | request q =>
    cases q with
    | call f args => exact hr.callFunction hc f args w
    | resume id args => exact hr.resumeCoroutine hc id args w
    | enter id code => exact hr.enterScript hc id code w
    | host token f args => exact hr.callScript hc token f args w
  | function depth f args =>
    exact (sifts_function n depth f args w).bind fun exit w' _ =>
      .of_ok rfl (.refl w') fun _ hw hp => ⟨hw, hp.2⟩
  | loop depth fuel =>
    exact (sifts_loop n depth fuel w).bind fun exit w' _ =>
      .of_ok rfl (.refl w') fun _ hw hp => ⟨hw, hp.2⟩
  | native f args caller => exact hr.native caller f w

end Spot

end LuaMachine
