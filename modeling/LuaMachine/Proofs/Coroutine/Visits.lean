import LuaMachine.Proofs.Coroutine.Resumption
import LuaMachine.Proofs.Machine.Transparency
import LuaMachine.Script.Session

/-!
# Coroutines in every state of a run

A call from the host goes through many worlds: before each instruction, when a native function
begins, and whenever an instruction or a native function asks the machine for something, which may
call, resume or enter again. `Visits` says which worlds these are. Each comes with its chain, the
resumptions in progress that were accepted on the way to it, innermost first.

In all of them, and whenever no call is in progress, coroutines are in order, and the stacks of
running coroutines are what the chain says. A resumption that is rejected changes nothing.

Main statement: `World.Resting.coroutines_orderly`.
-/

namespace LuaMachine

open Exec

/-- What can be asked of the machine. -/
inductive Request where
  | call (f : Value) (args : List Value)
  | resume (id : CoroutineId) (args : List Value)
  | enter (id : ScriptId) (code : String)
  /-- a call from the host, under an execution that can be cancelled -/
  | host (token : Nat) (f : Value) (args : List Value)

namespace Reentry

/-- What the machine does when it is asked. -/
def perform (r : Reentry) : Request → Exec Value
  | .call f args => r.callFunction f args
  | .resume id args => r.resumeCoroutine id args
  | .enter id code => r.enterScript id code
  | .host token f args => r.callScript token f args

open Classical in
/-- The ways into a machine, with another answer to one request in one world. -/
noncomputable def answering (r : Reentry) (q : Request) (v : World)
    (a : EStateM.Result Stop World Value) : Reentry where
  call f args w := if q = .call f args ∧ w = v then a else r.call f args w
  resume id args w := if q = .resume id args ∧ w = v then a else r.resume id args w
  enter id code w := if q = .enter id code ∧ w = v then a else r.enter id code w

/-- A computation asks the machine for something in a world: what comes of it depends on the
answer. -/
def Asks {α : Type} (x : Reentry → Exec α) (r : Reentry) (w : World) (q : Request) (v : World) :
    Prop :=
  ∃ a, x (r.answering q v a) w ≠ x r w

end Reentry

namespace World

/-- The world in which a native function has just been given a frame. -/
def inside (w : World) (c : Callback) (caller : Option Span) : World :=
  { w with processor := { w.processor with
      frames := w.processor.frames.push (.host c.name w.processor.values.size caller) } }

end World

/-- Where control can be. -/
inductive Spot where
  | request (q : Request)
  /-- a function that is entered at a height of the call stack -/
  | function (depth : Nat) (f : Value) (args : List Value)
  /-- a loop of instructions -/
  | loop (depth fuel : Nat)
  /-- a native function with a frame of its own -/
  | native (n : Native) (args : List Value) (caller : Option Span)

/-- From a spot in a world, the machine at a depth comes to another world, with a chain of
resumptions in progress. -/
inductive Visits : Nat → Spot → World → List (ScriptId × CoroutineId) → World → Prop
  /- instructions -/
  | instruction {n depth fuel : Nat} {w : World} : Visits n (.loop depth fuel) w [] w
  | next {n depth fuel : Nat} {w w₁ w₂ v : World} {i : Instruction}
    {chain : List (ScriptId × CoroutineId)}
    (hi : (w.scripts.getD w.active.index default).code.instruction? w.processor.ip = some i)
    (hheard : Reentry.hear (w.scripts.getD w.active.index default) i w = .ok () w₁)
    (hstep : (Reentry.atDepth n).step depth i w₁ = .ok none w₂)
    (h : Visits n (.loop depth fuel) w₂ chain v) : Visits n (.loop depth (fuel + 1)) w chain v
  | asked {n depth fuel : Nat} {w w₁ u v : World} {i : Instruction} {q : Request}
    {chain : List (ScriptId × CoroutineId)}
    (hi : (w.scripts.getD w.active.index default).code.instruction? w.processor.ip = some i)
    (hheard : Reentry.hear (w.scripts.getD w.active.index default) i w = .ok () w₁)
    (hasks : Reentry.Asks (·.step depth i) (Reentry.atDepth (n + 1)) w₁ q u)
    (h : Visits n (.request q) u chain v) : Visits (n + 1) (.loop depth (fuel + 1)) w chain v
  | invoked {n depth fuel argc : Nat} {w w₁ w₂ v : World} {span : Option Span} {c : Callback}
    {args : List Value} {chain : List (ScriptId × CoroutineId)}
    (hi : (w.scripts.getD w.active.index default).code.instruction? w.processor.ip =
      some ⟨.call argc, span⟩)
    (hheard : Reentry.hear (w.scripts.getD w.active.index default) ⟨.call argc, span⟩ w =
      .ok () w₁)
    (hcalled : called argc w₁ = .ok (.callback c, args) w₂) (hyield : c.native ≠ .yield)
    (hdepth : checkDepth w₂ = .ok () w₂)
    (h : Visits n (.native c.native args span) (w₂.inside c span) chain v) :
    Visits n (.loop depth (fuel + 1)) w chain v
  /- native functions -/
  | native {n : Nat} {f : Native} {args : List Value} {caller : Option Span} {w : World} :
    Visits n (.native f args caller) w [] w
  | nativeAsked {n : Nat} {f : Native} {args : List Value} {caller : Option Span} {w u v : World}
    {q : Request} {chain : List (ScriptId × CoroutineId)}
    (hasks : Reentry.Asks (f.run · caller ⟨args⟩) (Reentry.atDepth (n + 1)) w q u)
    (h : Visits n (.request q) u chain v) : Visits (n + 1) (.native f args caller) w chain v
  /- functions -/
  | closure {n depth : Nat} {f : Value} {args args' : List Value} {id : ClosureId}
    {w w₁ w₂ v : World} {chain : List (ScriptId × CoroutineId)}
    (hf : resolveCallable f args w = .ok (.function id, args') w₁)
    (henter : enterClosure id args' none none w₁ = .ok () w₂)
    (h : Visits n (.loop depth stepLimit) w₂ chain v) : Visits n (.function depth f args) w chain v
  | callback {n depth : Nat} {f : Value} {args args' : List Value} {c : Callback}
    {w w₁ v : World} {chain : List (ScriptId × CoroutineId)}
    (hf : resolveCallable f args w = .ok (.callback c, args') w₁) (hyield : c.native ≠ .yield)
    (hdepth : checkDepth w₁ = .ok () w₁)
    (h : Visits n (.native c.native args' none) (w₁.inside c none) chain v) :
    Visits n (.function depth f args) w chain v
  /- requests -/
  | request {n : Nat} {q : Request} {w : World} : Visits n (.request q) w [] w
  | call {n : Nat} {f : Value} {args : List Value} {w v : World}
    {chain : List (ScriptId × CoroutineId)} (hnest : w.MayNest)
    (h : Visits n (.function w.processor.frames.size f (Value.flatten args)) w.nested chain v) :
    Visits n (.request (.call f args)) w chain v
  | start {n : Nat} {id : CoroutineId} {c : Coroutine} {p : Processor} {f : Value}
    {args : List Value} {w v : World} {chain : List (ScriptId × CoroutineId)}
    (hc : w.MayResume id c) (hbody : c.body = some { processor := p, function := some f })
    (h : Visits n (.function 0 f (Value.flatten args)) (w.nested.resuming id p) chain v) :
    Visits n (.request (.resume id args)) w (chain ++ [(w.active, id)]) v
  | again {n : Nat} {id : CoroutineId} {c : Coroutine} {p : Processor} {args : List Value}
    {w w₁ v : World} {chain : List (ScriptId × CoroutineId)}
    (hc : w.MayResume id c) (hbody : c.body = some { processor := p, function := none })
    (hpush : push (.ofList (Value.flatten args)) (w.nested.resuming id p) = .ok () w₁)
    (h : Visits n (.loop 0 stepLimit) w₁ chain v) :
    Visits n (.request (.resume id args)) w (chain ++ [(w.active, id)]) v
  | host {n token : Nat} {f : Value} {args : List Value} {w w₁ v : World}
    {chain : List (ScriptId × CoroutineId)} (hacquire : Reentry.acquire w = .ok () w₁)
    (h : Visits n (.request (.call f args))
      { w₁ with processor := (w₁.scripts.getD w₁.active.index default).processor, token } chain v) :
    Visits n (.request (.host token f args)) w chain v
  | enter {n token : Nat} {id : ScriptId} {code : String} {f : Value} {w w₁ w₂ v : World}
    {chain : List (ScriptId × CoroutineId)} (hid : id.index < w.scripts.size)
    (hload : loadString code none none { w with active := id } = .ok f w₁)
    (htoken : newToken w₁ = .ok token w₂)
    (h : Visits n (.request (.host token f [])) w₂ chain v) :
    Visits n (.request (.enter id code)) w chain v

/-- The coroutines of a script in a chain of resumptions. -/
def chainOf (chain : List (ScriptId × CoroutineId)) (i : ScriptId) : List CoroutineId :=
  chain.filterMap fun resumed => if resumed.1 = i then some resumed.2 else none

namespace World

/-- What is known of a world that is visited on the way from another one. -/
structure Reaches (w : World) (chain : List (ScriptId × CoroutineId)) (v : World) : Prop where
  live : v.Live
  stack : ∀ i, v.stack i = chainOf chain i ++ w.stack i
  evolves : w.Evolves v

variable {w w' v : World} {chain : List (ScriptId × CoroutineId)}

theorem Live.reaches (hw : w.Live) : w.Reaches [] w := ⟨hw, fun _ => rfl, .refl⟩

theorem Reaches.after (h : w'.Reaches chain v) (hw : w.Continues w') : w.Reaches chain v := by
  refine ⟨h.live, ?_, ?_⟩
  · intro i
    rw [h.stack, hw.stack]
  · exact Relation.ReflTransGen.trans hw.evolves h.evolves

theorem chainOf_append_single (chain : List (ScriptId × CoroutineId)) (i j : ScriptId)
    (id : CoroutineId) (rest : List CoroutineId) :
    chainOf (chain ++ [(j, id)]) i ++ rest = chainOf chain i ++ if i = j then id :: rest else rest := by
  unfold chainOf
  rw [List.filterMap_append, List.append_assoc]
  congr 1
  by_cases h : i = j
  · subst h
    simp
  · have h' : ¬j = i := fun heq => h heq.symm
    simp [h, h']

/-- What is visited from a resumption on has the resumed coroutine at the end of its chain. -/
theorem Reaches.resumed {id : CoroutineId} {c : Coroutine} {p : Processor} (hw : w.Live)
    (hc : w.MayResume id c) (h : (w.nested.resuming id p).Reaches chain v) :
    w.Reaches (chain ++ [(w.active, id)]) v := by
  have hquiet : w.Quiet w.nested := Quiet.modifyScript w _ (fun _ => rfl) fun _ => .refl _
  have hlive := hquiet.live hw
  have hc' : w.nested.heap.coroutine? id = some c := hc.coroutine
  refine ⟨h.live, ?_, ?_⟩
  · intro i
    rw [h.stack, stack_resuming hlive.active, chainOf_append_single, hquiet.stack]
    rfl
  · exact Relation.ReflTransGen.trans (evolves_resuming hc' hc.state p) h.evolves

end World

namespace Reentry

variable {r : Reentry} {w v : World} {α : Type}

/-- A request is made in a world that continues the one where the computation began. -/
theorem Tidy.asks (hr : r.Tidy) (hw : w.Live) {x : Reentry → Exec α} {q : Request}
    (hx : ∀ r', Alike (AgreeOn w.Continues) r r' → AgreeOn w.Continues (x r) (x r'))
    (hasks : Asks x r w q v) : w.Continues v := by
  obtain ⟨a, ha⟩ := hasks
  by_contra hv
  -- the other answer is never given, since the world it is for is never reached
  have hne : ∀ w', w.Continues w' → w' ≠ v := by
    rintro w' hw' rfl
    exact hv hw'
  have hsame : Alike (AgreeOn w.Continues) r (r.answering q v a) := by
    refine hr.alike hw ?_ ?_ ?_
    · exact fun f args w' hw' => (if_neg fun h => hne w' hw' h.2).symm
    · exact fun id args w' hw' => (if_neg fun h => hne w' hw' h.2).symm
    · exact fun id code w' hw' => (if_neg fun h => hne w' hw' h.2).symm
  exact ha ((hx _ hsame w hw.refl).1).symm

/-- What the machine is asked for leaves coroutines in order. -/
theorem Tidy.perform (hr : r.Tidy) (hw : w.Live) (q : Request) : (r.perform q).Tidies w := by
  cases q with
  | call f args => exact hr.callFunction hw f args
  | resume id args => exact hr.resumeCoroutine hw id args
  | enter id code => exact hr.enterScript hw id code
  | host token f args => exact hr.callScript hw token f args

end Reentry

theorem Exec.Quiet.continues {α : Type} {x : Exec α} {a : α} {w w' : World} (hx : x.Quiet)
    (hw : w.Live) (h : x w = .ok a w') : w.Continues w' :=
  (hx.ok h).continues hw.orderly

/-- Every world that is visited is in order, and its stacks are those at the beginning under the
resumptions of the chain. -/
theorem Visits.reaches {n : Nat} {spot : Spot} {chain : List (ScriptId × CoroutineId)} {w v : World}
    (h : Visits n spot w chain v) (hw : w.Live) : w.Reaches chain v := by
  induction h with
  | instruction => exact hw.reaches
  | @next n depth fuel w w₁ w₂ v i chain hi hheard hstep h ih =>
    have hfirst := Exec.Quiet.continues (Reentry.quiet_hear _ i) hw hheard
    have hsecond := ((Reentry.tidy_atDepth n).step (hfirst.live hw) depth i).ok hstep
    have hboth := hfirst.trans hsecond
    exact (ih (hboth.live hw)).after hboth
  | @asked n depth fuel w w₁ u v i q chain hi hheard hasks h ih =>
    have hfirst := Exec.Quiet.continues (Reentry.quiet_hear _ i) hw hheard
    have hlive := hfirst.live hw
    have hsecond := (Reentry.tidy_atDepth (n + 1)).asks hlive
      (fun r' hr' => hr'.step hlive.lasting depth i) hasks
    have hboth := hfirst.trans hsecond
    exact (ih (hboth.live hw)).after hboth
  | @invoked n depth fuel argc w w₁ w₂ v span c args chain hi hheard hcalled hyield hdepth h ih =>
    have hfirst := Exec.Quiet.continues (Reentry.quiet_hear _ _) hw hheard
    have hsecond := Exec.Quiet.continues (quiet_called argc) (hfirst.live hw) hcalled
    have hinside : w₂.Quiet (w₂.inside c span) := ⟨rfl, rfl, rfl, fun h => h, .refl _⟩
    have hboth := (hfirst.trans hsecond).quiet hinside
    exact (ih (hboth.live hw)).after hboth
  | native => exact hw.reaches
  | @nativeAsked n f args caller w u v q chain hasks h ih =>
    have hfirst := (Reentry.tidy_atDepth (n + 1)).asks hw
      (fun r' hr' => hr'.native caller ⟨args⟩ f) hasks
    exact (ih (hfirst.live hw)).after hfirst
  | @closure n depth f args args' id w w₁ w₂ v chain hf henter h ih =>
    have hfirst := Exec.Quiet.continues (aside_resolveCallable f args).quiet hw hf
    have hsecond := Exec.Quiet.continues (quiet_enterClosure id args' none none) (hfirst.live hw) henter
    have hboth := hfirst.trans hsecond
    exact (ih (hboth.live hw)).after hboth
  | @callback n depth f args args' c w w₁ v chain hf hyield hdepth h ih =>
    have hfirst := Exec.Quiet.continues (aside_resolveCallable f args).quiet hw hf
    have hinside : w₁.Quiet (w₁.inside c none) := ⟨rfl, rfl, rfl, fun h => h, .refl _⟩
    have hboth := hfirst.quiet hinside
    exact (ih (hboth.live hw)).after hboth
  | request => exact hw.reaches
  | @call n f args w v chain hnest h ih =>
    have hquiet : w.Quiet w.nested := World.Quiet.modifyScript w _ (fun _ => rfl) fun _ => .refl _
    exact (ih (hquiet.live hw)).after (hquiet.continues hw.orderly)
  | @start n id c p f args w v chain hc hbody h ih =>
    have hquiet : w.Quiet w.nested := World.Quiet.modifyScript w _ (fun _ => rfl) fun _ => .refl _
    have hlive := (hquiet.live hw).resuming (p := p) hc.coroutine hc.owner hc.state
    exact (ih hlive).resumed hw hc
  | @again n id c p args w w₁ v chain hc hbody hpush h ih =>
    have hquiet : w.Quiet w.nested := World.Quiet.modifyScript w _ (fun _ => rfl) fun _ => .refl _
    have hlive := (hquiet.live hw).resuming (p := p) hc.coroutine hc.owner hc.state
    have hpushed := Exec.Quiet.continues (quiet_push _) hlive hpush
    exact ((ih (hpushed.live hlive)).after hpushed).resumed hw hc
  | @host n token f args w w₁ v chain hacquire h ih =>
    have hmain : w₁.Quiet { w₁ with
        processor := (w₁.scripts.getD w₁.active.index default).processor, token } :=
      ⟨rfl, rfl, rfl, fun h => h, .refl _⟩
    have hfirst := (Exec.Quiet.continues Reentry.quiet_acquire hw hacquire).quiet hmain
    exact (ih (hfirst.live hw)).after hfirst
  | @enter n token id code f w w₁ w₂ v chain hid hload htoken h ih =>
    have hlive : World.Live { w with active := id } :=
      ⟨hw.orderly.withActive id, hid⟩
    have hfirst := Exec.Quiet.continues (quiet_loadString code none none) hlive hload
    have hsecond := Exec.Quiet.continues aside_newToken.quiet (hfirst.live hlive) htoken
    have hboth := hfirst.trans hsecond
    have hreach := (ih (hboth.live hlive)).after hboth
    exact ⟨hreach.live, hreach.stack, hreach.evolves⟩

/-! ## When no call is in progress -/

namespace World

/-- The worlds in which no call is in progress: at the beginning there is no script. Then the host
makes scripts and coroutines, makes requests that return, and does what it likes apart from that. -/
inductive Resting : World → Prop
  | empty {w : World} (hcoroutines : w.heap.coroutines = #[]) (hscripts : w.scripts = #[]) :
    Resting w
  | script {w w' : World} {options : ScriptOptions} {id : ScriptId} (h : Resting w)
    (hcreate : Script.create options w = .ok id w') : Resting w'
  | coroutine {w w' : World} {f : Value} {id : CoroutineId} (h : Resting w)
    (hactive : w.active.index < w.scripts.size) (hcreate : createCoroutine f w = .ok id w') :
    Resting w'
  | request {w w' : World} {n : Nat} {q : Request} (h : Resting w)
    (hactive : w.active.index < w.scripts.size)
    (hreturns : ((Reentry.atDepth n).perform q).Returns w w') : Resting w'
  | host {w w' : World} (h : Resting w) (hcoroutines : w'.heap.coroutines = w.heap.coroutines)
    (hstacks : w'.scripts.map (·.running) = w.scripts.map (·.running)) : Resting w'

variable {w w' : World}

/-- A new script has no running coroutines. -/
theorem Orderly.addScript (hw : w.Orderly) (s : Script) (hs : s.running = []) :
    ({ w with scripts := w.scripts.push s } : World).Orderly ∧
      ∀ i, ({ w with scripts := w.scripts.push s } : World).stack i = w.stack i := by
  have hstack : ∀ i, ({ w with scripts := w.scripts.push s } : World).stack i = w.stack i := by
    intro i
    unfold stack
    simp only [Array.getD_eq_getD_getElem?, Array.getElem?_push]
    split
    · next hi =>
      have hnone : w.scripts[i.index]? = none := Array.getElem?_eq_none (Nat.le_of_eq hi.symm)
      rw [hnone]
      exact hs
    · rfl
  refine ⟨⟨?_, ?_, ?_, ?_, hw.body⟩, hstack⟩
  · intro id c hc
    change c.owner.index < (w.scripts.push s).size
    rw [Array.size_push]
    exact Nat.lt_succ_of_lt (hw.owned hc)
  · intro id c hc
    rw [hstack]
    exact hw.running hc
  · intro i id hid
    rw [hstack] at hid
    exact hw.stacked hid
  · intro i
    rw [hstack]
    exact hw.once i

theorem Orderly.createScript (hw : w.Orderly) {options : ScriptOptions} {id : ScriptId}
    (hcreate : Script.create options w = .ok id w') :
    w'.Orderly ∧ ∀ i, w'.stack i = w.stack i := by
  let h := (w.heap.addTable {}).addTable {}
  let s : Script := { options, globals := ⟨w.heap.tables.size⟩
                      registry := ⟨(w.heap.addTable {}).tables.size⟩
                      main := ⟨h.coroutines.size⟩ }
  let c : Coroutine := { owner := ⟨w.scripts.size⟩, state := .main, body := none }
  have htables : w.Quiet { w with heap := h } := ⟨rfl, rfl, rfl, fun h => h, .refl _⟩
  obtain ⟨horderly, hstack⟩ := (htables.orderly hw).addScript s rfl
  have howner : c.owner.index < (w.scripts.push s).size := by
    rw [Array.size_push]
    exact Nat.lt_succ_self _
  have hmade := horderly.create (c := c) howner (.inr ⟨rfl, rfl⟩)
  have hall : (Script.create options).Leads w
      (fun _ w' => w'.Orderly ∧ ∀ i, w'.stack i = w.stack i) (fun _ => True) := by
    unfold Script.create
    refine .get_bind (.ok_bind (v := { w with heap := w.heap.addTable {} }) rfl ?_)
    refine .ok_bind (a := w.heap.addTable {}) rfl (.ok_bind (v := { w with heap := h }) rfl ?_)
    refine .ok_bind (v := { w with heap := h.addCoroutine c }) rfl ?_
    refine .ok_bind (v := { w with heap := h.addCoroutine c, scripts := w.scripts.push s }) rfl ?_
    have hinstall := (Library.aside_install ⟨w.heap.tables.size⟩).quiet.bind fun _ =>
      quiet_pure (⟨w.scripts.size⟩ : ScriptId)
    refine (Leads.of_ends hinstall _).mono (fun _ w' hquiet => ?_) fun _ _ => trivial
    refine ⟨hquiet.orderly hmade.orderly, fun i => ?_⟩
    rw [hquiet.stack, hmade.stack, hstack]
    rfl
  exact hall.ok hcreate

/-- While no call is in progress, coroutines are in order and none is running. -/
theorem Resting.orderly (h : w.Resting) : w.Orderly ∧ ∀ i, w.stack i = [] := by
  induction h with
  | @empty w hcoroutines hscripts =>
    have hnone : ∀ id, w.heap.coroutine? id = none := by
      intro id
      unfold Heap.coroutine?
      rw [hcoroutines]
      rfl
    have hstack : ∀ i, w.stack i = [] := by
      intro i
      unfold stack
      rw [hscripts]
      rfl
    refine ⟨⟨?_, ?_, ?_, ?_, ?_⟩, hstack⟩
    · intro id c hc
      rw [hnone] at hc
      cases hc
    · intro id c hc
      rw [hnone] at hc
      cases hc
    · intro i id hid
      rw [hstack] at hid
      cases hid
    · intro i
      rw [hstack]
      exact List.nodup_nil
    · intro id c hc
      rw [hnone] at hc
      cases hc
  | @script w w' options id h hcreate ih =>
    obtain ⟨horderly, hstack⟩ := ih.1.createScript hcreate
    exact ⟨horderly, fun i => (hstack i).trans (ih.2 i)⟩
  | @coroutine w w' f id h hactive hcreate ih =>
    have hlive : w.Live := ⟨ih.1, hactive⟩
    have hcontinues := (hlive.lasting.uniform.create f w hlive.refl).2.ok hcreate
    exact ⟨hcontinues.orderly, fun i => (hcontinues.stack i).trans (ih.2 i)⟩
  | @request w w' n q h hactive hreturns ih =>
    have htidies := (Reentry.tidy_atDepth n).perform ⟨ih.1, hactive⟩ q
    have hcontinues : w.Continues w' := by
      rcases hreturns with ⟨v, hv⟩ | ⟨e, he⟩
      · exact htidies.ok hv
      · exact htidies.error he
    exact ⟨hcontinues.orderly, fun i => (hcontinues.stack i).trans (ih.2 i)⟩
  | @host w w' h hcoroutines hstacks ih =>
    exact ⟨ih.1.of_same hcoroutines hstacks, fun i => (World.stack_eq hstacks i).trans (ih.2 i)⟩

/-- Coroutines are in order whenever no call is in progress, in every world that is visited while a
request of the host is, and when it has returned. The stacks of running coroutines are then what the
resumptions in progress say, innermost first; every change of a state is an allowed one; and a
resumption that is rejected leaves the world as it is. -/
theorem Resting.coroutines_orderly (hw : w.Resting) (hactive : w.active.index < w.scripts.size)
    (n : Nat) (q : Request) :
    (w.Orderly ∧ ∀ i, w.stack i = []) ∧
      (∀ chain v, Visits n (.request q) w chain v →
        v.Orderly ∧ (∀ i, v.stack i = chainOf chain i) ∧ w.Evolves v) ∧
      (∀ w', ((Reentry.atDepth n).perform q).Returns w w' →
        w'.Orderly ∧ (∀ i, w'.stack i = []) ∧ w.Evolves w') ∧
      ∀ (r : Reentry) (v : World) (id : CoroutineId) (args : List Value), v.Rejects id →
        ∃ e, r.resumeCoroutine id args v = .error (.error e) v := by
  obtain ⟨horderly, hstack⟩ := hw.orderly
  have hlive : w.Live := ⟨horderly, hactive⟩
  refine ⟨⟨horderly, hstack⟩, ?_, ?_, ?_⟩
  · intro chain v hv
    have hreach := hv.reaches hlive
    refine ⟨hreach.live.orderly, fun i => ?_, hreach.evolves⟩
    rw [hreach.stack, hstack, List.append_nil]
  · intro w' hreturns
    have htidies := (Reentry.tidy_atDepth n).perform hlive q
    have hcontinues : w.Continues w' := by
      rcases hreturns with ⟨v, hv⟩ | ⟨e, he⟩
      · exact htidies.ok hv
      · exact htidies.error he
    exact ⟨hcontinues.orderly, fun i => (hcontinues.stack i).trans (hstack i), hcontinues.evolves⟩
  · exact fun r v id args h => Reentry.resume_rejected r h args

/-- What is checked of a coroutine before it is started: that it can be, that its body is the
function that tells the running coroutine, and that there is room for a frame. -/
def startsRunning (w : World) (id : CoroutineId) : Bool :=
  match w.heap.coroutine? id with
  | some { owner, state := .notStarted
           body := some { processor := p, function := some (.callback ⟨0, .builtin .running⟩) } } =>
    let s := w.scripts.getD w.active.index default
    let inside := w.nested.resuming id p
    owner == w.active && s.nesting < s.options.maxNestedCalls && w.active.index < w.scripts.size &&
      p.frames.size < (inside.scripts.getD inside.active.index default).options.callStackLimit
  | _ => false

/-- A script with a coroutine that can be started. -/
def hasCoroutine : Bool :=
  match Script.create {} {} with
  | .ok _ w => w.active.index < w.scripts.size &&
    match createCoroutine (.callback ⟨0, .builtin .running⟩) w with
    | .ok id w => startsRunning w id
    | .error _ _ => false
  | .error _ _ => false

theorem checkDepth_eq {w : World} (h : w.processor.frames.size <
    (w.scripts.getD w.active.index default).options.callStackLimit) :
    checkDepth w = .ok () w := by
  unfold checkDepth
  change (if _ then _ else _ : Exec PUnit) w = _
  rw [if_neg (Nat.not_le_of_lt h)]
  rfl

theorem Resting.coroutines_orderly_started : ∃ w v : World, ∃ id : CoroutineId, w.Resting ∧
    Visits 0 (.request (.resume id [])) w [(w.active, id)] v ∧ v.Orderly ∧
      v.stack w.active = [id] := by
  have hcheck : hasCoroutine = true := by decide +kernel
  unfold hasCoroutine at hcheck
  cases hscript : Script.create {} {} with
  | error s w => simp [hscript] at hcheck
  | ok i w₀ =>
    simp only [hscript, Bool.and_eq_true, decide_eq_true_eq] at hcheck
    obtain ⟨hactive₀, hcheck⟩ := hcheck
    have hscripts : w₀.Resting := .script (.empty rfl rfl) hscript
    split at hcheck
    · next id w hcreate =>
      have hw : w.Resting := .coroutine hscripts hactive₀ hcreate
      unfold startsRunning at hcheck
      split at hcheck
      · next owner p hc =>
        simp only [Bool.and_eq_true, decide_eq_true_eq, beq_iff_eq] at hcheck
        obtain ⟨⟨⟨howner, hnest⟩, hactive⟩, hdepth⟩ := hcheck
        let f : Value := .callback ⟨0, .builtin .running⟩
        have hmay : w.MayResume id
            { owner, state := .notStarted, body := some { processor := p, function := some f } } :=
          ⟨hc, howner, .inl rfl, hnest⟩
        have hroom : checkDepth (w.nested.resuming id p) = .ok () (w.nested.resuming id p) :=
          checkDepth_eq hdepth
        have hvisits : Visits 0 (.request (.resume id [])) w ([] ++ [(w.active, id)])
            ((w.nested.resuming id p).inside ⟨0, .builtin .running⟩ none) := by
          refine .start hmay rfl ?_
          have hcallback : resolveCallable f [] (w.nested.resuming id p) =
              .ok (f, []) (w.nested.resuming id p) := rfl
          exact .callback hcallback (by simp) hroom .native
        have hall := (coroutines_orderly hw hactive 0 (.resume id [])).2.1 _ _ hvisits
        refine ⟨w, _, id, hw, hvisits, hall.1, ?_⟩
        rw [hall.2.1]
        simp [chainOf]
      · cases hcheck
    · cases hcheck

end World

end LuaMachine
