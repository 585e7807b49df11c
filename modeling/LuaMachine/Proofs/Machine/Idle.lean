import LuaMachine.Proofs.Coroutine.Continuing
import LuaMachine.Proofs.Machine.Enduring

/-!
# Processors at rest

Whatever code a script runs, verified or not, the main processor of the script is without frames and
values again when a call from the host returns (`Script.balanced_callWith`).

An instruction that is neither a call nor a return leaves the frames of the call stack where they are,
with their bases and return addresses (`Processor.links`), and so does whatever it asks the machine for
(`Exec.Balanced`). The frame that a loop was entered with returns to nobody, and every frame above it to
the function below (`Processor.InLoop`): so the loop is left by the return of that frame and of no
other, and what lies below the frame stays as it was.
-/

namespace LuaMachine

open Exec

/-! ## Call stacks -/

/-- Where a frame begins on the value stack, and where its caller goes on. -/
def Frame.link (f : Frame) : Nat × Option Nat := (f.base, f.returnAddress)

namespace Processor

def links (p : Processor) : List (Nat × Option Nat) := p.frames.toList.map Frame.link

/-- A loop runs that was entered above some frames, at some height of the value stack. -/
structure InLoop (depth : Nat) (below : List (Nat × Option Nat)) (base : Nat) (p : Processor) :
    Prop where
  length : below.length = depth
  frames : ∃ above, p.links = below ++ (base, none) :: above ∧ ∀ link ∈ above, link.2.isSome

/-- What an instruction leaves of the loop that it is carried out in. -/
def Stepped (depth : Nat) (below : List (Nat × Option Nat)) (base : Nat) : Option Exit → Processor → Prop
  | none, p | some (.yielded _), p => p.InLoop depth below base
  | some (.returned _), p => p.links = below ∧ p.values.size ≤ base

variable {p p' : Processor} {below : List (Nat × Option Nat)} {depth base : Nat}

theorem length_links (p : Processor) : p.links.length = p.frames.size := by
  unfold links
  rw [List.length_map, Array.length_toList]

theorem links_push (p : Processor) (f : Frame) :
    ({ p with frames := p.frames.push f } : Processor).links = p.links ++ [f.link] := by
  unfold links
  rw [Array.toList_push, List.map_append]
  rfl

theorem links_unwind (p : Processor) (depth height : Nat) :
    (p.unwind depth height).links = p.links.take depth := by
  unfold links unwind
  rw [← List.map_take]
  refine congrArg (List.map _) ?_
  simp [Array.toList_extract]

theorem size_unwind (p : Processor) (depth height : Nat) :
    (p.unwind depth height).values.size ≤ height := by
  unfold unwind
  simp only [Array.size_extract, Nat.sub_zero]
  exact Nat.min_le_left ..

theorem InLoop.frames_below (h : p.InLoop depth below base) : below <+: p.links := by
  obtain ⟨above, hlinks, -⟩ := h.frames
  exact ⟨_, hlinks.symm⟩

theorem InLoop.of_links (h : p.InLoop depth below base) (hlinks : p'.links = p.links) :
    p'.InLoop depth below base := by
  obtain ⟨above, hp, habove⟩ := h.frames
  exact ⟨h.length, above, hlinks.trans hp, habove⟩

/-- Something is called from the loop. -/
theorem InLoop.called (h : p.InLoop depth below base) {link : Nat × Option Nat}
    (hlinks : p'.links = p.links ++ [link]) (hlink : link.2.isSome) : p'.InLoop depth below base := by
  obtain ⟨above, hp, habove⟩ := h.frames
  refine ⟨h.length, above ++ [link], ?_, ?_⟩
  · rw [hlinks, hp, List.append_assoc, List.cons_append]
  · intro l hl
    rcases List.mem_append.1 hl with hl | hl
    · exact habove l hl
    · exact List.mem_singleton.1 hl ▸ hlink

/-- No frame and no value is left. -/
theorem isIdle_iff : p.isIdle = true ↔ p.links = [] ∧ p.values.size ≤ 0 := by
  unfold isIdle links
  simp

end Processor

/-! ## What is kept -/

namespace World

/-- No script is in the middle of a call from the host. -/
def Idle (w : World) : Prop := ∀ p ∈ w.scripts.map (·.processor), p.isIdle = true

/-- The frames of the running processor are where they were, and scripts that were idle are idle. -/
structure Balanced (w w' : World) : Prop where
  links : w'.processor.links = w.processor.links
  idle : w.Idle → w'.Idle

variable {w w' w'' : World}

theorem Idle.of_eq (h : w.Idle) (hp : w'.scripts.map (·.processor) = w.scripts.map (·.processor)) :
    w'.Idle := by
  unfold Idle
  rw [hp]
  exact h

theorem map_modify {α β : Type} (as : Array α) (i : Nat) {f : α → α} {g : α → β}
    (hf : ∀ a, g (f a) = g a) : (as.modify i f).map g = as.map g := by
  refine Array.ext_getElem? fun j => ?_
  rw [Array.getElem?_map, Array.getElem?_map, Array.getElem?_modify]
  split
  · rw [Option.map_map]
    exact congrArg (Option.map · _) (funext hf)
  · rfl

theorem Idle.processor (h : w.Idle) (i : Nat) :
    (w.scripts.getD i default).processor.isIdle = true := by
  rw [Array.getD_eq_getD_getElem?]
  cases hi : w.scripts[i]? with
  | none => rfl
  | some s => exact h _ (Array.mem_map.2 ⟨s, Array.mem_of_getElem? hi, rfl⟩)

/-- One script changes, and its processor is idle. -/
theorem Idle.modify (h : w.Idle) (i : Nat) {f : Script → Script}
    (hf : ∀ s : Script, (f s).processor.isIdle = true) :
    ({ w with scripts := w.scripts.modify i f } : World).Idle := by
  intro p hp
  obtain ⟨s, hs, rfl⟩ := Array.mem_map.1 hp
  obtain ⟨j, hj⟩ := Array.mem_iff_getElem?.1 hs
  rw [Array.getElem?_modify] at hj
  split at hj
  · obtain ⟨s', -, rfl⟩ := Option.map_eq_some_iff.1 hj
    exact hf s'
  · exact h _ (Array.mem_map.2 ⟨s, Array.mem_of_getElem? hj, rfl⟩)

namespace Balanced

theorem refl (w : World) : w.Balanced w := ⟨rfl, id⟩

theorem trans (h₁ : w.Balanced w') (h₂ : w'.Balanced w'') : w.Balanced w'' :=
  ⟨h₂.links.trans h₁.links, fun h => h₂.idle (h₁.idle h)⟩

theorem of_eq (hlinks : w'.processor.links = w.processor.links)
    (hp : w'.scripts.map (·.processor) = w.scripts.map (·.processor)) : w.Balanced w' :=
  ⟨hlinks, fun h => h.of_eq hp⟩

/-- One script changes, but not its processor. -/
theorem modify (w : World) (i : Nat) {f : Script → Script}
    (hf : ∀ s : Script, (f s).processor = s.processor) :
    w.Balanced { w with scripts := w.scripts.modify i f } :=
  of_eq rfl (map_modify _ i hf)

end Balanced

theorem Aside.balanced (h : w.Aside w') : w.Balanced w' := by
  refine .of_eq (by rw [h.processor]) ?_
  have hbare : ∀ v : World,
      v.scripts.map (·.processor) = (v.scripts.map Script.bare).map (·.processor) := by
    intro v
    rw [Array.map_map]
    rfl
  rw [hbare w', hbare w, h.scripts]

end World

/-! ## Computations -/

namespace Exec

variable {α β : Type} {x : Exec α}

/-- A computation that returns has left the frames where they were, and idle scripts idle. -/
def Balanced (x : Exec α) : Prop := ∀ w, x.Leads w (fun _ => w.Balanced) w.Balanced

theorem balanced_of_ends (hx : x.Ends World.Balanced) : Balanced x := Leads.of_ends hx

theorem Balanced.bind {f : α → Exec β} (hx : Balanced x) (hf : ∀ a, Balanced (f a)) : Balanced (x >>= f) :=
  fun w => (hx w).bind fun a w' hw' => (hf a w').mono (fun _ _ => hw'.trans) fun _ => hw'.trans

theorem balanced_of_change {value : World → α} {change : World → World}
    (hx : ∀ w, x w = .ok (value w) (change w)) (hw : ∀ w : World, w.Balanced (change w)) : Balanced x :=
  balanced_of_ends (.of_change hx hw)

/-- Something is done before a computation and after it. -/
theorem Balanced.around (hx : Balanced x) {before : World → World} {after : World → World → World}
    (hbefore : ∀ w : World, w.Balanced (before w)) (hafter : ∀ w w' : World, w'.Balanced (after w w')) :
    Balanced fun w => andFinally x (after w) (before w) := fun w =>
  have hall := (hx (before w)).andFinally (after w)
    (fun _ w' hw' => ((hbefore w).trans hw').trans (hafter w w'))
    fun w' hw' => ((hbefore w).trans hw').trans (hafter w w')
  ⟨hall.ok, hall.error⟩

/-- A frame whose base and return address stay has the link that it had. -/
theorem link_of_same {f : ScriptFrame → ScriptFrame} (hbase : ∀ g, (f g).base = g.base)
    (haddress : ∀ g, (f g).returnAddress = g.returnAddress) (frame : Frame) :
    (match frame with
      | .script g => .script (f g)
      | host => host : Frame).link = frame.link := by
  cases frame with
  | script g => exact Prod.ext (hbase g) (haddress g)
  | host name base site => rfl

theorem stepwise_balanced : Stepwise Balanced where
  aside hx := balanced_of_ends (hx.mono World.Aside.balanced)
  bind := Balanced.bind
  values h := balanced_of_ends <| ends_iff.2 fun w => by
    obtain ⟨values, hfinal⟩ := h w
    rw [hfinal]
    exact .of_eq rfl rfl
  ip _ := balanced_of_change (fun _ => rfl) fun _ => .of_eq rfl rfl
  frame {f} hbase haddress := balanced_of_change (fun _ => rfl) fun w => by
    refine .of_eq ?_ rfl
    unfold Processor.links
    rw [← Array.toList_map, ← Array.toList_map]
    exact congrArg Array.toList (World.map_modify w.processor.frames _ (link_of_same hbase haddress))
  newCell _ := balanced_of_change (fun _ => rfl) fun _ => .of_eq rfl rfl
  newClosure _ := balanced_of_change (fun _ => rfl) fun _ => .of_eq rfl rfl
  setCell _ _ := balanced_of_change (fun _ => rfl) fun _ => .of_eq rfl rfl
  books _ hp _ := balanced_of_change (fun _ => rfl) fun w => .modify w _ hp

theorem uniform_balanced : Uniform fun x _ => Balanced x where
  aside := stepwise_balanced.aside
  bind := Balanced.bind
  catchError hx hf w := (hx w).catchError fun e w' hw' =>
    (hf e w').mono (fun _ _ => hw'.trans) fun _ => hw'.trans
  intruding hx := hx.around (fun _ => .of_eq rfl rfl) fun _ _ => .of_eq rfl rfl
  loadString := stepwise_balanced.loadString
  start _ := balanced_of_change (fun _ => rfl) fun _ => .of_eq rfl rfl

end Exec

/-! ## The machine -/

/-- The ways into a machine are balanced. -/
structure Reentry.Balanced (r : Reentry) : Prop where
  call : ∀ f args, (r.call f args).Balanced
  resume : ∀ id args, (r.resume id args).Balanced
  enter : ∀ id code, (r.enter id code).Balanced

namespace World

/-- The world is balanced, and the value stack is not higher than before. -/
structure Level (w w' : World) : Prop extends Balanced w w' where
  values : w'.processor.values.size ≤ w.processor.values.size

/-- What an instruction leaves of the loop that it is carried out in, and of idle scripts. -/
structure Turns (depth : Nat) (below : List (Nat × Option Nat)) (base : Nat) (w : World) (exit : Option Exit)
    (w' : World) : Prop where
  idle : w.Idle → w'.Idle
  loop : w.processor.InLoop depth below base → w'.processor.Stepped depth below base exit

/-- After an error the frames below the loop are where they were. -/
structure Breaks (depth : Nat) (below : List (Nat × Option Nat)) (base : Nat) (w w' : World) : Prop where
  idle : w.Idle → w'.Idle
  loop : w.processor.InLoop depth below base → below <+: w'.processor.links

variable {depth : Nat} {below : List (Nat × Option Nat)} {base : Nat} {w w' w'' : World} {exit : Option Exit}

theorem Balanced.turns (h : w.Balanced w') : w.Turns depth below base none w' :=
  ⟨h.idle, fun hloop => hloop.of_links h.links⟩

theorem Balanced.breaks (h : w.Balanced w') : w.Breaks depth below base w' :=
  ⟨h.idle, fun hloop => h.links ▸ hloop.frames_below⟩

theorem Breaks.balanced (h₁ : w.Breaks depth below base w') (h₂ : w'.Balanced w'') :
    w.Breaks depth below base w'' :=
  ⟨fun h => h₂.idle (h₁.idle h), fun h => h₂.links ▸ h₁.loop h⟩

theorem Turns.turns (h₁ : w.Turns depth below base none w') (h₂ : w'.Turns depth below base exit w'') :
    w.Turns depth below base exit w'' :=
  ⟨fun h => h₂.idle (h₁.idle h), fun h => h₂.loop (h₁.loop h)⟩

theorem Turns.breaks (h₁ : w.Turns depth below base none w') (h₂ : w'.Breaks depth below base w'') :
    w.Breaks depth below base w'' :=
  ⟨fun h => h₂.idle (h₁.idle h), fun h => h₂.loop (h₁.loop h)⟩

end World

namespace Exec

/-- A computation does what an instruction may do in a loop. -/
def InLoop (depth : Nat) (below : List (Nat × Option Nat)) (base : Nat) (e : Exec (Option Exit)) : Prop :=
  ∀ w, e.Leads w (w.Turns depth below base) (w.Breaks depth below base)

variable {α : Type} {depth : Nat} {below : List (Nat × Option Nat)} {base : Nat} {x : Exec α}
  {f : α → Exec (Option Exit)}

theorem InLoop.after (hx : Balanced x) (hf : ∀ a, (f a).InLoop depth below base) :
    (x >>= f).InLoop depth below base := by
  intro w
  refine Leads.bind ((hx w).mono (fun _ _ h => h) fun _ h => h.breaks) fun a w' hw' => ?_
  exact (hf a w').mono (fun _ _ => hw'.turns.turns) fun _ => hw'.turns.breaks

theorem inLoop_none (depth : Nat) (below : List (Nat × Option Nat)) (base : Nat) :
    (pure none : Exec (Option Exit)).InLoop depth below base := fun w =>
  .of_ok rfl (World.Balanced.refl w).turns

end Exec

namespace Reentry

variable {r : Reentry} {below : List (Nat × Option Nat)} {base depth : Nat}

theorem Balanced.alike (hr : r.Balanced) : Alike (fun x _ => Exec.Balanced x) r r :=
  ⟨uniform_balanced, hr.call, hr.resume, hr.enter⟩

theorem Balanced.pairedStepwise (hr : r.Balanced) : PairedStepwise (fun x _ => Exec.Balanced x) r r :=
  ⟨hr.alike.toPaired, stepwise_balanced⟩

/-! ### Calls and returns -/

/-- After a native function its frame is gone. -/
theorem Balanced.invoke (hr : r.Balanced) (c : Callback) (args : List Value) (caller : Option Span)
    (w : World) : (invoke r c args caller).Leads w (fun _ => w.Level) w.Balanced := by
  have hroom : checkDepth.Leads w (fun _ => w.Aside) w.Balanced :=
    (Leads.of_ends aside_checkDepth w).mono (fun _ _ h => h) fun _ h => h.balanced
  unfold Exec.invoke
  refine hroom.bind fun _ w₁ hw₁ => .get_bind (.ok_bind rfl ?_)
  have hleave : ∀ w' : World, (w₁.inside c caller).Balanced w' → w.Level { w' with
      processor := { w'.processor.unwind w₁.processor.frames.size w₁.processor.values.size with
        ip := w₁.processor.ip } } := by
    intro w' hw'
    refine ⟨⟨?_, fun hidle => hw'.idle (hw₁.balanced.idle hidle)⟩, ?_⟩
    · refine (w'.processor.links_unwind w₁.processor.frames.size w₁.processor.values.size).trans ?_
      have hinside : (w₁.inside c caller).processor.links = w₁.processor.links ++ [_] :=
        w₁.processor.links_push _
      rw [hw'.links, hinside, ← w₁.processor.length_links, List.take_left, hw₁.processor]
    · exact hw₁.processor ▸ w'.processor.size_unwind w₁.processor.frames.size _
  exact (hr.alike.native caller ⟨args⟩ c.native (w₁.inside c caller)).andSettle _ _
    (fun _ => hleave) fun w' hw' => (hleave w' hw').toBalanced

/-- A function is entered: it gets a frame of its own. -/
theorem enters_enterClosure (id : ClosureId) (args : List Value) (address : Option Nat)
    (site : Option Span) (w : World) :
    (enterClosure id args address site).Leads w
      (fun _ w' => (w.Idle → w'.Idle) ∧
        w'.processor.links = w.processor.links ++ [(w.processor.values.size, address)])
      w.Balanced := by
  have henter : ∀ c : Closure, Exec.Leads (do
      checkDepth
      let base := (← processor).values.size
      pushFrame (.script { closure := c, base, returnAddress := address, pending := args,
                           callSite := site })
      goTo c.entry : Exec Unit) w
      (fun _ w' => (w.Idle → w'.Idle) ∧
        w'.processor.links = w.processor.links ++ [(w.processor.values.size, address)])
      w.Balanced := by
    intro c
    have hroom : checkDepth.Leads w (fun _ => w.Aside) w.Balanced :=
      (Leads.of_ends aside_checkDepth w).mono (fun _ _ h => h) fun _ h => h.balanced
    refine hroom.bind fun _ w₁ hw₁ => .ok_bind rfl (.ok_bind rfl (.of_ok rfl ?_))
    refine ⟨fun hidle => hw₁.balanced.idle hidle, ?_⟩
    rw [← hw₁.processor]
    exact w₁.processor.links_push _
  have hrefuse : ∀ f : Unit → Exec Unit, (fail .foreignFunction >>= f).Leads w
      (fun _ w' => (w.Idle → w'.Idle) ∧
        w'.processor.links = w.processor.links ++ [(w.processor.values.size, address)])
      w.Balanced := by
    intro f
    constructor
    · intro a w' h
      cases h
    · intro e w' h
      cases h
      exact .refl w
  unfold Exec.enterClosure
  refine .get_bind ?_
  split
  · exact ⟨nofun, fun h => by cases h; exact .refl w⟩
  · next c _ =>
    dsimp only
    split
    · exact hrefuse _
    · exact henter c

theorem inLoop_suspend (args : List Value) : (suspend args).InLoop depth below base := by
  intro w
  have hrefuse : ∀ (fault : Fault) (f : Unit → Exec (Option Exit)),
      (fail fault >>= f).Leads w (w.Turns depth below base) (w.Breaks depth below base) := by
    intro fault f
    constructor
    · intro a w' h
      cases h
    · intro e w' h
      cases h
      exact (World.Balanced.refl w).breaks
  have hyield : (do
      advance
      return some (.yielded (.ofList args)) : Exec (Option Exit)).Leads w (w.Turns depth below base)
        (w.Breaks depth below base) :=
    .ok_bind rfl (.of_ok rfl ⟨id, fun hloop => hloop.of_links rfl⟩)
  unfold Exec.suspend
  refine .ok_bind rfl ?_
  dsimp only
  split
  · exact hrefuse _ _
  · split
    · exact hrefuse _ _
    · exact hyield

theorem Balanced.stepCall (hr : r.Balanced) (argc : Nat) (span : Option Span) :
    (r.stepCall argc span).InLoop depth below base := by
  unfold Reentry.stepCall
  refine .after (stepwise_balanced.called argc) fun call => ?_
  obtain ⟨f, args⟩ := call
  dsimp only
  split
  · next id =>
    refine .after (stepwise_balanced.aside aside_address) fun a w => ?_
    refine Leads.bind ((enters_enterClosure id args (some (a + 1)) span w).mono
      (fun _ _ h => h) fun _ h => h.breaks) fun _ w' hw' => .of_ok rfl ?_
    exact ⟨hw'.1, fun hloop => hloop.called hw'.2 rfl⟩
  · split
    · exact inLoop_suspend args
    · next c _ _ =>
      have hinvoke : (Exec.invoke r c args span).Balanced := fun w =>
        (hr.invoke c args span w).mono (fun _ _ h => h.toBalanced) fun _ h => h
      refine .after hinvoke fun v => .after (stepwise_balanced.push v) fun _ => ?_
      exact .after stepwise_balanced.advance fun _ => inLoop_none depth below base
  · exact fun w => ⟨nofun, fun h => by cases h; exact (World.Balanced.refl w).breaks⟩

end Reentry

/-- The innermost frame of a loop is the one that the loop was entered with, which returns to nobody, or
one above it, which returns to the frame below. -/
theorem Processor.InLoop.innermost {p : Processor} {depth base : Nat}
    {below : List (Nat × Option Nat)}
    (h : p.InLoop depth below base) {frame : Frame} (hback : p.frames.back? = some frame) :
    (frame.link = (base, none) ∧ ({ p with frames := p.frames.pop } : Processor).links = below) ∨
      (frame.returnAddress.isSome ∧
        ({ p with frames := p.frames.pop } : Processor).InLoop depth below base) := by
  obtain ⟨above, hlinks, habove⟩ := h.frames
  have hsplit : p.links = ({ p with frames := p.frames.pop } : Processor).links ++ [frame.link] := by
    unfold Processor.links
    rw [Array.toList_pop, ← List.map_singleton, ← List.map_append]
    have hlast : p.frames.toList.getLast? = some frame := by
      rw [← Array.getLast?_toList] at hback
      exact hback
    rw [List.dropLast_append_getLast? _ hlast]
  rcases List.eq_nil_or_concat above with rfl | ⟨above, link, rfl⟩
  · have heq : ({ p with frames := p.frames.pop } : Processor).links ++ [frame.link] =
        below ++ [(base, none)] := hsplit.symm.trans hlinks
    obtain ⟨hbelow, hlink⟩ := List.append_inj' heq rfl
    exact .inl ⟨List.singleton_inj.1 hlink, hbelow⟩
  · have heq : ({ p with frames := p.frames.pop } : Processor).links ++ [frame.link] =
        (below ++ (base, none) :: above) ++ [link] := by
      rw [← hsplit, hlinks, List.concat_eq_append, List.append_assoc, List.cons_append]
    obtain ⟨hrest, hlink⟩ := List.append_inj' heq rfl
    obtain rfl := List.singleton_inj.1 hlink
    rw [List.concat_eq_append] at habove
    have hsome : frame.link.2.isSome = true :=
      habove _ (List.mem_append_right _ (List.mem_singleton_self _))
    refine .inr ⟨hsome, h.length, above, hrest, ?_⟩
    exact fun l hl => habove l (List.mem_append_left _ hl)

namespace Reentry

variable {r : Reentry} {below : List (Nat × Option Nat)} {base depth : Nat}

theorem inLoop_leaveWith (depth : Nat) (result : Value) :
    (leaveWith depth result).InLoop depth below base := by
  intro w
  unfold leaveWith
  refine .ok_bind rfl ?_
  split
  · exact ⟨nofun, fun h => by cases h; exact (World.Balanced.refl w).breaks⟩
  · next frame hback =>
    refine .ok_bind rfl (.ok_bind rfl ?_)
    have hheight : ((w.processor.values).shrink frame.base).size ≤ frame.base := by
      rw [Array.size_shrink]
      exact Nat.min_le_left ..
    cases haddress : frame.returnAddress with
    | none =>
      refine .of_ok rfl ⟨id, fun hloop => ?_⟩
      rcases hloop.innermost hback with ⟨hlink, hbelow⟩ | ⟨hsome, -⟩
      · have hbase : frame.base = base := congrArg Prod.fst hlink
        exact ⟨hbelow, hbase ▸ hheight⟩
      · rw [haddress] at hsome
        cases hsome
    | some address =>
      have hinner : w.processor.InLoop depth below base →
          ({ w.processor with frames := w.processor.frames.pop } : Processor).InLoop depth below base := by
        intro hloop
        rcases hloop.innermost hback with ⟨hlink, -⟩ | ⟨-, hinner⟩
        · have hnone : frame.returnAddress = none := congrArg Prod.snd hlink
          rw [haddress] at hnone
          cases hnone
        · exact hinner
      unfold handBack
      refine .ok_bind rfl ?_
      split
      · exact .ok_bind rfl (.ok_bind rfl (.of_ok rfl ⟨id, fun hloop => (hinner hloop).of_links rfl⟩))
      · next hlow =>
        refine .of_ok rfl ⟨id, fun hloop => ?_⟩
        obtain ⟨above, hlinks, -⟩ := (hinner hloop).frames
        have hlength := congrArg List.length hlinks
        rw [Processor.length_links, List.length_append, List.length_cons, hloop.length] at hlength
        refine absurd ?_ hlow
        change w.processor.frames.pop.size > depth
        change w.processor.frames.pop.size = _ at hlength
        omega

/-- What every instruction does in a loop. -/
theorem Balanced.step (hr : r.Balanced) (i : Instruction) :
    (r.step depth i).InLoop depth below base := by
  by_cases hcall : ∃ argc, i.op = .call argc
  · obtain ⟨op, span⟩ := i
    obtain ⟨argc, rfl⟩ := hcall
    exact hr.stepCall argc span
  by_cases hret : ∃ values, i.op = .ret values
  · obtain ⟨op, span⟩ := i
    obtain ⟨values, rfl⟩ := hret
    have htop : Exec.Balanced (if values == 0 then pure .void else pop : Exec Value) := by
      split
      · exact stepwise_balanced.pure _
      · exact stepwise_balanced.pop
    change (leaveFrame depth values).InLoop depth below base
    rw [leaveFrame_eq]
    exact .after htop (inLoop_leaveWith depth)
  · have hbalanced : Exec.Balanced (r.step depth i) :=
      hr.pairedStepwise.step depth i (not_exists.1 hcall) (not_exists.1 hret)
    have hnone : (r.step depth i).GoesOn := goesOn_step (not_exists.1 hcall) (not_exists.1 hret)
    intro w
    refine ⟨fun hok => ?_, fun herr => ((hbalanced w).error herr).breaks⟩
    obtain rfl := hnone.eq_none hok
    exact ((hbalanced w).ok hok).turns

/-- What a run leaves of the loop that it is. -/
theorem Balanced.run (hr : r.Balanced) (fuel : Nat) (w : World) :
    (r.run depth fuel).Leads w (fun exit => w.Turns depth below base (some exit)) (w.Breaks depth below base) :=
  leads_run (Q := w.Turns depth below base)
    (fun i _ h => (hr.step i _).mono (fun _ _ => h.turns) fun _ => h.breaks)
    (fun h ha => h.turns ha.balanced.turns) (fun h => h.breaks (World.Balanced.refl _).breaks)
    (fun h ha => h.balanced ha.balanced) fuel (World.Balanced.refl w).turns

end Reentry

/-! ## Functions -/

namespace World

/-- The frames below a height are where they were, and frames may be left above them. -/
structure Above (depth : Nat) (w w' : World) : Prop where
  idle : w.Idle → w'.Idle
  frames : w.processor.frames.size = depth → w.processor.links <+: w'.processor.links

/-- A function was entered at a height and is over, or gave way to who resumed the coroutine. -/
structure Entered (depth : Nat) (w : World) (exit : Exit) (w' : World) : Prop
    extends Above depth w w' where
  returned : ∀ v, exit = .returned v → w.processor.frames.size = depth → w.Level w'

variable {depth : Nat} {w w' w'' : World} {exit : Exit}

theorem Balanced.above (h : w.Balanced w') : w.Above depth w' :=
  ⟨h.idle, fun _ => h.links ▸ List.prefix_rfl⟩

theorem Above.after (h₁ : w.Aside w') (h₂ : w'.Above depth w'') : w.Above depth w'' :=
  ⟨fun h => h₂.idle (h₁.balanced.idle h), h₁.processor ▸ h₂.frames⟩

theorem Level.after (h₁ : w.Aside w') (h₂ : w'.Level w'') : w.Level w'' :=
  ⟨h₁.balanced.trans h₂.toBalanced, h₁.processor ▸ h₂.values⟩

/-- What is above the frames that were there is cut off. -/
theorem Above.unwind (h : w.Above w.processor.frames.size w') (ip : Nat) : w.Level { w' with
    processor := { w'.processor.unwind w.processor.frames.size w.processor.values.size with ip } } := by
  refine ⟨⟨?_, h.idle⟩, ?_⟩
  · obtain ⟨above, habove⟩ := h.frames rfl
    refine (w'.processor.links_unwind w.processor.frames.size w.processor.values.size).trans ?_
    rw [← habove, ← w.processor.length_links]
    exact List.take_left ..
  · exact w'.processor.size_unwind w.processor.frames.size _

end World

namespace Reentry

variable {r : Reentry}

/-- Values and errors of a function that is called at a height of the call stack. -/
theorem Balanced.enterFunction (hr : r.Balanced) (depth : Nat) (f : Value) (args : List Value)
    (w : World) : (r.enterFunction depth f args).Leads w (w.Entered depth) (w.Above depth) := by
  have hresolved : (resolveCallable f args).Leads w (fun _ => w.Aside) (w.Above depth) :=
    (Leads.of_ends (aside_resolveCallable f args) w).mono (fun _ _ h => h) fun _ h => h.balanced.above
  unfold Reentry.enterFunction
  refine hresolved.bind fun call w₁ hw₁ => ?_
  obtain ⟨f, args⟩ := call
  dsimp only
  split
  · next id =>
    -- the loop that the function runs in stands on the frames that are there
    have henter := (enters_enterClosure id args none none w₁).mono (fun _ _ h => h)
      fun w' h => (h.above : w₁.Above depth w').after hw₁
    refine henter.bind fun _ w₂ hw₂ => ?_
    have hloop : w₁.processor.frames.size = depth →
        w₂.processor.InLoop depth w₁.processor.links w₁.processor.values.size := by
      intro hdepth
      exact ⟨w₁.processor.length_links.trans hdepth, [], hw₂.2, nofun⟩
    have hrun : (r.run depth stepLimit).Leads w₂
        (fun exit => w₂.Turns depth w₁.processor.links w₁.processor.values.size (some exit))
        (w₂.Breaks depth w₁.processor.links w₁.processor.values.size) := hr.run stepLimit w₂
    refine hrun.mono (fun exit w' h => ?_) fun w' h => ?_
    · refine ⟨.after hw₁ ⟨fun hidle => h.idle (hw₂.1 hidle), fun hdepth => ?_⟩, ?_⟩
      · have hstepped := h.loop (hloop hdepth)
        cases exit with
        | returned v => exact hstepped.1 ▸ List.prefix_rfl
        | yielded v => exact hstepped.frames_below
      · rintro v rfl hdepth
        have hstepped := h.loop (hloop (hw₁.processor ▸ hdepth))
        exact .after hw₁ ⟨⟨hstepped.1, fun hidle => h.idle (hw₂.1 hidle)⟩, hstepped.2⟩
    · exact .after hw₁ ⟨fun hidle => h.idle (hw₂.1 hidle), fun hdepth => h.loop (hloop hdepth)⟩
  · next c =>
    split
    · refine .of_ok rfl ⟨hw₁.balanced.above, ?_⟩
      rintro v h
      cases h
    · refine Leads.bind ((hr.invoke c args none w₁).mono (fun _ _ h => h.after hw₁)
        fun _ h => (hw₁.balanced.trans h).above) fun v w' hw' => .of_ok rfl ⟨hw'.above, ?_⟩
      rintro - - -
      exact hw'
  · exact ⟨nofun, fun h => by cases h; exact hw₁.balanced.above⟩

/-- After a call the stacks are as before, or the value stack is lower. -/
theorem Balanced.callFunction (hr : r.Balanced) (f : Value) (args : List Value) (w : World) :
    (r.callFunction f args).Leads w (fun _ => w.Level) w.Level := by
  have hnested : ∀ w' : World, w.nested.Level w' → w.Level (w'.unnested w.active) := by
    intro w' h
    have hbefore : w.Balanced w.nested := .modify w _ fun _ => rfl
    have hafter : w'.Balanced (w'.unnested w.active) := .modify w' _ fun _ => rfl
    exact ⟨(hbefore.trans h.toBalanced).trans hafter, h.values⟩
  have hfull : w.Level w := ⟨.refl w, Nat.le_refl _⟩
  refine leads_nested (Q := fun _ => w.nested.Level) (E := w.nested.Level) (fun _ => .get_bind ?_)
    (fun _ => hnested) hnested hfull
  refine Leads.andSettle (Q := fun _ => w.nested.Level)
    (E := w.nested.Above w.nested.processor.frames.size) ?_ _ _ (fun _ w' h => ?_) fun w' h => ?_
  · refine (hr.enterFunction _ f _ w.nested).mono (fun _ _ h => h) (fun _ h => h) |>.bind ?_
    intro exit w' h
    cases exit with
    | returned v => exact .of_ok rfl (h.returned v rfl rfl)
    | yielded v => exact ⟨nofun, fun herr => by cases herr; exact h.toAbove⟩
  · exact ⟨⟨h.links, h.idle⟩, h.values⟩
  · exact h.unwind _

/-! ### Coroutines -/

/-- A resumed coroutine leaves idle scripts idle, whatever its processor looks like. -/
theorem Balanced.continueBody (hr : r.Balanced) (start : Option Value) (args : List Value) (w : World) :
    (r.continueBody start args).Leads w (fun _ w' => w.Idle → w'.Idle) fun w' => w.Idle → w'.Idle := by
  cases start with
  | some f =>
    exact (hr.enterFunction 0 f _ w).mono (fun _ _ h => h.idle) fun _ h => h.idle
  | none =>
    refine .ok_bind rfl ((@Balanced.run r [] 0 0 hr stepLimit _).mono ?_ ?_)
    · exact fun _ _ h => h.idle
    · exact fun _ h => h.idle

theorem balanced_setBody (id : CoroutineId) (body : Option CoroutineBody) :
    (setBody id body).Balanced :=
  balanced_of_change (fun _ => rfl) fun _ => .of_eq rfl rfl

theorem balanced_transition (id : CoroutineId) (state : CoroutineState) :
    (transition id state).Balanced := by
  unfold transition
  refine stepwise_balanced.after aside_heap fun h => ?_
  split
  · exact stepwise_balanced.fail _
  · refine stepwise_balanced.after (aside_lift _) fun c => ?_
    exact balanced_of_change (fun _ => rfl) fun _ => .of_eq rfl rfl

theorem Balanced.runBody (hr : r.Balanced) (id : CoroutineId) (body : CoroutineBody)
    (args : List Value) : (r.runBody id body args).Balanced := by
  intro w
  have hstarted : Exec.Leads (do
      modifyScript fun s => { s with running := id :: s.running }
      andFinally (r.continueBody body.function args) fun w =>
        { w with scripts := w.scripts.modify w.active.index fun s =>
          { s with running := s.running.tail } }) { w with processor := body.processor }
      (fun _ w' => w.Idle → w'.Idle) fun w' => w.Idle → w'.Idle := by
    refine .ok_bind rfl ?_
    refine (hr.continueBody body.function args _).andFinally _ (fun _ w' h hidle => ?_)
      fun w' h hidle => ?_
    all_goals
      have hbefore := (World.Balanced.modify w w.active.index (f := fun s =>
        { s with running := id :: s.running }) fun _ => rfl).idle hidle
      exact (World.Balanced.modify w' w'.active.index (f := fun s =>
        { s with running := s.running.tail }) fun _ => rfl).idle (h hbefore)
  constructor
  · intro result w' h
    unfold Reentry.runBody at h
    dsimp only at h
    split at h
    · next hok =>
      cases h
      have hidle := hstarted.ok hok
      exact ⟨rfl, hidle⟩
    · next herr =>
      cases h
      have hidle := hstarted.error herr
      exact ⟨rfl, hidle⟩
    · cases h
  · intro e w' h
    unfold Reentry.runBody at h
    dsimp only at h
    split at h
    · cases h
    · cases h
    · next hnot _ =>
      cases h
      exact absurd rfl (hnot e)

theorem Balanced.resumeBody (hr : r.Balanced) (id : CoroutineId) (body : CoroutineBody)
    (args : List Value) : (r.resumeBody id body args).Balanced := by
  unfold Reentry.resumeBody
  refine (balanced_setBody id none).bind fun _ => (balanced_transition id .running).bind fun _ => ?_
  refine (hr.runBody id body args).bind fun result => ?_
  obtain ⟨outcome, p⟩ := result
  dsimp only
  split
  · exact (balanced_transition id .suspended).bind fun _ => (balanced_setBody id _).bind fun _ =>
      stepwise_balanced.pure _
  · exact (balanced_transition id .dead).bind fun _ => stepwise_balanced.pure _
  · exact (balanced_transition id .dead).bind fun _ => stepwise_balanced.aside (aside_failWith _)

theorem balanced_nested {α : Type} {x : Exec α} (hx : x.Balanced) : (nested x).Balanced := by
  intro w
  have hlevel : ∀ w' : World, w.nested.Balanced w' → w.Balanced (w'.unnested w.active) := by
    intro w' h
    have hbefore : w.Balanced w.nested := .modify w _ fun _ => rfl
    exact (hbefore.trans h).trans (.modify w' _ fun _ => rfl)
  exact leads_nested (fun _ => hx w.nested) (fun _ => hlevel) hlevel (.refl w)

theorem Balanced.resumeCoroutine (hr : r.Balanced) (id : CoroutineId) (args : List Value) :
    (r.resumeCoroutine id args).Balanced := by
  unfold Reentry.resumeCoroutine
  refine stepwise_balanced.after aside_get fun w => ?_
  split
  · exact stepwise_balanced.fail _
  · next c _ =>
    extract_lets rest
    have hrest : ∀ u, (rest u).Balanced := by
      intro u
      dsimp only [rest]
      split
      · exact stepwise_balanced.fail _
      · exact stepwise_balanced.fail _
      · exact stepwise_balanced.fail _
      all_goals
        refine balanced_nested ?_
        split
        · exact stepwise_balanced.fail _
        · exact hr.resumeBody id _ args
    split
    · exact (stepwise_balanced.fail _).bind hrest
    · exact hrest ()

/-! ### Scripts -/

theorem balanced_acquire : acquire.Balanced := by
  unfold acquire
  refine stepwise_balanced.after aside_script fun s => stepwise_balanced.after aside_get fun w => ?_
  dsimp only
  split
  · exact stepwise_balanced.books (fun _ => rfl) (fun _ => rfl) fun _ => .refl _
  · split
    · exact stepwise_balanced.fail _
    · split
      · exact stepwise_balanced.aside (aside_failWith _)
      · exact stepwise_balanced.aside (aside_throw _)

/-- An idle main processor is idle again after a call. -/
theorem Balanced.onMainProcessor (hr : r.Balanced) (token : Nat) (f : Value) (args : List Value) :
    (onMainProcessor token (r.callFunction f args)).Balanced := by
  intro w
  let main := (w.scripts.getD w.active.index default).processor
  have hback : ∀ w' : World, World.Level { w with processor := main, token } w' →
      w.Balanced { w' with
        scripts := w'.scripts.modify w.active.index fun s =>
          { s with processor := w'.processor, owner := none
                   counters := s.counters.countExecution }
        processor := w.processor
        token := w.token } := by
    intro w' h
    refine ⟨rfl, fun hidle => ?_⟩
    have hmain : main.isIdle = true := hidle.processor w.active.index
    obtain ⟨hlinks, hvalues⟩ := Processor.isIdle_iff.1 hmain
    have hafter : w'.processor.isIdle = true :=
      Processor.isIdle_iff.2 ⟨h.links.trans hlinks, Nat.le_trans h.values hvalues⟩
    exact (h.idle hidle).modify _ fun _ => hafter
  have hall := (hr.callFunction f args { w with processor := main, token }).andFinally _
    (fun _ => hback) hback
  exact ⟨hall.ok, hall.error⟩

theorem Balanced.callScript (hr : r.Balanced) (token : Nat) (f : Value) (args : List Value) :
    (r.callScript token f args).Balanced := by
  have hended : ∀ w' : World, w'.Balanced { w' with
      scripts := w'.scripts.modify w'.active.index fun s =>
        { s with debug := s.debug.executionEnded } } := fun w' => .modify w' _ fun _ => rfl
  refine balanced_acquire.bind fun _ w => ?_
  exact (hr.onMainProcessor token f args w).andSettle _ _ (fun _ w' h => h.trans (hended w'))
    fun w' h => h.trans (hended w')

theorem balanced_within {α : Type} {x : Exec α} (hx : x.Balanced) (id : ScriptId) :
    (within id x).Balanced :=
  hx.around (fun _ => .of_eq rfl rfl) fun _ _ => .of_eq rfl rfl

theorem Balanced.enterScript (hr : r.Balanced) (id : ScriptId) (code : String) :
    (r.enterScript id code).Balanced := by
  have hrest : (within id do
      let f ← loadString code none none
      r.callScript (← newToken) f []).Balanced := by
    refine balanced_within ((stepwise_balanced.loadString code none none).bind fun f => ?_) id
    exact stepwise_balanced.after aside_newToken fun token => hr.callScript token f []
  unfold Reentry.enterScript
  refine stepwise_balanced.after aside_get fun w => ?_
  dsimp only
  split
  · exact (stepwise_balanced.aside (aside_throw _)).bind fun _ => hrest
  · exact hrest

/-- Whatever is asked of the machine leaves the frames where they were, and idle scripts idle. -/
theorem balanced_atDepth (n : Nat) : (atDepth n).Balanced := by
  have hexhausted : (throw .exhausted : Exec Value).Balanced := stepwise_balanced.aside (aside_throw _)
  induction n with
  | zero => exact ⟨fun _ _ => hexhausted, fun _ _ => hexhausted, fun _ _ => hexhausted⟩
  | succ n ih =>
    refine ⟨fun f args w => ?_, ih.resumeCoroutine, ih.enterScript⟩
    exact (ih.callFunction f args w).mono (fun _ _ h => h.toBalanced) fun _ h => h.toBalanced

end Reentry

/-! ## Hosts -/

namespace Script

/-- After a call from the host that returns, idle scripts are idle. -/
theorem balanced_callWith (token : Nat) (f : Value) (args : List Value) :
    (callWith token f args).Balanced := fun w =>
  have hcall := (Reentry.balanced_atDepth w.reentryDepth).callScript token f args w
  ⟨hcall.ok, hcall.error⟩

theorem balanced_call (f : Value) (args : List Value) : (call f args).Balanced :=
  stepwise_balanced.after aside_newToken fun token => balanced_callWith token f args

end Script

end LuaMachine
