import LuaMachine.Proofs.Lists.Elements

/-!
# What takes a list

The instructions behind the code of a list take its values off the stack, and pass them on: to a function
that is called, to the caller of the function that returns them, to variables and fields, to a loop, or to
a table. Each one is described by what it does in a world where the values that it takes are off the stack
(`World.clearedTo`), so that only the values themselves matter, and not how they lay there.
-/

namespace LuaMachine

open Exec

/-- The world without the values that a function works on. -/
def World.clearedTo (w : World) (A : Activation) : World :=
  { w with processor := { w.processor with values := A.outer.values } }

namespace Value

variable {list : List Value}

theorem toList_ofList (h : ∀ v ∈ list, v.Single) : (ofList list).toList = list := by
  unfold ofList
  split
  · exact toList_of_single (h _ (List.mem_singleton_self _))
  · rfl

/-- The positions of a result, which go on with `nil`. -/
theorem nth_ofList (h : ∀ v ∈ list, v.Single) (i : Nat) : (ofList list).nth i = list.getD i .nil := by
  unfold ofList
  split
  · next v =>
    have hv : v.Single := h v (List.mem_singleton_self v)
    cases i <;> cases v <;> first | rfl | cases hv
  · next vs hvs =>
    rw [nth, List.getD_eq_getElem?_getD]
    cases hi : list[i]? with
    | none => rfl
    | some v => exact scalar_of_isTuple_eq_false (h v (List.mem_of_getElem? hi))

end Value

namespace Activation

variable {A : Activation} {x : Nat} {v : Value} {vs : List Value} {p : Processor}

/-- All of the topmost values come off. -/
theorem At.cleared (h : (A.pushAll vs).At 0 x p) : A.At 0 x { p with values := A.outer.values } := by
  obtain ⟨f, own, hf, -, rfl⟩ := h
  exact ⟨f, #[], hf, rfl, by simp [pushAll]⟩

theorem push_eq_pushAll (A : Activation) (v : Value) : A.push v = A.pushAll [v] := by
  simp [push, pushAll]

theorem pushAll_append (A : Activation) (vs us : List Value) :
    (A.pushAll vs).pushAll us = A.pushAll (vs ++ us) := by
  simp [pushAll, Array.append_assoc]

end Activation

namespace Exec

variable {A : Activation} {x : Nat} {v g : Value} {vs : List Value} {w w' : World}

theorem onward_congr {e e' : Exec Unit} (h : e w = e' w') :
    (do e; advance; return none : Exec (Option Exit)) w =
      (do e'; advance; return none : Exec (Option Exit)) w' := by
  change EStateM.bind e _ w = EStateM.bind e' _ w'
  unfold EStateM.bind
  rw [h]

theorem clearedTo_eq (h : A.At 0 x w.processor) : w.clearedTo A = w := by
  unfold World.clearedTo
  rw [← h.values_eq]

theorem pop_cleared (h : (A.push v).At 0 x w.processor) : pop w = .ok v (w.clearedTo A) := by
  rw [pop_at h, h.values_eq]
  simp [World.clearedTo, Activation.push]

theorem popMany_cleared (h : (A.pushAll vs).At 0 x w.processor) :
    popMany vs.length w = .ok vs (w.clearedTo A) := by
  have hvalues : w.processor.values = A.outer.values ++ vs.toArray := h.values_eq
  have hsize : (A.outer.values ++ vs.toArray).size - vs.length = A.outer.values.size := by
    simp
  have hitems : ((A.outer.values ++ vs.toArray).extract A.outer.values.size
      (A.outer.values ++ vs.toArray).size).toList = vs := by
    simp
  have hrest : (A.outer.values ++ vs.toArray).shrink A.outer.values.size = A.outer.values := by
    simp [Array.shrink_eq_take]
  have hle : vs.length ≤ (A.outer.values ++ vs.toArray).size := by simp
  unfold popMany
  simp only [hvalues, if_pos hle, hsize, hitems, hrest, World.clearedTo]

/-- A call takes the function and the list that its operands stand for. -/
theorem called_cleared (h : ((A.push g).pushAll vs).At 0 x w.processor) :
    called vs.length w = (do safepoint; resolveCallable g (Value.flatten vs)) (w.clearedTo A) := by
  have hsize : ¬ w.processor.values.size < vs.length + 1 := by
    have hvalues : w.processor.values = A.outer.values.push g ++ vs.toArray := h.values_eq
    have hlength : vs.toArray.size = vs.length := rfl
    rw [hvalues, Array.size_append, Array.size_push]
    omega
  have hg : (A.push g).At 0 x (w.clearedTo (A.push g)).processor := h.cleared
  unfold called
  rw [bind_ok (processor_eq _)]
  dsimp only
  rw [if_neg hsize, bind_ok (popMany_cleared h)]
  rw [bind_ok (pop_cleared hg)]
  rfl

theorem checkDepth_eq_ok {u : Unit} (h : checkDepth w = .ok u w') : w' = w := by
  obtain ⟨p, w₁, hp, h⟩ := of_bind_ok h
  cases hp
  obtain ⟨s, w₂, hs, h⟩ := of_bind_ok h
  cases hs
  split at h <;> cases h
  rfl

/-- A function that is entered has its arguments in its frame. -/
theorem enterClosure_eq_ok {id : ClosureId} {args : List Value} {address : Option Nat}
    {span : Option Span} {u : Unit} (h : enterClosure id args address span w = .ok u w') :
    ∃ f, w'.processor.frames.back? = some (.script f) ∧ w.heap.closure? id = some f.closure ∧
      f.pending = args := by
  obtain ⟨w₀, w₁, hget, h⟩ := of_bind_ok h
  cases hget
  cases hclosure : w.heap.closure? id with
  | none =>
    simp only [hclosure] at h
    cases h
  | some c =>
    simp only [hclosure] at h
    split at h
    · obtain ⟨_, _, hfail, -⟩ := of_bind_ok h
      cases hfail
    · change (checkDepth >>= fun _ => _) w = _ at h
      obtain ⟨⟨⟩, w₂, hdepth, hrest⟩ := of_bind_ok h
      obtain rfl := checkDepth_eq_ok hdepth
      cases hrest
      exact ⟨_, Array.back?_push, rfl, rfl⟩

theorem safepoint_eq_ok {u : Unit} (h : safepoint w = .ok u w') : w' = w := by
  unfold safepoint at h
  split at h
  · cases h
  · cases h
    rfl

/-- What can be called is called with the arguments as they are. -/
theorem resolveCallable_of_isCallable {args : List Value} (h : g.isCallable = true) :
    resolveCallable g args = pure (g, args) := by
  cases g <;> first | rfl | cases h

end Exec

namespace Reentry

variable {r : Reentry} {depth x : Nat} {A : Activation} {u w : World} {list stack : List Value}
  {g t : Value}

/-- The next instruction does this and goes on, once its operands are off the stack. -/
def Performs (r : Reentry) (depth : Nat) (A : Activation) (e : Option Span → Exec Unit) (u : World) :
    Prop :=
  ∃ op, u.ops u.processor.ip = some op ∧ ∀ span w, w.processor = u.processor →
    r.step depth ⟨op, span⟩ w =
      (do e span; advance; return none : Exec (Option Exit)) (w.clearedTo A)

/-- The next instruction calls a value with a list: it takes nothing else off the stack, a script function
is entered with the list as its arguments, and a native function is run with it. -/
structure Calls (r : Reentry) (depth : Nat) (A : Activation) (g : Value) (list : List Value) (u : World) :
    Prop where
  takes : ∃ n, u.ops u.processor.ip = some (.call n) ∧ ∀ w, w.processor = u.processor →
    called n w = (do safepoint; resolveCallable g list) (w.clearedTo A)
  script : ∀ id, g = .function id → ∃ op, u.ops u.processor.ip = some op ∧
    ∀ span w exit w', w.processor = u.processor → r.step depth ⟨op, span⟩ w = .ok exit w' →
      ∃ f, w'.processor.frames.back? = some (.script f) ∧ w.heap.closure? id = some f.closure ∧
        f.pending = list
  native : ∀ c, g = .callback c → c.native ≠ .yield →
    r.Performs depth A (fun span => do safepoint; push (← invoke r c list span)) u

/-- The next instruction gives a list to the caller: it ends the loop of instructions with it, or goes back
to the caller, with the list in the place of the values of the function. -/
def Returns (r : Reentry) (depth : Nat) (A : Activation) (list : List Value) (u : World) : Prop :=
  ∃ op result, u.ops u.processor.ip = some op ∧ result.toList = list ∧
    ∀ span w exit w', w.processor = u.processor → r.step depth ⟨op, span⟩ w = .ok exit w' →
      exit = some (.returned result) ∨ exit = none ∧ A.returnAddress = some w'.processor.ip ∧
        w'.processor.values = (A.outer.values.shrink A.base).push result

/-- The next instruction starts a loop with the first three values of a list. A table that cannot be called
is traversed instead. -/
def Iterates (r : Reentry) (depth : Nat) (A : Activation) (list : List Value) (u : World) : Prop :=
  ∃ op, u.ops u.processor.ip = some op ∧
    ∀ span w exit w', w.processor = u.processor → r.step depth ⟨op, span⟩ w = .ok exit w' →
      exit = none ∧ ∃ x, (A.pushAll [list.getD 0 .nil, list.getD 1 .nil, list.getD 2 .nil]).At 0 x
          w'.processor ∨
        ∃ c : Callback, c.native = .builtin .next ∧ (∃ id, list.getD 0 .nil = .table id) ∧
          (A.pushAll [.callback c, list.getD 0 .nil, .nil]).At 0 x w'.processor

/-! ## Single instructions -/

theorem performs_store {s : Symbol} {i : Nat} (hop : u.ops x = some (.store s i))
    (hat : (A.push t).At 0 x u.processor) :
    r.Performs depth (A.push t) (fun _ => r.assignSymbol s (t.nth i)) u := by
  refine ⟨_, hat.ip_eq ▸ hop, fun span w hw => ?_⟩
  rw [← hw] at hat
  rw [clearedTo_eq hat]
  exact onward_congr (bind_ok (peek_at hat))

theorem performs_local {slot i : Nat} (hop : u.ops x = some (.local slot i))
    (hat : (A.push t).At 0 x u.processor) :
    r.Performs depth (A.push t) (fun _ => declareLocal slot (t.nth i)) u := by
  refine ⟨_, hat.ip_eq ▸ hop, fun span w hw => ?_⟩
  rw [← hw] at hat
  rw [clearedTo_eq hat]
  exact onward_congr (bind_ok (peek_at hat))

theorem performs_indexSet {object key : Value} {i : Nat} (hop : u.ops x = some (.indexSet i))
    (hat : ((A.push t).pushAll [object, key]).At 0 x u.processor) :
    r.Performs depth (A.push t) (fun _ => r.setIndex object key.scalar (t.nth i)) u := by
  refine ⟨_, hat.ip_eq ▸ hop, fun span w hw => ?_⟩
  rw [← hw] at hat
  have hkey : (((A.push t).push object).push key).At 0 x w.processor := by
    simpa [Activation.push_eq_pushAll, Activation.pushAll_append] using hat
  have hobject : ((A.push t).push object).At 0 x (w.clearedTo ((A.push t).push object)).processor :=
    (Activation.push_eq_pushAll _ key ▸ hkey).cleared
  have htop : (A.push t).At 0 x (w.clearedTo (A.push t)).processor := hat.cleared
  have hbody : (do
      let key := (← pop).scalar
      let object ← pop
      r.setIndex object key ((← peek 0).nth i)) w =
        r.setIndex object key.scalar (t.nth i) (w.clearedTo (A.push t)) := by
    rw [bind_ok (pop_cleared hkey)]
    rw [bind_ok (pop_cleared hobject)]
    exact bind_ok (peek_at htop)
  exact onward_congr hbody

theorem performs_tableAppend {id : TableId} {s : Value} {i : Nat} {expand : Bool}
    (hop : u.ops x = some (.tableAppend i expand))
    (hat : ((A.push (.table id)).push s).At 0 x u.processor) :
    r.Performs depth (A.push (.table id))
      (fun _ => storeItems id i (if expand then s.toList else [s])) u := by
  refine ⟨_, hat.ip_eq ▸ hop, fun span w hw => ?_⟩
  rw [← hw] at hat
  have htable : (A.push (.table id)).At 0 x (w.clearedTo (A.push (.table id))).processor :=
    (Activation.push_eq_pushAll _ s ▸ hat).cleared
  have htop : tableOnTop (w.clearedTo (A.push (.table id))) =
      .ok id (w.clearedTo (A.push (.table id))) := (bind_ok (peek_at htable)).trans rfl
  exact onward_congr ((bind_ok (pop_cleared hat)).trans (bind_ok htop))

theorem step_makeTuple {n : Nat} {span : Option Span} {w' : World} (hn : n = stack.length)
    (hat : (A.pushAll stack).At 0 x w.processor)
    (hstep : r.step depth ⟨.makeTuple n, span⟩ w = .ok none w') :
    (A.push (.ofList (Value.flatten stack))).At 0 (x + 1) w'.processor := by
  subst hn
  have hbody := (bind_ok (f := fun vs => push (.ofList (Value.flatten vs)))
    (popMany_cleared hat)).trans rfl
  cases ((onward_ok hbody).symm.trans hstep)
  have hcleared : A.At 0 x (w.clearedTo A).processor := hat.cleared
  rw [← hat.ip_eq]
  exact (hcleared.pushed _).goTo _

/-! ## Calls and returns -/

theorem calls (hop : u.ops x = some (.call stack.length))
    (hat : ((A.push g).pushAll stack).At 0 x u.processor) (hlist : Value.flatten stack = list) :
    r.Calls depth A g list u := by
  subst hlist
  have hop' : u.ops u.processor.ip = some (.call stack.length) := hat.ip_eq ▸ hop
  have htakes : ∀ w, w.processor = u.processor → called stack.length w =
      (do safepoint; resolveCallable g (Value.flatten stack)) (w.clearedTo A) :=
    fun w hw => called_cleared (hw ▸ hat)
  refine ⟨⟨_, hop', htakes⟩, ?_, ?_⟩
  · rintro id rfl
    refine ⟨_, hop', fun span w exit w' hw hstep => ?_⟩
    obtain ⟨⟨f, args⟩, w₁, hcalled, hrest⟩ := of_bind_ok hstep
    rw [htakes w hw, resolveCallable_of_isCallable rfl] at hcalled
    obtain ⟨_, w₂, hsafe, hcalled⟩ := of_bind_ok hcalled
    obtain rfl := safepoint_eq_ok hsafe
    cases hcalled
    obtain ⟨here, w₃, haddress, hrest⟩ := of_bind_ok hrest
    cases haddress
    obtain ⟨⟨⟩, w₄, henter, hrest⟩ := of_bind_ok hrest
    cases hrest
    obtain ⟨f, hf, hclosure, hpending⟩ := enterClosure_eq_ok henter
    exact ⟨f, hf, hclosure, hpending⟩
  · rintro c rfl hc
    refine ⟨_, hop', fun span w hw => ?_⟩
    have hcalled := htakes w hw
    rw [resolveCallable_of_isCallable rfl] at hcalled
    cases hsafe : safepoint (w.clearedTo A) with
    | error s w' =>
      rw [bind_error hsafe] at hcalled
      exact (bind_error hcalled).trans (bind_error (bind_error hsafe)).symm
    | ok u w' =>
      obtain rfl := safepoint_eq_ok hsafe
      rw [bind_ok hsafe] at hcalled
      refine Eq.trans ?_ (onward_congr (bind_ok hsafe)).symm
      change (called stack.length >>= _) w = _
      rw [bind_ok hcalled]
      dsimp only
      cases hnative : c.native with
      | yield => exact absurd hnative hc
      | _ => simp only [bind_assoc]

theorem leaveWith_ok {result : Value} {exit : Option Exit} {w' : World}
    (hat : A.At 0 x w.processor) (h : leaveWith depth result w = .ok exit w') :
    exit = some (.returned result) ∨ exit = none ∧ A.returnAddress = some w'.processor.ip ∧
      w'.processor.values = (A.outer.values.shrink A.base).push result := by
  obtain ⟨f, own, ⟨-, hbase, hreturn⟩, hk, hp⟩ := hat
  obtain rfl := Array.eq_empty_of_size_eq_zero hk
  have hback : w.processor.frames.back? = some (.script f) := by
    rw [hp]
    exact Array.back?_push
  obtain ⟨p, w₁, hprocessor, h⟩ := of_bind_ok h
  cases hprocessor
  simp only [hback] at h
  obtain ⟨⟨⟩, w₂, hpop, h⟩ := of_bind_ok h
  cases hpop
  obtain ⟨⟨⟩, w₃, htruncate, h⟩ := of_bind_ok h
  cases htruncate
  change handBack depth result f.returnAddress _ = _ at h
  rw [hreturn] at h
  cases haddress : A.returnAddress with
  | none =>
    rw [haddress] at h
    cases h
    exact .inl rfl
  | some address =>
    rw [haddress] at h
    obtain ⟨p, w₄, hprocessor, h⟩ := of_bind_ok h
    cases hprocessor
    dsimp only at h
    split at h
    · cases h
      refine .inr ⟨rfl, rfl, ?_⟩
      simp [hp, hbase, Frame.base]
    · cases h
      exact .inl rfl

theorem returns_nothing (hop : u.ops x = some (.ret 0)) (hat : A.At 0 x u.processor) :
    r.Returns depth A [] u := by
  refine ⟨_, .void, hat.ip_eq ▸ hop, rfl, fun span w exit w' hw hstep => ?_⟩
  have hleave : leaveFrame depth 0 w = .ok exit w' := hstep
  rw [leaveFrame_eq] at hleave
  exact leaveWith_ok (hw ▸ hat) hleave

theorem returns_top (hop : u.ops x = some (.ret 1)) (hat : (A.push t).At 0 x u.processor) :
    r.Returns depth A t.toList u := by
  refine ⟨_, t, hat.ip_eq ▸ hop, rfl, fun span w exit w' hw hstep => ?_⟩
  rw [← hw] at hat
  have hleave : (pop >>= leaveWith depth) w = .ok exit w' :=
    (congrFun (leaveFrame_eq depth 1) w).symm.trans hstep
  rw [bind_ok (pop_cleared hat)] at hleave
  have hcleared : A.At 0 x (w.clearedTo A).processor := (Activation.push_eq_pushAll A t ▸ hat).cleared
  exact leaveWith_ok hcleared hleave

/-! ## Loops -/

theorem at_of_pushAll {u : Unit} {w' : World} (hat : A.At 0 x w.processor)
    (h : pushAll list w = .ok u w') : (A.pushAll list).At 0 x w'.processor := by
  induction list generalizing A w with
  | nil =>
    cases h
    exact (A.pushAll_nil).symm ▸ hat
  | cons v rest ih =>
    obtain ⟨⟨⟩, w₁, hpush, h⟩ := of_bind_ok h
    cases hpush
    rw [← Activation.push_pushAll]
    exact ih (hat.pushed v) h

/-- A loop starts with the first three values of a result, or traverses the first one. -/
theorem at_of_prepareIteration {u : Unit} {w' : World} (hat : A.At 0 x w.processor)
    (h : prepareIteration t w = .ok u w') :
    (A.pushAll [t.nth 0, t.nth 1, t.nth 2]).At 0 x w'.processor ∨
      ∃ c : Callback, c.native = .builtin .next ∧ (∃ id, t.nth 0 = .table id) ∧
        (A.pushAll [.callback c, t.nth 0, .nil]).At 0 x w'.processor := by
  have hmeta : metamethod? (t.nth 0) "__call" w = .ok (w.heap.metamethod? (t.nth 0) "__call") w := rfl
  unfold prepareIteration at h
  rw [bind_ok hmeta] at h
  cases hf : t.nth 0 with
  | table id =>
    cases hhandler : w.heap.metamethod? (.table id) "__call" with
    | none =>
      rw [hf, hhandler] at h
      obtain ⟨c, w₂, hnew, hrest⟩ := of_bind_ok h
      have hat₂ : A.At 0 x w₂.processor := by
        cases hnew
        exact hat
      have hrest' := at_of_pushAll hat₂ hrest
      cases hnew
      exact .inr ⟨_, rfl, ⟨id, rfl⟩, hrest'⟩
    | some handler =>
      rw [hf, hhandler] at h
      exact .inl (at_of_pushAll hat h)
  | _ =>
    rw [hf] at h
    exact .inl (at_of_pushAll hat h)

theorem iterates (hop : u.ops x = some .iterPrep) (hat : (A.push (.ofList list)).At 0 x u.processor)
    (hlist : ∀ v ∈ list, v.Single) : r.Iterates depth A list u := by
  refine ⟨_, hat.ip_eq ▸ hop, fun span w exit w' hw hstep => ?_⟩
  rw [← hw] at hat
  have hcleared : A.At 0 x (w.clearedTo A).processor :=
    (Activation.push_eq_pushAll A _ ▸ hat).cleared
  obtain ⟨⟨⟩, w₁, hbody, hrest⟩ := of_bind_ok hstep
  cases hrest
  rw [bind_ok (pop_cleared hat)] at hbody
  have hstarts := at_of_prepareIteration hcleared hbody
  simp only [Value.nth_ofList hlist] at hstarts
  refine ⟨rfl, x + 1, hstarts.imp (fun h => ?_) fun ⟨c, hc, htable, h⟩ => ⟨c, hc, htable, ?_⟩⟩
  · rw [← h.ip_eq]
    exact h.goTo _
  · rw [← h.ip_eq]
    exact h.goTo _

end Reentry

end LuaMachine
