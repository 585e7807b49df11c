import LuaMachine.Proofs.Crossing.Regions
import LuaMachine.Proofs.Lists.Receivers
import LuaMachine.Proofs.Lists.Uses

/-!
# The adjustment of value lists

Whatever takes the values of a list of expressions gets exactly the adjusted list: the function that is
called, the caller of the function that returns it, the variables and fields that are assigned, with `nil`
for those beyond its end, and a loop. In a table constructor each positional field stores what it adds at
its own position, and the last field of all may go on from there.

Main statement: this is so wherever control comes to such a use while a request of a host is in progress
(`World.Hosted.lists_adjusted`).
-/

namespace LuaMachine

open Exec

namespace Reentry

variable {r : Reentry} {bottom : Processor} {A : Activation} {code : Listing} {w u : World}
  {list stack : List Value} {t : Value} {depth a b d x : Nat}

/-- The next instruction assigns a value to a target whose code is compiled at a site: to what the name is
resolved to in the scopes there, or at an index. The object and the key are the first values that their
expressions give, when these are evaluated where the code of the target starts. -/
def Stores (r : Reentry) (depth : Nat) (code : Listing) (stay : Processor → Prop) (A : Activation)
    (value : Value) (s : Site) (w : World) (target : Expr) (u : World) : Prop :=
  match target with
  | .name n => A.At 0 s.address u.processor ∧
    r.Performs depth A (fun _ => r.assignSymbol (s.scopes.resolve n).1 value) u
  | .index object key => ∃ w' o k, r.Lasts depth stay w w' ∧ A.At 0 s.address w'.processor ∧
    r.Evaluates depth code [object, key] A w' [o, k] u ∧
    r.Performs depth A (fun _ => r.setIndex (o.headD .nil) (k.headD .nil) value) u
  | _ => False

/-- What takes the values of a list gets these values: a function that is called, after itself if it is a
method; the caller; new variables, each in the slot of its name; the targets of an assignment; a loop. The
values that lie `below` those of the list are the function that is called and the object of the method. The
code of the use is compiled from one site to another, and the slots of names and what they are resolved to
are those of the site behind the values and the targets before. -/
def Receives (r : Reentry) (depth : Nat) (code : Listing) (A : Activation) (s s' : Site)
    (below list : List Value) (u : World) : ListUse → Prop
  | .call .. => ∃ g, below = [g] ∧ r.Calls depth A g list u
  | .method .. => ∃ g self, below = [g, self] ∧ r.Calls depth A g (self :: list) u
  | .results .. =>
    below = [] ∧ r.Until depth (A.Inside s.address s'.address) (r.Returns depth A list) u
  | .local names values extent => below = [] ∧ ∃ s₁, (Gen.tupled values extent).Leads s s₁ ∧
    ∀ i < names.length, r.Until depth (A.Inside s.address s'.address)
      (r.Performs depth (A.push (.ofList list))
        fun _ => declareLocal (s₁.scopes.slotOf names i) (list.getD i .nil)) u
  | .assign targets values extent => below = [] ∧ ∀ i target, targets[i]? = some target →
    ∃ s₁, (Gen.ahead values extent (targets.take i)).Leads s s₁ ∧
      r.Until depth (A.Inside s.address s'.address)
        (r.Stores depth code (A.Inside s.address s'.address) (A.push (.ofList list))
          (list.getD i .nil) s₁ u target) u
  | .iterate .. =>
    below = [] ∧ r.Until depth (A.Inside s.address s'.address) (r.Iterates depth A list) u

/-- A target that is assigned after some code is assigned after more code. -/
theorem Stores.after {stay stay' : Processor → Prop} {v : World} {value : Value} {s : Site} {target : Expr}
    (h : r.Stores depth code stay A value s v target u) (hlasts : r.Lasts depth stay' w v)
    (hstay : ∀ p, stay p → stay' p) : r.Stores depth code stay' A value s w target u := by
  cases target with
  | index object key =>
    obtain ⟨w', o, k, hthere, hrest⟩ := h
    exact ⟨w', o, k, hlasts.trans (hthere.mono hstay), hrest⟩
  | _ => exact h

namespace Unless

/-- The values of a list become one result. -/
theorem makeTuple (hc : r.Calm) (hr : r.Sifting) {n : Nat} (hop : w.ops x = some (.makeTuple n))
    (hn : n = stack.length) (hat : (A.pushAll stack).At 0 x w.processor) :
    r.Unless bottom (A.Inside x (x + 1))
      (fun u => (A.push (.ofList (Value.flatten stack))).At 0 (x + 1) u.processor) w :=
  computes hc hr hop hat.of_pushAll fun _ _ _ _ hp hstep => step_makeTuple hn (hp ▸ hat) hstep

/-- The slots in front of one are declared before it. -/
theorem locals (hc : r.Calm) (hr : r.Sifting) {scopes : ScopeStack} {names : List String} {i : Nat}
    (hcode : w.Has code) (hi : i ≤ names.length)
    (hops : ∀ j < names.length, code (a + j) = some (.local (scopes.slotOf names j) j))
    (hat : (A.push t).At 0 a w.processor) :
    r.Unless bottom (A.Inside a (a + i)) (fun u => (A.push t).At 0 (a + i) u.processor) w := by
  induction i with
  | zero => exact .done hat
  | succ i ih =>
    refine (ih (by omega)).andThen hc hr (Nat.le_add_right a i) (Nat.le_succ _) fun v hl hv => ?_
    refine (Unless.onward hc hr (hcode.mono hl (hops i hi)) hv rfl fun span w _ => ?_).mono
      (fun _ => Activation.Inside.of_push) fun _ => id
    refine Activation.stays_onward ?_ (List.mem_singleton_self _)
    exact (Activation.takes_of_calm (aside_peek 0).calm).bind fun v =>
      Activation.takes_declareLocal _ _

/-- The object and the key of a target are evaluated, and their first values are left. -/
theorem operands (hc : r.Calm) (hr : r.Sifting) {object key : Expr} {s s₁ s₂ : Site}
    (ho : OperandAt code object s s₁) (hk : OperandAt code key s₁ s₂) (hcode : w.Has code)
    (hat : A.At 0 s.address w.processor) :
    r.Unless bottom (A.Inside s.address s₂.address) (fun u => ∃ o k,
      r.Evaluates bottom.frames.size code [object, key] A w [o, k] u ∧
      (A.pushAll [o.headD .nil, k.headD .nil]).At 0 s₂.address u.processor ∧
      (k.headD .nil).Single) w := by
  have hfirst : ∀ {e : Expr} {v t : Value}, t.toList = e.contributes false v.toList → t.Single →
      t = v.toList.headD .nil := fun hgives hsingle =>
    (List.cons.inj ((Value.toList_of_single hsingle).symm.trans hgives)).1
  have hobject := ho.elementAt
  have hkey := hk.elementAt
  refine (hobject.run hc hr hcode hat).andFirst hc hr hobject.le hkey.le ?_
  rintro v hl - - - ⟨o, t, u, hyields, hlasts, ht, hgives, hsingle⟩
  refine (hkey.run hc hr (hcode.mono hl) ht).mono (fun _ => Activation.Inside.of_push) ?_
  rintro u' ⟨k, t', v', hyields', hlasts', ht', hgives', hsingle'⟩
  refine ⟨o.toList, k.toList, .cons hyields hlasts ht (.cons hyields' hlasts' ht' .nil), ?_, ?_⟩
  · rw [← hfirst hgives (hsingle rfl), ← hfirst hgives' (hsingle' rfl)]
    simpa [Activation.push_eq_pushAll, Activation.pushAll_append] using ht'
  · rw [← hfirst hgives' (hsingle' rfl)]
    exact hsingle' rfl

/-- The targets are assigned from the left, each one the item at its own place. -/
theorem targets (bottom : Processor) (hc : r.Calm) (hr : r.Sifting) {targets : List Expr}
    {i : Nat} {s s' : Site} (h : TargetsAt code targets i s s') {j : Nat} {target : Expr} (hj : targets[j]? = some target) :
    ∃ s₁, (Gen.assignTo (targets.take j) i).Leads s s₁ ∧ ∀ w : World, w.Has code →
      (A.push t).At 0 s.address w.processor →
      r.Unless bottom (A.Inside s.address s'.address) (r.Stores bottom.frames.size code
        (A.Inside s.address s'.address) (A.push t) (t.nth (i + j)) s₁ w target) w := by
  induction h generalizing j with
  | nil => cases hj
  | @name n rest i s s' hop tail ih =>
    cases j with
    | zero =>
      cases hj
      exact ⟨s, ⟨[], rfl⟩, fun w hcode hat => .done ⟨hat, performs_store (hcode hop) hat⟩⟩
    | succ j =>
      obtain ⟨s₁, hlead, hrest⟩ := ih hj
      refine ⟨s₁, hlead.name, fun w hcode hat => ?_⟩
      have hstored : r.Unless bottom (A.Inside s.address (s.address + 1))
          (fun u => (A.push t).At 0 (s.address + 1) u.processor) w := by
        refine (Unless.onward hc hr (hcode hop) hat rfl fun span w _ => ?_).mono
          (fun _ => Activation.Inside.of_push) fun _ => id
        refine Activation.stays_onward ?_ (List.mem_singleton_self _)
        exact (Activation.takes_of_calm (aside_peek 0).calm).bind fun v =>
          Activation.takes_assignSymbol hc _ _
      refine hstored.andFirst hc hr (Nat.le_succ _) tail.le fun v hl _ _ hlasts hv => ?_
      rw [show i + (j + 1) = i + 1 + j by omega]
      refine (hrest v (hcode.mono hl) hv).mono (fun _ => id) fun u hu => ?_
      exact hu.after (hlasts.mono fun p hp => hp.mono (Nat.le_refl _) tail.le)
        fun p hp => hp.mono (Nat.le_succ _) (Nat.le_refl _)
  | @index object key rest i s s₁ s₂ s' ho hk hop tail ih =>
    have hle : s.address ≤ s₂.address := Nat.le_trans ho.elementAt.le hk.elementAt.le
    have hle' : s₂.address + 1 ≤ s'.address := tail.le
    cases j with
    | zero =>
      cases hj
      refine ⟨s, ⟨[], rfl⟩, fun w hcode hat => ?_⟩
      refine ((Unless.operands hc hr ho hk hcode hat).met hc hr).mono
        (fun p hp => hp.of_push.mono (Nat.le_refl _) (Nat.le_of_succ_le hle')) ?_
      rintro u ⟨hl, -, -, -, o, k, hevaluates, hu, hsingle⟩
      have hstores : r.Performs bottom.frames.size (A.push t)
          (fun _ => r.setIndex (o.headD .nil) (k.headD .nil).scalar (t.nth i)) u :=
        performs_indexSet (hcode.mono hl hop) hu
      rw [Value.scalar_of_isTuple_eq_false hsingle] at hstores
      exact ⟨w, o, k, .refl, hat, hevaluates, hstores⟩
    | succ j =>
      obtain ⟨s₃, hlead, hrest⟩ := ih hj
      refine ⟨s₃, hlead.index ho hk, fun w hcode hat => ?_⟩
      have hstored : r.Unless bottom (A.Inside s.address (s₂.address + 1))
          (fun u => (A.push t).At 0 (s₂.address + 1) u.processor) w := by
        refine ((Unless.operands hc hr ho hk hcode hat).mono (fun _ => Activation.Inside.of_push)
          fun _ => id).andThen hc hr hle (Nat.le_succ _) ?_
        rintro v hl ⟨o, k, -, hv, -⟩
        refine (Unless.onward hc hr (hcode.mono hl hop) hv.of_pushAll rfl fun span w _ => ?_).mono
          (fun _ => Activation.Inside.of_push) fun _ => id
        refine Activation.stays_onward ?_ (List.mem_singleton_self _)
        refine (Activation.takes_pop (Nat.le_succ 1)).bind fun key => ?_
        refine (Activation.takes_pop (Nat.le_refl 1)).bind fun object => ?_
        exact (Activation.takes_of_calm (aside_peek 0).calm).bind fun v =>
          Activation.takes_of_calm (hc.alike.setIndex _ _ _)
      refine hstored.andFirst hc hr (Nat.le_succ_of_le hle) hle' fun v hl _ _ hlasts hv => ?_
      rw [show i + (j + 1) = i + 1 + j by omega]
      refine (hrest v (hcode.mono hl) hv).mono (fun _ => id) fun u hu => ?_
      exact hu.after (hlasts.mono fun p hp => hp.mono (Nat.le_refl _) hle')
        fun p hp => hp.mono (Nat.le_succ_of_le hle) (Nat.le_refl _)

/-- A method comes under its object. -/
theorem method (hc : r.Calm) (hr : r.Sifting) {name : String} (hop : w.ops x = some (.method name))
    (hat : (A.push t).At 0 x w.processor) :
    r.Unless bottom (A.Inside x (x + 1))
      (fun u => ∃ g, (A.pushAll [g, t]).At 0 (x + 1) u.processor) w := by
  refine .of_next hc hr (.of_op (hat.ip_eq ▸ hop)
    (hat.of_push.inside (Nat.le_refl x) (Nat.lt_succ_self x)) ?_)
  intro span w₁ w₂ hl hp hstep hg hw₁ _ _
  rw [← hp] at hat
  obtain ⟨⟨⟩, w₃, hbody, hrest⟩ := of_bind_ok hstep
  cases hrest
  rw [bind_ok (pop_cleared hat)] at hbody
  obtain ⟨g, w₄, hindex, hbody⟩ := of_bind_ok hbody
  obtain ⟨⟨⟩, w₅, hpush, hbody⟩ := of_bind_ok hbody
  cases hpush
  cases hbody
  have hcleared : A.At 0 x w₄.processor := by
    rw [((hc.alike.index t (.string name) _ _).ok hindex).2 hg hw₁.closed rfl]
    exact (Activation.push_eq_pushAll A t ▸ hat).cleared
  have hboth := (hcleared.pushed g).pushed t
  rw [Activation.push_eq_pushAll A, Activation.pushAll_push] at hboth
  refine .done ⟨g, ?_⟩
  rw [← hcleared.ip_eq]
  exact hboth.goTo _

/-- When a list has been evaluated, what is known of its values. -/
theorem evaluated (hc : r.Calm) (hr : r.Sifting) {values : List Expr} (P : List Value → World → Prop)
    (hlist : ListAt code values a d) (hcode : w.Has code) (hat : A.At 0 a w.processor)
    (hP : ∀ u stack, u.Has code → u.Sane → u.Attended bottom → stack.length = values.length →
      (A.pushAll stack).At 0 d u.processor → (∀ s, stack = [s] → s.toList = Value.flatten stack) →
      P (Value.flatten stack) u) :
    r.Unless bottom (A.Inside a d) (fun u => ∃ results,
      r.Evaluates bottom.frames.size code values A w results u ∧
        P (Expr.adjusted values results) u) w := by
  refine ((hlist.run hc hr hcode hat).met hc hr).mono (fun _ => id) ?_
  rintro u ⟨hl, -, hsane, hattended, results, stack, hevaluates, hstack, hlength, hall, hflatten⟩
  refine ⟨results, hevaluates, hflatten ▸ hP u stack (hcode.mono hl) hsane hattended hlength hstack ?_⟩
  intro s hs
  rw [hflatten, ← hall, hs, List.flatMap_singleton]

/-- The result that the values of a list become is on top when what takes them starts. -/
theorem tupled (hc : r.Calm) (hr : r.Sifting) {n : Nat} {goal : World → Prop} (hcode : w.Has code)
    (hop : code d = some (.makeTuple n)) (hn : stack.length = n)
    (hat : (A.pushAll stack).At 0 d w.processor) (hb : d + 1 ≤ b)
    (hnext : ∀ v, v.Has code → r.Lasts bottom.frames.size (A.Inside d (d + 1)) w v →
      (A.push (.ofList (Value.flatten stack))).At 0 (d + 1) v.processor →
      r.Unless bottom (A.Inside (d + 1) b) goal v) :
    r.Unless bottom (A.Inside d b) goal w :=
  (makeTuple hc hr (hcode hop) hn.symm hat).andFirst hc hr (Nat.le_succ d) hb fun v hl _ _ hlasts hv =>
    hnext v (hcode.mono hl) hlasts hv

end Unless

/-- Wherever the code of a use lies, what takes its list gets the adjusted list. -/
theorem Unless.receives (hc : r.Calm) (hr : r.Sifting) {use : ListUse} {s s' : Site}
    (h : use.PlacedAt code s s') (hcode : w.Has code) (hat : A.At 0 s.address w.processor) :
    r.Unless bottom (A.Inside s.address s'.address) (fun u => ∃ below x w' results,
      r.Lasts bottom.frames.size (A.Inside s.address x) w w' ∧ (A.pushAll below).At 0 x w'.processor ∧
      r.Evaluates bottom.frames.size code use.values (A.pushAll below) w' results u ∧
      r.Receives bottom.frames.size code A s s' below (Expr.adjusted use.values results) u use) w := by
  -- But for the two calls, nothing lies below the values of a list.
  have hplain : ∀ {d : Nat}, ListAt code use.values s.address d → d ≤ s'.address →
      (∀ u stack, u.Has code → u.Sane → u.Attended bottom → stack.length = use.values.length →
        (A.pushAll stack).At 0 d u.processor → (∀ s, stack = [s] → s.toList = Value.flatten stack) →
        r.Receives bottom.frames.size code A s s' [] (Value.flatten stack) u use) →
      r.Unless bottom (A.Inside s.address s'.address) (fun u => ∃ below x w' results,
        r.Lasts bottom.frames.size (A.Inside s.address x) w w' ∧ (A.pushAll below).At 0 x w'.processor ∧
        r.Evaluates bottom.frames.size code use.values (A.pushAll below) w' results u ∧
        r.Receives bottom.frames.size code A s s' below (Expr.adjusted use.values results) u use) w := by
    intro d hlist hle hreceives
    refine (Unless.evaluated hc hr (fun list u => r.Receives bottom.frames.size code A s s' [] list u use)
      hlist hcode hat hreceives).mono
      (fun p hp => hp.mono (Nat.le_refl _) hle) ?_
    rintro u ⟨results, hevaluates, hu⟩
    exact ⟨[], _, w, results, .refl, A.pushAll_nil.symm ▸ hat, A.pushAll_nil.symm ▸ hevaluates, hu⟩
  have hwithin : ∀ {d : Nat} {u : World} {goal : World → Prop}, s.address ≤ d → u.Sane →
      u.Attended bottom → r.Unless bottom (A.Inside d s'.address) goal u →
      r.Until bottom.frames.size (A.Inside s.address s'.address) goal u :=
    fun hle hsane hattended hu =>
      (hu.mono (fun p hp => hp.mono hle (Nat.le_refl _)) fun _ => id) hsane hattended
  cases use with
  | call f args =>
    obtain ⟨c, d, hf, hlist, hop, hend⟩ := h
    rw [hend]
    refine (hf.run hc hr hcode hat).andFirst hc hr hf.le (Nat.le_succ_of_le hlist.le) ?_
    rintro v hl - - hlasts ⟨g, hg, -⟩
    refine (Unless.evaluated hc hr (r.Calls bottom.frames.size A g) hlist (hcode.mono hl) hg ?_).mono
      ?_ ?_
    · intro u stack hhas _ _ hlength hstack _
      exact calls (hlength ▸ hhas hop) hstack rfl
    · exact fun p hp => hp.of_push.mono (Nat.le_refl c) (Nat.le_succ d)
    · rintro u ⟨results, hevaluates, hcalls⟩
      rw [Activation.push_eq_pushAll] at hg hevaluates
      exact ⟨[g], c, v, results, hlasts, hg, hevaluates, g, rfl, hcalls⟩
  | method object name args =>
    obtain ⟨c, d, ho, hmethod, hlist, hop, hend⟩ := h
    rw [hend]
    have hself : r.Unless bottom (A.Inside s.address (c + 1))
        (fun u => ∃ g o, o.Single ∧ (A.pushAll [g, o]).At 0 (c + 1) u.processor) w := by
      refine (ho.run hc hr hcode hat).andThen hc hr ho.le (Nat.le_succ c) ?_
      rintro v hl ⟨o, ho, hsingle⟩
      exact (Unless.method hc hr (hcode.mono hl hmethod) ho).mono (fun _ => id)
        fun u ⟨g, hg⟩ => ⟨g, o, hsingle rfl, hg⟩
    refine hself.andFirst hc hr (Nat.le_succ_of_le ho.le) (Nat.le_succ_of_le hlist.le) ?_
    rintro v hl - - hlasts ⟨g, o, hsingle, hg⟩
    refine (Unless.evaluated hc hr (fun list => r.Calls bottom.frames.size A g (o :: list)) hlist
      (hcode.mono hl) hg ?_).mono ?_ ?_
    · intro u stack hhas _ _ hlength hstack _
      rw [Activation.pushAll_append, List.cons_append, List.singleton_append,
        ← Activation.push_pushAll] at hstack
      -- The object is a single value, so the list behind it is spread as it would be alone.
      have hflatten : Value.flatten (o :: stack) = o :: Value.flatten stack := by
        cases stack with
        | nil => exact (Value.flatten_single hsingle.flat).trans (Value.toList_of_single hsingle)
        | cons v rest => exact Value.flatten_cons hsingle (List.cons_ne_nil v rest)
      rw [← hlength] at hop
      have hop' : u.ops d = some (.call (o :: stack).length) := hhas hop
      exact calls hop' hstack hflatten
    · exact fun p hp => hp.of_pushAll.mono (Nat.le_refl _) (Nat.le_succ d)
    · rintro u ⟨results, hevaluates, hcalls⟩
      exact ⟨[g, o], c + 1, v, results, hlasts, hg, hevaluates, g, o, rfl, hcalls⟩
  | results values extent =>
    obtain ⟨d, hlist, hops⟩ := h
    refine hplain hlist (by rcases hops with h | h | h <;> omega) ?_
    intro u stack hhas hsane hattended hlength hstack hone
    refine ⟨rfl, hwithin hlist.le hsane hattended ?_⟩
    -- A tuple is made only if there are several values; one is returned as it is.
    rcases hops with ⟨hnone, hret, -⟩ | ⟨hsingle, hret, -⟩ | ⟨htuple, hret, hend⟩
    · subst hnone
      obtain rfl := List.eq_nil_of_length_eq_zero hlength
      exact .done (returns_nothing (hhas hret) (A.pushAll_nil ▸ hstack))
    · obtain ⟨v, rfl⟩ := List.length_eq_one_iff.1 (hlength.trans hsingle)
      rw [← Activation.push_eq_pushAll] at hstack
      rw [← hone v rfl]
      exact .done (returns_top (hhas hret) hstack)
    · refine Unless.tupled hc hr hhas htuple hlength hstack (by omega) fun v hhas' _ hv => .done ?_
      rw [← Value.toList_ofList fun _ h => Value.single_of_mem_flatten h]
      exact returns_top (hhas' hret) hv
  | «local» names values extent =>
    obtain ⟨d, s₁, hlist, htuple, hlead, hlocals, hend⟩ := h
    refine hplain hlist (by omega) fun u stack hhas hsane hattended hlength hstack _ => ?_
    refine ⟨rfl, s₁, hlead, fun i hi => hwithin hlist.le hsane hattended ?_⟩
    refine Unless.tupled hc hr hhas htuple hlength hstack (by omega) fun v hhas' _ hv => ?_
    refine (Unless.locals hc hr hhas' (Nat.le_of_lt hi) hlocals hv).andThen hc hr
      (Nat.le_add_right _ i) (by omega) fun u' hl hu' => .done ?_
    rw [← Value.nth_ofList fun _ h => Value.single_of_mem_flatten h]
    exact performs_local (hhas'.mono hl (hlocals i hi)) hu'
  | assign targets values extent =>
    obtain ⟨d, s₁, s₂, hlist, htuple, hlead, hstart, htargets, hend⟩ := h
    have hle := htargets.le
    refine hplain hlist (by omega) fun u stack hhas hsane hattended hlength hstack _ => ?_
    refine ⟨rfl, fun i target hi => ?_⟩
    obtain ⟨s₃, hbefore, hstores⟩ := Unless.targets (A := A)
      (t := .ofList (Value.flatten stack)) bottom hc hr htargets hi
    refine ⟨s₃, hlead.ahead hbefore, hwithin hlist.le hsane hattended ?_⟩
    refine Unless.tupled hc hr hhas htuple hlength hstack (by omega) fun v hhas' hlasts hv => ?_
    -- The code of the targets is a part of that of the use.
    have hwhole : ∀ p, A.Inside s₁.address s₂.address p → A.Inside s.address s'.address p :=
      fun p hp => hp.mono (by have := hlist.le; omega) (by omega)
    refine (hstores v hhas' (hstart ▸ hv)).mono
      (fun p hp => hp.mono (Nat.le_of_eq hstart.symm) (by omega)) fun v' hv' => ?_
    rw [← Value.nth_ofList fun _ h => Value.single_of_mem_flatten h, ← Nat.zero_add i]
    exact hv'.after (hlasts.mono fun p hp => hp.mono hlist.le (by omega)) hwhole
  | iterate names values body extent closing =>
    obtain ⟨d, hlist, htuple, hprep, hle⟩ := h
    refine hplain hlist (by omega) fun u stack hhas hsane hattended hlength hstack _ => ?_
    refine ⟨rfl, hwithin hlist.le hsane hattended ?_⟩
    refine Unless.tupled hc hr hhas htuple hlength hstack (by omega) fun v hhas' _ hv => ?_
    exact .done (iterates (hhas' hprep) hv fun _ h => Value.single_of_mem_flatten h)

/-- Wherever the code of a table constructor lies, a positional field stores what it adds at its position
of the table that the constructor gives. -/
theorem Unless.storesField (hc : r.Calm) (hr : r.Sifting) {before behind : List Field} {value : Expr}
    (h : FieldAt code a b before value behind) (hcode : w.Has code) (hat : A.At 0 a w.processor) :
    r.Unless bottom (A.Inside a b) (fun u => ∃ id x w' results,
      r.Lasts bottom.frames.size (A.Inside a x) w w' ∧
      (A.push (.table id)).At 0 x w'.processor ∧
      r.Evaluates bottom.frames.size code [value] (A.push (.table id)) w' [results] u ∧
      r.Performs bottom.frames.size (A.push (.table id)) (fun _ =>
        storeItems id (before.countP Field.isPositional + 1)
          (value.contributes behind.isEmpty results)) u ∧
      r.Until bottom.frames.size (A.Inside a b)
        (fun u' => (A.push (.table id)).At 0 b u'.processor) u) w := by
  obtain ⟨c, d, hnew, hbefore, hvalue, hop, hbehind⟩ := h
  have hfront : r.Unless bottom (A.Inside a c)
      (fun u => ∃ id, (A.push (.table id)).At 0 c u.processor) w := by
    refine (Unless.newTable hc hr (hcode hnew) hat).andThen hc hr (Nat.le_succ a) hbefore.le ?_
    rintro v hl ⟨id, hv⟩
    exact (hbefore.run hc hr (hcode.mono hl) hv).mono (fun _ => Activation.Inside.of_push)
      fun _ hu => ⟨id, hu⟩
  have hle : a ≤ c := Nat.le_of_succ_le hbefore.le
  have hle' : d + 1 ≤ b := hbehind.le
  refine hfront.andFirst hc hr hle (Nat.le_trans hvalue.le (Nat.le_of_succ_le hle')) ?_
  rintro w' hl - - hlasts ⟨id, hw'⟩
  refine ((hvalue.run hc hr (hcode.mono hl) hw').met hc hr).mono
    (fun p hp => hp.of_push.mono (Nat.le_refl c) (Nat.le_of_succ_le hle')) ?_
  rintro u ⟨hl', -, hsane, hattended, v, s, u', hyields, hsettles, hs, hgives, hsingle⟩
  have hop' := (hcode.mono (hl.trans hl')) hop
  refine ⟨id, c, w', v.toList, hlasts, hw', .cons hyields hsettles hs .nil, ?_, ?_⟩
  · have hitems : (if behind.isEmpty && value.isMultiValue then s.toList else [s]) =
        value.contributes behind.isEmpty v.toList := by
      cases hexpand : behind.isEmpty && value.isMultiValue with
      | true => exact hgives
      | false => exact (Value.toList_of_single (hsingle hexpand)).symm.trans hgives
    rw [← hitems]
    exact performs_tableAppend hop' hs
  · have hrest : r.Unless bottom (A.Inside d b)
        (fun u' => (A.push (.table id)).At 0 b u'.processor) u := by
      refine ((Unless.tableAppend hc hr hop' hs.of_push).mono (fun _ => Activation.Inside.of_push)
        fun _ hu => hu).andThen hc hr (Nat.le_succ d) hbehind.le fun v' hl'' hv' => ?_
      exact (hbehind.run hc hr (hcode.mono ((hl.trans hl').trans hl'')) hv').mono
        (fun _ => Activation.Inside.of_push) fun _ hu => hu
    exact (hrest.mono (fun p hp => hp.mono (Nat.le_trans hle hvalue.le) (Nat.le_refl b)) fun _ hu => hu)
      hsane hattended

end Reentry

namespace World.Hosted

/-- Value lists are adjusted in the same way everywhere. Wherever control comes to a list of expressions
while a request of a host is in progress, that is used as the arguments of a call or of a method call, as
results, as the values of variables or of an assignment, or by a generic loop: the function stays in the
code of this use until the elements have been evaluated one after the other, and what takes the list gets
the adjusted list, no more and no less. New variables get their items in the slots that their names are
given behind the values, and a target gets its item where its name is resolved to behind the values and
the targets before it, or at the index that its own operands give. Wherever control comes to a table
constructor, the function stays in its code until a positional field has been evaluated, which then stores
what it adds at its position. -/
theorem lists_adjusted {n m depth fuel : Nat} {q : Request} {w v : World} {f : ScriptFrame}
    (hw : w.Hosted) (h : Comes n (.request q) w m (.loop depth fuel) v) (hg : v.Genuine)
    (hf : v.processor.frames.back? = some (.script f)) :
    let A := Activation.ofFrame v.processor f
    let r := Reentry.atDepth m
    let a := v.processor.ip
    (∀ (use : ListUse) (s s' : Site), use.generate.LiesFrom s s' v.ops → s.address = a →
      r.Until depth (A.Inside a s'.address) (fun u => ∃ below x w' results,
        r.Lasts depth (A.Inside a x) v w' ∧ (A.pushAll below).At 0 x w'.processor ∧
        r.Evaluates depth v.ops use.values (A.pushAll below) w' results u ∧
        r.Receives depth v.ops A s s' below (Expr.adjusted use.values results) u use) v) ∧
    ∀ (before : List Field) (value : Expr) (behind : List Field) (b : Nat),
      (Gen.expr (.table (before ++ .positional value :: behind))).LiesIn v.ops a b →
      r.Until depth (A.Inside a b) (fun u => ∃ id x w' results,
        r.Lasts depth (A.Inside a x) v w' ∧ (A.push (.table id)).At 0 x w'.processor ∧
        r.Evaluates depth v.ops [value] (A.push (.table id)) w' [results] u ∧
        r.Performs depth (A.push (.table id)) (fun _ =>
          storeItems id (before.countP Field.isPositional + 1)
            (value.contributes behind.isEmpty results)) u ∧
        r.Until depth (A.Inside a b) (fun u' => (A.push (.table id)).At 0 b u'.processor) u) v := by
  intro A r a
  have hc : r.Calm := Reentry.calm_atDepth m
  have hr : r.Sifting := Reentry.sifting_atDepth m
  obtain ⟨hsane, bottom, rfl, hattended⟩ := hw.attended h hg hf
  have hat : A.At 0 a v.processor := Activation.at_ofFrame hf
  have hhas : v.Has v.ops := v.has_ops
  constructor
  · intro use s s' hcode ha
    rw [← ha] at hat ⊢
    exact Reentry.Unless.receives hc hr (hcode.has (Gen.places_use use)) hhas hat hsane hattended
  · intro before value behind b hcode
    have hfield := hcode.has (Gen.places_table before value behind)
    exact Reentry.Unless.storesField hc hr hfield hhas hat hsane hattended

/-- A test of a text whose first statement returns some values: its function returns others. -/
def returnsValues (isExpected : Value → Bool) (body : Block) (v : World) : Bool :=
  match body, v.processor.frames.back? with
  | .return _ _ :: _, some (.script _) => match (Reentry.atDepth 1).run 0 100 v with
    | .ok (.returned x) _ => v.processor.ip == 3 && isExpected x
    | _ => false
  | _, _ => false

/-- The value returned is three times false, and true after them. -/
def isTrueLast (x : Value) : Bool :=
  match x.toList with
  | [.boolean false, .boolean false, .boolean false, .boolean true] => true
  | _ => false

/-- An ellipsis in the middle of a list and one in parentheses give one value each, and the last one gives
them all. -/
theorem lists_adjusted_results : ∃ (w v v' : World) (q : Request) (f : ScriptFrame) (fuel : Nat)
    (s s' : Site) (values : List Expr) (extent : Extent) (x : Value), w.Hosted ∧
      Comes 1 (.request q) w 1 (.loop 0 fuel) v ∧ v.Genuine ∧
      v.processor.frames.back? = some (.script f) ∧
      (Gen.stat (.return values extent)).LiesFrom s s' v.ops ∧ s.address = v.processor.ip ∧
      (Reentry.atDepth 1).run 0 100 v = .ok (.returned x) v' ∧
      x.toList = [.boolean false, .boolean false, .boolean false, .boolean true] ∧
      (Reentry.atDepth 1).Until 0 ((Activation.ofFrame v.processor f).Inside v.processor.ip s'.address)
        (fun u => ∃ below w' results,
          (Reentry.atDepth 1).Evaluates 0 v.ops values ((Activation.ofFrame v.processor f).pushAll below)
            w' results u ∧
          (Reentry.atDepth 1).Receives 0 v.ops (Activation.ofFrame v.processor f) s s' below
            (Expr.adjusted values results) u (.results values extent)) v := by
  have hcheck : comesTo "return ..., (...), ..." [.boolean false, .boolean true] 3
      (returnsValues isTrueLast) = true := by decide +kernel
  obtain ⟨w, v, q, fuel, body, harrives, h, htest⟩ := exists_of_comesTo (by decide) hcheck
  have hw := harrives.hosted
  have hg := harrives.genuine
  unfold returnsValues at htest
  split at htest
  · next values extent rest f hf =>
    split at htest
    · next x v' hrun =>
      simp only [Bool.and_eq_true, beq_iff_eq] at htest
      obtain ⟨hip, htest⟩ := htest
      obtain ⟨_, s, c, s', hc, ha, -, hholds⟩ := harrives.first hip rfl
      have hlies : (Gen.stat (.return values extent)).LiesFrom s s' v.ops := ⟨c, hc, ha.symm ▸ hholds⟩
      have hadjusted := (lists_adjusted hw h hg hf).1 (.results values extent) s s' hlies ha
      have hx : x.toList = [.boolean false, .boolean false, .boolean false, .boolean true] := by
        unfold isTrueLast at htest
        split at htest
        · assumption
        · cases htest
      refine ⟨w, v, v', q, f, fuel, s, s', values, extent, x, hw, h, hg, hf, hlies, ha, hrun, hx, ?_⟩
      intro k u hpasses hgu
      refine (hadjusted hpasses hgu).imp id ?_
      rintro ⟨i, j, u', hk, hi, hj, below, y, w', results, -, -, hevaluates, hreceives⟩
      exact ⟨i, j, u', hk, hi, hj, below, w', results, hevaluates, hreceives⟩
    · cases htest
  · cases htest

end World.Hosted

end LuaMachine
