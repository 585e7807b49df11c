import LuaMachine.Proofs.Crossing.Expressions
import LuaMachine.Proofs.Crossing.Regions
import LuaMachine.Proofs.Number.Order

/-!
# The rounds of numeric loops

From the start of a numeric loop on, a function is in the loop until it leaves it. A round begins at
`FORLOOP` with the first value stepped once for each round before (`Reentry.Unless.numericLoop`), and goes
into the body exactly when the value is not beyond the limit, which is so of undefined numbers too.

Main statement: this is so wherever control comes to a numeric loop while a request of a host is in
progress (`World.Hosted.numericFor_rounds`).
-/

namespace LuaMachine

open Exec

/-- The instructions of a numeric loop: from `a` on its numbers are computed, `FORPREP` stands at `prep`,
`FORLOOP` behind it, and `FORSTEP` at `stop`. -/
structure NumericLoop (code : Listing) (a prep stop : Nat) : Prop where
  le_prep : a ≤ prep
  le_stop : prep + 3 ≤ stop
  bounds : Carries code a prep 3
  prepares : code prep = some .forPrep
  checks : code (prep + 1) = some (.forLoop (stop + 2))
  binds : ∃ slot, code (prep + 2) = some (.forVar slot)
  body : Region code (prep + 3) stop [] [] [(stop + 2, [])]
  steps : code stop = some .forStep
  repeats : code (stop + 1) = some (.jump (prep + 1))

namespace Gen

theorem places_numericFor (var : String) (first limit step : Expr) (body : List Stat)
    (extent closing : Extent) :
    (stat (.numericFor var first limit step body extent closing)).Places fun code a b =>
      ∃ prep stop, NumericLoop code a prep stop ∧ b = stop + 3 := by
  intro s
  rw [stat]
  simp only [ensures_bind]
  rw [ensures_markExtent]
  refine delivers_scalar (delivering_expr first) fun a a' s₁ h₁ => ?_
  refine delivers_scalar (delivering_expr limit) fun b b' s₂ h₂ => ?_
  refine delivers_scalar (delivering_expr step) fun c c' s₃ h₃ => ?_
  have hfront := ((h₁.append h₂).append h₃).imp fun code target h =>
    (h.1.1.carries.append h.1.2.carries).append h.2.carries
  simp only [ensures_emit, ensures_reserve, ensures_pushLoop, ensures_modifyScopes, ensures_declare]
  refine (balancing_block body _).mono ?_
  rintro inner s₄ ⟨breaks, h₄⟩
  obtain ⟨hhead, -⟩ := h₄.notes.closeLoop rfl
  have hbody := h₄.makes
  simp only [ensures_markExtent, ensures_here, ensures_popLoop, ensures_pure, Site.marked_loops,
    Site.marked_address, hhead]
  have hall := fun slot (span : Option Span) =>
    (hfront.append (.op _ .forPrep s₃.span)).append
      ((((((Makes.op (s₃.address + 1) (.forLoop (s₄.address + 1 + 1)) s₃.span).append
        (.op _ (.forVar slot) s₃.span)).append hbody).append
        (.op _ .forStep span)).append
        (.op _ (.jump (s₃.address + 1)) span)).patch (s₄.address + 1 + 1) |>.append
      (.op _ (.pop 3) span))
  simp only [List.append_nil, List.nil_append, List.append_assoc] at hall ⊢
  refine (hall _ _).imp ?_
  rintro code target ⟨⟨hbounds, hprep⟩, ⟨⟨⟨⟨hloop, hvar⟩, hinner⟩, hstep⟩, hback⟩, -⟩
  have hle := hfront.stop_eq
  have hle' := hbody.stop_eq
  dsimp only [Site.marked_address] at hle hle'
  exact ⟨s₃.address, s₄.address, ⟨by omega, by omega, hbounds, hprep, hloop, ⟨_, hvar⟩, hinner, hstep,
    hback⟩, rfl⟩

end Gen

/-! ## The numbers of a loop -/

namespace Activation

variable {A : Activation} {a b : Nat} {p : Processor}

/-- The function in a numeric loop, with the value, the limit and the step of the loop. -/
abbrev looping (A : Activation) (value limit step : Number) : Activation :=
  A.pushAll [.number value, .number limit, .number step]

/-- Whenever the function is at the start of a round, the value of the loop has been stepped some number
of times. -/
def Rounds (A : Activation) (check : Nat) (first limit step : Number) (p : Processor) : Prop :=
  p.ip = check → p.frames.size = A.outer.frames.size + 1 →
    ∃ i, (A.looping ((·.add step)^[i] first) limit step).At 0 check p

/-- A function that waits for no other one is where control is. -/
theorem Inside.bounds (h : A.Inside a b p) (hsize : p.frames.size = A.outer.frames.size + 1) :
    a ≤ p.ip ∧ p.ip < b := by
  obtain ⟨k, x, q, hlo, hhi, hat, rfl | ⟨-, hlt⟩⟩ := h
  · rw [hat.ip_eq]
    exact ⟨hlo, hhi⟩
  · rw [hsize, hat.size_frames] at hlt
    exact absurd hlt (Nat.lt_irrefl _)

end Activation

namespace Exec

variable {A : Activation} {x : Nat} {value limit step : Number} {w w' : World}

theorem loopNumber_eq_ok {d : Nat} {what : String} {v : Value} {n : Number}
    (hpeek : peek d w = .ok v w) (h : loopNumber d what w = .ok n w') :
    v.toNumber? = some n ∧ w' = w := by
  unfold loopNumber at h
  rw [bind_ok hpeek] at h
  cases hv : v.toNumber? with
  | none =>
    rw [hv] at h
    cases h
  | some m =>
    rw [hv] at h
    cases h
    exact ⟨rfl, rfl⟩

theorem loopState_at (h : (A.looping value limit step).At 0 x w.processor) :
    loopState w = .ok (value, limit, step) w := by
  unfold loopState
  dsimp only
  rw [bind_ok (peek_pushAll h (d := 2) rfl), bind_ok (peek_pushAll h (d := 1) rfl),
    bind_ok (peek_pushAll h (d := 0) rfl)]
  rfl

end Exec

namespace Reentry

variable {r : Reentry} {bottom : Processor} {A : Activation} {code : Listing} {x depth : Nat}
  {span : Option Span} {value limit step : Number} {w w' : World}

/-- `FORPREP` accepts numbers and texts that spell one, and leaves the numbers. -/
theorem prepared {a b c : Value} (h : (A.pushAll [a, b, c]).At 0 x w.processor)
    (hstep : r.step depth ⟨.forPrep, span⟩ w = .ok none w') :
    ∃ value limit step, a.toNumber? = some value ∧ b.toNumber? = some limit ∧
      c.toNumber? = some step ∧ (A.looping value limit step).At 0 (x + 1) w'.processor := by
  obtain ⟨⟨⟩, w₁, hbody, hrest⟩ := of_bind_ok hstep
  cases hrest
  obtain ⟨p, w₂, hp, hrest⟩ := of_bind_ok hbody
  cases hp
  dsimp only at hrest
  split at hrest
  · obtain ⟨_, _, hfail, -⟩ := of_bind_ok hrest
    cases hfail
  · obtain ⟨value, w₃, hfirst, hrest₁⟩ := of_bind_ok hrest
    obtain ⟨hvalue, rfl⟩ := loopNumber_eq_ok (peek_pushAll h (d := 2) rfl) hfirst
    obtain ⟨limit, w₄, hsecond, hrest₂⟩ := of_bind_ok hrest₁
    obtain ⟨hlimit, rfl⟩ := loopNumber_eq_ok (peek_pushAll h (d := 1) rfl) hsecond
    obtain ⟨step, w₅, hthird, hrest₃⟩ := of_bind_ok hrest₂
    obtain ⟨hnumber, rfl⟩ := loopNumber_eq_ok (peek_pushAll h (d := 0) rfl) hthird
    cases hrest₃
    refine ⟨value, limit, step, hvalue, hlimit, hnumber, ?_⟩
    have hset := ((h.set (d := 2) (by simp) (.number value)).set (d := 1) (by simp)
      (.number limit)).set (d := 0) (by simp) (.number step)
    rw [← h.ip_eq]
    exact hset.goTo _

/-- `FORLOOP` goes on to the body of the loop if the loop goes on, or if one of its numbers is
undefined. -/
theorem checked {exit : Nat} (h : (A.looping value limit step).At 0 x w.processor)
    (hstep : r.step depth ⟨.forLoop exit, span⟩ w = .ok none w') :
    (A.looping value limit step).At 0
      (if value.goesOn limit step || value.anyUndefined limit step then x + 1 else exit)
        w'.processor := by
  have hbeyond := Number.not_beyond value limit step
  rw [← hbeyond]
  obtain ⟨state, w₁, hstate, hrest⟩ := of_bind_ok hstep
  rw [loopState_at h] at hstate
  cases hstate
  change (if value.beyond limit step = true then _ else _ : Exec _) _ = _ at hrest
  cases hb : value.beyond limit step with
  | true =>
    rw [hb, if_pos rfl] at hrest
    cases hrest
    exact h.goTo exit
  | false =>
    rw [hb, if_neg Bool.false_ne_true] at hrest
    cases hrest
    rw [← h.ip_eq]
    exact h.goTo _

/-- `FORSTEP` adds the step to the value. -/
theorem stepped (h : (A.looping value limit step).At 0 x w.processor)
    (hstep : r.step depth ⟨.forStep, span⟩ w = .ok none w') :
    (A.looping (value.add step) limit step).At 0 (x + 1) w'.processor := by
  obtain ⟨⟨⟩, w₁, hbody, hrest⟩ := of_bind_ok hstep
  cases hrest
  obtain ⟨state, w₂, hstate, hset⟩ := of_bind_ok hbody
  rw [loopState_at h] at hstate
  cases hstate
  cases hset
  have hset := h.set (d := 2) (by simp) (.number (value.add step))
  rw [← h.ip_eq]
  exact hset.goTo _

/-! ## Rounds -/

variable {a prep stop : Nat}

/-- A round of a loop: at its start the loop is left, or its body is carried out, and unless that leaves
the loop, the next round starts with the next value. -/
theorem Next.round (hc : r.Calm) (hr : r.Sifting) (hloop : NumericLoop code a prep stop)
    (hcode : w.Has code) (hat : (A.looping value limit step).At 0 (prep + 1) w.processor) :
    r.Next bottom
      (fun p => (A.looping value limit step).At 0 (prep + 1) p ∨ A.Inside (prep + 2) (stop + 2) p)
      (fun u => ((∃ value, (A.looping value limit step).At 0 (stop + 2) u.processor) ∨
          u.processor.frames.size = A.outer.frames.size) ∨
        (A.looping (value.add step) limit step).At 0 (prep + 1) u.processor) w := by
  have hle := hloop.le_stop
  refine .of_op (hat.ip_eq ▸ hcode hloop.checks) (.inl hat) fun span w₁ w₂ hl hp hstep _ _ _ _ => ?_
  have hl₂ := ((keeps_step hc (i := ⟨_, span⟩) (hl.ops (hcode hloop.checks))).ok hstep).1.later
  have hcode₂ : w₂.Has code := hcode.mono (hl.trans hl₂)
  have hchecked := checked (hp ▸ hat) hstep
  split at hchecked
  · -- the body may break, return, or come to its end
    obtain ⟨slot, hbind⟩ := hloop.binds
    have hbound : r.Unless bottom ((A.looping value limit step).Inside (prep + 2) (prep + 3))
        (fun u => (A.looping value limit step).At 0 (prep + 3) u.processor) w₂ := by
      refine .onward hc hr (hcode₂ hbind) hchecked rfl fun span w _ => ?_
      refine Activation.stays_onward ?_ (List.mem_singleton_self _)
      exact (Activation.takes_of_calm (aside_peek 2).calm).bind fun v =>
        Activation.takes_declareLocal slot v
    have hrest : ∀ u : World, w₂.Later u → (A.looping value limit step).At 0 stop u.processor →
        r.Unless bottom (A.Inside stop (stop + 2))
          (fun u => (A.looping (value.add step) limit step).At 0 (prep + 1) u.processor) u := by
      intro u hlu hu
      have hstepped : r.Unless bottom (A.Inside stop (stop + 1))
          (fun u => (A.looping (value.add step) limit step).At 0 (stop + 1) u.processor) u :=
        .computes hc hr (hcode₂.mono hlu hloop.steps) hu.of_pushAll
          fun span w w' _ hp hstep => stepped (hp ▸ hu) hstep
      refine hstepped.andThen hc hr (Nat.le_succ stop) (Nat.le_succ _) fun u' hlu' hu' => ?_
      exact (Unless.jump hc hr ((hcode₂.mono (hlu.trans hlu')) hloop.repeats) hu').mono
        (fun _ => Activation.Inside.of_pushAll) fun _ => id
    refine ((hbound.mono (fun _ => Activation.Inside.of_pushAll) fun _ => id).andThen hc hr
      (Nat.le_succ _) (c := stop + 2) (by omega) fun u hlu hu => ?_).mono (fun _ => .inr) fun _ => id
    refine ((Unless.region hc hr hloop.body hle (hcode₂.mono hlu) hu).mono
      (fun _ => Activation.Inside.of_pushAll) fun _ => id).andThen hc hr hle (Nat.le_add_right stop 2) ?_
    rintro u' hlu' (⟨y, π, hy | hy, hu'⟩ | hleft)
    · cases hy
      exact (hrest u' (hlu.trans hlu') hu').mono (fun _ => id) fun _ => .inr
    · cases List.mem_singleton.1 hy
      exact .done (.inl (.inl ⟨value, hu'⟩))
    · exact .done (.inl (.inr hleft))
  · exact .done (.inl (.inl ⟨value, hchecked⟩))

/-- From its first round on, a function stays in a numeric loop until it leaves it. -/
theorem Unless.numericLoop (hc : r.Calm) (hr : r.Sifting) (hloop : NumericLoop code a prep stop)
    (hcode : w.Has code) (hat : (A.looping value limit step).At 0 (prep + 1) w.processor) :
    r.Unless bottom
      (fun p => A.Inside (prep + 1) (stop + 2) p ∧ A.Rounds (prep + 1) value limit step p)
      (fun u => (∃ value, (A.looping value limit step).At 0 (stop + 2) u.processor) ∨
        u.processor.frames.size = A.outer.frames.size) w := by
  have hle := hloop.le_stop
  refine rounds hc hr (fun v => v.Has code ∧
    ∃ i, (A.looping ((·.add step)^[i] value) limit step).At 0 (prep + 1) v.processor)
    ⟨hcode, 0, hat⟩ ?_
  rintro v ⟨hhas, i, hv⟩
  refine ((Next.round hc hr hloop hhas hv).later hc hr).mono ?_ ?_
  · rintro p (hp | hp)
    · exact ⟨hp.of_pushAll.inside (Nat.le_refl _) (by omega), fun _ _ => ⟨i, hp⟩⟩
    · refine ⟨hp.mono (Nat.le_succ _) (Nat.le_refl _), fun hip hsize => ?_⟩
      have hbounds := hp.bounds hsize
      omega
  · rintro u ⟨hl, hu | hu⟩
    · exact .inl hu
    · refine .inr ⟨hhas.mono hl, i + 1, ?_⟩
      rw [Function.iterate_succ_apply']
      exact hu

end Reentry

namespace World.Hosted

variable {n m depth fuel b : Nat} {q : Request} {w v : World} {f : ScriptFrame} {var : String}
  {first limit step : Expr} {body : List Stat} {extent closing : Extent}

/-- When a numeric loop goes on. Wherever control comes to a numeric loop while a request of a host is in
progress, the function first computes the numbers of the loop, and `FORPREP` accepts numbers and texts that
spell one. Then it stays in the loop until it is left, and at the start of each round the value has been
stepped as many times as rounds are over. There the body is entered if the value has not passed the limit,
in the direction of the step, or if one of the three numbers is undefined; otherwise the loop is left. So
once a number is undefined, the loop is never left at the start of a round. -/
theorem numericFor_rounds (hw : w.Hosted) (h : Comes n (.request q) w m (.loop depth fuel) v)
    (hg : v.Genuine) (hf : v.processor.frames.back? = some (.script f))
    (hcode : (Gen.stat (.numericFor var first limit step body extent closing)).LiesIn v.ops
      v.processor.ip b) :
    let A := Activation.ofFrame v.processor f
    let r := Reentry.atDepth m
    ∃ prep exit, v.ops prep = some .forPrep ∧ v.ops (prep + 1) = some (.forLoop exit) ∧
      prep + 2 < exit ∧
      r.Until depth (A.Inside v.processor.ip (prep + 1)) (fun u => ∃ x y z,
        (A.looping x y z).At 0 (prep + 1) u.processor ∧
        r.Until depth (fun p => A.Inside (prep + 1) exit p ∧ A.Rounds (prep + 1) x y z p)
          (fun u => (∃ x, (A.looping x y z).At 0 exit u.processor) ∨
            u.processor.frames.size = A.outer.frames.size) u) v ∧
      ∀ k u u', r.Passes depth k v u → r.Passes depth 1 u u' → u'.Genuine →
        (∀ a b c, (A.pushAll [a, b, c]).At 0 prep u.processor → ∃ x y z,
          a.toNumber? = some x ∧ b.toNumber? = some y ∧ c.toNumber? = some z ∧
            (A.looping x y z).At 0 (prep + 1) u'.processor) ∧
        (∀ x y z, (A.looping x y z).At 0 (prep + 1) u.processor → u'.processor.ip =
          if x.goesOn y z || x.anyUndefined y z then prep + 2 else exit) ∧
        ∀ x y z i, x.anyUndefined y z = true →
          (A.looping ((·.add z)^[i] x) y z).At 0 (prep + 1) u.processor →
            u'.processor.ip = prep + 2 := by
  intro A r
  have hc : r.Calm := Reentry.calm_atDepth m
  have hr : r.Sifting := Reentry.sifting_atDepth m
  obtain ⟨hsane, bottom, rfl, hattended⟩ := hw.attended h hg hf
  obtain ⟨prep, stop, hloop, -⟩ := hcode.has (Gen.places_numericFor var first limit step body extent closing)
  have hle := hloop.le_stop
  have hhas : v.Has v.ops := fun h => h
  have hat : A.At 0 v.processor.ip v.processor := Activation.at_ofFrame hf
  have hnext : ∀ {k u u'}, r.Passes bottom.frames.size k v u → r.Passes bottom.frames.size 1 u u' →
      u'.Genuine → u.Sane ∧ u.Has v.ops := by
    intro k u u' hk h₁ hg'
    have hgu := (h₁.follows hc bottom).later.genuine hg'
    exact ⟨(hk.sane hc hr hgu hsane hattended).1, hhas.mono (hk.follows hc bottom).later⟩
  have hcheck : ∀ {k u u' x y z}, r.Passes bottom.frames.size k v u →
      r.Passes bottom.frames.size 1 u u' → u'.Genuine →
      (A.looping x y z).At 0 (prep + 1) u.processor →
        u'.processor.ip = if x.goesOn y z || x.anyUndefined y z then prep + 2 else stop + 2 := by
    intro k u u' x y z hk h₁ hg' hu
    obtain ⟨hsane', hops⟩ := hnext hk h₁ hg'
    have hop : u.ops u.processor.ip = some (.forLoop (stop + 2)) := hu.ip_eq ▸ hops hloop.checks
    obtain ⟨span, w₁, hp, hstep⟩ := h₁.exists_step hc hg' hsane' hop
    exact (Reentry.checked (hp ▸ hu) hstep).ip_eq
  refine ⟨prep, stop + 2, hloop.prepares, hloop.checks, by omega, ?_, ?_⟩
  · have hfront : r.Unless bottom (A.Inside v.processor.ip (prep + 1)) (fun u => ∃ x y z,
        (A.looping x y z).At 0 (prep + 1) u.processor) v := by
      refine (hloop.bounds.run hc hr hhas hat).andThen hc hr hloop.le_prep (Nat.le_succ prep) ?_
      intro u hl hu
      obtain ⟨vs, hlength, hvs⟩ := hu.exists_pushAll
      obtain ⟨a, b, c, rfl⟩ := List.length_eq_three.1 hlength
      refine .computes hc hr ((hhas.mono hl) hloop.prepares) hu fun span w₁ w₂ _ hp hstep => ?_
      obtain ⟨x, y, z, -, -, -, hxyz⟩ := Reentry.prepared (hp ▸ hvs) hstep
      exact ⟨x, y, z, hxyz⟩
    refine ((hfront.met hc hr).mono (fun _ => id) ?_) hsane hattended
    rintro u ⟨hl, -, hsane', hattended', x, y, z, hu⟩
    exact ⟨x, y, z, hu,
      Reentry.Unless.numericLoop hc hr hloop (hhas.mono hl) hu hsane' hattended'⟩
  · intro k u u' hk h₁ hg'
    refine ⟨fun a b c hu => ?_, fun x y z hu => hcheck hk h₁ hg' hu, fun x y z i hxyz hu => ?_⟩
    · obtain ⟨hsane', hops⟩ := hnext hk h₁ hg'
      have hop : u.ops u.processor.ip = some .forPrep := hu.ip_eq ▸ hops hloop.prepares
      obtain ⟨span, w₁, hp, hstep⟩ := h₁.exists_step hc hg' hsane' hop
      exact Reentry.prepared (hp ▸ hu) hstep
    · have hundefined := Number.anyUndefined_iterate hxyz i
      rw [hcheck hk h₁ hg' hu, hundefined, Bool.or_true, if_pos rfl]

/-- A test of a text whose first statement is a numeric loop: its function returns a text. -/
def loopReturns (result : String) (body : Block) (v : World) : Bool :=
  match body, v.processor.frames.back? with
  | .numericFor .. :: _, some (.script _) => match (Reentry.atDepth 1).run 0 100 v with
    | .ok (.returned (.string s)) _ => v.processor.ip == 3 && s == result
    | _ => false
  | _, _ => false

/-- A loop without a limit that is a number: its body is carried out. -/
theorem numericFor_rounds_undefined : ∃ (w v v' : World) (q : Request) (f : ScriptFrame)
    (fuel b : Nat) (var : String) (first limit step : Expr) (body : List Stat)
    (extent closing : Extent), w.Hosted ∧ Comes 1 (.request q) w 1 (.loop 0 fuel) v ∧ v.Genuine ∧
      v.processor.frames.back? = some (.script f) ∧
      (Gen.stat (.numericFor var first limit step body extent closing)).LiesIn v.ops
        v.processor.ip b ∧
      (Reentry.atDepth 1).run 0 100 v = .ok (.returned (.string "entered")) v' ∧
      ∃ prep exit, v.ops prep = some .forPrep ∧ v.ops (prep + 1) = some (.forLoop exit) ∧
        prep + 2 < exit := by
  have hcheck : comesTo "for i = 1, 0/0 do return 'entered' end return 'left'" [] 3
      (loopReturns "entered") = true := by decide +kernel
  obtain ⟨w, v, q, fuel, body, harrives, h, htest⟩ := exists_of_comesTo (by decide) hcheck
  have hw := harrives.hosted
  have hg := harrives.genuine
  unfold loopReturns at htest
  split at htest
  · next var first limit step inner extent closing rest f hf =>
    split at htest
    · next s v' hrun =>
      simp only [Bool.and_eq_true, beq_iff_eq] at htest
      obtain ⟨hip, rfl⟩ := htest
      obtain ⟨b, hb⟩ := harrives.first hip rfl
      obtain ⟨prep, exit, hprep, hexit, hlt, -⟩ := numericFor_rounds hw h hg hf hb
      exact ⟨w, v, v', q, f, fuel, b, var, first, limit, step, inner, extent, closing, hw, h, hg, hf,
        hb, hrun, prep, exit, hprep, hexit, hlt⟩
    · cases htest
  · cases htest

end World.Hosted

end LuaMachine
