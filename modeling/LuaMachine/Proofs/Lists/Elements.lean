import LuaMachine.Proofs.Crossing.Expressions

/-!
# Lists of expressions

The elements of a list of expressions are evaluated one after the other (`Reentry.Evaluates`). What the
list then stands for is said of the results alone (`Expr.adjusted`): each element adds one value, and the
last one adds all that it gives if it is a call or an ellipsis.

Main statement: when the code of a list comes to its end, the values on the stack stand for the adjusted
list (`ListAt.run`).
-/

namespace LuaMachine

namespace Expr

/-- The expression inside of all parentheses. -/
def bare : Expr → Expr
  | paren e => e.bare
  | e => e

/-- The values that an expression adds to a list, of those that the expression inside of its parentheses
gives. The last element of the list adds them all if it is a call or an ellipsis; every other one adds one
value, which is `nil` if there is none. -/
def contributes (e : Expr) (last : Bool) (results : List Value) : List Value :=
  if last && e.isMultiValue then results else [results.headD .nil]

/-- The list that some expressions stand for, given what each of them gives. -/
def adjusted : List Expr → List (List Value) → List Value
  | e :: es, results :: more => e.contributes es.isEmpty results ++ adjusted es more
  | _, _ => []

end Expr

namespace Value

variable {v : Value} {vs : List Value}

theorem toList_of_single (h : v.Single) : v.toList = [v] := by
  cases v <;> first | rfl | cases h

theorem Flat.scalar_eq (h : v.Flat) : v.scalar = v.toList.headD .nil := by
  cases v with
  | tuple vs =>
    cases vs with
    | nil => rfl
    | cons x xs => exact scalar_of_isTuple_eq_false (h x List.mem_cons_self)
  | _ => rfl

theorem Flat.map_scalar (h : v.Flat) : v.toList.map scalar = v.toList :=
  (List.map_congr_left fun u hu => scalar_of_isTuple_eq_false (h u hu)).trans (List.map_id _)

theorem flatten_single (h : v.Flat) : flatten [v] = v.toList := by
  cases v with
  | tuple vs => exact h.map_scalar
  | _ => rfl

theorem flatten_cons (h : v.Single) (hvs : vs ≠ []) : flatten (v :: vs) = v :: flatten vs := by
  obtain ⟨u, us, rfl⟩ := List.exists_cons_of_ne_nil hvs
  have hcons : flatten (v :: u :: us) = v.scalar :: flatten (u :: us) := by
    cases v <;> rfl
  rw [hcons, scalar_of_isTuple_eq_false h]

end Value

/-! ## The code of a list -/

/-- The code of an element of a list: that of the expression inside of its parentheses, and behind it an
instruction that cuts several values down to one, unless the element adds them all. -/
inductive ElementAt (code : Listing) (e : Expr) (last : Bool) (a b : Nat) : Prop where
  | whole (lies : (Gen.expr e.bare).LiesIn code a b)
    (hkept : e.bare.isMultiValue = true → (last && e.isMultiValue) = true)
  | cut {m : Nat} (lies : (Gen.expr e.bare).LiesIn code a m)
    (hcut : (last && e.isMultiValue) = false) (hop : code m = some .scalar) (hend : b = m + 1)

/-- The code of the elements of a list, one after the other. -/
inductive ListAt (code : Listing) : List Expr → Nat → Nat → Prop where
  | nil {a : Nat} : ListAt code [] a a
  | cons {e : Expr} {es : List Expr} {a b c : Nat} (head : ElementAt code e es.isEmpty a b)
    (tail : ListAt code es b c) : ListAt code (e :: es) a c

variable {code : Listing} {e : Expr} {es : List Expr} {last : Bool} {a b : Nat}

theorem ElementAt.le (h : ElementAt code e last a b) : a ≤ b := by
  cases h with
  | whole lies => exact lies.le (Gen.delivering_expr _)
  | cut lies _ _ hend => exact hend ▸ Nat.le_succ_of_le (lies.le (Gen.delivering_expr _))

theorem ListAt.le (h : ListAt code es a b) : a ≤ b := by
  induction h with
  | nil => exact Nat.le_refl _
  | cons head _ ih => exact Nat.le_trans head.le ih

/-- What is cut down in parentheses is cut down in front of other elements. -/
theorem ElementAt.of_paren (h : ElementAt code (.paren e) true a b) : ElementAt code e false a b := by
  cases h with
  | whole lies hkept => exact .whole lies fun hmulti => by cases hkept hmulti
  | cut lies _ hop hend => exact .cut lies rfl hop hend

theorem ElementAt.of_cut (h : ElementAt code e false a b) (hcut : (last && e.isMultiValue) = false) :
    ElementAt code e last a b := by
  cases h with
  | whole lies hkept => exact .whole lies fun hmulti => by cases hkept hmulti
  | cut lies _ hop hend => exact .cut lies hcut hop hend

namespace Gen

theorem places_paren (he : (expr e).Places fun code a b => ElementAt code e true a b) :
    (expr (.paren e)).Places fun code a b => ElementAt code (.paren e) true a b := by
  intro s
  simp only [expr, ensures_bind]
  refine (he s).mono fun c s₁ h₁ => ?_
  unfold scalarAfter
  cases hmulti : e.isMultiValue with
  | true =>
    simp only [if_true, ensures_emit, ensures_pure]
    refine (h₁.append (.op _ .scalar s₁.span)).imp fun code target h => ?_
    cases h.1 with
    | whole lies => exact .cut lies rfl h.2 rfl
    | cut _ hcut => simp [hmulti] at hcut
  | false =>
    simp only [Bool.false_eq_true, if_false, ensures_pure, List.append_nil]
    refine h₁.imp fun code target h => ?_
    cases h with
    | whole lies hkept => exact .whole lies fun h => by simpa [hmulti] using hkept h
    | cut lies _ hop hend => exact .cut lies rfl hop hend

/-- The code of an expression, as that of the last element of a list. -/
theorem places_last : ∀ e : Expr, (expr e).Places fun code a b => ElementAt code e true a b
  | .paren e => places_paren (places_last e)
  | .nil | .boolean _ | .number _ | .string _ | .varargs | .function _ | .table _ | .binary ..
  | .logical .. | .unary .. | .name _ | .index .. | .call .. | .methodCall .. => fun s =>
    ((delivering_expr _).lies s).mono fun _ _ h => h.imp fun _ _ h => .whole h.1 fun h => h

theorem places_exprs (es : List Expr) : (exprs es).Places fun code a b => ListAt code es a b := by
  induction es with
  | nil =>
    intro s
    rw [exprs, ensures_pure]
    exact (Makes.nil _).imp fun code _ _ => .nil
  | cons e rest ih =>
    intro s
    cases rest with
    | nil =>
      rw [exprs]
      exact (places_last e s).mono fun _ _ h => h.imp fun _ _ h => .cons h .nil
    | cons e' rest =>
      have hfirst := places_paren (places_last e) s
      simp only [expr, exprs, ensures_bind] at hfirst ⊢
      refine hfirst.mono fun c s₁ h₁ => h₁.mono fun c' s₂ h₂ => ?_
      refine (ih s₂).mono fun cs s₃ h₃ => ?_
      rw [ensures_pure] at h₂ ⊢
      exact (h₂.append h₃).imp fun _ _ h => .cons h.1.of_paren h.2

end Gen

/-! ## The run of a list -/

namespace Reentry

/-- In a function, the elements of a list are evaluated one after the other, each one where control is
when what was left of the one before is on the stack. -/
inductive Evaluates (r : Reentry) (depth : Nat) (code : Listing) :
    List Expr → Activation → World → List (List Value) → World → Prop where
  | nil {A : Activation} {w : World} : Evaluates r depth code [] A w [] w
  | cons {e : Expr} {es : List Expr} {A : Activation} {w u u' u'' : World} {v s : Value} {x : Nat}
    {more : List (List Value)} (head : r.Yields depth code A e.bare w v u)
    (settles : r.Lasts depth (A.Inside u.processor.ip (u.processor.ip + 1)) u u')
    (left : (A.push s).At 0 x u'.processor) (tail : Evaluates r depth code es (A.push s) u' more u'') :
    Evaluates r depth code (e :: es) A w (v.toList :: more) u''

end Reentry

variable {r : Reentry} {bottom : Processor} {A : Activation} {w : World} {v : Value} {x : Nat}

/-- The top of the stack is flat. -/
theorem Activation.At.flat (h : (A.push v).At 0 x w.processor) (hw : w.Sane) : v.Flat := by
  refine hw.flat.processor.values v ?_
  rw [h.values_eq]
  exact Array.mem_push_self

theorem ElementAt.run (h : ElementAt code e last a b) (hc : r.Calm) (hr : r.Sifting)
    (hcode : w.Has code) (hat : A.At 0 a w.processor) :
    r.Unless bottom (A.Inside a b) (fun u' => ∃ v s u,
      r.Yields bottom.frames.size code A e.bare w v u ∧
      r.Lasts bottom.frames.size (A.Inside u.processor.ip (u.processor.ip + 1)) u u' ∧
      (A.push s).At 0 b u'.processor ∧ s.toList = e.contributes last v.toList ∧
      ((last && e.isMultiValue) = false → s.Single)) w := by
  cases h with
  | whole lies hkept =>
    have hgives := lies.has (Gen.delivering_expr _)
    refine ((hgives.run hc hr hcode hat).first hc).mono (fun _ => id) ?_
    rintro u ⟨⟨v, hv, hsingle⟩, hlasts⟩
    have hone : (last && e.isMultiValue) = false → v.Single := fun hcut => hsingle (by
      cases hmulti : e.bare.isMultiValue with
      | true => rw [hkept hmulti] at hcut; cases hcut
      | false => rfl)
    refine ⟨v, v, u, ⟨a, b, lies, hat, hlasts, hv⟩, .refl, hv, ?_, hone⟩
    unfold Expr.contributes
    cases hmulti : last && e.isMultiValue with
    | true => rfl
    | false =>
      rw [Value.toList_of_single (hone hmulti)]
      rfl
  | @cut m lies hcut hop hend =>
    subst hend
    have hgives := lies.has (Gen.delivering_expr _)
    refine (hgives.run hc hr hcode hat).andFirst hc hr hgives.le (Nat.le_succ m) ?_
    rintro u hl - hsane hlasts ⟨v, hv, -⟩
    refine ((Reentry.Unless.scalar hc hr (hcode.mono hl hop) hv).first hc).mono (fun _ => id) ?_
    rintro u' ⟨hs, hlasts'⟩
    rw [← hv.ip_eq] at hlasts'
    refine ⟨v, v.scalar, u, ⟨a, m, lies, hat, hlasts, hv⟩, hlasts', hs, ?_, fun _ => v.single_scalar⟩
    rw [Value.toList_of_single v.single_scalar, (hv.flat hsane).scalar_eq, Expr.contributes, hcut]
    rfl

/-- When the code of a list comes to its end, the values on the stack stand for the adjusted list. -/
theorem ListAt.run (h : ListAt code es a b) (hc : r.Calm) (hr : r.Sifting) (hcode : w.Has code)
    (hat : A.At 0 a w.processor) :
    r.Unless bottom (A.Inside a b) (fun u => ∃ results stack,
      r.Evaluates bottom.frames.size code es A w results u ∧ (A.pushAll stack).At 0 b u.processor ∧
      stack.length = es.length ∧ stack.flatMap Value.toList = Expr.adjusted es results ∧
      Value.flatten stack = Expr.adjusted es results) w := by
  induction h generalizing A w with
  | nil => exact .done ⟨[], [], .nil, A.pushAll_nil ▸ hat, rfl, rfl, rfl⟩
  | @cons e es a b c head tail ih =>
    refine (head.run hc hr hcode hat).andFirst hc hr head.le tail.le fun u' hl _ hsane _ => ?_
    rintro ⟨v, s, u, hyields, hlasts, hs, hgives, hsingle⟩
    refine (ih (hcode.mono hl) hs).mono (fun _ => Activation.Inside.of_push) ?_
    rintro u'' ⟨more, stack, hevaluates, hstack, hlength, hall, hflatten⟩
    rw [Activation.push_pushAll] at hstack
    refine ⟨v.toList :: more, s :: stack, .cons hyields hlasts hs hevaluates, hstack,
      congrArg (· + 1) hlength, ?_, ?_⟩
    · rw [List.flatMap_cons, hgives, hall]
      rfl
    · cases es with
      | nil =>
        obtain rfl := List.eq_nil_of_length_eq_zero hlength
        rw [Value.flatten_single (hs.flat hsane), hgives]
        exact (List.append_nil _).symm
      | cons e' rest =>
        have hne : stack ≠ [] := fun h => by simp [h] at hlength
        have hs₁ := hsingle rfl
        rw [Value.flatten_cons hs₁ hne, hflatten]
        rw [Value.toList_of_single hs₁] at hgives
        exact congrArg (· ++ Expr.adjusted (e' :: rest) more) hgives

end LuaMachine
