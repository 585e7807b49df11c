import LuaMachine.Proofs.Grammar.Totality
import LuaMachine.Proofs.Grammar.Precedence

/-!
# Positional fields that begin with a name

Whether a table field has a name of its own shows behind the name: there stands `=`, or there does not. By then
the name is passed, so a positional field is read on from there, first its suffixes and then all the operators.
No priority is looked at, and none has to be: that of every operator is above the limit of a whole expression
(`Parse.agrees_infixRest`). So the field reads what the expression reads.

Main statement: `Parse.tableField_eq_expr`.
-/

namespace LuaMachine.Parse

/-! ## The operators behind an operand -/

theorem agrees_read {k rank least : Nat} {α : Type} (c : Construct rank least α) :
    Agrees Any k least c.read c.read :=
  fun _ _ hr _ => ⟨rfl, (read_eq c hr).2⟩

/-- With the limit of a whole expression all the operators are read. -/
theorem agrees_infixRest {k : Nat} (left : Expr) :
    Agrees Any k 0 (Construct.infixTail 0 left).read (Construct.infixRest left).read := by
  -- between two operators lexemes are passed
  induction k using Nat.strong_induction_on generalizing left with
  | _ k ih =>
    have hstep : Agrees Any k 0 ((Construct.infixTail 0 left).step Construct.read)
        ((Construct.infixRest left).step Construct.read) := by
      refine agrees_peek_bind fun l => ?_
      cases hop : InfixOp.ofToken? l.token with
      | none => exact agrees_pure _
      | some op =>
        have hl : l.token ≠ .endOfInput := by
          intro hl
          rw [hl] at hop
          cases hop
        dsimp only
        rw [if_neg (Nat.not_le.2 op.priority_pos)]
        refine (agrees_advance hl).bind fun _ h₁ => ?_
        refine (agrees_read (.subExpr _)).bind fun right h₂ => ?_
        exact ih _ (by omega) _
    intro r _ hr hk
    rw [(read_eq _ hr).1, (read_eq _ hr).1]
    exact hstep r trivial hr hk

theorem read_infixRest (left : Expr) {r : Reader} (hr : r.Ends) :
    (Construct.infixRest left).read r = (Construct.infixTail 0 left).read r :=
  (agrees_infixRest left r trivial hr (Nat.le_refl _)).1

/-! ## The name in front -/

theorem accept_bind_of_ne {β : Type} {t : Token} {r : Reader} {l : Lexeme} (hnext : r.next = .ok l)
    (hl : l.token ≠ t) (f : Bool → Parse β) : (accept t >>= f) r = f false r := by
  unfold accept check
  simp only [bind_assoc, pure_bind]
  rw [peek_bind_apply hnext, decide_eq_false hl]
  rfl

/-- Nothing is accepted where the text has a fault. -/
theorem accept_bind_of_error {β : Type} {t : Token} {r : Reader} {e : SyntaxFault} (hnext : r.next = .error e)
    (f : Bool → Parse β) : (accept t >>= f) r = .error e := by
  unfold accept check
  simp only [bind_assoc]
  show (peek r >>= _) = _
  rw [peek_eq, hnext]
  rfl

section Name

variable {r : Reader} {name : String} {extent : Extent} {rest : List Lexeme}

/-- The reader behind the first of its lexemes. -/
def behind (r : Reader) (extent : Extent) (rest : List Lexeme) : Reader :=
  { r with lexemes := rest, last := extent }

/-- An expression that begins with a name: the suffixes of the name, and the operators behind them. -/
theorem read_expr_name (hr : r.Ends) (hlexemes : r.lexemes = ⟨.identifier name, extent⟩ :: rest) :
    Construct.expr.read r = (do
      let (left, r₁) ← (Construct.suffixes (.name name)).read (behind r extent rest)
      (Construct.infixTail 0 left).read r₁) := by
  have hnext := Reader.next_of_lexemes_eq hlexemes
  have hsuffixed : Construct.suffixedExpr.read r =
      (Construct.suffixes (.name name)).read (behind r extent rest) := by
    rw [(read_eq _ hr).1]
    exact (peek_bind_apply hnext _).trans (advance_bind_apply hlexemes _)
  have hsimple : Construct.simpleExpr.read r = Construct.suffixedExpr.read r := by
    rw [(read_eq .simpleExpr hr).1]
    exact peek_bind_apply hnext _
  rw [(read_eq .expr hr).1]
  show (Construct.subExpr 0).read r = _
  rw [(read_eq (.subExpr 0) hr).1, ← hsuffixed, ← hsimple]
  exact peek_bind_apply hnext _

/-- Where the text has a fault no suffix can be looked for. -/
theorem read_suffixes_error (hr : r.Ends) {e : SyntaxFault} (hnext : r.next = .error e) (left : Expr) :
    (Construct.suffixes left).read r = .error e := by
  rw [(read_eq _ hr).1]
  show (peek r >>= _) = _
  rw [peek_eq, hnext]
  rfl

/-- Without `=` behind the name a field is read on from there. -/
theorem read_tableField_name (hr : r.Ends) (hlexemes : r.lexemes = ⟨.identifier name, extent⟩ :: rest)
    (hassign : ∀ l ∈ rest.head?, l.token ≠ .punctuator .assign) :
    Construct.tableField.read r = (do
      let (left, r₁) ← (Construct.suffixes (.name name)).read (behind r extent rest)
      let (value, r₂) ← (Construct.infixRest left).read r₁
      return (.positional value, r₂)) := by
  have hnext := Reader.next_of_lexemes_eq hlexemes
  have hbehind : (behind r extent rest).Ends := hr
  rw [(read_eq _ hr).1]
  refine (accept_bind_of_ne hnext (by simp) _).trans ((peek_bind_apply hnext _).trans ?_)
  refine (advance_bind_apply hlexemes _).trans ?_
  show (accept (.punctuator .assign) >>= _) (behind r extent rest) = _
  cases hfound : (behind r extent rest).next with
  | error e => rw [accept_bind_of_error hfound, read_suffixes_error hbehind hfound]; rfl
  | ok l =>
    have hl : l.token ≠ .punctuator .assign := by
      intro hl
      obtain ⟨ls, hls⟩ := exists_lexemes hbehind hfound (hl ▸ by simp)
      exact hassign l (by rw [show rest = l :: ls from hls]; rfl) hl
    exact accept_bind_of_ne hfound hl _

theorem read_tableField_eq_expr (hr : r.Ends) (hlexemes : r.lexemes = ⟨.identifier name, extent⟩ :: rest)
    (hassign : ∀ l ∈ rest.head?, l.token ≠ .punctuator .assign) :
    Construct.tableField.read r = (Construct.expr.read r).map fun x => (.positional x.1, x.2) := by
  rw [read_tableField_name hr hlexemes hassign, read_expr_name hr hlexemes]
  have hpassed := (read_eq (.suffixes (.name name)) (r := behind r extent rest) hr).2
  cases hleft : (Construct.suffixes (.name name)).read (behind r extent rest) with
  | error e => rfl
  | ok x =>
    have hends : x.2.Ends := fun l hl => hr l ((hpassed x.1 x.2 hleft).1 ▸ hl)
    show ((Construct.infixRest x.1).read x.2 >>= _) = ((Construct.infixTail 0 x.1).read x.2).map _
    rw [read_infixRest x.1 hends]
    cases (Construct.infixTail 0 x.1).read x.2 <;> rfl

end Name

/-- A table field that begins with a name, with no `=` behind it, is the positional one of the expression that
begins there: the same expression, with the same lexemes passed, or the same error. -/
theorem tableField_eq_expr {r : Reader} {name : String} {extent : Extent} {rest : List Lexeme} {n m : Nat}
    (hr : r.Ends) (hlexemes : r.lexemes = ⟨.identifier name, extent⟩ :: rest)
    (hassign : ∀ l ∈ rest.head?, l.token ≠ .punctuator .assign)
    (hn : 16 * r.lexemes.length + 4 < n) (hm : 16 * r.lexemes.length + 3 < m) :
    tableField n r = (expr m r).map fun x => (.positional x.1, x.2) := by
  have hfield : tableField n r = Construct.tableField.read r := run_eq_read .tableField hr hn
  have hexpr : expr m r = Construct.expr.read r := run_eq_read .expr hr hm
  rw [hfield, hexpr, read_tableField_eq_expr hr hlexemes hassign]

/-- The field ends in front of the comma. -/
theorem tableField_eq_expr_sum :
    tableField 69 (.alone [⟨.identifier "a", ⟨1, 1, 1, 1⟩⟩, ⟨.punctuator .plus, ⟨1, 2, 1, 2⟩⟩,
      ⟨.identifier "b", ⟨1, 3, 1, 3⟩⟩, ⟨.punctuator .comma, ⟨1, 4, 1, 4⟩⟩]) =
    .ok (.positional (.binary .add (.name "a") (.name "b")),
      { Reader.alone [⟨.punctuator .comma, ⟨1, 4, 1, 4⟩⟩] with last := ⟨1, 3, 1, 3⟩ }) :=
  (tableField_eq_expr (m := 68) (Reader.ends_alone _) rfl (by decide) (by decide) (by decide)).trans rfl

end LuaMachine.Parse
