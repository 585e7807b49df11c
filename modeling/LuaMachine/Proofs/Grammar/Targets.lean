import LuaMachine.Grammar.Reader

/-!
# What is assigned to

The grammar reads the targets of an assignment as expressions and then refuses those that are no names
and no fields. So every tree that the parser gives has only names and fields on the left of its
assignments (`WellTargeted`), however deep they lie.

Main statement: `Block.wellTargeted_parse`.
-/

namespace LuaMachine

/-! ## Well targeted trees -/

mutual

/-- All assignments within an expression are to names and fields. -/
def Expr.WellTargeted : Expr → Prop
  | .nil | .boolean _ | .number _ | .string _ | .varargs | .name _ => True
  | .function body => body.WellTargeted
  | .table fs => fieldsWellTargeted fs
  | .binary _ left right | .logical _ left right => left.WellTargeted ∧ right.WellTargeted
  | .unary _ e | .paren e => e.WellTargeted
  | .index object key => object.WellTargeted ∧ key.WellTargeted
  | .call f args => f.WellTargeted ∧ exprsWellTargeted args
  | .methodCall object _ args => object.WellTargeted ∧ exprsWellTargeted args

def exprsWellTargeted : List Expr → Prop
  | [] => True
  | e :: rest => e.WellTargeted ∧ exprsWellTargeted rest

def Field.WellTargeted : Field → Prop
  | .positional value | .named _ value => value.WellTargeted
  | .keyed key value => key.WellTargeted ∧ value.WellTargeted

def fieldsWellTargeted : List Field → Prop
  | [] => True
  | f :: rest => f.WellTargeted ∧ fieldsWellTargeted rest

def FunctionBody.WellTargeted : FunctionBody → Prop
  | .mk _ _ _ body _ _ => blockWellTargeted body

def Branches.WellTargeted : Branches → Prop
  | .done => True
  | .otherwise body => blockWellTargeted body
  | .clause condition body _ rest =>
    condition.WellTargeted ∧ blockWellTargeted body ∧ rest.WellTargeted

def Stat.WellTargeted : Stat → Prop
  | .local _ values _ | .return values _ => exprsWellTargeted values
  | .assign targets values _ =>
    targets.all (·.isAssignable) ∧ exprsWellTargeted targets ∧ exprsWellTargeted values
  | .call e _ => e.WellTargeted
  | .do body _ => blockWellTargeted body
  | .while condition body _ _ | .repeat body condition _ =>
    condition.WellTargeted ∧ blockWellTargeted body
  | .if branches _ => branches.WellTargeted
  | .numericFor _ first limit step body _ _ =>
    first.WellTargeted ∧ limit.WellTargeted ∧ step.WellTargeted ∧ blockWellTargeted body
  | .genericFor _ values body _ _ => exprsWellTargeted values ∧ blockWellTargeted body
  | .function _ _ body _ | .localFunction _ body _ => body.WellTargeted
  | .break _ => True

def blockWellTargeted : List Stat → Prop
  | [] => True
  | st :: rest => st.WellTargeted ∧ blockWellTargeted rest

end

namespace Parse

variable {α β : Type} {P : α → Prop} {Q : β → Prop}

/-- Whatever a parsing step gives is of this kind. -/
def Gives (p : Parse α) (P : α → Prop) : Prop := ∀ r a r', p r = .ok (a, r') → P a

/-! ## The rules -/

theorem gives_any (p : Parse α) : Gives p fun _ => True := fun _ _ _ _ => trivial

theorem gives_pure {a : α} (h : P a) : Gives (pure a) P := by
  intro r a' r' hrun
  cases hrun
  exact h

theorem Gives.bind {p : Parse α} {f : α → Parse β} (hp : Gives p P)
    (hf : ∀ a, P a → Gives (f a) Q) : Gives (p >>= f) Q := by
  intro r b r' hrun
  have hsplit : (p >>= f) r = (p r >>= fun x => f x.1 x.2) := rfl
  rw [hsplit] at hrun
  cases hx : p r with
  | error e =>
    rw [hx] at hrun
    cases hrun
  | ok x =>
    rw [hx] at hrun
    exact hf x.1 (hp _ _ _ hx) _ _ _ hrun

/-- What the first step gives does not matter. -/
theorem gives_after {p : Parse α} {f : α → Parse β} (hf : ∀ a, Gives (f a) Q) :
    Gives (p >>= f) Q :=
  (gives_any p).bind fun a _ => hf a

theorem gives_failAt (l : Lexeme) (cause : SyntaxCause) : Gives (failAt l cause : Parse α) P :=
  fun _ _ _ h => nomatch h

theorem gives_failNear (cause : String → SyntaxCause) : Gives (failNear cause : Parse α) P :=
  gives_after fun l => gives_failAt l _

theorem gives_tooDeep : Gives (tooDeep : Parse α) P := gives_failNear _

/-! ## Expressions and statements -/

/-- With the bound `n` the parsing functions give well targeted trees. -/
structure Targets (n : Nat) : Prop where
  block : Gives (block n) blockWellTargeted
  returnStat : Gives (returnStat n) Stat.WellTargeted
  statement : Gives (statement n) Stat.WellTargeted
  clauses : ∀ start line, Gives (clauses n start line) Branches.WellTargeted
  forStat : ∀ start, Gives (forStat n start) Stat.WellTargeted
  exprStat : ∀ start, Gives (exprStat n start) Stat.WellTargeted
  moreTargets : Gives (moreTargets n) exprsWellTargeted
  functionBody : ∀ start name isMethod,
    Gives (functionBody n start name isMethod) FunctionBody.WellTargeted
  exprList : Gives (exprList n) exprsWellTargeted
  expr : Gives (expr n) Expr.WellTargeted
  subExpr : ∀ limit, Gives (subExpr n limit) Expr.WellTargeted
  infixTail : ∀ limit {left : Expr}, left.WellTargeted →
    Gives (infixTail n limit left) Expr.WellTargeted
  infixRest : ∀ {left : Expr}, left.WellTargeted → Gives (infixRest n left) Expr.WellTargeted
  simpleExpr : Gives (simpleExpr n) Expr.WellTargeted
  suffixedExpr : Gives (suffixedExpr n) Expr.WellTargeted
  suffixes : ∀ {e : Expr}, e.WellTargeted → Gives (suffixes n e) Expr.WellTargeted
  callArgs : Gives (callArgs n) exprsWellTargeted
  tableExpr : Gives (tableExpr n) Expr.WellTargeted
  tableFields : Gives (tableFields n) fieldsWellTargeted
  tableField : Gives (tableField n) Field.WellTargeted

section Step

variable {n : Nat} (h : Targets n)

include h

theorem targets_block : Gives (block (n + 1)) blockWellTargeted := by
  rw [block]
  refine gives_after fun done => ?_
  split
  · exact gives_pure trivial
  · refine gives_after fun isReturn => ?_
    split
    · exact h.returnStat.bind fun s hs => gives_pure ⟨hs, trivial⟩
    · refine gives_after fun passed => ?_
      split
      · exact h.block
      · exact h.statement.bind fun s hs => h.block.bind fun rest hrest => gives_pure ⟨hs, hrest⟩

theorem targets_returnStat : Gives (returnStat (n + 1)) Stat.WellTargeted := by
  rw [returnStat]
  have hrest : ∀ (values : List Expr) (start : Extent), exprsWellTargeted values → Gives (do
      let _ ← accept (.punctuator .semicolon)
      return Stat.return values (start.through (← lastExtent))) Stat.WellTargeted :=
    fun values start hvalues => gives_after fun _ => gives_after fun _ => gives_pure hvalues
  refine gives_after fun start => gives_after fun done => ?_
  have hvalues : ∀ bare : Bool, Gives (do
      let values ← if bare then pure [] else exprList n
      let _ ← accept (.punctuator .semicolon)
      return Stat.return values (start.through (← lastExtent))) Stat.WellTargeted := by
    intro bare
    cases bare with
    | true => exact hrest [] start trivial
    | false => exact h.exprList.bind fun values hvalues => hrest values start hvalues
  split
  · exact hvalues true
  · exact gives_after hvalues

theorem targets_statement : Gives (statement (n + 1)) Stat.WellTargeted := by
  rw [statement]
  refine gives_after fun l => ?_
  dsimp only
  split
  · -- if
    refine gives_after fun _ => ?_
    exact (h.clauses _ _).bind fun branches hbranches => gives_pure hbranches
  · -- while
    refine gives_after fun _ => h.expr.bind fun condition hcondition => ?_
    refine gives_after fun _ => gives_after fun _ => h.block.bind fun body hbody => ?_
    exact gives_after fun _ => gives_pure ⟨hcondition, hbody⟩
  · -- do
    refine gives_after fun _ => h.block.bind fun body hbody => ?_
    exact gives_after fun _ => gives_pure hbody
  · -- for
    exact gives_after fun _ => h.forStat _
  · -- repeat
    refine gives_after fun _ => h.block.bind fun body hbody => ?_
    refine gives_after fun _ => h.expr.bind fun condition hcondition => ?_
    exact gives_after fun _ => gives_pure ⟨hcondition, hbody⟩
  · -- function
    refine gives_after fun _ => gives_after fun target => gives_after fun path => ?_
    have hbody : ∀ (name : String) (keys : List String) (isMethod : Bool), Gives (do
        let body ← functionBody n l.extent name isMethod
        return Stat.function target keys body body.extent) Stat.WellTargeted :=
      fun name keys isMethod => (h.functionBody _ _ _).bind fun body hbody => gives_pure hbody
    refine gives_after fun isMethod => ?_
    split
    · rw [map_eq_pure_bind, bind_assoc]
      exact gives_after fun m => hbody _ _ _
    · exact hbody _ _ _
  · -- local
    refine gives_after fun _ => gives_after fun isFunction => ?_
    split
    · refine gives_after fun name => ?_
      exact (h.functionBody _ _ _).bind fun body hbody => gives_pure hbody
    · refine gives_after fun names => gives_after fun assigned => ?_
      split
      · refine h.exprList.bind fun values hvalues => ?_
        exact gives_after fun _ => gives_pure hvalues
      · refine (gives_pure (P := exprsWellTargeted) (a := []) trivial).bind fun values hvalues => ?_
        exact gives_after fun _ => gives_pure hvalues
  · -- break
    exact gives_after fun _ => gives_pure trivial
  · exact gives_failAt l _
  · exact gives_failAt l _
  · exact h.exprStat _

theorem targets_clauses (start : Extent) (line : Nat) :
    Gives (clauses (n + 1) start line) Branches.WellTargeted := by
  rw [clauses]
  refine h.expr.bind fun condition hcondition => ?_
  refine gives_after fun _ => gives_after fun last => h.block.bind fun body hbody => ?_
  refine gives_after fun isClause => ?_
  split
  · refine gives_after fun next => (h.clauses _ _).bind fun rest hrest => ?_
    exact gives_pure ⟨hcondition, hbody, hrest⟩
  · refine gives_after fun isElse => ?_
    split
    · refine h.block.bind fun other hother => ?_
      exact gives_after fun _ => gives_pure ⟨hcondition, hbody, hother⟩
    · exact gives_after fun _ => gives_pure ⟨hcondition, hbody, trivial⟩

theorem targets_forStat (start : Extent) : Gives (forStat (n + 1) start) Stat.WellTargeted := by
  rw [forStat]
  refine gives_after fun first => gives_after fun isNumeric => ?_
  split
  · refine h.expr.bind fun initial hinitial => gives_after fun _ => ?_
    refine h.expr.bind fun limit hlimit => gives_after fun stepped => ?_
    have hrest : ∀ step : Expr, step.WellTargeted → Gives (do
        let _ ← expect (.keyword .do)
        let extent := start.through (← lastExtent)
        let body ← block n
        let closing ← expectClosing (.keyword .end) Keyword.for.text start.line
        return Stat.numericFor first initial limit step body extent closing) Stat.WellTargeted := by
      intro step hstep
      refine gives_after fun _ => gives_after fun _ => h.block.bind fun body hbody => ?_
      exact gives_after fun _ => gives_pure ⟨hinitial, hlimit, hstep, hbody⟩
    split
    · exact h.expr.bind hrest
    · exact hrest (.number .one) trivial
  · refine gives_after fun names => gives_after fun isIn => ?_
    have hrest : Gives (do
        let _ ← advance
        let values ← exprList n
        let _ ← expect (.keyword .do)
        let extent := start.through (← lastExtent)
        let body ← block n
        let closing ← expectClosing (.keyword .end) Keyword.for.text start.line
        return Stat.genericFor (first :: names) values body extent closing) Stat.WellTargeted := by
      refine gives_after fun _ => h.exprList.bind fun values hvalues => ?_
      refine gives_after fun _ => gives_after fun _ => h.block.bind fun body hbody => ?_
      exact gives_after fun _ => gives_pure ⟨hvalues, hbody⟩
    split
    · exact gives_after fun _ => hrest
    · exact hrest

/-- The targets of an assignment are looked at as soon as the last of them is read. -/
theorem targets_exprStat (start : Extent) : Gives (exprStat (n + 1) start) Stat.WellTargeted := by
  rw [exprStat]
  refine h.suffixedExpr.bind fun first hfirst => ?_
  have hrest : ∀ several : Bool, Gives (if several then do
        let targets := first :: (← moreTargets n)
        if targets.any (!·.isAssignable) then failNear .notAStatement
        let _ ← expect (.punctuator .assign)
        let values ← exprList n
        return Stat.assign targets values (start.through (← lastExtent))
      else if first.isCall then return Stat.call first (start.through (← lastExtent))
      else failNear .notAStatement) Stat.WellTargeted := by
    intro several
    split
    · refine h.moreTargets.bind fun rest hrest => ?_
      dsimp only
      split
      · exact (gives_failNear (P := fun _ => False) _).bind fun _ hfailed => hfailed.elim
      · next htargets =>
        refine gives_after fun _ => h.exprList.bind fun values hvalues => ?_
        refine gives_after fun _ => gives_pure ⟨?_, ⟨hfirst, hrest⟩, hvalues⟩
        simpa using htargets
    · split
      · exact gives_after fun _ => gives_pure hfirst
      · exact gives_failNear _
  refine gives_after fun isAssign => ?_
  dsimp only
  split
  · exact hrest true
  · exact gives_after hrest

theorem targets_moreTargets : Gives (moreTargets (n + 1)) exprsWellTargeted := by
  rw [moreTargets]
  refine gives_after fun more => ?_
  split
  · exact h.suffixedExpr.bind fun target htarget => h.moreTargets.bind fun rest hrest =>
      gives_pure ⟨htarget, hrest⟩
  · exact gives_pure trivial

theorem targets_functionBody (start : Extent) (name : String) (isMethod : Bool) :
    Gives (functionBody (n + 1) start name isMethod) FunctionBody.WellTargeted := by
  rw [functionBody]
  refine gives_after fun _ => gives_after fun none => ?_
  have hrest : ∀ p : List String × Bool, Gives (do
      let _ ← expect (.punctuator .rightParen)
      let extent := start.through (← lastExtent)
      let body ← block n
      let closing ← expectClosing (.keyword .end) Keyword.function.text start.line
      let names := if isMethod then "self" :: p.1 else p.1
      return FunctionBody.mk name names p.2 body extent closing) FunctionBody.WellTargeted := by
    intro p
    refine gives_after fun _ => gives_after fun _ => h.block.bind fun body hbody => ?_
    exact gives_after fun _ => gives_pure hbody
  dsimp only
  split
  · exact hrest ([], false)
  · exact gives_after hrest

theorem targets_exprList : Gives (exprList (n + 1)) exprsWellTargeted := by
  rw [exprList]
  refine h.expr.bind fun e he => gives_after fun more => ?_
  split
  · exact h.exprList.bind fun es hes => gives_pure ⟨he, hes⟩
  · exact gives_pure ⟨he, trivial⟩

theorem targets_subExpr (limit : Nat) : Gives (subExpr (n + 1) limit) Expr.WellTargeted := by
  rw [subExpr]
  refine gives_after fun l => ?_
  split
  · next op _ =>
    refine gives_after fun _ => (h.subExpr _).bind fun operand hoperand => ?_
    refine h.infixTail _ ?_
    unfold Expr.ofUnary
    split
    · trivial
    · exact hoperand
  · exact h.simpleExpr.bind fun left hleft => h.infixTail _ hleft

theorem targets_infixTail (limit : Nat) {left : Expr} (hleft : left.WellTargeted) :
    Gives (infixTail (n + 1) limit left) Expr.WellTargeted := by
  rw [infixTail]
  refine gives_after fun l => ?_
  split
  · exact gives_pure hleft
  · next op _ =>
    split
    · exact gives_pure hleft
    · refine gives_after fun _ => (h.subExpr _).bind fun right hright => h.infixTail _ ?_
      cases op <;> exact ⟨hleft, hright⟩

theorem targets_infixRest {left : Expr} (hleft : left.WellTargeted) :
    Gives (infixRest (n + 1) left) Expr.WellTargeted := by
  rw [infixRest]
  refine gives_after fun l => ?_
  split
  · exact gives_pure hleft
  · next op _ =>
    refine gives_after fun _ => (h.subExpr _).bind fun right hright => h.infixRest ?_
    cases op <;> exact ⟨hleft, hright⟩

theorem targets_simpleExpr : Gives (simpleExpr (n + 1)) Expr.WellTargeted := by
  rw [simpleExpr]
  refine gives_after fun l => ?_
  split
  · exact gives_after fun _ => gives_pure trivial
  · exact gives_after fun _ => gives_pure trivial
  · exact gives_after fun _ => gives_pure trivial
  · exact gives_after fun _ => gives_pure trivial
  · exact gives_after fun _ => gives_pure trivial
  · exact gives_after fun _ => gives_pure trivial
  · exact h.tableExpr
  · refine gives_after fun start => ?_
    exact (h.functionBody _ _ _).bind fun body hbody => gives_pure hbody
  · exact h.suffixedExpr

theorem targets_suffixedExpr : Gives (suffixedExpr (n + 1)) Expr.WellTargeted := by
  rw [suffixedExpr]
  refine gives_after fun l => ?_
  split
  · exact gives_after fun _ => h.suffixes trivial
  · refine gives_after fun start => h.expr.bind fun inner hinner => ?_
    exact gives_after fun _ => h.suffixes hinner
  · exact gives_failNear _

theorem targets_suffixes {e : Expr} (he : e.WellTargeted) :
    Gives (suffixes (n + 1) e) Expr.WellTargeted := by
  rw [suffixes]
  refine gives_after fun l => ?_
  have hcall : Gives (do
      let args ← callArgs n
      suffixes n (.call e args)) Expr.WellTargeted :=
    h.callArgs.bind fun args hargs => h.suffixes ⟨he, hargs⟩
  split
  · exact gives_after fun _ => gives_after fun key => h.suffixes ⟨he, trivial⟩
  · refine gives_after fun _ => h.expr.bind fun key hkey => ?_
    exact gives_after fun _ => h.suffixes ⟨he, hkey⟩
  · refine gives_after fun _ => gives_after fun method => ?_
    exact h.callArgs.bind fun args hargs => h.suffixes ⟨he, hargs⟩
  · exact hcall
  · exact hcall
  · exact hcall
  · exact gives_pure he

theorem targets_callArgs : Gives (callArgs (n + 1)) exprsWellTargeted := by
  rw [callArgs]
  refine gives_after fun l => ?_
  split
  · exact gives_after fun _ => gives_pure ⟨trivial, trivial⟩
  · exact h.tableExpr.bind fun e he => gives_pure ⟨he, trivial⟩
  · refine gives_after fun _ => gives_after fun empty => ?_
    split
    · refine (gives_pure (P := exprsWellTargeted) (a := []) trivial).bind fun args hargs => ?_
      exact gives_after fun _ => gives_pure hargs
    · exact h.exprList.bind fun args hargs => gives_after fun _ => gives_pure hargs
  · exact gives_failNear _

theorem targets_tableExpr : Gives (tableExpr (n + 1)) Expr.WellTargeted := by
  rw [tableExpr]
  refine gives_after fun start => h.tableFields.bind fun fs hfs => ?_
  exact gives_after fun _ => gives_pure hfs

theorem targets_tableFields : Gives (tableFields (n + 1)) fieldsWellTargeted := by
  rw [tableFields]
  refine gives_after fun closed => ?_
  split
  · exact gives_pure trivial
  · refine h.tableField.bind fun field hfield => ?_
    have hrest : ∀ more : Bool, Gives (do
        if more then return field :: (← tableFields n) else return [field]) fieldsWellTargeted := by
      intro more
      split
      · exact h.tableFields.bind fun rest hrest => gives_pure ⟨hfield, hrest⟩
      · exact gives_pure ⟨hfield, trivial⟩
    refine gives_after fun comma => ?_
    split
    · exact hrest true
    · exact gives_after hrest

theorem targets_tableField : Gives (tableField (n + 1)) Field.WellTargeted := by
  rw [tableField]
  refine gives_after fun isKeyed => ?_
  split
  · refine h.expr.bind fun key hkey => ?_
    refine gives_after fun _ => gives_after fun _ => ?_
    exact h.expr.bind fun value hvalue => gives_pure ⟨hkey, hvalue⟩
  · refine gives_after fun l => ?_
    split
    · refine gives_after fun _ => gives_after fun isNamed => ?_
      split
      · exact h.expr.bind fun value hvalue => gives_pure hvalue
      · refine (h.suffixes (e := .name _) trivial).bind fun left hleft => ?_
        exact (h.infixRest hleft).bind fun value hvalue => gives_pure hvalue
    · exact h.expr.bind fun value hvalue => gives_pure hvalue

end Step

theorem targets : ∀ n : Nat, Targets n
  | 0 => by
    constructor <;> intros <;> exact gives_tooDeep
  | n + 1 =>
    have h := targets n
    ⟨targets_block h, targets_returnStat h, targets_statement h, targets_clauses h,
      targets_forStat h, targets_exprStat h, targets_moreTargets h, targets_functionBody h,
      targets_exprList h, h.subExpr 0, targets_subExpr h, targets_infixTail h, targets_infixRest h, targets_simpleExpr h,
      targets_suffixedExpr h, targets_suffixes h, targets_callArgs h, targets_tableExpr h,
      targets_tableFields h, targets_tableField h⟩

theorem gives_chunk (n : Nat) : Gives (chunk n) blockWellTargeted := by
  unfold chunk
  refine (targets n).block.bind fun body hbody => gives_after fun l => ?_
  split
  · exact gives_pure hbody
  · exact gives_failAt l _

end Parse

/-- What the parser gives has only names and fields on the left of assignments. -/
theorem Block.wellTargeted_parse {chunk source : String} {body : Block}
    (h : Block.parse chunk source = .ok body) : blockWellTargeted body := by
  unfold Block.parse at h
  cases htokens : Block.ofTokens (Token.scan source) with
  | error e =>
    rw [htokens] at h
    cases h
  | ok b =>
    rw [htokens] at h
    cases h
    unfold Block.ofTokens at htokens
    simp only [StateT.run] at htokens
    split at htokens
    · next hrun =>
      cases htokens
      exact Parse.gives_chunk _ _ _ _ hrun
    · cases htokens

end LuaMachine
