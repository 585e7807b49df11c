import LuaMachine.Proofs.Grammar.Locality

/-!
# Precedence of the operators

An operator expression is read as the one tree that the precedence and the grouping of the operators
allow. Trees of operators and simple expressions are described here without the parser: what tokens they
are written with (`OpTree.pieces`, `Spells`), and which of them respect the precedence (`OpTree.Grouped`).
Reading the operators one by one finds such a tree and no other (`Climbs.unique`, `climbs_of_grouped`).
What an expression is parsed to is the tree with a sign before a numeral taken into the numeral
(`Parse.expr_grouped`).
-/

namespace LuaMachine

/-! ## Trees of operators -/

namespace InfixOp

/-- How tightly an operator between two operands binds. -/
def level : InfixOp → Nat
  | logical .or => 1
  | logical .and => 2
  | binary .eq | binary .ne | binary .lt | binary .le | binary .gt | binary .ge => 3
  | binary .concat => 4
  | binary .add | binary .sub => 5
  | binary .mul | binary .div | binary .mod => 6
  | binary .pow => 8

/-- Of two operators of this level the right one is taken first. -/
def groupsRight : InfixOp → Bool
  | binary .concat | binary .pow => true
  | _ => false

end InfixOp

/-- The level of the unary operators is below that of the power only. -/
def UnaryOp.level : Nat := 7

/-- An expression of operators over simple expressions. -/
inductive OpTree where
  | simple (e : Expr)
  | unary (op : UnaryOp) (operand : OpTree)
  | binary (op : InfixOp) (left right : OpTree)

/-- What operator expressions are written with. -/
inductive Piece where
  | simple (e : Expr)
  | unary (op : UnaryOp)
  | binary (op : InfixOp)

namespace OpTree

/-- The operators and simple expressions of a tree in the order of the text. -/
def pieces : OpTree → List Piece
  | simple e => [.simple e]
  | unary op t => .unary op :: t.pieces
  | binary op l r => l.pieces ++ .binary op :: r.pieces

def level : OpTree → Nat
  | simple _ => 9
  | unary .. => UnaryOp.level
  | binary op .. => op.level

/-- A tree can be the left operand of an operator. -/
def LeftOf (op : InfixOp) (t : OpTree) : Prop :=
  op.level < t.level ∨ t.level = op.level ∧ op.groupsRight = false

/-- A tree can be the right operand of an operator. A unary operator there takes nothing from the left. -/
def RightOf (op : InfixOp) : OpTree → Prop
  | simple _ | unary .. => True
  | binary op' .. => op.level < op'.level ∨ op'.level = op.level ∧ op.groupsRight = true

/-- The tree respects the precedence and the grouping of its operators. -/
def Grouped : OpTree → Prop
  | simple _ => True
  | unary _ t => t.Grouped ∧ UnaryOp.level ≤ t.level
  | binary op l r => l.Grouped ∧ r.Grouped ∧ l.LeftOf op ∧ r.RightOf op

/-- The number that a numeral with any number of signs in front stands for. -/
def numeral? : OpTree → Option Number
  | simple (.number x) => some x
  | unary .neg t => t.numeral?.map Number.neg
  | _ => none

/-- The tree as an expression, where the signs directly in front of a numeral belong to the numeral. -/
def fold : OpTree → Expr
  | simple e => e
  | unary op t =>
    match (unary op t).numeral? with
    | some x => .number x
    | none => .unary op t.fold
  | binary op l r => .ofInfix op l.fold r.fold

/-- The tree as an expression. -/
def plain : OpTree → Expr
  | simple e => e
  | unary op t => .unary op t.plain
  | binary op l r => .ofInfix op l.plain r.plain

/-- No sign stands directly in front of a numeral. -/
def Unsigned : OpTree → Prop
  | simple _ => True
  | unary op t => t.Unsigned ∧ ∀ x, t = simple (.number x) → op ≠ .neg
  | binary _ l r => l.Unsigned ∧ r.Unsigned

theorem fold_eq_number {t : OpTree} {x : Number} : t.fold = .number x ↔ t.numeral? = some x := by
  cases t with
  | simple e => cases e <;> simp [fold, numeral?]
  | unary op t =>
    rw [fold]
    split
    · next y hy => simp [hy]
    · next hnone => simp [hnone]
  | binary op l r => cases op <;> simp [fold, numeral?, Expr.ofInfix]

/-- Signs are taken into the numeral one after the other, from the innermost on. -/
theorem fold_unary (op : UnaryOp) (t : OpTree) : (unary op t).fold = .ofUnary op t.fold := by
  by_cases hneg : op = .neg ∧ ∃ x, t.numeral? = some x
  · obtain ⟨rfl, x, hx⟩ := hneg
    rw [fold, fold_eq_number.2 hx, numeral?, hx]
    rfl
  · have hnone : (unary op t).numeral? = none := by
      cases op with
      | neg =>
        rw [numeral?, Option.map_eq_none_iff, Option.eq_none_iff_forall_ne_some]
        exact fun x hx => hneg ⟨rfl, x, hx⟩
      | not => rfl
      | len => rfl
    rw [fold, hnone, Expr.ofUnary]
    intro x hop hx
    exact hneg ⟨hop, x, fold_eq_number.1 hx⟩

theorem Unsigned.eq_numeral {t : OpTree} {x : Number} (h : t.Unsigned) (hx : t.numeral? = some x) :
    t = simple (.number x) := by
  induction t generalizing x with
  | simple e => cases e <;> simp_all [numeral?]
  | unary op t ih =>
    cases op with
    | neg =>
      obtain ⟨y, hy, -⟩ := Option.map_eq_some_iff.1 hx
      exact absurd rfl (h.2 y (ih h.1 hy))
    | not => cases hx
    | len => cases hx
  | binary op l r => cases hx

/-- Without such signs nothing is changed. -/
theorem Unsigned.fold_eq {t : OpTree} (h : t.Unsigned) : t.fold = t.plain := by
  induction t with
  | simple e => rfl
  | unary op t ih =>
    have hnone : (unary op t).numeral? = none :=
      Option.eq_none_iff_forall_ne_some.2 fun x hx => nomatch h.eq_numeral hx
    rw [fold, hnone, plain, ih h.1]
  | binary op l r ihl ihr => rw [fold, plain, ihl h.1, ihr h.2]

end OpTree

/-! ## Reading the operators one by one -/

namespace InfixOp

theorem level_lt (op : InfixOp) : op.level < 9 := by
  cases op with
  | binary a => cases a <;> decide
  | logical a => cases a <;> decide

theorem level_ne_unary (op : InfixOp) : op.level ≠ UnaryOp.level := by
  cases op with
  | binary a => cases a <;> decide
  | logical a => cases a <;> decide

theorem level_lt_unary {op : InfixOp} (h : op.groupsRight = false) : op.level < UnaryOp.level := by
  revert h
  cases op with
  | binary a => cases a <;> decide
  | logical a => cases a <;> decide

theorem priority_pos (op : InfixOp) : 0 < op.priority.1 := by
  cases op with
  | binary a => cases a <;> decide
  | logical a => cases a <;> decide

/-- What the priorities of two operators say about their levels: the first one, behind an operand of the
second one, leaves it to the second one. -/
theorem priority_le_iff (op op' : InfixOp) : op.priority.1 ≤ op'.priority.2 ↔
    op.level < op'.level ∨ op'.level = op.level ∧ op.groupsRight = false := by
  cases op with
  | binary a => cases op' with
    | binary b => cases a <;> cases b <;> decide
    | logical b => cases a <;> cases b <;> decide
  | logical a => cases op' with
    | binary b => cases a <;> cases b <;> decide
    | logical b => cases a <;> cases b <;> decide

theorem priority_mono {op op' : InfixOp} (h : op.level ≤ op'.level) :
    op.priority.1 ≤ op'.priority.1 := by
  revert h
  cases op with
  | binary a => cases op' with
    | binary b => cases a <;> cases b <;> decide
    | logical b => cases a <;> cases b <;> decide
  | logical a => cases op' with
    | binary b => cases a <;> cases b <;> decide
    | logical b => cases a <;> cases b <;> decide

theorem groupsRight_eq {op op' : InfixOp} (h : op.level = op'.level) :
    op.groupsRight = op'.groupsRight := by
  revert h
  cases op with
  | binary a => cases op' with
    | binary b => cases a <;> cases b <;> decide
    | logical b => cases a <;> cases b <;> decide
  | logical a => cases op' with
    | binary b => cases a <;> cases b <;> decide
    | logical b => cases a <;> cases b <;> decide

theorem priority_le_unary_iff (op : InfixOp) :
    op.priority.1 ≤ UnaryOp.priority ↔ op.level < UnaryOp.level := by
  cases op with
  | binary a => cases a <;> decide
  | logical a => cases a <;> decide

end InfixOp

namespace OpTree

/-- The operator of the tree has a priority above a limit. -/
def Within (limit : Nat) : OpTree → Prop
  | binary op .. => limit < op.priority.1
  | _ => True

variable {op op' : InfixOp} {u : UnaryOp} {t l r : OpTree} {limit : Nat}

theorem leftOf_simple (e : Expr) (op : InfixOp) : (simple e).LeftOf op := .inl op.level_lt

theorem leftOf_unary_iff : (unary u t).LeftOf op ↔ op.priority.1 ≤ UnaryOp.priority := by
  rw [op.priority_le_unary_iff]
  exact ⟨fun h => h.resolve_right fun heq => op.level_ne_unary heq.1.symm, .inl⟩

theorem leftOf_binary_iff : (binary op l r).LeftOf op' ↔ op'.priority.1 ≤ op.priority.2 :=
  (op'.priority_le_iff op).symm

theorem within_unary_iff : t.Within UnaryOp.priority ↔ UnaryOp.level ≤ t.level := by
  cases t with
  | simple e => exact ⟨fun _ => Nat.le_add_left 7 2, fun _ => trivial⟩
  | unary u t => exact ⟨fun _ => Nat.le_refl _, fun _ => trivial⟩
  | binary op l r =>
    rw [Within, level, ← Nat.not_le, op.priority_le_unary_iff, Nat.not_lt]

theorem within_right_iff : t.Within op.priority.2 ↔ t.RightOf op := by
  cases t with
  | simple e => exact Iff.rfl
  | unary u t => exact Iff.rfl
  | binary op' l r =>
    rw [Within, ← Nat.not_le, op'.priority_le_iff, RightOf]
    by_cases heq : op.level = op'.level
    · rw [InfixOp.groupsRight_eq heq]
      simp [heq]
    · have heq' : op'.level ≠ op.level := fun h => heq h.symm
      simp [heq, heq']
      omega

/-- The left operand has no operator that binds less than the one behind it. -/
theorem within_left (h : (binary op l r).Within limit) (hl : l.LeftOf op) : l.Within limit := by
  cases l with
  | simple e => trivial
  | unary u t => trivial
  | binary op' l' r' =>
    have hle : op.level ≤ op'.level := by
      rcases hl with hlt | heq
      · exact Nat.le_of_lt hlt
      · exact Nat.le_of_eq heq.1.symm
    exact Nat.lt_of_lt_of_le h (InfixOp.priority_mono hle)

/-- What comes behind a tree as its left operand comes behind its last operand as well. -/
theorem leftOf_right (h : (binary op l r).LeftOf op') (hr : r.RightOf op) : r.LeftOf op' := by
  cases r with
  | simple e => exact leftOf_simple e op'
  | unary u t =>
    refine .inl ?_
    rcases h with hlt | ⟨-, hgroups⟩
    · have hlt : op'.level < op.level := hlt
      have hmax := op.level_lt
      have hne : op'.level ≠ 7 := op'.level_ne_unary
      show op'.level < 7
      omega
    · exact InfixOp.level_lt_unary hgroups
  | binary op₂ l₂ r₂ =>
    rcases h with hlt | ⟨heq, hgroups⟩ <;> rcases hr with hlt₂ | ⟨heq₂, hgroups₂⟩
    · exact .inl (Nat.lt_trans hlt hlt₂)
    · exact .inl (Nat.lt_of_lt_of_eq hlt heq₂.symm)
    · exact .inl (Nat.lt_of_le_of_lt (Nat.le_of_eq heq.symm) hlt₂)
    · rw [InfixOp.groupsRight_eq heq, hgroups] at hgroups₂
      cases hgroups₂

theorem leftOf_operand (h : (unary u t).LeftOf op) (ht : UnaryOp.level ≤ t.level) : t.LeftOf op := by
  rw [leftOf_unary_iff, op.priority_le_unary_iff] at h
  exact .inl (Nat.lt_of_lt_of_le h ht)

end OpTree

/-- The pieces are read from the left. Behind an operand the operators are read whose priority is above a
limit, each with its right operand, and the rest is left. -/
inductive Climbs : Nat → Option OpTree → List Piece → OpTree → List Piece → Prop
  | simple {limit e ps t rest} (hrest : Climbs limit (some (.simple e)) ps t rest) :
      Climbs limit none (.simple e :: ps) t rest
  | unary {limit op ps s ps₁ t rest} (hoperand : Climbs UnaryOp.priority none ps s ps₁)
      (hrest : Climbs limit (some (.unary op s)) ps₁ t rest) :
      Climbs limit none (.unary op :: ps) t rest
  | stop {limit t ps} (h : ∀ op ps', ps = .binary op :: ps' → op.priority.1 ≤ limit) :
      Climbs limit (some t) ps t ps
  | more {limit op l ps r ps₁ t rest} (h : limit < op.priority.1)
      (hright : Climbs op.priority.2 none ps r ps₁)
      (hrest : Climbs limit (some (.binary op l r)) ps₁ t rest) :
      Climbs limit (some l) (.binary op :: ps) t rest

theorem Climbs.unique {limit : Nat} {left : Option OpTree} {ps rest rest' : List Piece}
    {t t' : OpTree} (h : Climbs limit left ps t rest) (h' : Climbs limit left ps t' rest') :
    t = t' ∧ rest = rest' := by
  induction h generalizing t' rest' with
  | simple _ ih =>
    cases h' with
    | simple h' => exact ih h'
  | unary _ _ ihoperand ihrest =>
    cases h' with
    | unary hoperand' hrest' =>
      obtain ⟨rfl, rfl⟩ := ihoperand hoperand'
      exact ihrest hrest'
  | stop h =>
    cases h' with
    | stop => exact ⟨rfl, rfl⟩
    | more hlt => exact absurd (h _ _ rfl) (Nat.not_le.2 hlt)
  | more hlt _ _ ihright ihrest =>
    cases h' with
    | stop h => exact absurd (h _ _ rfl) (Nat.not_le.2 hlt)
    | more _ hright' hrest' =>
      obtain ⟨rfl, rfl⟩ := ihright hright'
      exact ihrest hrest'

/-- A tree that respects the precedence is read from its pieces, whatever comes behind it that does not
belong to it. -/
theorem OpTree.Grouped.climbs {t t' : OpTree} {limit : Nat} {rest rest' : List Piece} (h : t.Grouped)
    (hlimit : t.Within limit) (hnext : ∀ op ps, rest = .binary op :: ps → t.LeftOf op)
    (hrest : Climbs limit (some t) rest t' rest') : Climbs limit none (t.pieces ++ rest) t' rest' := by
  induction t generalizing limit t' rest rest' with
  | simple e => exact .simple hrest
  | unary u t ih =>
    have hstop : ∀ op ps, rest = .binary op :: ps → op.priority.1 ≤ UnaryOp.priority :=
      fun op ps heq => leftOf_unary_iff.1 (hnext op ps heq)
    refine .unary (ih h.1 (within_unary_iff.2 h.2) (fun op ps heq => ?_) (.stop hstop)) hrest
    exact leftOf_operand (hnext op ps heq) h.2
  | binary op l r ihl ihr =>
    obtain ⟨hl, hr, hleft, hright⟩ := h
    have hstop : ∀ op' ps, rest = .binary op' :: ps → op'.priority.1 ≤ op.priority.2 :=
      fun op' ps heq => leftOf_binary_iff.1 (hnext op' ps heq)
    rw [pieces, List.append_assoc]
    refine ihl hl (within_left hlimit hleft) (fun op' ps heq => ?_) (.more hlimit ?_ hrest)
    · obtain ⟨hop, -⟩ := List.cons.inj heq
      cases hop
      exact hleft
    · exact ihr hr (within_right_iff.2 hright) (fun op' ps heq => leftOf_right (hnext op' ps heq) hright)
        (.stop hstop)

/-- Two trees that respect the precedence and are written the same are the same. -/
theorem OpTree.Grouped.unique {t t' : OpTree} (h : t.Grouped) (h' : t'.Grouped)
    (heq : t.pieces = t'.pieces) : t = t' := by
  have hread : ∀ s : OpTree, s.Grouped → Climbs 0 none s.pieces s [] := by
    intro s hs
    have hwithin : s.Within 0 := by
      cases s with
      | simple e => trivial
      | unary u s => trivial
      | binary op l r => exact op.priority_pos
    have hclimbs : Climbs 0 none (s.pieces ++ []) s [] := hs.climbs hwithin nofun (.stop nofun)
    rwa [List.append_nil] at hclimbs
  exact ((hread t h).unique (heq ▸ hread t' h')).1

/-! ## Simple expressions -/

/-- A reader of these lexemes, with the end of the input behind them. -/
def Reader.alone (w : List Lexeme) : Reader :=
  { lexemes := w, ending := .ok ⟨.endOfInput, ⟨1, 1, 1, 1⟩⟩ }

theorem Reader.ends_alone (w : List Lexeme) : (alone w).Ends := by
  intro l hl
  cases hl
  rfl

theorem Reader.Ends.passed {r : Reader} (h : r.Ends) (ls : List Lexeme) (last : Extent) :
    Reader.Ends { r with lexemes := ls, last } := h

namespace Parse

/-- Lexemes are a simple expression: on their own they are read as one, to their end. -/
def IsSimple (w : List Lexeme) (e : Expr) : Prop :=
  ∃ n r, simpleExpr n (.alone w) = .ok (e, r) ∧ r.lexemes = []

variable {n m limit : Nat} {r r' s : Reader} {e e' : Expr} {w u : List Lexeme}

/-- From a place a simple expression is read, with every bound that is large enough. -/
def ReadsSimple (r : Reader) (e : Expr) (rest : List Lexeme) : Prop :=
  ∃ n, ∀ m, n ≤ m → ∃ r', simpleExpr m r = .ok (e, r') ∧ r'.lexemes = rest

theorem ReadsSimple.unique {rest rest' : List Lexeme} (h : ReadsSimple r e rest)
    (h' : ReadsSimple r e' rest') : e = e' ∧ rest = rest' := by
  obtain ⟨n, hn⟩ := h
  obtain ⟨m, hm⟩ := h'
  obtain ⟨r₁, hr₁, hrest₁⟩ := hn (max n m) (Nat.le_max_left n m)
  obtain ⟨r₂, hr₂, hrest₂⟩ := hm (max n m) (Nat.le_max_right n m)
  obtain ⟨rfl, rfl⟩ := Prod.mk.inj (Except.ok.inj (hr₁.symm.trans hr₂))
  exact ⟨rfl, hrest₁.symm.trans hrest₂⟩

/-- A simple expression is read the same wherever it stands, if no call or index follows it there. -/
theorem exists_readsSimple (hends : r.Ends) (h : simpleExpr n r = .ok (e, r')) :
    ∃ w, w ≠ [] ∧ r.lexemes = w ++ r'.lexemes ∧ r'.ending = r.ending ∧
      ∀ s s₁ : Reader, s.lexemes = w ++ s₁.lexemes → s₁.ending = s.ending → SuffixEnd r' s₁ →
        ReadsSimple s e s₁.lexemes := by
  obtain ⟨w, hw, hend, hlen, -⟩ := (localized (Nat.le_refl n)).simpleExpr r e r' trivial hends h
  refine ⟨w, List.length_pos_iff.1 hlen, hw, hend, fun s s₁ hs hs₁ hnext => ⟨n, fun m hm => ?_⟩⟩
  obtain ⟨w', hw', -, -, hsame⟩ := (localized hm).simpleExpr r e r' trivial hends h
  obtain rfl : w = w' := List.append_cancel_right (hw.symm.trans hw')
  exact ⟨_, hsame s { s₁ with last := r'.last } hs hs₁ nofun rfl hnext, rfl⟩

theorem suffixEnd_nil (r : Reader) : SuffixEnd r (.alone []) := .inr ⟨_, rfl, rfl⟩

theorem suffixEnd_cons {l : Lexeme} {ls : List Lexeme} (hs : s.lexemes = l :: ls)
    (h : l.token.startsSuffix = false) : SuffixEnd r s :=
  .inr ⟨l, Reader.next_of_lexemes_eq hs, h⟩

theorem IsSimple.readsSimple (h : IsSimple w e) : w ≠ [] ∧ ReadsSimple (.alone w) e [] ∧
    ∀ l ls, l.token.startsSuffix = false → ReadsSimple (.alone (w ++ l :: ls)) e (l :: ls) := by
  obtain ⟨n, r', hr, hrest⟩ := h
  obtain ⟨w', hne, hw, -, hsame⟩ := exists_readsSimple (Reader.ends_alone w) hr
  obtain rfl : w = w' := by
    rw [hrest, List.append_nil] at hw
    exact hw
  refine ⟨hne, hsame _ (.alone []) (List.append_nil _).symm rfl (suffixEnd_nil _), fun l ls hl => ?_⟩
  exact hsame _ (.alone (l :: ls)) rfl rfl (suffixEnd_cons rfl hl)

/-- What is read as a simple expression is one on its own. Of the simple expressions that start there it is
the longest, and a shorter one has a call or an index behind it. -/
theorem simpleExpr_eq_ok (hends : r.Ends) (h : simpleExpr n r = .ok (e, r')) :
    ∃ w, r.lexemes = w ++ r'.lexemes ∧ r'.ending = r.ending ∧ IsSimple w e ∧
      ∀ u e', IsSimple u e' → u <+: r.lexemes → u = w ∧ e' = e ∨
        ∃ l u', w = u ++ l :: u' ∧ l.token.startsSuffix = true := by
  obtain ⟨w, hne, hw, hend, hsame⟩ := exists_readsSimple hends h
  have halone : ReadsSimple (.alone w) e [] :=
    hsame _ (.alone []) (List.append_nil _).symm rfl (suffixEnd_nil _)
  refine ⟨w, hw, hend, ?_, fun u e' hu hstart => ?_⟩
  · obtain ⟨m, hm⟩ := halone
    obtain ⟨r₁, hr₁, hrest₁⟩ := hm m (Nat.le_refl _)
    exact ⟨m, r₁, hr₁, hrest₁⟩
  obtain ⟨-, hself, hbefore⟩ := hu.readsSimple
  rcases List.prefix_or_prefix_of_prefix hstart (hw ▸ List.prefix_append w r'.lexemes) with hle | hle
  · obtain ⟨v, rfl⟩ := hle
    cases v with
    | nil =>
      rw [List.append_nil] at halone ⊢
      exact .inl ⟨rfl, (hself.unique halone).1⟩
    | cons l v =>
      refine .inr ⟨l, v, rfl, ?_⟩
      cases hl : l.token.startsSuffix with
      | true => rfl
      | false => cases ((hbefore l v hl).unique halone).2
  · obtain ⟨v, rfl⟩ := hle
    cases v with
    | nil =>
      rw [List.append_nil] at hself ⊢
      exact .inl ⟨rfl, (hself.unique halone).1⟩
    | cons l v =>
      -- the lexeme behind what was read is the same here
      have hnext : r'.next = .ok l := by
        obtain ⟨t, ht⟩ := hstart
        rw [hw, List.append_assoc] at ht
        exact Reader.next_of_lexemes_eq (List.append_cancel_left ht).symm
      have hlong := hsame (.alone (w ++ l :: v)) (.alone (l :: v)) rfl rfl (.inl hnext.symm)
      cases (hself.unique hlong).2

/-! ## Operator expressions -/

/-- Whether an operand or an operator between operands comes next. -/
inductive Place where
  | operand
  | operator

/-- Lexemes spell the pieces of an operator expression, from a place in it to its end. -/
inductive SpellsFrom : Place → List Piece → List Lexeme → Prop
  | done : SpellsFrom .operator [] []
  | simple {e w ps ws} (hw : IsSimple w e) (hrest : SpellsFrom .operator ps ws) :
      SpellsFrom .operand (.simple e :: ps) (w ++ ws)
  | unary {op ps ws} {l : Lexeme} (hl : UnaryOp.ofToken? l.token = some op)
      (hrest : SpellsFrom .operand ps ws) : SpellsFrom .operand (.unary op :: ps) (l :: ws)
  | binary {op ps ws} {l : Lexeme} (hl : InfixOp.ofToken? l.token = some op)
      (hrest : SpellsFrom .operand ps ws) : SpellsFrom .operator (.binary op :: ps) (l :: ws)

/-- Lexemes are what a tree of operators and simple expressions is written with. -/
def Spells (t : OpTree) (w : List Lexeme) : Prop := SpellsFrom .operand t.pieces w

/-- The pieces of an operator expression are read one after the other. -/
inductive Reads : Place → List Piece → Reader → Reader → Prop
  | done {r : Reader} : Reads .operator [] r r
  | simple {n : Nat} {e : Expr} {ps : List Piece} {r r₁ r' : Reader} (h : simpleExpr n r = .ok (e, r₁)) (hrest : Reads .operator ps r₁ r') :
      Reads .operand (.simple e :: ps) r r'
  | unary {op ps ls} {r r' : Reader} {l : Lexeme} (h : r.lexemes = l :: ls)
      (hl : UnaryOp.ofToken? l.token = some op)
      (hrest : Reads .operand ps { r with lexemes := ls, last := l.extent } r') :
      Reads .operand (.unary op :: ps) r r'
  | binary {op ps ls} {r r' : Reader} {l : Lexeme} (h : r.lexemes = l :: ls)
      (hl : InfixOp.ofToken? l.token = some op)
      (hrest : Reads .operand ps { r with lexemes := ls, last := l.extent } r') :
      Reads .operator (.binary op :: ps) r r'

theorem Reads.append {p : Place} {ps qs : List Piece} {r₁ : Reader} (h : Reads p ps r r₁)
    (hrest : Reads .operator qs r₁ r') : Reads p (ps ++ qs) r r' := by
  induction h with
  | done => exact hrest
  | simple h _ ih => exact .simple h (ih hrest)
  | unary h hl _ ih => exact .unary h hl (ih hrest)
  | binary h hl _ ih => exact .binary h hl (ih hrest)

theorem Reads.spells {p : Place} {ps : List Piece} (h : Reads p ps r r') (hends : r.Ends) :
    ∃ w, r.lexemes = w ++ r'.lexemes ∧ SpellsFrom p ps w := by
  induction h with
  | done => exact ⟨[], rfl, .done⟩
  | simple h _ ih =>
    obtain ⟨w, hw, hend, hsimple, -⟩ := simpleExpr_eq_ok hends h
    obtain ⟨ws, hws, hspells⟩ := ih (fun l hl => hends l (hend ▸ hl))
    exact ⟨w ++ ws, by rw [hw, hws, List.append_assoc], .simple hsimple hspells⟩
  | unary h hl _ ih =>
    obtain ⟨ws, hws, hspells⟩ := ih hends
    exact ⟨_ :: ws, by rw [h]; exact congrArg _ hws, .unary hl hspells⟩
  | binary h hl _ ih =>
    obtain ⟨ws, hws, hspells⟩ := ih hends
    exact ⟨_ :: ws, by rw [h]; exact congrArg _ hws, .binary hl hspells⟩

theorem startsSuffix_infixOp {t : Token} {op : InfixOp} (h : InfixOp.ofToken? t = some op) :
    t.startsSuffix = false := by
  unfold Token.startsSuffix
  split
  all_goals first | rfl | cases h

theorem eq_of_unary {t : Token} {op : UnaryOp} (h : UnaryOp.ofToken? t = some op) :
    t = .keyword .not ∨ t = .punctuator .minus ∨ t = .punctuator .hash := by
  unfold UnaryOp.ofToken? at h
  split at h
  · exact .inl rfl
  · exact .inr (.inl rfl)
  · exact .inr (.inr rfl)
  · cases h

theorem suffixedExpr_ne_ok {l : Lexeme} {op : UnaryOp} (hnext : r.next = .ok l)
    (hl : UnaryOp.ofToken? l.token = some op) (x : Expr × Reader) : suffixedExpr n r ≠ .ok x := by
  cases n with
  | zero =>
    rw [suffixedExpr]
    exact failNear_ne_ok _ r x
  | succ n =>
    rw [suffixedExpr, peek_bind_apply hnext]
    rcases eq_of_unary hl with heq | heq | heq
    all_goals
      rw [heq]
      exact failNear_ne_ok _ r x

/-- No simple expression starts with a unary operator. -/
theorem simpleExpr_ne_ok {l : Lexeme} {op : UnaryOp} (hnext : r.next = .ok l)
    (hl : UnaryOp.ofToken? l.token = some op) (x : Expr × Reader) : simpleExpr n r ≠ .ok x := by
  cases n with
  | zero =>
    rw [simpleExpr]
    exact failNear_ne_ok _ r x
  | succ n =>
    rw [simpleExpr, peek_bind_apply hnext]
    have hsuffixed := suffixedExpr_ne_ok (n := n) hnext hl x
    rcases eq_of_unary hl with heq | heq | heq
    all_goals
      rw [heq]
      exact hsuffixed

theorem IsSimple.not_unary {l : Lexeme} (h : IsSimple (l :: w) e) : UnaryOp.ofToken? l.token = none := by
  obtain ⟨n, r, hr, -⟩ := h
  cases hop : UnaryOp.ofToken? l.token with
  | none => rfl
  | some op => exact absurd hr (simpleExpr_ne_ok rfl hop _)

/-- Of the operator expressions that start at a place the longest is read: nothing that belongs to one is
left. The same lexemes have only one division into pieces. -/
theorem Reads.longest {p : Place} {ps ps' : List Piece} (h : Reads p ps r r') (hends : r.Ends)
    (hstop : ∀ l, r'.next = .ok l → InfixOp.ofToken? l.token = none) (hspells : SpellsFrom p ps' u)
    (hu : u <+: r.lexemes) (hw : r.lexemes = w ++ r'.lexemes) : u <+: w ∧ (u = w → ps' = ps) := by
  induction h generalizing ps' u w with
  | done =>
    obtain rfl : w = [] := List.append_left_eq_self.1 hw.symm
    cases hspells with
    | done => exact ⟨List.prefix_refl _, fun _ => rfl⟩
    | binary hl hrest =>
      obtain ⟨t, ht⟩ := hu
      have hnone := hstop _ (Reader.next_of_lexemes_eq ht.symm)
      cases hl.symm.trans hnone
  | simple h hrest ih =>
    obtain ⟨v, hv, hend, hsimple, hlongest⟩ := simpleExpr_eq_ok hends h
    have hends₁ := fun l hl => hends l (hend ▸ hl)
    obtain ⟨ws, hws, -⟩ := hrest.spells hends₁
    obtain rfl : w = v ++ ws := by
      refine List.append_cancel_right (hw.symm.trans ?_)
      rw [hv, hws, List.append_assoc]
    cases hspells with
    | simple hw' hrest' =>
      rcases hlongest _ _ hw' ((List.prefix_append _ _).trans hu) with ⟨rfl, rfl⟩ | ⟨l, v', rfl, hl⟩
      · rw [hv, List.prefix_append_right_inj] at hu
        obtain ⟨hle, heq⟩ := ih hends₁ hstop hrest' hu hws
        refine ⟨(List.prefix_append_right_inj _).2 hle, fun h => ?_⟩
        rw [heq (List.append_cancel_left h)]
      · -- a call or an index follows, so the other expression ends there
        cases hrest' with
        | done => exact ⟨⟨l :: v' ++ ws, by simp⟩, fun heq => by simp at heq⟩
        | binary hop =>
          rw [hv, List.append_assoc, List.prefix_append_right_inj, List.cons_append] at hu
          obtain rfl := (List.cons_prefix_cons.1 hu).1
          rw [startsSuffix_infixOp hop] at hl
          cases hl
    | unary hl hrest' =>
      obtain ⟨m, v, rfl⟩ := List.exists_cons_of_ne_nil hsimple.readsSimple.1
      rw [hv] at hu
      obtain rfl := (List.cons_prefix_cons.1 hu).1
      cases hl.symm.trans hsimple.not_unary
  | @unary op ps ls r r' l h hl hrest ih =>
    obtain ⟨ws, hws, -⟩ := hrest.spells hends
    obtain rfl : w = l :: ws :=
      List.append_cancel_right (hw.symm.trans (h.trans (congrArg (l :: ·) hws)))
    rw [h] at hu
    cases hspells with
    | simple hw' hrest' =>
      obtain ⟨m, v, rfl⟩ := List.exists_cons_of_ne_nil hw'.readsSimple.1
      obtain rfl := (List.cons_prefix_cons.1 hu).1
      cases hl.symm.trans hw'.not_unary
    | unary hl' hrest' =>
      obtain ⟨rfl, htail⟩ := List.cons_prefix_cons.1 hu
      obtain ⟨hle, heq⟩ := ih hends hstop hrest' htail hws
      refine ⟨List.cons_prefix_cons.2 ⟨rfl, hle⟩, fun h => ?_⟩
      rw [heq (List.cons.inj h).2, Option.some.inj (hl'.symm.trans hl)]
  | @binary op ps ls r r' l h hl hrest ih =>
    obtain ⟨ws, hws, -⟩ := hrest.spells hends
    obtain rfl : w = l :: ws :=
      List.append_cancel_right (hw.symm.trans (h.trans (congrArg (l :: ·) hws)))
    rw [h] at hu
    cases hspells with
    | done => exact ⟨List.nil_prefix, nofun⟩
    | binary hl' hrest' =>
      obtain ⟨rfl, htail⟩ := List.cons_prefix_cons.1 hu
      obtain ⟨hle, heq⟩ := ih hends hstop hrest' htail hws
      refine ⟨List.cons_prefix_cons.2 ⟨rfl, hle⟩, fun h => ?_⟩
      rw [heq (List.cons.inj h).2, Option.some.inj (hl'.symm.trans hl)]

/-! ## What is parsed -/

/-- Behind an expression no operator has a priority above a limit. -/
def Stops (limit : Nat) (r : Reader) : Prop :=
  ∀ l op, r.next = .ok l → InfixOp.ofToken? l.token = some op → op.priority.1 ≤ limit

/-- A tree that respects the precedence is read from a place to another one. -/
structure IsTree (limit : Nat) (r r' : Reader) (t : OpTree) : Prop where
  reads : Reads .operand t.pieces r r'
  ending : r'.ending = r.ending
  grouped : t.Grouped
  within : t.Within limit

theorem exists_of_bind {α β : Type} {p : Parse α} {f : α → Parse β} {b : β} (h : (p >>= f) r = .ok (b, r')) :
    ∃ a r₁, p r = .ok (a, r₁) ∧ f a r₁ = .ok (b, r') := by
  have h : (p r >>= fun x => f x.1 x.2) = .ok (b, r') := h
  cases hp : p r with
  | error e =>
    rw [hp] at h
    cases h
  | ok x =>
    rw [hp] at h
    exact ⟨x.1, x.2, rfl, h⟩

theorem advance_bind_apply {β : Type} {l : Lexeme} {ls : List Lexeme} (h : r.lexemes = l :: ls)
    (f : Lexeme → Parse β) :
    (advance >>= f) r = f l { r with lexemes := ls, last := l.extent } := by
  show (advance r >>= fun x => f x.1 x.2) = _
  unfold advance
  rw [h]
  rfl

/-- Unless it is the end of the input, the next lexeme is the first of those that are left. -/
theorem exists_lexemes (hends : r.Ends) {l : Lexeme} (h : r.next = .ok l)
    (hl : l.token ≠ .endOfInput) : ∃ ls, r.lexemes = l :: ls := by
  unfold Reader.next at h
  split at h
  · next heq =>
    cases h
    exact ⟨_, heq⟩
  · exact absurd (hends l h) hl

/-- What `subExpr` reads with a bound. -/
def SubExprReads (n : Nat) : Prop :=
  ∀ (limit : Nat) (r r' : Reader) (e : Expr), r.Ends → subExpr n limit r = .ok (e, r') →
    ∃ t, IsTree limit r r' t ∧ e = t.fold ∧ Stops limit r'

/-- What `infixTail` reads with a bound, behind a tree that the next operator can follow. -/
def InfixTailReads (n : Nat) : Prop :=
  ∀ (limit : Nat) (t : OpTree) (r₀ r r' : Reader) (e : Expr), r.Ends → IsTree limit r₀ r t →
    (∀ l op, r.next = .ok l → InfixOp.ofToken? l.token = some op → t.LeftOf op) →
    infixTail n limit t.fold r = .ok (e, r') → ∃ t', IsTree limit r₀ r' t' ∧ e = t'.fold ∧ Stops limit r'

theorem subExprReads_succ (hsub : SubExprReads n) (htail : InfixTailReads n) :
    SubExprReads (n + 1) := by
  intro limit r r' e hends h
  rw [subExpr] at h
  obtain ⟨l, hl⟩ := next_of_peek_bind h
  rw [peek_bind_apply hl] at h
  cases hop : UnaryOp.ofToken? l.token with
  | some op =>
    rw [hop] at h
    obtain ⟨ls, hls⟩ := exists_lexemes hends hl fun heq => by rw [heq] at hop; cases hop
    dsimp only at h
    rw [advance_bind_apply hls] at h
    obtain ⟨operand, r₁, hoperand, h⟩ := exists_of_bind h
    obtain ⟨s, hs, rfl, hstops⟩ := hsub _ _ _ _ (hends.passed ls l.extent) hoperand
    rw [← OpTree.fold_unary] at h
    refine htail limit _ r r₁ r' e (fun l hl => hends l (hs.ending ▸ hl)) ?_ ?_ h
    · exact ⟨.unary hls hop hs.reads, hs.ending, ⟨hs.grouped, OpTree.within_unary_iff.1 hs.within⟩, trivial⟩
    · exact fun l op hl hop => OpTree.leftOf_unary_iff.2 (hstops l op hl hop)
  | none =>
    rw [hop] at h
    obtain ⟨left, r₁, hleft, h⟩ := exists_of_bind h
    obtain ⟨-, -, hending, -⟩ := simpleExpr_eq_ok hends hleft
    refine htail limit (.simple left) r r₁ r' e (fun l hl => hends l (hending ▸ hl)) ?_ ?_ h
    · exact ⟨.simple hleft .done, hending, trivial, trivial⟩
    · exact fun _ op _ _ => OpTree.leftOf_simple left op

theorem infixTailReads_succ (hsub : SubExprReads n) (htail : InfixTailReads n) :
    InfixTailReads (n + 1) := by
  intro limit t r₀ r r' e hends ht hnext h
  rw [infixTail] at h
  obtain ⟨l, hl⟩ := next_of_peek_bind h
  rw [peek_bind_apply hl] at h
  cases hop : InfixOp.ofToken? l.token with
  | none =>
    rw [hop] at h
    obtain ⟨rfl, rfl⟩ := Prod.mk.inj (Except.ok.inj h)
    refine ⟨t, ht, rfl, fun l' op hl' hop' => ?_⟩
    obtain rfl := Except.ok.inj (hl.symm.trans hl')
    cases hop.symm.trans hop'
  | some op =>
    rw [hop] at h
    dsimp only at h
    split at h
    · next hle =>
      obtain ⟨rfl, rfl⟩ := Prod.mk.inj (Except.ok.inj h)
      refine ⟨t, ht, rfl, fun l' op' hl' hop' => ?_⟩
      obtain rfl := Except.ok.inj (hl.symm.trans hl')
      obtain rfl := Option.some.inj (hop.symm.trans hop')
      exact hle
    · next hlt =>
      obtain ⟨ls, hls⟩ := exists_lexemes hends hl fun heq => by rw [heq] at hop; cases hop
      rw [advance_bind_apply hls] at h
      obtain ⟨right, r₁, hright, h⟩ := exists_of_bind h
      obtain ⟨s, hs, rfl, hstops⟩ := hsub _ _ _ _ (hends.passed ls l.extent) hright
      have hending := hs.ending.trans ht.ending
      refine htail limit (.binary op t s) r₀ r₁ r' e (fun l hl => hends l (hs.ending ▸ hl)) ?_ ?_ h
      · exact ⟨ht.reads.append (.binary hls hop hs.reads), hending,
          ⟨ht.grouped, hs.grouped, hnext l op hl hop, OpTree.within_right_iff.1 hs.within⟩,
          Nat.not_le.1 hlt⟩
      · exact fun l op hl hop => OpTree.leftOf_binary_iff.2 (hstops l op hl hop)

theorem subExpr_reads : ∀ n, SubExprReads n ∧ InfixTailReads n
  | 0 => by
    constructor
    · intro limit r r' e _ h
      rw [subExpr] at h
      exact absurd h (failNear_ne_ok _ r _)
    · intro limit t r₀ r r' e _ _ _ h
      rw [infixTail] at h
      exact absurd h (failNear_ne_ok _ r _)
  | n + 1 =>
    have ⟨hsub, htail⟩ := subExpr_reads n
    ⟨subExprReads_succ hsub htail, infixTailReads_succ hsub htail⟩

/-- From `r` to `r'` the lexemes `w` are an operator expression, and no more lexemes are. The tree `t` is the
only one that they spell and that respects the precedence. It is the expression `e`, where the signs in
front of a numeral are taken into the numeral. -/
structure IsReading (r r' : Reader) (e : Expr) (w : List Lexeme) (t : OpTree) : Prop where
  text : r.lexemes = w ++ r'.lexemes
  spells : Spells t w
  grouped : t.Grouped
  fold : e = t.fold
  plain : t.Unsigned → e = t.plain
  unique : ∀ t', Spells t' w → t'.Grouped → t' = t
  longest : ∀ w' t', Spells t' w' → w' <+: r.lexemes → w' <+: w

/-- An expression is the longest operator expression from its place on, as the one tree that respects the
precedence. -/
theorem expr_grouped (hends : r.Ends) (h : expr n r = .ok (e, r')) : ∃ w t, IsReading r r' e w t := by
  cases n with
  | zero =>
    rw [expr] at h
    exact absurd h (failNear_ne_ok _ r _)
  | succ n =>
    rw [expr] at h
    obtain ⟨t, ht, rfl, hstops⟩ := (subExpr_reads n).1 0 r r' e hends h
    obtain ⟨w, hw, hspells⟩ := ht.reads.spells hends
    have hstop : ∀ l, r'.next = .ok l → InfixOp.ofToken? l.token = none := by
      intro l hl
      cases hop : InfixOp.ofToken? l.token with
      | none => rfl
      | some op => exact absurd (hstops l op hl hop) (Nat.not_le.2 op.priority_pos)
    refine ⟨w, t, hw, hspells, ht.grouped, rfl, OpTree.Unsigned.fold_eq, fun t' ht' hgrouped => ?_, ?_⟩
    · have hpieces := (ht.reads.longest hends hstop ht' (hw ▸ List.prefix_append w _) hw).2 rfl
      exact hgrouped.unique ht.grouped hpieces
    · exact fun w' t' ht' hw' => (ht.reads.longest hends hstop ht' hw' hw).1

/-- Tokens at some place. -/
def lexemesOf (ts : List Token) : List Lexeme := ts.map (⟨·, ⟨1, 1, 1, 1⟩⟩)

/-- `a ^ -b ^ c == d .. e )`: the sign is the right operand of one power and has the other one as its
operand. -/
theorem expr_grouped_power :
    (Reader.alone (lexemesOf [.identifier "a", .punctuator .caret, .punctuator .minus, .identifier "b",
      .punctuator .caret, .identifier "c", .punctuator .equal, .identifier "d", .punctuator .concat,
      .identifier "e", .punctuator .rightParen])).Ends ∧
    ∃ w t, IsReading
      (.alone (lexemesOf [.identifier "a", .punctuator .caret, .punctuator .minus, .identifier "b",
        .punctuator .caret, .identifier "c", .punctuator .equal, .identifier "d", .punctuator .concat,
        .identifier "e", .punctuator .rightParen]))
      (.alone (lexemesOf [.punctuator .rightParen]))
      (.binary .eq
        (.binary .pow (.name "a") (.unary .neg (.binary .pow (.name "b") (.name "c"))))
        (.binary .concat (.name "d") (.name "e"))) w t :=
  ⟨Reader.ends_alone _, expr_grouped (n := 16) (Reader.ends_alone _) rfl⟩

end Parse

namespace OpTree

/-- The tree as an expression, where one sign directly in front of a numeral belongs to the numeral. -/
def foldOnce : OpTree → Expr
  | simple e => e
  | unary .neg (simple (.number x)) => .number x.neg
  | unary op t => .unary op t.foldOnce
  | binary op l r => .ofInfix op l.foldOnce r.foldOnce

end OpTree

namespace Parse

theorem isSimple_number (x : Number) : IsSimple (lexemesOf [.number x]) (.number x) := ⟨1, _, rfl, rfl⟩

/-- Of `- - 1` no sign is left, though the first one does not stand in front of a numeral. -/
theorem expr_two_signs : ¬ ∀ (n : Nat) (r r' : Reader) (e : Expr) (w : List Lexeme) (t : OpTree), r.Ends →
    expr n r = .ok (e, r') → r.lexemes = w ++ r'.lexemes → Spells t w → t.Grouped → e = t.foldOnce := by
  intro h
  have hspells : Spells (.unary .neg (.unary .neg (.simple (.number .one))))
      (lexemesOf [.punctuator .minus, .punctuator .minus, .number .one]) :=
    .unary rfl (.unary rfl (.simple (isSimple_number .one) .done))
  have hgrouped : (OpTree.unary .neg (.unary .neg (.simple (.number .one)))).Grouped :=
    ⟨⟨trivial, by decide⟩, by decide⟩
  have hread : expr 8 (.alone (lexemesOf [.punctuator .minus, .punctuator .minus, .number .one])) =
      .ok (.number Number.one.neg.neg, .alone []) := rfl
  cases h 8 _ _ _ _ _ (Reader.ends_alone _) hread (List.append_nil _).symm hspells hgrouped

end Parse

end LuaMachine
