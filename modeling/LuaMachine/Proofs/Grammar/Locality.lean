import LuaMachine.Proofs.Grammar.Continuation

/-!
# What a parsing step depends on

A parsing step that succeeds has passed some lexemes, and at most the next one behind them has an
influence on what it gives. So it gives the same, and passes the same lexemes, wherever these stand
(`Parse.Local`). How much of the next lexeme matters is part of the relation: nothing does behind a
construct that its last lexeme closes, and behind a simple expression it only matters whether a call or an
index follows. The bound on the nesting of calls does not matter as long as it is large enough.

Main statement: `Parse.localized`.
-/

namespace LuaMachine

/-- Whether a call or an index starts with this token. -/
def Token.startsSuffix : Token → Bool
  | .punctuator .dot | .punctuator .leftBracket | .punctuator .colon | .punctuator .leftParen
  | .punctuator .leftBrace | .string _ => true
  | _ => false

namespace Parse

/-- Nothing behind the lexemes that are passed matters. -/
abbrev Free : Reader → Reader → Prop := fun _ _ => True

/-- The next lexeme is the same. -/
def SameNext (r s : Reader) : Prop := s.next = r.next

/-- No call and no index follows, or the next lexeme is the same. -/
def SuffixEnd (r s : Reader) : Prop :=
  s.next = r.next ∨ ∃ l, s.next = .ok l ∧ l.token.startsSuffix = false

/-- Where `p` succeeds it passes at least `c` lexemes. From any place with these lexemes in front `p'`
gives the same and passes the same, if what stands behind them is alike. The extent of the lexeme before
them matters only to a step that may pass none. -/
def Local (A : Reader → Prop) (S : Reader → Reader → Prop) (c : Nat) (p p' : Parse α) : Prop :=
  ∀ r a r₁, A r → r.Ends → p r = .ok (a, r₁) →
    ∃ w, r.lexemes = w ++ r₁.lexemes ∧ r₁.ending = r.ending ∧ c ≤ w.length ∧
      ∀ s s₁ : Reader, s.lexemes = w ++ s₁.lexemes → s₁.ending = s.ending → (c = 0 → s.last = r.last) →
        s₁.last = r₁.last → S r₁ s₁ → p' s = .ok (a, s₁)

variable {A : Reader → Prop} {S S' : Reader → Reader → Prop} {c c' c₁ c₂ e : Nat} {α β : Type}

/-! ## The rules -/

theorem Local.mono {p p' : Parse α} (h : Local A S' c' p p') (hc : c ≤ c')
    (hS : ∀ r s, S r s → S' r s) : Local A S c p p' := by
  intro r a r₁ hA hends hp
  obtain ⟨w, hw, hend, hlen, hsame⟩ := h r a r₁ hA hends hp
  exact ⟨w, hw, hend, Nat.le_trans hc hlen, fun s s₁ hs hs₁ hlast hlast₁ hnext =>
    hsame s s₁ hs hs₁ (fun h0 => hlast (Nat.le_zero.1 (h0 ▸ hc))) hlast₁ (hS _ _ hnext)⟩

theorem Local.less {p p' : Parse α} (h : Local A S c' p p') (hc : c ≤ c') : Local A S c p p' :=
  h.mono hc fun _ _ h => h

theorem Local.zero {p p' : Parse α} (h : Local A S c p p') : Local A S 0 p p' :=
  h.less (Nat.zero_le _)

theorem Local.anywhere {p p' : Parse α} (h : Local Any S c p p') : Local A S c p p' :=
  fun r a r₁ _ => h r a r₁ trivial

theorem Local.free {p p' : Parse α} (h : Local A Free c p p') : Local A S c p p' :=
  h.mono (Nat.le_refl _) fun _ _ _ => trivial

/-- A step that fails passes nothing. -/
theorem local_of_error {p p' : Parse α} (h : ∀ r x, p r ≠ .ok x) : Local A S c p p' :=
  fun r a r₁ _ _ hp => absurd hp (h r (a, r₁))

/-- What follows a step reads what the step has left. -/
theorem Local.bind_of {T : Reader → Reader → Prop} {p p' : Parse α} {f f' : α → Parse β}
    (hp : Local A T c₁ p p') (hf : ∀ a, Local Any S c₂ (f a) (f' a))
    (hT : ∀ (w : List Lexeme) (r r₂ s s₂ : Reader), c₂ ≤ w.length → r.lexemes = w ++ r₂.lexemes →
      r₂.ending = r.ending → s.lexemes = w ++ s₂.lexemes → s₂.ending = s.ending → S r₂ s₂ → T r s)
    (hc : c ≤ c₁) : Local A S c (p >>= f) (p' >>= f') := by
  intro r b r₂ hA hends hb
  have hb : (p r >>= fun x => f x.1 x.2) = .ok (b, r₂) := hb
  cases hx : p r with
  | error e =>
    rw [hx] at hb
    cases hb
  | ok x =>
    obtain ⟨a, r₁⟩ := x
    rw [hx] at hb
    have hb : f a r₁ = .ok (b, r₂) := hb
    obtain ⟨w₁, hw₁, hend₁, hlen₁, hsame₁⟩ := hp r a r₁ hA hends hx
    have hends₁ : r₁.Ends := fun l hl => hends l (hend₁ ▸ hl)
    obtain ⟨w₂, hw₂, hend₂, hlen₂, hsame₂⟩ := hf a r₁ b r₂ trivial hends₁ hb
    refine ⟨w₁ ++ w₂, by rw [hw₁, hw₂, List.append_assoc], hend₂.trans hend₁, ?_, ?_⟩
    · rw [List.length_append]
      omega
    intro s s₂ hs hs₂ hlasts hlast₂ hS
    -- the place between the two steps
    have hbetween : p' s = .ok (a, ⟨w₂ ++ s₂.lexemes, s.ending, r₁.last⟩) := by
      refine hsame₁ s _ (by rw [hs, List.append_assoc]) rfl (fun h0 => hlasts ?_) rfl ?_
      · omega
      · exact hT w₂ r₁ r₂ _ s₂ hlen₂ hw₂ hend₂ rfl hs₂ hS
    show (p' s >>= fun x => f' x.1 x.2) = _
    rw [hbetween]
    exact hsame₂ _ s₂ rfl hs₂ (fun _ => rfl) hlast₂ hS

/-- A step that does not look behind what it passes, and any other step after it. -/
theorem Local.bind_free {p p' : Parse α} {f f' : α → Parse β} (hp : Local A Free c₁ p p')
    (hf : ∀ a, Local Any S 0 (f a) (f' a)) (hc : c ≤ c₁) : Local A S c (p >>= f) (p' >>= f') :=
  hp.bind_of hf (fun _ _ _ _ _ _ _ _ _ _ _ => trivial) hc

theorem next_append {w : List Lexeme} {r r₂ : Reader} (h : r.lexemes = w ++ r₂.lexemes)
    (hend : r₂.ending = r.ending) : r.next = (w.head?.map Except.ok).getD r₂.next := by
  cases w with
  | nil =>
    rw [Reader.next, Reader.next, h, hend]
    rfl
  | cons l w => exact Reader.next_of_lexemes_eq h

/-- The lexeme that the first step looks at is the first one that the second step passes. -/
theorem Local.bind_passing {p p' : Parse α} {f f' : α → Parse β} (hp : Local A SameNext c₁ p p')
    (hf : ∀ a, Local Any S 1 (f a) (f' a)) (hc : c ≤ c₁) :
    Local A S c (p >>= f) (p' >>= f') := by
  refine hp.bind_of hf (fun w r r₂ s s₂ hlen hr hend hs hends _ => ?_) hc
  obtain ⟨l, w, rfl⟩ := List.exists_cons_of_length_pos (hlen)
  rw [SameNext, next_append hr hend, next_append hs hends]
  rfl

/-- The lexeme that the first step looks at is passed afterwards or stands behind both steps. -/
theorem Local.bind {p p' : Parse α} {f f' : α → Parse β} (hp : Local A SameNext c₁ p p')
    (hf : ∀ a, Local Any SameNext 0 (f a) (f' a)) (hc : c ≤ c₁) :
    Local A SameNext c (p >>= f) (p' >>= f') := by
  refine hp.bind_of hf (fun w r r₂ s s₂ _ hr hend hs hends hnext => ?_) hc
  rw [SameNext, next_append hr hend, next_append hs hends, hnext]

theorem local_pure (a : α) : Local A S 0 (pure a) (pure a) := by
  intro r b r₁ _ _ h
  obtain ⟨rfl, rfl⟩ := Prod.mk.inj (Except.ok.inj h)
  refine ⟨[], rfl, rfl, Nat.le_refl _, ?_⟩
  rintro ⟨ls, ending, last⟩ ⟨ls₁, ending₁, last₁⟩ hs hs₁ hlast hlast₁ _
  obtain rfl : ls = ls₁ := hs
  obtain rfl : ending₁ = ending := hs₁
  obtain rfl : last₁ = last := hlast₁.trans (hlast rfl).symm
  rfl

theorem local_lastExtent : Local A S 0 lastExtent lastExtent := by
  intro r b r₁ _ _ h
  obtain ⟨rfl, rfl⟩ := Prod.mk.inj (Except.ok.inj h)
  refine ⟨[], rfl, rfl, Nat.le_refl _, ?_⟩
  rintro ⟨ls, ending, last⟩ ⟨ls₁, ending₁, last₁⟩ hs hs₁ hlast hlast₁ _
  obtain rfl : ls = ls₁ := hs
  obtain rfl : ending₁ = ending := hs₁
  obtain rfl : last₁ = last := hlast₁.trans (hlast rfl).symm
  exact congrArg (fun x => Except.ok (x, (⟨ls, ending₁, last₁⟩ : Reader))) (hlast rfl)

/-- What is done at a place after a look at the next lexeme, if this is passed or stays the same. -/
theorem local_peek_at {r : Reader} {l : Lexeme} {f f' : Lexeme → Parse β} (hl : r.next = .ok l)
    (hf : Local (Sees l) S c (f l) (f' l)) (hnext : 1 ≤ c ∨ ∀ r s, S r s → SameNext r s) :
    Local (· = r) S c (peek >>= f) (peek >>= f') := by
  rintro _ b r₁ rfl hends h
  rw [peek_bind_apply hl] at h
  obtain ⟨w, hw, hend, hlen, hsame⟩ := hf _ b r₁ (sees_of_next hl) hends h
  refine ⟨w, hw, hend, hlen, fun s s₁ hs hs₁ hlast hlast₁ hS => ?_⟩
  have hl' : s.next = .ok l := by
    rw [next_append hs hs₁, ← hl, next_append hw hend]
    cases w with
    | cons m w => rfl
    | nil =>
      rcases hnext with hpos | hnext
      · exact absurd hlen (by rw [List.length_nil]; omega)
      · exact hnext _ _ hS
  rw [peek_bind_apply hl']
  exact hsame s s₁ hs hs₁ hlast hlast₁ hS

theorem local_peek_of {f f' : Lexeme → Parse β} (hf : ∀ l, Local (Sees l) S c (f l) (f' l))
    (hnext : 1 ≤ c ∨ ∀ r s, S r s → SameNext r s) : Local A S c (peek >>= f) (peek >>= f') := by
  intro r b r₁ _ hends h
  obtain ⟨l, hl⟩ := next_of_peek_bind h
  exact local_peek_at hl (hf l) hnext r b r₁ rfl hends h

/-- Behind an expression the next lexeme is passed if a call or an index starts there. Otherwise it does
not matter what it is. -/
theorem local_peek_suffix {f f' : Lexeme → Parse β} (b : β)
    (hgo : ∀ l : Lexeme, l.token.startsSuffix = true → Local (Sees l) SuffixEnd 1 (f l) (f' l))
    (hstop : ∀ l : Lexeme, l.token.startsSuffix = false → f l = pure b ∧ f' l = pure b) :
    Local A SuffixEnd 0 (peek >>= f) (peek >>= f') := by
  intro r a r₁ _ hends h
  obtain ⟨l, hl⟩ := next_of_peek_bind h
  cases hsuffix : l.token.startsSuffix with
  | true => exact (local_peek_at hl (hgo l hsuffix) (.inl (Nat.le_refl _))).zero r a r₁ rfl hends h
  | false =>
    rw [peek_bind_apply hl, (hstop l hsuffix).1] at h
    obtain ⟨rfl, rfl⟩ := Prod.mk.inj (Except.ok.inj h)
    refine ⟨[], rfl, rfl, Nat.le_refl _, fun s s₁ hs hs₁ hlast hlast₁ hS => ?_⟩
    obtain ⟨m, hm, hstops⟩ : ∃ m, s₁.next = .ok m ∧ m.token.startsSuffix = false := by
      rcases hS with hsame | hS
      · exact ⟨l, hsame.trans hl, hsuffix⟩
      · exact hS
    obtain ⟨ls, ending, last⟩ := s
    obtain ⟨ls₁, ending₁, last₁⟩ := s₁
    obtain rfl : ls = ls₁ := hs
    obtain rfl : ending₁ = ending := hs₁
    obtain rfl : last₁ = last := hlast₁.trans (hlast rfl).symm
    rw [peek_bind_apply hm, (hstop m hstops).2]
    rfl

theorem local_peek_bind {f f' : Lexeme → Parse β} (hf : ∀ l, Local (Sees l) SameNext c (f l) (f' l)) :
    Local A SameNext c (peek >>= f) (peek >>= f') :=
  local_peek_of hf (.inr fun _ _ h => h)

theorem local_peek_passing {f f' : Lexeme → Parse β} (hf : ∀ l, Local (Sees l) S c (f l) (f' l))
    (hpos : 1 ≤ c) : Local A S c (peek >>= f) (peek >>= f') :=
  local_peek_of hf (.inl hpos)

/-- A lexeme that is not the end of the input is passed. -/
theorem local_advance {l : Lexeme} (hl : l.token ≠ .endOfInput) :
    Local (Sees l) S 1 advance advance := by
  intro r b r₁ hsees hends h
  unfold advance at h
  split at h
  · next m rest heq =>
    obtain ⟨rfl, rfl⟩ := Prod.mk.inj (Except.ok.inj h)
    refine ⟨[m], heq, rfl, Nat.le_refl _, ?_⟩
    rintro ⟨ls, ending, last⟩ ⟨ls₁, ending₁, last₁⟩ hs hs₁ _ hlast₁ _
    obtain rfl : ls = m :: ls₁ := hs
    obtain rfl : ending₁ = ending := hs₁
    obtain rfl : last₁ = m.extent := hlast₁
    rfl
  · next heq =>
    -- the input does not end with this lexeme
    rcases hsees with hhead | ⟨-, hend⟩
    · rw [heq] at hhead
      cases hhead
    · exact absurd (hends l hend) hl

/-- The lexeme that was looked at is passed, and what follows does not depend on the one before it. -/
theorem local_pass {l : Lexeme} {t : Token} (hl : l.token = t) (ht : t ≠ .endOfInput)
    {f f' : Lexeme → Parse β} (hf : ∀ m, Local Any S 0 (f m) (f' m)) :
    Local (Sees l) S 1 (advance >>= f) (advance >>= f') :=
  (local_advance (hl ▸ ht)).bind_free hf (Nat.le_refl _)

theorem local_failAt (l : Lexeme) (cause : SyntaxCause) {p' : Parse α} :
    Local A S c (failAt l cause : Parse α) p' :=
  local_of_error fun _ _ => nofun

theorem local_failNear (cause : String → SyntaxCause) {p' : Parse α} :
    Local A S c (failNear cause : Parse α) p' :=
  local_of_error (failNear_ne_ok cause)

/-- Nothing comes after a step that fails. -/
theorem local_fails_bind (cause : String → SyntaxCause) {f : α → Parse β} {p' : Parse β} :
    Local A S c ((failNear cause : Parse α) >>= f) p' := by
  refine local_of_error fun r x h => ?_
  unfold failNear at h
  rw [bind_assoc] at h
  obtain ⟨l, hl⟩ := next_of_peek_bind h
  rw [peek_bind_apply hl] at h
  cases h

theorem local_tooDeep {p' : Parse α} : Local A S c (tooDeep : Parse α) p' := local_failNear _

/-! ## Single lexemes -/

theorem local_check_of {t : Token} {f f' : Bool → Parse β}
    (htrue : ∀ l : Lexeme, l.token = t → Local (Sees l) S c (f true) (f' true))
    (hfalse : Local Any S c (f false) (f' false)) (hnext : 1 ≤ c ∨ ∀ r s, S r s → SameNext r s) :
    Local A S c (check t >>= f) (check t >>= f') := by
  unfold check
  simp only [bind_assoc, pure_bind]
  refine local_peek_of (fun l => ?_) hnext
  by_cases hl : l.token = t
  · rw [decide_eq_true hl]
    exact htrue l hl
  · rw [decide_eq_false hl]
    exact hfalse.anywhere

theorem local_check_bind {t : Token} {f f' : Bool → Parse β}
    (htrue : ∀ l : Lexeme, l.token = t → Local (Sees l) SameNext c (f true) (f' true))
    (hfalse : Local Any SameNext c (f false) (f' false)) :
    Local A SameNext c (check t >>= f) (check t >>= f') :=
  local_check_of htrue hfalse (.inr fun _ _ h => h)

theorem local_accept_bind {t : Token} (ht : t ≠ .endOfInput) {f f' : Bool → Parse β}
    (htrue : Local Any SameNext 0 (f true) (f' true)) (hfalse : Local Any SameNext c (f false) (f' false))
    (hc : c ≤ 1) : Local A SameNext c (accept t >>= f) (accept t >>= f') := by
  unfold accept
  rw [bind_assoc, bind_assoc]
  refine local_check_bind ?_ ?_
  · intro l hl
    simp only [if_true, bind_assoc, pure_bind]
    exact (local_pass hl ht fun _ => htrue).less hc
  · simp only [Bool.false_eq_true, if_false, pure_bind]
    exact hfalse

theorem local_expect {t : Token} (ht : t ≠ .endOfInput) : Local A S 1 (expect t) (expect t) := by
  unfold expect
  refine local_check_of ?_ ?_ (.inl (Nat.le_refl _))
  · intro l hl
    exact local_pass hl ht fun _ => local_pure _
  · exact local_failNear _

theorem local_expectClosing {t : Token} (ht : t ≠ .endOfInput) (opener : String) (line : Nat) :
    Local A S 1 (expectClosing t opener line) (expectClosing t opener line) := by
  unfold expectClosing
  refine local_check_of ?_ ?_ (.inl (Nat.le_refl _))
  · intro l hl
    exact local_pass hl ht fun _ => local_pure _
  · refine local_peek_passing (fun l => ?_) (Nat.le_refl _)
    split
    · exact local_failAt l _
    · exact local_failAt l _

theorem local_expectName : Local A S 1 expectName expectName := by
  unfold expectName
  refine local_peek_passing (fun l => ?_) (Nat.le_refl _)
  split
  · next name hl => exact local_pass hl nofun fun _ => local_pure _
  · exact local_failNear _

theorem local_blockFollows : Local A SameNext 0 blockFollows blockFollows := by
  unfold blockFollows
  refine local_peek_bind fun l => ?_
  split
  all_goals exact local_pure _

/-! ## Lists of names -/

theorem local_moreNames {n n' : Nat} (hle : n ≤ n') :
    Local Any SameNext 0 (moreNames n) (moreNames n') := by
  induction n generalizing n' with
  | zero => exact local_tooDeep
  | succ n ih =>
    obtain ⟨n', rfl⟩ : ∃ m, n' = m + 1 := ⟨n' - 1, by omega⟩
    rw [moreNames, moreNames]
    refine local_accept_bind (by simp) ?_ ?_ (Nat.zero_le _)
    · refine local_expectName.bind (fun name => ?_) (Nat.zero_le _)
      exact (ih (by omega)).bind (fun names => local_pure _) (Nat.zero_le _)
    · exact local_pure _

theorem local_dottedKeys {n n' : Nat} (hle : n ≤ n') :
    Local Any SameNext 0 (dottedKeys n) (dottedKeys n') := by
  induction n generalizing n' with
  | zero => exact local_tooDeep
  | succ n ih =>
    obtain ⟨n', rfl⟩ : ∃ m, n' = m + 1 := ⟨n' - 1, by omega⟩
    rw [dottedKeys, dottedKeys]
    refine local_accept_bind (by simp) ?_ ?_ (Nat.zero_le _)
    · refine local_expectName.bind (fun name => ?_) (Nat.zero_le _)
      exact (ih (by omega)).bind (fun names => local_pure _) (Nat.zero_le _)
    · exact local_pure _

theorem local_params {n n' : Nat} (hle : n ≤ n') :
    Local Any SameNext 1 (params n) (params n') := by
  induction n generalizing n' with
  | zero => exact local_tooDeep
  | succ n ih =>
    obtain ⟨n', rfl⟩ : ∃ m, n' = m + 1 := ⟨n' - 1, by omega⟩
    rw [params, params]
    refine local_accept_bind (by simp) (local_pure _) ?_ (Nat.le_refl _)
    refine local_expectName.bind (fun name => ?_) (Nat.le_refl _)
    refine local_accept_bind (by simp) ?_ (local_pure _) (Nat.zero_le _)
    exact (ih (by omega)).bind (fun names => local_pure _) (Nat.zero_le _)

theorem local_localNames {n n' : Nat} (hle : n ≤ n') :
    Local Any SameNext 0 (localNames n) (localNames n') := by
  induction n generalizing n' with
  | zero => exact local_tooDeep
  | succ n ih =>
    obtain ⟨n', rfl⟩ : ∃ m, n' = m + 1 := ⟨n' - 1, by omega⟩
    rw [localNames, localNames]
    refine local_expectName.bind (fun name => ?_) (Nat.zero_le _)
    have hmore : Local Any SameNext 0
        (do if ← accept (.punctuator .comma) then return name :: (← localNames n) else return [name])
        (do if ← accept (.punctuator .comma) then return name :: (← localNames n') else return [name]) := by
      refine local_accept_bind (by simp) ?_ (local_pure _) (Nat.zero_le _)
      exact (ih (by omega)).bind (fun names => local_pure _) (Nat.zero_le _)
    refine local_accept_bind (by simp) ?_ hmore (Nat.zero_le _)
    refine local_expectName.bind (fun _ => ?_) (Nat.zero_le _)
    exact (local_expect (by simp)).bind (fun _ => hmore) (Nat.zero_le _)

/-! ## Expressions and statements -/

/-- What each parsing function depends on when its bound is `n` in one place and `n'` in another. -/
structure Localized (n n' : Nat) : Prop where
  le : n ≤ n'
  block : Local Any SameNext 0 (block n) (block n')
  returnStat : Local Any SameNext 1 (returnStat n) (returnStat n')
  statement : Local Any SameNext 1 (statement n) (statement n')
  clauses : ∀ (start : Extent) (line : Nat),
    Local Any SameNext 1 (clauses n start line) (clauses n' start line)
  forStat : ∀ start : Extent, Local Any SameNext 1 (forStat n start) (forStat n' start)
  exprStat : ∀ start : Extent, Local Any SameNext 1 (exprStat n start) (exprStat n' start)
  moreTargets : Local Any SameNext 0 (moreTargets n) (moreTargets n')
  functionBody : ∀ (start : Extent) (name : String) (isMethod : Bool), Local Any Free 1
    (functionBody n start name isMethod) (functionBody n' start name isMethod)
  exprList : Local Any SameNext 1 (exprList n) (exprList n')
  expr : Local Any SameNext 1 (expr n) (expr n')
  subExpr : ∀ limit : Nat, Local Any SameNext 1 (subExpr n limit) (subExpr n' limit)
  infixTail : ∀ (limit : Nat) (left : Expr),
    Local Any SameNext 0 (infixTail n limit left) (infixTail n' limit left)
  infixRest : ∀ left : Expr, Local Any SameNext 0 (infixRest n left) (infixRest n' left)
  simpleExpr : Local Any SuffixEnd 1 (simpleExpr n) (simpleExpr n')
  suffixedExpr : Local Any SuffixEnd 1 (suffixedExpr n) (suffixedExpr n')
  suffixes : ∀ e : Expr, Local Any SuffixEnd 0 (suffixes n e) (suffixes n' e)
  callArgs : Local Any Free 1 (callArgs n) (callArgs n')
  tableExpr : Local Any Free 1 (tableExpr n) (tableExpr n')
  tableFields : Local Any SameNext 0 (tableFields n) (tableFields n')
  tableField : Local Any SameNext 1 (tableField n) (tableField n')

section Step

variable {n n' : Nat} (h : Localized n n')

include h

theorem local_block : Local Any SameNext 0 (block (n + 1)) (block (n' + 1)) := by
  rw [block, block]
  refine local_blockFollows.bind (fun done => ?_) (Nat.le_refl _)
  cases done with
  | true => exact local_pure _
  | false =>
    refine local_check_bind ?_ ?_
    · intro l _
      exact (h.returnStat.bind (fun s => local_pure _) (Nat.zero_le _)).anywhere
    · refine local_accept_bind (by simp) h.block ?_ (Nat.zero_le _)
      refine h.statement.bind (fun s => ?_) (Nat.zero_le _)
      exact h.block.bind (fun rest => local_pure _) (Nat.zero_le _)

theorem local_returnStat : Local Any SameNext 1 (returnStat (n + 1)) (returnStat (n' + 1)) := by
  rw [returnStat, returnStat]
  refine (local_expect (by simp)).bind (fun start => ?_) (Nat.le_refl _)
  refine local_blockFollows.bind (fun done => ?_) (Nat.le_refl _)
  have hend : ∀ values : List Expr, Local Any SameNext 0
      (do
        let _ ← accept (.punctuator .semicolon)
        return Stat.return values (start.through (← lastExtent)))
      (do
        let _ ← accept (.punctuator .semicolon)
        return Stat.return values (start.through (← lastExtent))) := by
    intro values
    have hlast : Local Any SameNext 0
        (do return Stat.return values (start.through (← lastExtent)))
        (do return Stat.return values (start.through (← lastExtent))) :=
      local_lastExtent.bind (fun _ => local_pure _) (Nat.le_refl _)
    exact local_accept_bind (by simp) hlast hlast (Nat.zero_le _)
  cases done with
  | true => exact hend []
  | false =>
    refine local_check_bind ?_ ?_
    · intro l _
      exact (hend []).anywhere
    · exact h.exprList.bind hend (Nat.zero_le _)

theorem local_statement : Local Any SameNext 1 (statement (n + 1)) (statement (n' + 1)) := by
  rw [statement, statement]
  refine local_peek_bind fun l => ?_
  dsimp only
  split
  · next hl =>
    -- if
    refine local_pass hl (by simp) fun _ => ?_
    exact (h.clauses _ _).bind (fun branches => local_pure _) (Nat.zero_le _)
  · next hl =>
    -- while
    refine local_pass hl (by simp) fun _ => ?_
    refine h.expr.bind (fun condition => ?_) (Nat.zero_le _)
    refine (local_expect (by simp)).bind (fun _ => ?_) (Nat.zero_le _)
    refine local_lastExtent.bind (fun _ => ?_) (Nat.le_refl _)
    refine h.block.bind (fun body => ?_) (Nat.le_refl _)
    exact (local_expectClosing (by simp) _ _).bind (fun closing => local_pure _) (Nat.zero_le _)
  · next hl =>
    -- do
    refine local_pass hl (by simp) fun _ => ?_
    refine h.block.bind (fun body => ?_) (Nat.le_refl _)
    exact (local_expectClosing (by simp) _ _).bind (fun closing => local_pure _) (Nat.zero_le _)
  · next hl =>
    -- for
    exact local_pass hl (by simp) fun _ => (h.forStat _).zero
  · next hl =>
    -- repeat
    refine local_pass hl (by simp) fun _ => ?_
    refine h.block.bind (fun body => ?_) (Nat.le_refl _)
    refine (local_expectClosing (by simp) _ _).bind (fun closing => ?_) (Nat.zero_le _)
    refine h.expr.bind (fun condition => ?_) (Nat.zero_le _)
    exact local_lastExtent.bind (fun _ => local_pure _) (Nat.le_refl _)
  · next hl =>
    -- function
    refine local_pass hl (by simp) fun _ => ?_
    refine local_expectName.bind (fun target => ?_) (Nat.zero_le _)
    refine (local_dottedKeys h.le).bind (fun path => ?_) (Nat.le_refl _)
    have hbody : ∀ (name : String) (keys : List String) (isMethod : Bool), Local Any SameNext 0
        (do
          let body ← functionBody n l.extent name isMethod
          return Stat.function target keys body body.extent)
        (do
          let body ← functionBody n' l.extent name isMethod
          return Stat.function target keys body body.extent) := by
      intro name keys isMethod
      exact (h.functionBody _ _ _).bind_free (fun body => local_pure _) (Nat.zero_le _)
    refine local_accept_bind (by simp) ?_ ?_ (Nat.zero_le _)
    · rw [if_pos rfl, map_eq_pure_bind, bind_assoc, bind_assoc]
      exact local_expectName.bind (fun m => hbody _ _ _) (Nat.zero_le _)
    · exact hbody _ _ _
  · next hl =>
    -- local
    refine local_pass hl (by simp) fun _ => ?_
    refine local_accept_bind (by simp) ?_ ?_ (Nat.zero_le _)
    · refine local_expectName.bind (fun name => ?_) (Nat.zero_le _)
      exact (h.functionBody _ _ _).bind_free (fun body => local_pure _) (Nat.zero_le _)
    · refine (local_localNames h.le).bind (fun names => ?_) (Nat.le_refl _)
      refine local_accept_bind (by simp) ?_ ?_ (Nat.zero_le _)
      · refine h.exprList.bind (fun values => ?_) (Nat.zero_le _)
        exact local_lastExtent.bind (fun _ => local_pure _) (Nat.le_refl _)
      · simp only [Bool.false_eq_true, if_false, pure_bind]
        exact local_lastExtent.bind (fun _ => local_pure _) (Nat.le_refl _)
  · next hl =>
    -- break
    exact local_pass hl (by simp) fun _ => local_pure _
  · exact local_failAt l _
  · exact local_failAt l _
  · exact (h.exprStat _).anywhere

theorem local_clauses (start : Extent) (line : Nat) :
    Local Any SameNext 1 (clauses (n + 1) start line) (clauses (n' + 1) start line) := by
  rw [clauses, clauses]
  refine h.expr.bind (fun condition => ?_) (Nat.le_refl _)
  refine (local_expect (by simp)).bind (fun _ => ?_) (Nat.zero_le _)
  refine local_lastExtent.bind (fun last => ?_) (Nat.le_refl _)
  refine h.block.bind (fun body => ?_) (Nat.le_refl _)
  refine local_check_bind ?_ ?_
  · intro l hl
    refine (local_pass hl (by simp) fun next => ?_).zero
    exact (h.clauses _ _).bind (fun rest => local_pure _) (Nat.zero_le _)
  · refine local_accept_bind (by simp) ?_ ?_ (Nat.zero_le _)
    · refine h.block.bind (fun other => ?_) (Nat.le_refl _)
      exact (local_expectClosing (by simp) _ _).bind (fun _ => local_pure _) (Nat.zero_le _)
    · exact (local_expectClosing (by simp) _ _).bind (fun _ => local_pure _) (Nat.zero_le _)

theorem local_forStat (start : Extent) :
    Local Any SameNext 1 (forStat (n + 1) start) (forStat (n' + 1) start) := by
  rw [forStat, forStat]
  refine local_expectName.bind (fun first => ?_) (Nat.le_refl _)
  refine local_accept_bind (by simp) ?_ ?_ (Nat.zero_le _)
  · refine h.expr.bind (fun initial => ?_) (Nat.zero_le _)
    refine (local_expect (by simp)).bind (fun _ => ?_) (Nat.zero_le _)
    refine h.expr.bind (fun limit => ?_) (Nat.zero_le _)
    have hrest : ∀ step : Expr, Local Any SameNext 0
        (do
          let _ ← expect (.keyword .do)
          let extent := start.through (← lastExtent)
          let body ← block n
          let closing ← expectClosing (.keyword .end) Keyword.for.text start.line
          return Stat.numericFor first initial limit step body extent closing)
        (do
          let _ ← expect (.keyword .do)
          let extent := start.through (← lastExtent)
          let body ← block n'
          let closing ← expectClosing (.keyword .end) Keyword.for.text start.line
          return Stat.numericFor first initial limit step body extent closing) := by
      intro step
      refine (local_expect (by simp)).bind (fun _ => ?_) (Nat.zero_le _)
      refine local_lastExtent.bind (fun _ => ?_) (Nat.le_refl _)
      refine h.block.bind (fun body => ?_) (Nat.le_refl _)
      exact (local_expectClosing (by simp) _ _).bind (fun closing => local_pure _) (Nat.zero_le _)
    refine local_accept_bind (by simp) ?_ (hrest _) (Nat.zero_le _)
    exact h.expr.bind hrest (Nat.zero_le _)
  · refine (local_moreNames h.le).bind (fun names => ?_) (Nat.le_refl _)
    refine local_check_bind ?_ ?_
    · intro l hl
      refine (local_pass hl (by simp) fun _ => ?_).zero
      refine h.exprList.bind (fun values => ?_) (Nat.zero_le _)
      refine (local_expect (by simp)).bind (fun _ => ?_) (Nat.zero_le _)
      refine local_lastExtent.bind (fun _ => ?_) (Nat.le_refl _)
      refine h.block.bind (fun body => ?_) (Nat.le_refl _)
      exact (local_expectClosing (by simp) _ _).bind (fun closing => local_pure _) (Nat.zero_le _)
    · exact local_fails_bind _

theorem local_exprStat (start : Extent) :
    Local Any SameNext 1 (exprStat (n + 1) start) (exprStat (n' + 1) start) := by
  rw [exprStat, exprStat]
  refine (h.suffixedExpr.mono (Nat.le_refl _) fun _ _ => .inl).bind (fun first => ?_) (Nat.le_refl _)
  have hassign : Local Any SameNext 0
      (do
        let targets := first :: (← moreTargets n)
        if targets.any (!·.isAssignable) then failNear .notAStatement
        let _ ← expect (.punctuator .assign)
        let values ← exprList n
        return Stat.assign targets values (start.through (← lastExtent)))
      (do
        let targets := first :: (← moreTargets n')
        if targets.any (!·.isAssignable) then failNear .notAStatement
        let _ ← expect (.punctuator .assign)
        let values ← exprList n'
        return Stat.assign targets values (start.through (← lastExtent))) := by
    refine h.moreTargets.bind (fun rest => ?_) (Nat.le_refl _)
    dsimp only
    split
    · exact local_fails_bind _
    · refine (local_expect (by simp)).bind (fun _ => ?_) (Nat.zero_le _)
      refine h.exprList.bind (fun values => ?_) (Nat.zero_le _)
      exact local_lastExtent.bind (fun _ => local_pure _) (Nat.le_refl _)
  have hcall : Local Any SameNext 0
      (if first.isCall then return Stat.call first (start.through (← lastExtent))
        else failNear .notAStatement)
      (if first.isCall then return Stat.call first (start.through (← lastExtent))
        else failNear .notAStatement) := by
    split
    · exact local_lastExtent.bind (fun _ => local_pure _) (Nat.le_refl _)
    · exact local_failNear _
  refine local_check_bind (fun l _ => hassign.anywhere) ?_
  exact local_check_bind (fun l _ => hassign.anywhere) hcall

theorem local_moreTargets : Local Any SameNext 0 (moreTargets (n + 1)) (moreTargets (n' + 1)) := by
  rw [moreTargets, moreTargets]
  refine local_accept_bind (by simp) ?_ (local_pure _) (Nat.zero_le _)
  refine (h.suffixedExpr.mono (Nat.zero_le _) fun _ _ => .inl).bind (fun target => ?_) (Nat.le_refl _)
  exact h.moreTargets.bind (fun rest => local_pure _) (Nat.le_refl _)

theorem local_functionBody (start : Extent) (name : String) (isMethod : Bool) :
    Local Any Free 1 (functionBody (n + 1) start name isMethod)
      (functionBody (n' + 1) start name isMethod) := by
  rw [functionBody, functionBody]
  refine (local_expect (by simp)).bind_free (fun _ => ?_) (Nat.le_refl _)
  have hrest : ∀ p : List String × Bool, Local Any Free 1
      (do
        let _ ← expect (.punctuator .rightParen)
        let extent := start.through (← lastExtent)
        let body ← block n
        let closing ← expectClosing (.keyword .end) Keyword.function.text start.line
        let names := if isMethod then "self" :: p.1 else p.1
        return FunctionBody.mk name names p.2 body extent closing)
      (do
        let _ ← expect (.punctuator .rightParen)
        let extent := start.through (← lastExtent)
        let body ← block n'
        let closing ← expectClosing (.keyword .end) Keyword.function.text start.line
        let names := if isMethod then "self" :: p.1 else p.1
        return FunctionBody.mk name names p.2 body extent closing) := by
    intro p
    refine (local_expect (by simp)).bind_free (fun _ => ?_) (Nat.le_refl _)
    refine local_lastExtent.bind_free (fun _ => ?_) (Nat.le_refl _)
    refine h.block.bind_passing (fun body => ?_) (Nat.le_refl _)
    exact (local_expectClosing (by simp) _ _).bind_free (fun closing => local_pure _) (Nat.le_refl _)
  refine (local_check_of (fun l _ => (hrest ([], false)).anywhere) ?_ (.inl (Nat.le_refl _))).zero
  exact (local_params h.le).bind_passing hrest (Nat.le_refl _)

theorem local_exprList : Local Any SameNext 1 (exprList (n + 1)) (exprList (n' + 1)) := by
  rw [exprList, exprList]
  refine h.expr.bind (fun e => ?_) (Nat.le_refl _)
  refine local_accept_bind (by simp) ?_ (local_pure _) (Nat.zero_le _)
  exact h.exprList.bind (fun es => local_pure _) (Nat.zero_le _)

theorem local_expr : Local Any SameNext 1 (expr (n + 1)) (expr (n' + 1)) := by
  rw [expr, expr]
  exact h.subExpr 0

theorem local_subExpr (limit : Nat) :
    Local Any SameNext 1 (subExpr (n + 1) limit) (subExpr (n' + 1) limit) := by
  rw [subExpr, subExpr]
  refine local_peek_bind fun l => ?_
  cases hop : UnaryOp.ofToken? l.token with
  | some op =>
    refine local_pass rfl (fun hl => ?_) fun _ => ?_
    · rw [hl] at hop
      cases hop
    · exact (h.subExpr _).bind (fun operand => h.infixTail _ _) (Nat.zero_le _)
  | none =>
    have hsimple := h.simpleExpr.mono (S := SameNext) (Nat.le_refl _) fun _ _ => .inl
    exact (hsimple.bind (fun left => h.infixTail _ _) (Nat.le_refl _)).anywhere

theorem local_infixTail (limit : Nat) (left : Expr) :
    Local Any SameNext 0 (infixTail (n + 1) limit left) (infixTail (n' + 1) limit left) := by
  rw [infixTail, infixTail]
  refine local_peek_bind fun l => ?_
  cases hop : InfixOp.ofToken? l.token with
  | none => exact local_pure _
  | some op =>
    dsimp only
    split
    · exact local_pure _
    · refine (local_pass rfl (fun hl => ?_) fun _ => ?_).zero
      · rw [hl] at hop
        cases hop
      · exact (h.subExpr _).bind (fun right => h.infixTail _ _) (Nat.zero_le _)

theorem local_infixRest (left : Expr) :
    Local Any SameNext 0 (infixRest (n + 1) left) (infixRest (n' + 1) left) := by
  rw [infixRest, infixRest]
  refine local_peek_bind fun l => ?_
  cases hop : InfixOp.ofToken? l.token with
  | none => exact local_pure _
  | some op =>
    refine (local_pass rfl (fun hl => ?_) fun _ => ?_).zero
    · rw [hl] at hop
      cases hop
    · exact (h.subExpr _).bind (fun right => h.infixRest _) (Nat.zero_le _)

theorem local_simpleExpr : Local Any SuffixEnd 1 (simpleExpr (n + 1)) (simpleExpr (n' + 1)) := by
  rw [simpleExpr, simpleExpr]
  refine local_peek_passing (fun l => ?_) (Nat.le_refl _)
  split
  · next hl => exact local_pass hl (by simp) fun _ => local_pure _
  · next hl => exact local_pass hl (by simp) fun _ => local_pure _
  · next hl => exact local_pass hl (by simp) fun _ => local_pure _
  · next hl => exact local_pass hl (by simp) fun _ => local_pure _
  · next hl => exact local_pass hl (by simp) fun _ => local_pure _
  · next hl => exact local_pass hl (by simp) fun _ => local_pure _
  · exact h.tableExpr.free.anywhere
  · next hl =>
    refine local_pass hl (by simp) fun start => ?_
    exact (h.functionBody _ _ _).bind_free (fun body => local_pure _) (Nat.zero_le _)
  · exact h.suffixedExpr.anywhere

theorem local_suffixedExpr :
    Local Any SuffixEnd 1 (suffixedExpr (n + 1)) (suffixedExpr (n' + 1)) := by
  rw [suffixedExpr, suffixedExpr]
  refine local_peek_passing (fun l => ?_) (Nat.le_refl _)
  split
  · next name hl => exact local_pass hl (by simp) fun _ => h.suffixes _
  · next hl =>
    refine local_pass hl (by simp) fun start => ?_
    refine h.expr.bind_passing (fun inner => ?_) (Nat.zero_le _)
    exact (local_expectClosing (by simp) _ _).bind_free (fun _ => h.suffixes _) (Nat.le_refl _)
  · exact local_failNear _

theorem local_suffixes (e : Expr) :
    Local Any SuffixEnd 0 (suffixes (n + 1) e) (suffixes (n' + 1) e) := by
  rw [suffixes, suffixes]
  refine local_peek_suffix e (fun l hsuffix => ?_) (fun l hsuffix => ?_)
  · have hcall : Local (Sees l) SuffixEnd 1
        (do let args ← callArgs n; suffixes n (.call e args))
        (do let args ← callArgs n'; suffixes n' (.call e args)) :=
      (h.callArgs.bind_free (fun args => h.suffixes _) (Nat.le_refl _)).anywhere
    split
    · next hl =>
      refine local_pass hl (by simp) fun _ => ?_
      exact local_expectName.bind_free (fun key => h.suffixes _) (Nat.zero_le _)
    · next hl =>
      refine local_pass hl (by simp) fun _ => ?_
      refine h.expr.bind_passing (fun key => ?_) (Nat.zero_le _)
      exact (local_expect (by simp)).bind_free (fun _ => h.suffixes _) (Nat.le_refl _)
    · next hl =>
      refine local_pass hl (by simp) fun _ => ?_
      refine local_expectName.bind_free (fun method => ?_) (Nat.zero_le _)
      exact h.callArgs.bind_free (fun args => h.suffixes _) (Nat.zero_le _)
    · exact hcall
    · exact hcall
    · exact hcall
    · next hdot hbracket hcolon hparen hbrace hstring =>
      unfold Token.startsSuffix at hsuffix
      split at hsuffix
      all_goals simp_all
  · unfold Token.startsSuffix at hsuffix
    split at hsuffix
    all_goals simp_all

theorem local_callArgs : Local Any Free 1 (callArgs (n + 1)) (callArgs (n' + 1)) := by
  rw [callArgs, callArgs]
  refine local_peek_passing (fun l => ?_) (Nat.le_refl _)
  split
  · next hl => exact local_pass hl (by simp) fun _ => local_pure _
  · exact (h.tableExpr.bind_free (fun t => local_pure _) (Nat.le_refl _)).anywhere
  · next hl =>
    refine local_pass hl (by simp) fun _ => ?_
    have hclose : ∀ args : List Expr, Local Any Free 1
        (do let _ ← expect (.punctuator .rightParen); return args)
        (do let _ ← expect (.punctuator .rightParen); return args) :=
      fun args => (local_expect (by simp)).bind_free (fun _ => local_pure _) (Nat.le_refl _)
    refine (local_check_of (fun l _ => (hclose []).anywhere) ?_ (.inl (Nat.le_refl _))).zero
    exact h.exprList.bind_passing hclose (Nat.le_refl _)
  · exact local_failNear _

theorem local_tableExpr : Local Any Free 1 (tableExpr (n + 1)) (tableExpr (n' + 1)) := by
  rw [tableExpr, tableExpr]
  refine (local_expect (by simp)).bind_free (fun start => ?_) (Nat.le_refl _)
  refine h.tableFields.bind_passing (fun fields => ?_) (Nat.le_refl _)
  exact (local_expectClosing (by simp) _ _).bind_free (fun _ => local_pure _) (Nat.le_refl _)

theorem local_tableFields : Local Any SameNext 0 (tableFields (n + 1)) (tableFields (n' + 1)) := by
  rw [tableFields, tableFields]
  refine local_check_bind (fun l _ => local_pure _) ?_
  refine h.tableField.bind (fun field => ?_) (Nat.zero_le _)
  have hmore : Local Any SameNext 0 (do return field :: (← tableFields n))
      (do return field :: (← tableFields n')) :=
    h.tableFields.bind (fun rest => local_pure _) (Nat.le_refl _)
  refine local_accept_bind (by simp) hmore ?_ (Nat.zero_le _)
  exact local_accept_bind (by simp) hmore (local_pure _) (Nat.zero_le _)

theorem local_tableField : Local Any SameNext 1 (tableField (n + 1)) (tableField (n' + 1)) := by
  rw [tableField, tableField]
  refine local_accept_bind (by simp) ?_ ?_ (Nat.le_refl _)
  · refine h.expr.bind (fun key => ?_) (Nat.zero_le _)
    refine (local_expect (by simp)).bind (fun _ => ?_) (Nat.zero_le _)
    refine (local_expect (by simp)).bind (fun _ => ?_) (Nat.zero_le _)
    exact h.expr.bind (fun value => local_pure _) (Nat.zero_le _)
  · refine local_peek_bind fun l => ?_
    split
    · next name hl =>
      refine local_pass hl (by simp) fun _ => ?_
      refine local_accept_bind (by simp) ?_ ?_ (Nat.zero_le _)
      · exact h.expr.bind (fun value => local_pure _) (Nat.zero_le _)
      · refine ((h.suffixes _).mono (Nat.le_refl _) fun _ _ => .inl).bind (fun left => ?_) (Nat.le_refl _)
        exact (h.infixRest _).bind (fun value => local_pure _) (Nat.le_refl _)
    · exact (h.expr.bind (fun value => local_pure _) (Nat.le_refl _)).anywhere

end Step

/-- What the parsing functions give depends on the lexemes that they pass and on the next one, and not on
the bound. -/
theorem localized {n n' : Nat} (hle : n ≤ n') : Localized n n' := by
  induction n generalizing n' with
  | zero =>
    constructor
    · exact hle
    all_goals
      intros
      exact local_tooDeep
  | succ n ih =>
    obtain ⟨n', rfl⟩ : ∃ m, n' = m + 1 := ⟨n' - 1, by omega⟩
    have h := ih (Nat.le_of_succ_le_succ hle)
    exact
      { le := hle
        block := local_block h
        returnStat := local_returnStat h
        statement := local_statement h
        clauses := local_clauses h
        forStat := local_forStat h
        exprStat := local_exprStat h
        moreTargets := local_moreTargets h
        functionBody := local_functionBody h
        exprList := local_exprList h
        expr := local_expr h
        subExpr := local_subExpr h
        infixTail := local_infixTail h
        infixRest := local_infixRest h
        simpleExpr := local_simpleExpr h
        suffixedExpr := local_suffixedExpr h
        suffixes := local_suffixes h
        callArgs := local_callArgs h
        tableExpr := local_tableExpr h
        tableFields := local_tableFields h
        tableField := local_tableField h }

end Parse

end LuaMachine
