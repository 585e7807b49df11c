import LuaMachine.Token.Scanner

/-!
# Tokens of a text that goes on

What is read of a text does not depend on the lines that come behind it. When a line end and more
text are put behind a text (`Cursor.followedBy`), each token that ends in the text is read as before,
and so is each fault that is not blamed on the end of the text: a line end takes no part in words,
numerals and operators, and it can only make what the end of the text makes worse.

Main statement: `Token.scan_append`.
-/

namespace LuaMachine

namespace Cursor

/-- The cursor when a line end and more text stand behind the text. -/
def followedBy (c : Cursor) (u : List Char) : Cursor := { c with rest := c.rest ++ '\n' :: u }

variable {c : Cursor} {u : List Char}

@[simp] theorem rest_followedBy : (c.followedBy u).rest = c.rest ++ '\n' :: u := rfl

@[simp] theorem line_followedBy : (c.followedBy u).line = c.line := rfl

@[simp] theorem column_followedBy : (c.followedBy u).column = c.column := rfl

theorem skip_followedBy {n : Nat} (h : n ≤ c.rest.length) :
    (c.followedBy u).skip n = (c.skip n).followedBy u := by
  unfold skip followedBy
  rw [List.drop_append_of_le_length h]

end Cursor

/-- What stops before a line end does not look behind it. -/
theorem takeWhile_followed {p : Char → Bool} (hp : p '\n' = false) (cs u : List Char) :
    (cs ++ '\n' :: u).takeWhile p = cs.takeWhile p := by
  induction cs with
  | nil => rw [List.nil_append, List.takeWhile_cons, hp]; rfl
  | cons c cs ih =>
    rw [List.cons_append, List.takeWhile_cons, List.takeWhile_cons, ih]

/-- A pattern without line ends that is found at the front of the longer text is found in the text. -/
theorem isPrefixOf_followed {pattern : List Char} (hp : '\n' ∉ pattern) (cs u : List Char) :
    pattern.isPrefixOf (cs ++ '\n' :: u) = pattern.isPrefixOf cs := by
  induction pattern generalizing cs with
  | nil => cases cs <;> rfl
  | cons a pattern ih =>
    rw [List.mem_cons, not_or] at hp
    obtain ⟨ha, hpattern⟩ := hp
    cases cs with
    | nil =>
      have hne : (a == '\n') = false := beq_eq_false_iff_ne.2 fun h => ha h.symm
      rw [List.nil_append, List.isPrefixOf_cons_nil, List.isPrefixOf_cons_cons, hne, Bool.false_and]
    | cons c cs =>
      rw [List.cons_append, List.isPrefixOf, List.isPrefixOf, ih hpattern]

namespace Token

variable {u : List Char}

/-! ## Long brackets -/

theorem longLevel?_followed (cs u : List Char) : longLevel? (cs ++ '\n' :: u) = longLevel? cs := by
  have hlevel := takeWhile_followed (p := (· == '=')) (by decide) cs u
  unfold longLevel?
  rw [hlevel]
  have hle := (List.takeWhile_prefix (l := cs) (· == '=')).length_le
  dsimp only
  rw [List.drop_append_of_le_length hle]
  cases cs.drop (cs.takeWhile (· == '=')).length <;> rfl

theorem closesLong_followed (level : Nat) (cs u : List Char) :
    closesLong level (cs ++ '\n' :: u) = closesLong level cs := by
  refine isPrefixOf_followed ?_ cs u
  simp

/-- A closing bracket lies in the text as a whole. -/
theorem length_of_closesLong {level : Nat} {cs : List Char} (h : closesLong level cs = true) :
    level + 1 ≤ cs.length := by
  have hle := (List.isPrefixOf_iff_prefix.1 h).length_le
  simpa using hle

theorem longBody?_cons (level : Nat) (c : Char) (rest : List Char) (line column : Nat)
    (done : List Char) : longBody? level (c :: rest) line column done =
      if c == ']' && closesLong level rest then
        some (done.reverse, ⟨rest.drop (level + 1), line, column + level + 2⟩)
      else if isLineEnd c then
        match rest with
        | [] => none
        | d :: rest₁ =>
          if isLineEnd d && d != c then longBody? level rest₁ (line + 1) 1 ('\n' :: done)
          else longBody? level (d :: rest₁) (line + 1) 1 ('\n' :: done)
      else longBody? level rest line (column + 1) (c :: done) :=
  longBody?.eq_def ..

/-- A long bracket that is closed is closed at the same place, and something of the text is passed. -/
theorem longBody?_followed (u : List Char) {level : Nat} {cs : List Char} {line column : Nat}
    {done : List Char} {r : List Char × Cursor} (h : longBody? level cs line column done = some r) :
    longBody? level (cs ++ '\n' :: u) line column done = some (r.1, r.2.followedBy u) ∧
      r.2.rest.length < cs.length := by
  fun_induction longBody? level cs line column done with
  | case1 line column done => cases h
  | case2 c rest line column done hclose =>
    cases h
    have hle := length_of_closesLong (Bool.and_eq_true_iff.1 hclose).2
    rw [List.cons_append, longBody?_cons, closesLong_followed, if_pos hclose,
      List.drop_append_of_le_length hle]
    refine ⟨rfl, ?_⟩
    simp only [List.length_drop, List.length_cons]
    omega
  | case3 c line column done hend hclose => cases h
  | case4 c line column done hend d rest₁ hpair hclose ih =>
    obtain ⟨ih, hlt⟩ := ih h
    rw [List.cons_append, longBody?_cons, closesLong_followed, if_neg hclose, if_pos hend]
    dsimp only [List.cons_append]
    rw [if_pos hpair]
    exact ⟨ih, by simp only [List.length_cons]; omega⟩
  | case5 c line column done hend d rest₁ hpair hclose ih =>
    obtain ⟨ih, hlt⟩ := ih h
    rw [List.cons_append, longBody?_cons, closesLong_followed, if_neg hclose, if_pos hend]
    dsimp only [List.cons_append]
    rw [if_neg hpair]
    exact ⟨ih, by simp only [List.length_cons] at hlt ⊢; omega⟩
  | case6 c rest line column done hclose hend ih =>
    obtain ⟨ih, hlt⟩ := ih h
    rw [List.cons_append, longBody?_cons, closesLong_followed, if_neg hclose, if_neg hend]
    exact ⟨ih, by simp only [List.length_cons]; omega⟩

/-- The other half of a line end comes before what stands behind the text. -/
theorem afterLineEnd_followed (c : Char) {cs : List Char} (h : cs ≠ []) (u : List Char) :
    afterLineEnd c (cs ++ '\n' :: u) = afterLineEnd c cs ++ '\n' :: u := by
  cases cs with
  | nil => exact absurd rfl h
  | cons d rest =>
    rw [List.cons_append, afterLineEnd, afterLineEnd]
    split
    · rfl
    · rfl

theorem longBracket_followed (u : List Char) {start : Cursor} {level : Nat} {what : String}
    {r : List Char × Cursor} (h : longBracket start level what = .ok r) :
    longBracket (start.followedBy u) level what = .ok (r.1, r.2.followedBy u) ∧
      r.2.rest.length < start.rest.length := by
  have hinside : ∀ {cs : List Char}, (start.skip (level + 2)).rest = cs → cs ≠ [] →
      (start.followedBy u).skip (level + 2) = (start.skip (level + 2)).followedBy u ∧
        cs.length ≤ start.rest.length := by
    rintro cs rfl hne
    have hlen : (start.skip (level + 2)).rest.length = start.rest.length - (level + 2) :=
      List.length_drop
    have hpos := List.length_pos_iff.2 hne
    exact ⟨Cursor.skip_followedBy (by omega), by omega⟩
  unfold longBracket at h ⊢
  dsimp only at h ⊢
  cases hrest : (start.skip (level + 2)).rest with
  | nil =>
    rw [hrest] at h
    cases h
  | cons c rest =>
    obtain ⟨hskip, hle⟩ := hinside hrest (List.cons_ne_nil _ _)
    rw [hskip, Cursor.rest_followedBy, hrest, List.cons_append]
    rw [hrest] at h
    dsimp only at h ⊢
    simp only [Cursor.line_followedBy, Cursor.column_followedBy]
    by_cases hend : isLineEnd c = true
    · rw [if_pos hend] at h ⊢
      have hne : rest ≠ [] := by
        rintro rfl
        cases h
      cases hbody : longBody? level (afterLineEnd c rest) ((start.skip (level + 2)).line + 1) 1 [] with
      | none =>
        rw [hbody] at h
        cases h
      | some r' =>
        rw [hbody] at h
        cases h
        obtain ⟨hbody', hlt⟩ := longBody?_followed u hbody
        have hafter := length_afterLineEnd c rest
        rw [afterLineEnd_followed c hne, hbody']
        rw [List.length_cons] at hle
        exact ⟨rfl, by omega⟩
    · rw [if_neg hend] at h ⊢
      cases hbody : longBody? level (c :: rest) (start.skip (level + 2)).line
          (start.skip (level + 2)).column [] with
      | none =>
        rw [hbody] at h
        cases h
      | some r' =>
        rw [hbody] at h
        cases h
        obtain ⟨hbody', hlt⟩ := longBody?_followed u hbody
        rw [List.cons_append] at hbody'
        rw [hbody']
        exact ⟨rfl, by omega⟩

/-- Only the end of the text keeps a long bracket open. -/
theorem premature_of_longBracket {start : Cursor} {level : Nat} {what : String} {e : SyntaxFault}
    (h : longBracket start level what = .error e) : e.premature = true := by
  unfold longBracket at h
  dsimp only at h
  split at h
  · cases h
  · cases h
    rfl

/-! ## Blanks and comments -/

/-- The level of the long bracket that opens a comment, if one does. -/
theorem commentLevel_followed (cs u : List Char) :
    (match cs ++ '\n' :: u with
      | '[' :: r => longLevel? r
      | _ => none) = match cs with
      | '[' :: r => longLevel? r
      | _ => none := by
  cases cs with
  | nil => rfl
  | cons d cs =>
    rw [List.cons_append]
    by_cases hd : d = '['
    · subst hd
      exact longLevel?_followed cs u
    · split
      · next heq => exact absurd (List.cons.inj heq).1 hd
      · split
        · next heq => exact absurd (List.cons.inj heq).1 hd
        · rfl

theorem skipBlanks_nil (fuel : Nat) {c : Cursor} (h : c.rest = []) : skipBlanks fuel c = .ok c := by
  cases fuel with
  | zero => rfl
  | succ fuel => rw [skipBlanks, h]

theorem skipBlanks_comment (fuel : Nat) {c : Cursor} {rest : List Char}
    (h : c.rest = '-' :: '-' :: rest) : skipBlanks (fuel + 1) c =
      match (match rest with
        | '[' :: r => longLevel? r
        | _ => none) with
      | some level =>
        match longBracket (c.skip 2) level "comment" with
        | .error e => .error e
        | .ok (_, c) => skipBlanks fuel c
      | none => skipBlanks fuel (c.skip (2 + (rest.takeWhile (!isLineEnd ·)).length)) := by
  rw [skipBlanks, h]
  rfl

/-- What starts no comment. -/
def StartsNoComment (cs : List Char) : Prop := ∀ rest, cs ≠ '-' :: '-' :: rest

theorem startsNoComment_followed {cs : List Char} (h : StartsNoComment cs) (u : List Char) :
    StartsNoComment (cs ++ '\n' :: u) := by
  intro rest heq
  rcases cs with _ | ⟨a, _ | ⟨b, cs⟩⟩
  · cases heq
  · cases heq
  · simp only [List.cons_append, List.cons.injEq] at heq
    obtain ⟨rfl, rfl, -⟩ := heq
    exact h cs rfl

theorem skipBlanks_char (fuel : Nat) {c : Cursor} {d : Char} {rest : List Char}
    (h : c.rest = d :: rest) (hno : StartsNoComment (d :: rest)) : skipBlanks (fuel + 1) c =
      if isLineEnd d then skipBlanks fuel ⟨afterLineEnd d rest, c.line + 1, 1⟩
      else if Text.isBlank d then skipBlanks fuel (c.skip 1)
      else .ok c := by
  rw [skipBlanks, h]
  split
  · next heq => cases heq
  · next heq => exact absurd heq (hno _)
  · next heq =>
    cases heq
    rfl

/-- Blanks and comments that end before the end of the text end there. -/
theorem skipBlanks_followed (u : List Char) {fuel fuel' : Nat} {c c' : Cursor}
    (hfuel : c.rest.length < fuel) (hle : fuel ≤ fuel') (h : skipBlanks fuel c = .ok c')
    (hne : c'.rest ≠ []) : skipBlanks fuel' (c.followedBy u) = .ok (c'.followedBy u) := by
  induction fuel generalizing fuel' c with
  | zero => omega
  | succ fuel ih =>
    obtain ⟨fuel', rfl⟩ : ∃ k, fuel' = k + 1 := ⟨fuel' - 1, by omega⟩
    cases hrest : c.rest with
    | nil =>
      -- the end of the text was reached
      rw [skipBlanks_nil _ hrest] at h
      cases h
      exact absurd hrest hne
    | cons d rest =>
      by_cases hcomment : ∃ rest', d :: rest = '-' :: '-' :: rest'
      · obtain ⟨rest', heq⟩ := hcomment
        rw [heq] at hrest
        have hlen : c.rest.length = rest'.length + 2 := by rw [hrest]; rfl
        rw [skipBlanks_comment fuel hrest] at h
        have hfollowed : (c.followedBy u).rest = '-' :: '-' :: (rest' ++ '\n' :: u) := by
          rw [Cursor.rest_followedBy, hrest]
          rfl
        rw [skipBlanks_comment fuel' hfollowed, commentLevel_followed]
        split at h
        · next level _ =>
          split at h
          · cases h
          · next cs c₁ hlong =>
            obtain ⟨hlong', hlt⟩ := longBracket_followed u hlong
            have hskip : (c.skip 2).rest.length = c.rest.length - 2 := List.length_drop
            rw [Cursor.skip_followedBy (by omega), hlong']
            exact ih (by omega) (by omega) h
        · have htake := (List.takeWhile_prefix (l := rest') (!isLineEnd ·)).length_le
          rw [takeWhile_followed (by decide), Cursor.skip_followedBy (by omega)]
          refine ih ?_ (by omega) h
          have hskip : ∀ n, (c.skip n).rest.length = c.rest.length - n := fun n => List.length_drop
          rw [hskip]
          omega
      · have hno : StartsNoComment (d :: rest) := fun rest' heq => hcomment ⟨rest', heq⟩
        have hlen : c.rest.length = rest.length + 1 := by rw [hrest]; rfl
        rw [skipBlanks_char fuel hrest hno] at h
        have hfollowed : (c.followedBy u).rest = d :: (rest ++ '\n' :: u) := by
          rw [Cursor.rest_followedBy, hrest]
          rfl
        rw [skipBlanks_char fuel' hfollowed (startsNoComment_followed hno u)]
        split at h
        · next hend =>
          rw [if_pos hend]
          have hafter := length_afterLineEnd d rest
          by_cases hlast : rest = []
          · -- the line end was the last character
            subst hlast
            rw [skipBlanks_nil fuel (c := ⟨afterLineEnd d [], c.line + 1, 1⟩) rfl] at h
            cases h
            exact absurd rfl hne
          · rw [afterLineEnd_followed d hlast]
            exact ih (c := ⟨afterLineEnd d rest, c.line + 1, 1⟩) (by dsimp only; omega) (by omega) h
        · next hend =>
          rw [if_neg hend]
          split at h
          · next hblank =>
            rw [if_pos hblank, Cursor.skip_followedBy (by omega)]
            have hskip : (c.skip 1).rest.length = c.rest.length - 1 := List.length_drop
            exact ih (by omega) (by omega) h
          · next hblank =>
            rw [if_neg hblank]
            cases h
            rfl

/-- Only a long comment can keep blanks from ending. -/
theorem premature_of_skipBlanks {fuel : Nat} {c : Cursor} {e : SyntaxFault}
    (h : skipBlanks fuel c = .error e) : e.premature = true := by
  induction fuel generalizing c with
  | zero => cases h
  | succ fuel ih =>
    cases hrest : c.rest with
    | nil =>
      rw [skipBlanks_nil _ hrest] at h
      cases h
    | cons d rest =>
      by_cases hcomment : ∃ rest', d :: rest = '-' :: '-' :: rest'
      · obtain ⟨rest', heq⟩ := hcomment
        rw [skipBlanks_comment fuel (hrest.trans heq)] at h
        split at h
        · split at h
          · next e' hlong =>
            cases h
            exact premature_of_longBracket hlong
          · exact ih h
        · exact ih h
      · rw [skipBlanks_char fuel hrest fun rest' heq => hcomment ⟨rest', heq⟩] at h
        split at h
        · exact ih h
        · split at h
          · exact ih h
          · cases h

/-! ## Quoted strings -/

/-- An outcome that is not blamed on the end of the text. -/
def Lasting (r : Except SyntaxFault α) : Prop := ∀ e, r = .error e → e.premature = false

/-- An outcome with a line end and more text behind the cursor. -/
def extended (u : List Char) (r : Except SyntaxFault (α × Cursor)) : Except SyntaxFault (α × Cursor) :=
  r.map fun p => (p.1, p.2.followedBy u)

theorem quotedBody_followed (u : List Char) (start : Cursor) (quote : Char) (skipping : Bool)
    (cs : List Char) (line column : Nat) (done : List UInt8)
    (h : Lasting (quotedBody start quote skipping cs line column done)) :
    quotedBody (start.followedBy u) quote skipping (cs ++ '\n' :: u) line column done =
      extended u (quotedBody start quote skipping cs line column done) := by
  fun_induction quotedBody start quote skipping cs line column done
  -- where the end of the text is blamed there is nothing to show
  all_goals first
    | exact absurd (h _ rfl) Bool.noConfusion
    | skip
  -- the longer text takes the same branch, also where a digit was wanted at the end of the text
  all_goals
    conv => lhs; rw [quotedBody.eq_def]
    simp only [*, List.cons_append, List.nil_append, ↓reduceIte, Bool.false_eq_true]
  all_goals first
    | rfl
    | (rename_i ih; exact ih h)
    | skip
  · next hlarge =>
    rw [if_pos hlarge]
    rfl
  · next hsmall ih =>
    rw [if_neg hsmall]
    exact ih h

/-! ## Words, numerals and operators -/

/-- A numeral goes on behind the mark of an exponent only with a sign. -/
theorem numeralChars_cons (hex : Bool) (c : Char) (rest : List Char) :
    numeralChars hex (c :: rest) =
    if (if hex then c == 'p' || c == 'P' else c == 'e' || c == 'E') then
      match rest with
      | [] => [c]
      | d :: rest₁ =>
        if d == '+' || d == '-' then c :: d :: numeralChars hex rest₁
        else c :: numeralChars hex (d :: rest₁)
    else if c.isAlphanum || c == '.' then c :: numeralChars hex rest
    else [] := by
  cases rest <;> rfl

theorem numeralChars_lineEnd (hex : Bool) (u : List Char) : numeralChars hex ('\n' :: u) = [] := by
  rw [numeralChars_cons, if_neg (by cases hex <;> decide), if_neg (by decide)]

theorem numeralChars_followed (hex : Bool) : ∀ cs u : List Char,
    numeralChars hex (cs ++ '\n' :: u) = numeralChars hex cs
  | [], u => numeralChars_lineEnd hex u
  | [c], u => by
    rw [List.singleton_append, numeralChars_cons hex c, numeralChars_cons hex c]
    dsimp only
    rw [if_neg (by decide : ¬('\n' == '+' || '\n' == '-') = true), numeralChars_lineEnd]
    rfl
  | c :: d :: rest, u => by
    have ih := numeralChars_followed hex rest u
    have ih' := numeralChars_followed hex (d :: rest) u
    rw [List.cons_append] at ih'
    rw [List.cons_append, List.cons_append, numeralChars_cons, numeralChars_cons hex c]
    dsimp only
    rw [ih, ih']

theorem punctuator?_followed {cs : List Char} (h : cs ≠ []) (u : List Char) :
    punctuator? (cs ++ '\n' :: u) = punctuator? cs := by
  -- the character that would make a longer operator is not there, and a line end does not make one
  have hnext : ∀ {p : Char} {tail : List Char}, p ≠ '\n' → (∀ t, tail = p :: t → False) →
      ∀ t, tail ++ '\n' :: u = p :: t → False := by
    intro p tail hp hno t heq
    cases tail with
    | nil => exact hp (List.cons.inj heq).1.symm
    | cons a tail => exact hno tail (by rw [(List.cons.inj heq).1])
  fun_cases punctuator? cs
  case case2 tail hno => exact punctuator?.eq_2 _ (hnext (by decide) hno)
  case case3 tail _ hno =>
    exact punctuator?.eq_3 _ (fun t => hnext (by decide) hno _) (hnext (by decide) hno)
  case case5 tail hno => exact punctuator?.eq_5 _ (hnext (by decide) hno)
  case case7 tail hno => exact punctuator?.eq_7 _ (hnext (by decide) hno)
  case case9 tail hno => exact punctuator?.eq_9 _ (hnext (by decide) hno)
  case case11 tail hno => exact punctuator?.eq_11 _ (hnext (by decide) hno)
  case case28 htilde _ _ _ _ _ _ _ _ _ _ _ _ _ _ _ =>
    obtain ⟨a, cs, rfl⟩ := List.exists_cons_of_ne_nil h
    -- of what starts no operator, only a tilde could be made one by the character behind it
    have hnotEqual : ∀ t, a :: cs ++ '\n' :: u = '~' :: '=' :: t → False := by
      intro t heq
      obtain ⟨rfl, htail⟩ := List.cons.inj heq
      exact hnext (by decide) (fun t' heq' => htilde t' (by rw [heq'])) t htail
    apply punctuator?.eq_28
    all_goals
      intro t heq
      obtain ⟨rfl, htail⟩ := List.cons.inj heq
      grind
  all_goals rfl

theorem length_numeralChars_le (hex : Bool) (cs : List Char) :
    (numeralChars hex cs).length ≤ cs.length := by
  induction cs using numeralChars.induct hex with
  | case1 => exact Nat.le_refl _
  | case2 c hmark =>
    have hone : numeralChars hex [c] = [c] := by rw [numeralChars_cons, if_pos hmark]
    exact Nat.le_of_eq (congrArg List.length hone)
  | case3 c hmark d rest hsign ih =>
    rw [numeralChars_cons, if_pos hmark]
    dsimp only
    rw [if_pos hsign]
    simpa using ih
  | case4 c hmark d rest hsign ih =>
    rw [numeralChars_cons, if_pos hmark]
    dsimp only
    rw [if_neg hsign]
    simpa using ih
  | case5 c rest hmark hchar ih =>
    rw [numeralChars_cons, if_neg hmark, if_pos hchar]
    simpa using ih
  | case6 c rest hmark hchar =>
    rw [numeralChars_cons, if_neg hmark, if_neg hchar]
    exact Nat.zero_le _

theorem le_length_of_punctuator? {cs : List Char} {p : Punctuator} {n : Nat} :
    punctuator? cs = some (p, n) → n ≤ cs.length := by
  fun_cases punctuator? cs
  all_goals
    intro h
    cases h
  all_goals simp

/-! ## Lexemes -/

/-- A token that starts before the end of the text is read as before. -/
theorem scanAt_followed (u : List Char) {c : Cursor} (hne : c.rest ≠ []) (h : Lasting (scanAt c)) :
    scanAt (c.followedBy u) = extended u (scanAt c) := by
  obtain ⟨d, rest, hrest⟩ := List.exists_cons_of_ne_nil hne
  have hfollowed : (c.followedBy u).rest = d :: (rest ++ '\n' :: u) := by
    rw [Cursor.rest_followedBy, hrest, List.cons_append]
  -- a line end is neither a digit nor the mark of a hexadecimal numeral
  have hdigit : ((rest ++ '\n' :: u).head?.map Char.isDigit).getD false =
      (rest.head?.map Char.isDigit).getD false := by
    cases rest <;> rfl
  have hmark : ∀ x : Char, x ≠ '\n' →
      ((rest ++ '\n' :: u).head? == some x) = (rest.head? == some x) := by
    intro x hx
    cases rest with
    | nil => exact beq_eq_false_iff_ne.2 fun h => hx (Option.some.inj h).symm
    | cons a rest => rfl
  unfold scanAt at h ⊢
  rw [hfollowed]
  rw [hrest] at h ⊢
  dsimp only at h ⊢
  rw [hdigit, hmark 'x' (by decide), hmark 'X' (by decide), longLevel?_followed, ← List.cons_append]
  by_cases hword : isWordStart d = true
  · rw [if_pos hword, if_pos hword, takeWhile_followed (by decide), Cursor.skip_followedBy]
    · rfl
    · rw [hrest]
      exact (List.takeWhile_prefix _).length_le
  rw [if_neg hword] at h ⊢
  rw [if_neg hword]
  by_cases hnumeral : (d.isDigit || d == '.' && (rest.head?.map Char.isDigit).getD false) = true
  · rw [if_pos hnumeral] at h ⊢
    rw [if_pos hnumeral, numeralChars_followed]
    generalize (d == '0' && (rest.head? == some 'x' || rest.head? == some 'X')) = hex at h ⊢
    have hlen := length_numeralChars_le hex (d :: rest)
    rw [Cursor.skip_followedBy (by rw [hrest]; exact hlen)]
    split
    · rfl
    · rfl
  rw [if_neg hnumeral] at h ⊢
  rw [if_neg hnumeral]
  by_cases hquote : (d == '"' || d == '\'') = true
  · rw [if_pos hquote] at h ⊢
    rw [if_pos hquote]
    have hbody := quotedBody_followed u c d false rest c.line (c.column + 1) []
    dsimp only [Cursor.line_followedBy, Cursor.column_followedBy]
    cases hr : quotedBody c d false rest c.line (c.column + 1) [] with
    | ok r =>
      rw [hr] at hbody
      rw [hbody nofun]
      rfl
    | error e =>
      rw [hr] at h hbody
      have hlast : Lasting (.error e : Except SyntaxFault (List UInt8 × Cursor)) := by
        intro e' he
        cases he
        exact h e rfl
      rw [hbody hlast]
      rfl
  rw [if_neg hquote] at h ⊢
  rw [if_neg hquote]
  cases hlevel : (if (d == '[') = true then longLevel? rest else none) with
  | some level =>
    rw [hlevel] at h
    dsimp only at h ⊢
    cases hlong : longBracket c level "string" with
    | ok r =>
      rw [(longBracket_followed u hlong).1]
      rfl
    | error e =>
      -- only the end of the text keeps it open
      rw [hlong] at h
      have hfinal := h e rfl
      rw [premature_of_longBracket hlong] at hfinal
      cases hfinal
  | none =>
    dsimp only
    rw [List.cons_append, ← List.cons_append, punctuator?_followed (List.cons_ne_nil _ _)]
    cases hp : punctuator? (d :: rest) with
    | none => rfl
    | some r =>
      obtain ⟨p, n⟩ := r
      dsimp only
      rw [Cursor.skip_followedBy (by rw [hrest]; exact le_length_of_punctuator? hp)]
      rfl

/-- The next lexeme is read as before, unless the end of the text has a part in it. -/
theorem scanNext_followed (u : List Char) (c : Cursor) :
    (∃ e, scanNext c = .error e ∧ e.premature = true) ∨
      (∃ l after, scanNext c = .ok (l, after) ∧ l.token = .endOfInput) ∨
      scanNext (c.followedBy u) = extended u (scanNext c) := by
  cases hskip : skipBlanks (c.rest.length + 1) c with
  | error e =>
    refine .inl ⟨e, ?_, premature_of_skipBlanks hskip⟩
    unfold scanNext
    rw [hskip]
    rfl
  | ok c₁ =>
    by_cases hne : c₁.rest = []
    · have hend : scanAt c₁ = .ok (.endOfInput, c₁) := by
        unfold scanAt
        rw [hne]
      refine .inr (.inl ?_)
      unfold scanNext
      rw [hskip]
      dsimp only [bind, Except.bind]
      rw [hend]
      exact ⟨_, _, rfl, rfl⟩
    · have hle : c.rest.length + 1 ≤ (c.followedBy u).rest.length + 1 := by
        rw [Cursor.rest_followedBy, List.length_append]
        omega
      have hskip' := skipBlanks_followed u (Nat.lt_succ_self _) hle hskip hne
      cases hat : scanAt c₁ with
      | error e =>
        cases hpre : e.premature with
        | true =>
          refine .inl ⟨e, ?_, hpre⟩
          unfold scanNext
          rw [hskip]
          dsimp only [bind, Except.bind]
          rw [hat]
        | false =>
          refine .inr (.inr ?_)
          have hlast : Lasting (scanAt c₁) := by
            intro e' he
            rw [hat] at he
            cases he
            exact hpre
          unfold scanNext
          rw [hskip, hskip']
          dsimp only [bind, Except.bind]
          rw [scanAt_followed u hne hlast, hat]
          rfl
      | ok r =>
        refine .inr (.inr ?_)
        have hlast : Lasting (scanAt c₁) := by
          intro e he
          rw [hat] at he
          cases he
        unfold scanNext
        rw [hskip, hskip']
        dsimp only [bind, Except.bind]
        rw [scanAt_followed u hne hlast, hat]
        rfl

end Token

namespace TokenStream

/-- The text ends, or it breaks off: nothing is wrong that more text could not mend. -/
def OpenEnd : Except SyntaxFault Lexeme → Prop
  | .ok l => l.token = .endOfInput
  | .error e => e.premature = true

theorem scanFrom_followed (u : List Char) {fuel fuel' : Nat} (hle : fuel ≤ fuel') (c : Cursor) :
    scanFrom fuel' (c.followedBy u) = scanFrom fuel c ∨
      (OpenEnd (scanFrom fuel c).ending ∧
        (scanFrom fuel c).lexemes <+: (scanFrom fuel' (c.followedBy u)).lexemes) := by
  induction fuel generalizing fuel' c with
  | zero => exact .inr ⟨rfl, List.nil_prefix⟩
  | succ fuel ih =>
    obtain ⟨fuel', rfl⟩ : ∃ k, fuel' = k + 1 := ⟨fuel' - 1, by omega⟩
    rcases Token.scanNext_followed u c with ⟨e, he, hpre⟩ | ⟨l, after, hl, hend⟩ | hnext
    · refine .inr ?_
      rw [scanFrom, he]
      exact ⟨hpre, List.nil_prefix⟩
    · refine .inr ?_
      rw [scanFrom, hl]
      dsimp only
      rw [if_pos hend]
      exact ⟨hend, List.nil_prefix⟩
    · cases hc : Token.scanNext c with
      | error e =>
        refine .inl ?_
        rw [scanFrom, scanFrom, hnext, hc]
        rfl
      | ok r =>
        obtain ⟨l, after⟩ := r
        rw [hc] at hnext
        change _ = Except.ok (l, after.followedBy u) at hnext
        rw [scanFrom, scanFrom, hnext, hc]
        dsimp only
        by_cases hend : l.token = .endOfInput
        · rw [if_pos hend, if_pos hend]
          exact .inl rfl
        · rw [if_neg hend, if_neg hend]
          rcases ih (Nat.le_of_succ_le_succ hle) after with hsame | ⟨hopen, hprefix⟩
          · exact .inl (by rw [hsame])
          · exact .inr ⟨hopen, List.prefix_cons_inj l |>.2 hprefix⟩

end TokenStream

theorem Cursor.skipShebang_followed (u : List Char) (c : Cursor) :
    (c.followedBy u).skipShebang = c.skipShebang.followedBy u := by
  unfold skipShebang
  have hhead : ((c.followedBy u).rest.head? == some '#') = (c.rest.head? == some '#') := by
    rw [rest_followedBy]
    cases c.rest <;> rfl
  have htake := (List.takeWhile_prefix (l := c.rest) (· != '\n')).length_le
  rw [hhead, rest_followedBy, takeWhile_followed (by decide), skip_followedBy htake]
  split
  · rfl
  · rfl

/-- When a line end and more text are put behind a text, either nothing changes, because the text is
refused before its end, or the lexemes of the text come first. -/
theorem Token.scan_append (s t : String) :
    Token.scan (s ++ "\n" ++ t) = Token.scan s ∨
      (TokenStream.OpenEnd (Token.scan s).ending ∧
        (Token.scan s).lexemes <+: (Token.scan (s ++ "\n" ++ t)).lexemes) := by
  have htext : Cursor.ofString (s ++ "\n" ++ t) = (Cursor.ofString s).followedBy t.toList := by
    unfold Cursor.ofString Cursor.followedBy
    simp
  unfold Token.scan
  dsimp only
  rw [htext, Cursor.skipShebang_followed]
  refine TokenStream.scanFrom_followed _ ?_ _
  rw [Cursor.rest_followedBy, List.length_append]
  omega

end LuaMachine
