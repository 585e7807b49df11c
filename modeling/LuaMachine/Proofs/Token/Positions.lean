import LuaMachine.Proofs.Token.Passing

/-!
# The places of tokens

Every token of a text stands where its extent says, from its first to its last character. Between the
tokens there is nothing but blanks and comments, and a token is what its own text is read as. This holds
of each token that is read before the first error, and of the end of the input (`Token.scan_placed`).
-/

namespace LuaMachine

namespace Token

open Cursor

/-! ## Quoted strings -/

/-- Characters of a class without line ends are no line ends. -/
theorem isLineEnd_eq_false {p : Char → Bool} {c : Char} (h : p c = true)
    (hn : p '\n' = false) (hr : p '\r' = false) : isLineEnd c = false := by
  simp only [isLineEnd, Bool.or_eq_false_iff, beq_eq_false_iff_ne]
  constructor
  · rintro rfl
    exact Bool.false_ne_true (hn.symm.trans h)
  · rintro rfl
    exact Bool.false_ne_true (hr.symm.trans h)

theorem isLineEnd_of_isDigit {c : Char} (h : ¬ (!c.isDigit) = true) : isLineEnd c = false :=
  isLineEnd_eq_false (p := Char.isDigit) (by simpa using h) rfl rfl

theorem isLineEnd_of_isHexDigit {c : Char} (h : ¬ (!Numeral.isHexDigit c) = true) :
    isLineEnd c = false :=
  isLineEnd_eq_false (p := Numeral.isHexDigit) (by simpa using h) rfl rfl

theorem isLineEnd_of_namedEscape? {c : Char} {b : UInt8} (h : namedEscape? c = some b) :
    isLineEnd c = false :=
  isLineEnd_eq_false (p := fun c => (namedEscape? c).isSome) (Option.isSome_of_eq_some h) rfl rfl

theorem passes_pair {c d : Char} (hc : isLineEnd c = true) (hpair : (isLineEnd d && d != c) = true)
    (rest : List Char) (line column : Nat) :
    Passes ⟨c :: d :: rest, line, column⟩ ⟨rest, line + 1, 1⟩ := by
  refine .lineEnd hc ?_
  rw [afterLineEnd, if_pos hpair]
  exact .refl _

theorem passes_single {c d : Char} (hc : isLineEnd c = true) (hpair : ¬ (isLineEnd d && d != c) = true)
    (rest : List Char) (line column : Nat) :
    Passes ⟨c :: d :: rest, line, column⟩ ⟨d :: rest, line + 1, 1⟩ := by
  refine .lineEnd hc ?_
  rw [afterLineEnd, if_neg hpair]
  exact .refl _

/-- A quoted string is read from a place to its closing quote. Nothing behind the quote matters. -/
def QuotesTo (quote : Char) (skipping : Bool) (cs : List Char) (line column : Nat) (done : List UInt8)
    (r : List UInt8 × Cursor) : Prop :=
  Takes ⟨cs, line, column⟩ r.2 ∧ ∃ body, body ≠ [] ∧ cs = body ++ r.2.rest ∧
    ∀ start line' column', ∃ line'' column'',
      quotedBody start quote skipping body line' column' done = .ok (r.1, ⟨[], line'', column''⟩)

/-- Characters in front of what is read are read with it. What they stand for may depend on the
character behind them. -/
theorem QuotesTo.front {quote : Char} {skipping skipping' : Bool} {cs w : List Char}
    {line column line' column' : Nat} {done done' : List UInt8} {r : List UInt8 × Cursor}
    (hpasses : Passes ⟨w ++ cs, line, column⟩ ⟨cs, line', column'⟩)
    (hread : ∀ start rest line column, rest.head? = cs.head? → ∃ line' column',
      quotedBody start quote skipping (w ++ rest) line column done =
        quotedBody start quote skipping' rest line' column' done')
    (h : QuotesTo quote skipping' cs line' column' done' r) :
    QuotesTo quote skipping (w ++ cs) line column done r := by
  obtain ⟨htakes, body, hne, rfl, halone⟩ := h
  refine ⟨hpasses.takes htakes, w ++ body, by simp [hne], (List.append_assoc ..).symm,
    fun start l k => ?_⟩
  obtain ⟨a, body, rfl⟩ := List.exists_cons_of_ne_nil hne
  obtain ⟨line'', column'', heq⟩ := hread start (a :: body) l k rfl
  rw [heq]
  exact halone start line'' column''

theorem quotedBody_eq_ok {start : Cursor} {quote : Char} {skipping : Bool} {line column : Nat}
    {cs : List Char} {done : List UInt8} {r : List UInt8 × Cursor} (hquote : isLineEnd quote = false)
    (h : quotedBody start quote skipping cs line column done = .ok r) :
    QuotesTo quote skipping cs line column done r := by
  fun_induction quotedBody start quote skipping cs line column done with
  | case3 skipping c line column done hskip hend d rest hpair ih =>
    refine QuotesTo.front (w := [c, d]) (passes_pair hend hpair rest line column) ?_ (ih h)
    intro start rest line column _
    rw [quotedBody.eq_def]
    simp only [List.cons_append, List.nil_append, *, ↓reduceIte]
    exact ⟨_, _, rfl⟩
  | case4 skipping c line column done hskip hend d rest hpair ih =>
    refine QuotesTo.front (w := [c]) (passes_single hend hpair rest line column) ?_ (ih h)
    intro start rest line column hrest
    obtain ⟨rest, rfl⟩ := List.head?_eq_some_iff.1 hrest
    rw [quotedBody.eq_def]
    simp only [List.cons_append, List.nil_append, *, ↓reduceIte, Bool.false_eq_true]
    exact ⟨_, _, rfl⟩
  | case5 skipping c rest line column done hskip hend ih =>
    refine QuotesTo.front (w := [c]) (.char (Bool.eq_false_iff.2 hend) (.refl _)) ?_ (ih h)
    intro start rest line column _
    rw [quotedBody.eq_def]
    simp only [List.cons_append, List.nil_append, *, ↓reduceIte, Bool.false_eq_true]
    exact ⟨_, _, rfl⟩
  | case6 skipping c rest line column done hskip hclose =>
    -- the closing quote
    cases h
    obtain rfl := beq_iff_eq.1 hclose
    refine ⟨⟨c, rest, line, column, hquote, rfl, .refl _⟩, [c], List.cons_ne_nil _ _, rfl,
      fun start line column => ⟨line, column + 1, ?_⟩⟩
    rw [quotedBody.eq_def]
    simp only [*, ↓reduceIte, Bool.false_eq_true]
  | case9 skipping c line column done hskip hclose hend hescape d rest b hnamed ih =>
    refine QuotesTo.front (w := [c, d]) (.char (Bool.eq_false_iff.2 hend)
      (.char (isLineEnd_of_namedEscape? hnamed) (.refl _))) ?_ (ih h)
    intro start rest line column _
    rw [quotedBody.eq_def]
    simp only [List.cons_append, List.nil_append, *, ↓reduceIte, Bool.false_eq_true]
    exact ⟨_, _, rfl⟩
  | case11 skipping c line column done hskip hclose hend hescape d hnamed hline e rest hpair ih =>
    refine QuotesTo.front (w := [c, d, e]) (.char (Bool.eq_false_iff.2 hend)
      (passes_pair hline hpair rest line (column + 1))) ?_ (ih h)
    intro start rest line column _
    rw [quotedBody.eq_def]
    simp only [List.cons_append, List.nil_append, *, ↓reduceIte, Bool.false_eq_true]
    exact ⟨_, _, rfl⟩
  | case12 skipping c line column done hskip hclose hend hescape d hnamed hline e rest hpair ih =>
    refine QuotesTo.front (w := [c, d]) (.char (Bool.eq_false_iff.2 hend)
      (passes_single hline hpair rest line (column + 1))) ?_ (ih h)
    intro start rest line column hrest
    obtain ⟨rest, rfl⟩ := List.head?_eq_some_iff.1 hrest
    rw [quotedBody.eq_def]
    simp only [List.cons_append, List.nil_append, *, ↓reduceIte, Bool.false_eq_true]
    exact ⟨_, _, rfl⟩
  | case13 skipping c line column done hskip hclose hend hescape d rest hnamed hline hz ih =>
    refine QuotesTo.front (w := [c, d]) (.char (Bool.eq_false_iff.2 hend)
      (.char (Bool.eq_false_iff.2 hline) (.refl _))) ?_ (ih h)
    intro start rest line column _
    rw [quotedBody.eq_def]
    simp only [List.cons_append, List.nil_append, *, ↓reduceIte, Bool.false_eq_true]
    exact ⟨_, _, rfl⟩
  | case18 skipping c line column done hskip hclose hend hescape d hnamed hline hz hx a ha b rest hb n ih =>
    refine QuotesTo.front (w := [c, d, a, b]) (.char (Bool.eq_false_iff.2 hend)
      (.char (Bool.eq_false_iff.2 hline) (.char (isLineEnd_of_isHexDigit ha)
        (.char (isLineEnd_of_isHexDigit hb) (.refl _))))) ?_ (ih h)
    intro start rest line column _
    rw [quotedBody.eq_def]
    simp only [List.cons_append, List.nil_append, *, ↓reduceIte, Bool.false_eq_true]
    exact ⟨_, _, rfl⟩
  | case20 skipping c line column done hskip hclose hend hescape d hnamed hline hz hx hd a rest n ha ih =>
    refine QuotesTo.front (w := [c, d]) (.char (Bool.eq_false_iff.2 hend)
      (.char (isLineEnd_eq_false hd rfl rfl) (.refl _))) ?_ (ih h)
    intro start rest line column hrest
    obtain ⟨rest, rfl⟩ := List.head?_eq_some_iff.1 hrest
    rw [quotedBody.eq_def]
    simp only [List.cons_append, List.nil_append, *, ↓reduceIte, Bool.false_eq_true]
    exact ⟨_, _, rfl⟩
  | case22 skipping c line column done hskip hclose hend hescape d hnamed hline hz hx hd a n ha m b
      rest hb ih =>
    refine QuotesTo.front (w := [c, d, a]) (.char (Bool.eq_false_iff.2 hend)
      (.char (isLineEnd_eq_false hd rfl rfl) (.char (isLineEnd_of_isDigit ha) (.refl _)))) ?_
      (ih h)
    intro start rest line column hrest
    obtain ⟨rest, rfl⟩ := List.head?_eq_some_iff.1 hrest
    rw [quotedBody.eq_def]
    simp only [List.cons_append, List.nil_append, *, ↓reduceIte, Bool.false_eq_true]
    exact ⟨_, _, rfl⟩
  | case24 skipping c line column done hskip hclose hend hescape d hnamed hline hz hx hd a n ha m b
      rest hb k hk ih =>
    refine QuotesTo.front (w := [c, d, a, b]) (.char (Bool.eq_false_iff.2 hend)
      (.char (isLineEnd_eq_false hd rfl rfl) (.char (isLineEnd_of_isDigit ha)
        (.char (isLineEnd_of_isDigit hb) (.refl _))))) ?_ (ih h)
    intro start rest line column _
    rw [quotedBody.eq_def]
    simp only [List.cons_append, List.nil_append, *, ↓reduceIte, Bool.false_eq_true]
    rw [if_neg hk]
    exact ⟨_, _, rfl⟩
  | case26 skipping c rest line column done hskip hclose hend hescape ih =>
    refine QuotesTo.front (w := [c]) (.char (Bool.eq_false_iff.2 hend) (.refl _)) ?_ (ih h)
    intro start rest line column _
    rw [quotedBody.eq_def]
    simp only [List.cons_append, List.nil_append, *, ↓reduceIte, Bool.false_eq_true]
    exact ⟨_, _, rfl⟩
  | _ => cases h

/-! ## Words, numerals and operators -/

/-- A numeral begins a text, lies in one line and is the numeral of itself. -/
theorem numeralChars_spec (hex : Bool) (cs : List Char) :
    numeralChars hex cs <+: cs ∧ (∀ d ∈ numeralChars hex cs, isLineEnd d = false) ∧
      numeralChars hex (numeralChars hex cs) = numeralChars hex cs := by
  have hmarkLine : ∀ {c : Char},
      (if hex then c == 'p' || c == 'P' else c == 'e' || c == 'E') = true → isLineEnd c = false := by
    intro c h
    refine isLineEnd_eq_false (p := fun c => if hex then c == 'p' || c == 'P' else c == 'e' || c == 'E') h ?_ ?_
    · cases hex <;> rfl
    · cases hex <;> rfl
  induction cs using numeralChars.induct hex with
  | case1 => exact ⟨List.prefix_refl _, fun d hd => absurd hd List.not_mem_nil, rfl⟩
  | case2 c hmark =>
    have hone : numeralChars hex [c] = [c] := by rw [numeralChars_cons, if_pos hmark]
    rw [hone]
    exact ⟨List.prefix_refl _, List.forall_mem_singleton.2 (hmarkLine hmark), hone⟩
  | case3 c hmark d rest hsign ih =>
    obtain ⟨hstarts, hline, hself⟩ := ih
    have hcons : ∀ cs, numeralChars hex (c :: d :: cs) = c :: d :: numeralChars hex cs := by
      intro cs
      rw [numeralChars_cons, if_pos hmark]
      dsimp only
      rw [if_pos hsign]
    have hd := isLineEnd_eq_false (p := fun d => d == '+' || d == '-') hsign rfl rfl
    rw [hcons, hcons, hself]
    exact ⟨List.prefix_cons_inj _ |>.2 (List.prefix_cons_inj _ |>.2 hstarts),
      List.forall_mem_cons.2 ⟨hmarkLine hmark, List.forall_mem_cons.2 ⟨hd, hline⟩⟩, rfl⟩
  | case4 c hmark d rest hsign ih =>
    obtain ⟨hstarts, hline, hself⟩ := ih
    have hcons : ∀ cs, cs <+: d :: rest → numeralChars hex (c :: cs) = c :: numeralChars hex cs := by
      intro cs hcs
      rw [numeralChars_cons, if_pos hmark]
      cases cs with
      | nil => rfl
      | cons e cs =>
        obtain ⟨rfl, -⟩ := List.cons_prefix_cons.1 hcs
        dsimp only
        rw [if_neg hsign]
    rw [hcons _ (List.prefix_refl _), hcons _ hstarts, hself]
    exact ⟨List.prefix_cons_inj _ |>.2 hstarts, List.forall_mem_cons.2 ⟨hmarkLine hmark, hline⟩, rfl⟩
  | case5 c rest hmark hchar ih =>
    obtain ⟨hstarts, hline, hself⟩ := ih
    have hcons : ∀ cs, numeralChars hex (c :: cs) = c :: numeralChars hex cs := by
      intro cs
      rw [numeralChars_cons, if_neg hmark, if_pos hchar]
    have hc := isLineEnd_eq_false (p := fun c => c.isAlphanum || c == '.') hchar rfl rfl
    rw [hcons, hcons, hself]
    exact ⟨List.prefix_cons_inj _ |>.2 hstarts, List.forall_mem_cons.2 ⟨hc, hline⟩, rfl⟩
  | case6 c rest hmark hchar =>
    rw [numeralChars_cons, if_neg hmark, if_neg hchar]
    exact ⟨List.nil_prefix, fun d hd => absurd hd List.not_mem_nil, rfl⟩

/-- An operator begins the text. -/
theorem punctuator?_eq_some {cs : List Char} {p : Punctuator} {n : Nat} :
    punctuator? cs = some (p, n) → ∃ rest, cs = p.text.toList ++ rest ∧ n = p.text.toList.length := by
  fun_cases punctuator? cs
  all_goals
    intro h
    cases h
  all_goals exact ⟨_, rfl, rfl⟩

theorem isLineEnd_punctuator (p : Punctuator) : ∀ d ∈ p.text.toList, isLineEnd d = false := by
  have hall : (p.text.toList.all fun d => !isLineEnd d) = true := by cases p <;> decide
  intro d hd
  simpa using List.all_eq_true.1 hall d hd

theorem scanAt_punctuator (p : Punctuator) (line column : Nat) :
    scanAt ⟨p.text.toList, line, column⟩ =
      .ok (.punctuator p, ⟨[], line, column + p.text.toList.length⟩) := by
  cases p <;> rfl

/-! ## Lexemes -/

/-- A text is the spelling of a token: read on its own it is this token, to its end. -/
def Spells (word : List Char) (token : Token) : Prop :=
  word ≠ [] ∧ ∀ line column, ∃ line' column',
    scanAt ⟨word, line, column⟩ = .ok (token, ⟨[], line', column'⟩)

/-- A word of one line that is passed. -/
theorem takes_word {c : Cursor} {word rest : List Char} (hc : c.rest = word ++ rest) (hne : word ≠ [])
    (hline : ∀ d ∈ word, isLineEnd d = false) :
    c.Takes (c.skip word.length) ∧ (c.skip word.length).rest = rest := by
  obtain ⟨cs, line, column⟩ := c
  obtain rfl : cs = word ++ rest := hc
  rw [skip, List.drop_left' rfl]
  exact ⟨takes_append hline hne rest line column, rfl⟩

theorem isWordChar_of_isWordStart {d : Char} (h : isWordStart d = true) : isWordChar d = true := by
  simp only [isWordStart, isWordChar, Char.isAlphanum, Bool.or_eq_true] at h ⊢
  exact h.imp_left .inl

theorem ofWord_ne_endOfInput (text : String) : ofWord text ≠ .endOfInput := by
  rw [ofWord]
  split <;> exact nofun

/-- Whether a numeral starts with this character. -/
def startsNumeral (d : Char) (rest : List Char) : Bool :=
  d.isDigit || (d == '.' && (rest.head?.map Char.isDigit).getD false)

/-- Whether it is a hexadecimal one. -/
def startsHex (d : Char) (rest : List Char) : Bool :=
  d == '0' && (rest.head? == some 'x' || rest.head? == some 'X')

section Classes

variable {d : Char} {rest : List Char} (line column : Nat)

theorem scanAt_word (hword : isWordStart d = true) :
    scanAt ⟨d :: rest, line, column⟩ =
      .ok (ofWord (String.ofList ((d :: rest).takeWhile isWordChar)),
        skip ⟨d :: rest, line, column⟩ ((d :: rest).takeWhile isWordChar).length) := by
  rw [scanAt]
  dsimp only
  rw [if_pos hword]
  rfl

theorem scanAt_numeral (hword : ¬ isWordStart d = true) (hnumeral : startsNumeral d rest = true) :
    scanAt ⟨d :: rest, line, column⟩ =
      match (if startsHex d rest then
          Numeral.hexWithPoint? ((numeralChars (startsHex d rest) (d :: rest)).drop 2)
        else Numeral.decimal? (numeralChars (startsHex d rest) (d :: rest))) with
      | some n => .ok (.number n,
          skip ⟨d :: rest, line, column⟩ (numeralChars (startsHex d rest) (d :: rest)).length)
      | none => .error (Cursor.fault ⟨d :: rest, line, column⟩
          (.malformedNumber (String.ofList (numeralChars (startsHex d rest) (d :: rest))))) := by
  unfold startsNumeral at hnumeral
  rw [scanAt]
  dsimp only
  rw [if_neg hword, if_pos hnumeral]
  rfl

theorem scanAt_quote (hword : ¬ isWordStart d = true) (hnumeral : ¬ startsNumeral d rest = true)
    (hquote : (d == '"' || d == '\'') = true) :
    scanAt ⟨d :: rest, line, column⟩ =
      match quotedBody ⟨d :: rest, line, column⟩ d false rest line (column + 1) [] with
      | .ok (bytes, after) => .ok (.string (Text.Utf8.decodeLossy bytes), after)
      | .error e => .error e := by
  unfold startsNumeral at hnumeral
  rw [scanAt]
  dsimp only
  exact (if_neg hword).trans ((if_neg hnumeral).trans (if_pos hquote))

theorem scanAt_long {level : Nat} (hlevel : longLevel? rest = some level) :
    scanAt ⟨'[' :: rest, line, column⟩ =
      match longBracket ⟨'[' :: rest, line, column⟩ level "string" with
      | .ok (cs, after) => .ok (.string (String.ofList cs), after)
      | .error e => .error e := by
  have hnumeral : ¬ startsNumeral '[' rest = true := nofun
  unfold startsNumeral at hnumeral
  rw [scanAt]
  dsimp only
  rw [if_neg (by decide), if_neg hnumeral, if_neg (by decide), if_pos (by decide)]
  generalize longLevel? rest = found at hlevel ⊢
  subst hlevel
  rfl

theorem scanAt_other (hword : ¬ isWordStart d = true) (hnumeral : ¬ startsNumeral d rest = true)
    (hquote : ¬ (d == '"' || d == '\'') = true)
    (hlong : (if d == '[' then longLevel? rest else none) = none) :
    scanAt ⟨d :: rest, line, column⟩ =
      match punctuator? (d :: rest) with
      | some (p, n) => .ok (.punctuator p, skip ⟨d :: rest, line, column⟩ n)
      | none => .error (Cursor.fault ⟨d :: rest, line, column⟩ (.unexpectedSymbol d.toString)) := by
  unfold startsNumeral at hnumeral
  rw [scanAt]
  dsimp only
  rw [if_neg hword, if_neg hnumeral, if_neg hquote]
  generalize (if d == '[' then longLevel? rest else none) = found at hlong ⊢
  subst hlong
  rfl

end Classes

theorem spells_word {d : Char} {rest : List Char} (hword : isWordStart d = true) :
    Spells ((d :: rest).takeWhile isWordChar)
      (ofWord (String.ofList ((d :: rest).takeWhile isWordChar))) := by
  have htake : (d :: rest).takeWhile isWordChar = d :: rest.takeWhile isWordChar :=
    List.takeWhile_cons_of_pos (isWordChar_of_isWordStart hword)
  have hself : ((d :: rest).takeWhile isWordChar).takeWhile isWordChar =
      (d :: rest).takeWhile isWordChar := by
    rw [List.takeWhile_takeWhile]
    simp
  rw [htake] at hself ⊢
  refine ⟨List.cons_ne_nil _ _, fun line column => ?_⟩
  rw [scanAt_word line column hword, hself, skip, List.drop_length]
  exact ⟨_, _, rfl⟩

/-- The first character of a numeral, and what decides about its kind behind it. -/
theorem numeralChars_start {d : Char} {rest : List Char} (h : startsNumeral d rest = true) :
    ∃ tail, numeralChars (startsHex d rest) (d :: rest) = d :: tail ∧ startsNumeral d tail = true ∧
      startsHex d tail = startsHex d rest := by
  have hdigit : d.isDigit = true ∨ d = '.' ∧ ∃ a r, rest = a :: r ∧ a.isDigit = true := by
    cases rest with
    | nil => simpa [startsNumeral] using h
    | cons a r => simpa [startsNumeral] using h
  have hchar : (d.isAlphanum || d == '.') = true := by
    rcases hdigit with hd | ⟨rfl, -⟩
    · simp [Char.isAlphanum, hd]
    · rfl
  have hmark : ∀ hex : Bool,
      ¬ (if hex then d == 'p' || d == 'P' else d == 'e' || d == 'E') = true := by
    intro hex hmark
    have hne : d = 'p' ∨ d = 'P' ∨ d = 'e' ∨ d = 'E' := by
      cases hex <;> simp at hmark <;> tauto
    rcases hdigit with hd | ⟨rfl, -⟩
    · rcases hne with rfl | rfl | rfl | rfl <;> cases hd
    · simp at hne
  have hhead : ∀ hex a r, a.isAlphanum = true → (numeralChars hex (a :: r)).head? = some a := by
    intro hex a r ha
    rw [numeralChars_cons]
    by_cases hm : (if hex then a == 'p' || a == 'P' else a == 'e' || a == 'E') = true
    · rw [if_pos hm]
      cases r with
      | nil => rfl
      | cons b r =>
        dsimp only
        by_cases hb : (b == '+' || b == '-') = true
        · rw [if_pos hb]
          rfl
        · rw [if_neg hb]
          rfl
    · rw [if_neg hm, if_pos (by simp [ha])]
      rfl
  have hhead' : ∀ hex a, (numeralChars hex rest).head? = some a → rest.head? = some a := by
    intro hex a ha
    obtain ⟨t, ht⟩ := (numeralChars_spec hex rest).1
    obtain ⟨r, hr⟩ := List.head?_eq_some_iff.1 ha
    rw [← ht, hr]
    rfl
  refine ⟨numeralChars (startsHex d rest) rest, ?_, ?_, ?_⟩
  · rw [numeralChars_cons, if_neg (hmark _), if_pos hchar]
  · rcases hdigit with hd | ⟨rfl, a, r, rfl, ha⟩
    · simp [startsNumeral, hd]
    · simp [startsNumeral, hhead _ a r (by simp [Char.isAlphanum, ha]), ha]
  · rw [Bool.eq_iff_iff]
    simp only [startsHex, Bool.and_eq_true, Bool.or_eq_true, beq_iff_eq]
    refine and_congr_right fun _ => or_congr ⟨hhead' _ _, fun hx => ?_⟩ ⟨hhead' _ _, fun hx => ?_⟩
    all_goals
      obtain ⟨r, rfl⟩ := List.head?_eq_some_iff.1 hx
      exact hhead _ _ _ rfl

theorem spells_numeral {d : Char} {rest : List Char} {n : Number} (hword : ¬ isWordStart d = true)
    (hnumeral : startsNumeral d rest = true)
    (hn : (if startsHex d rest then
        Numeral.hexWithPoint? ((numeralChars (startsHex d rest) (d :: rest)).drop 2)
      else Numeral.decimal? (numeralChars (startsHex d rest) (d :: rest))) = some n) :
    Spells (numeralChars (startsHex d rest) (d :: rest)) (.number n) := by
  obtain ⟨tail, htail, hnumeral', hhex⟩ := numeralChars_start hnumeral
  have hself := (numeralChars_spec (startsHex d rest) (d :: rest)).2.2
  rw [htail] at hself hn ⊢
  refine ⟨List.cons_ne_nil _ _, fun line column => ?_⟩
  rw [scanAt_numeral line column hword hnumeral', hhex, hself, hn]
  dsimp only
  rw [skip, List.drop_length]
  exact ⟨_, _, rfl⟩

theorem scanAt_eq_ok {c after : Cursor} {token : Token} (h : scanAt c = .ok (token, after)) :
    token = .endOfInput ∧ c.rest = [] ∧ after = c ∨
      token ≠ .endOfInput ∧ c.Takes after ∧ ∃ word, c.rest = word ++ after.rest ∧ Spells word token := by
  obtain ⟨cs, line, column⟩ := c
  cases cs with
  | nil =>
    cases h
    exact .inl ⟨rfl, rfl, rfl⟩
  | cons d rest =>
    refine .inr ?_
    by_cases hword : isWordStart d = true
    · rw [scanAt_word line column hword] at h
      cases h
      have hline : ∀ x ∈ (d :: rest).takeWhile isWordChar, isLineEnd x = false := fun x hx =>
        isLineEnd_eq_false (List.mem_takeWhile_imp hx) rfl rfl
      obtain ⟨htakes, hrest⟩ := takes_word (c := ⟨d :: rest, line, column⟩)
        (List.takeWhile_append_dropWhile (p := isWordChar)).symm (spells_word hword).1 hline
      refine ⟨ofWord_ne_endOfInput _, htakes, _, ?_, spells_word hword⟩
      rw [hrest]
      exact List.takeWhile_append_dropWhile.symm
    by_cases hnumeral : startsNumeral d rest = true
    · rw [scanAt_numeral line column hword hnumeral] at h
      split at h
      · next n hn =>
        cases h
        obtain ⟨⟨tail, htail⟩, hline, -⟩ := numeralChars_spec (startsHex d rest) (d :: rest)
        have hspells := spells_numeral hword hnumeral hn
        obtain ⟨htakes, hrest⟩ := takes_word (c := ⟨d :: rest, line, column⟩) htail.symm hspells.1 hline
        refine ⟨by simp, htakes, _, ?_, hspells⟩
        rw [hrest, htail]
      · cases h
    by_cases hquote : (d == '"' || d == '\'') = true
    · rw [scanAt_quote line column hword hnumeral hquote] at h
      split at h
      · next bytes after' hbody =>
        cases h
        have hd := isLineEnd_eq_false (p := fun d => d == '"' || d == '\'') hquote rfl rfl
        obtain ⟨htakes, body, hne, rfl, halone⟩ := quotedBody_eq_ok hd hbody
        refine ⟨by simp, Passes.takes (.char hd (.refl _)) htakes, d :: body, rfl, List.cons_ne_nil _ _,
          fun line' column' => ?_⟩
        obtain ⟨line'', column'', heq⟩ := halone ⟨d :: body, line', column'⟩ line' (column' + 1)
        have hnumeral' : ¬ startsNumeral d body = true := by
          simp only [Bool.or_eq_true, beq_iff_eq] at hquote
          rcases hquote with rfl | rfl
          · exact Bool.false_ne_true
          · exact Bool.false_ne_true
        rw [scanAt_quote line' column' hword hnumeral' hquote, heq]
        exact ⟨_, _, rfl⟩
      · cases h
    cases hlong : (if d == '[' then longLevel? rest else none) with
    | some level =>
      obtain ⟨rfl, hlevel⟩ : d = '[' ∧ longLevel? rest = some level := by
        split at hlong
        · next hd => exact ⟨beq_iff_eq.1 hd, hlong⟩
        · cases hlong
      rw [scanAt_long line column hlevel] at h
      split at h
      · next cs after' hbracket =>
        cases h
        obtain ⟨tail, htail⟩ := longLevel?_eq_some_iff.1 hlevel
        rw [← htail] at hbracket ⊢
        obtain ⟨text, htext, ⟨body, hbody, -⟩, htakes, halone⟩ := longBracket_eq_ok hbracket
        obtain ⟨inner, hinner, hlevel'⟩ : ∃ inner, text = '[' :: inner ∧ longLevel? inner = some level := by
          refine ⟨List.replicate level '=' ++ ['['] ++ body ++ longClosing level, hbody,
            longLevel?_eq_some_iff.2 ⟨body ++ longClosing level, ?_⟩⟩
          simp [longOpening]
        refine ⟨by simp, htakes, text, htext, by rw [hinner]; exact List.cons_ne_nil _ _, fun line' column' => ?_⟩
        obtain ⟨line'', column'', heq⟩ := halone line' column'
        rw [hinner] at heq ⊢
        rw [scanAt_long line' column' hlevel', heq]
        exact ⟨_, _, rfl⟩
      · cases h
    | none =>
      rw [scanAt_other line column hword hnumeral hquote hlong] at h
      split at h
      · next p n hp =>
        cases h
        obtain ⟨tail, htail, rfl⟩ := punctuator?_eq_some hp
        have hne : p.text.toList ≠ [] := by cases p <;> decide
        obtain ⟨htakes, hrest⟩ := takes_word (c := ⟨d :: rest, line, column⟩) htail hne (isLineEnd_punctuator p)
        refine ⟨by simp, htakes, p.text.toList, by rw [hrest]; exact htail, hne, fun line' column' => ?_⟩
        exact ⟨_, _, scanAt_punctuator p line' column'⟩
      · cases h

/-- The place of a text behind another one, from its first to its last character. -/
def extentOf (before word : List Char) : Extent :=
  { line := lineBehind before
    column := columnBehind before
    endLine := lineBehind (before ++ word.dropLast)
    endColumn := columnBehind (before ++ word.dropLast) }

theorem scanNext_eq_ok {before : List Char} {c after : Cursor} {l : Lexeme}
    (hc : Passes ⟨before ++ c.rest, 1, 1⟩ c) (h : scanNext c = .ok (l, after)) :
    ∃ gap word, c.rest = gap ++ word ++ after.rest ∧ Skipped (word ++ after.rest) gap ∧
      l.extent = extentOf (before ++ gap) word ∧ Passes ⟨before ++ c.rest, 1, 1⟩ after ∧
      (l.token = .endOfInput ∧ word = [] ∧ after.rest = [] ∨
        l.token ≠ .endOfInput ∧ Spells word l.token) := by
  unfold scanNext at h
  cases hskip : skipBlanks (c.rest.length + 1) c with
  | error e =>
    rw [hskip] at h
    cases h
  | ok c₁ =>
    rw [hskip] at h
    dsimp only [bind, Except.bind] at h
    obtain ⟨hpasses, gap, hgap, hskipped⟩ := skipBlanks_eq_ok hskip
    have hc₁ := hc.trans hpasses
    have hplace : c₁.line = lineBehind (before ++ gap) ∧ c₁.column = columnBehind (before ++ gap) := by
      refine Passes.place ?_
      rwa [List.append_assoc, ← hgap]
    cases hat : scanAt c₁ with
    | error e =>
      rw [hat] at h
      cases h
    | ok r =>
      obtain ⟨token, after'⟩ := r
      rw [hat] at h
      obtain ⟨rfl, rfl⟩ := Prod.mk.inj (Except.ok.inj h)
      rcases scanAt_eq_ok hat with ⟨rfl, hrest, rfl⟩ | ⟨hne, htakes, word, hword, hspells⟩
      · refine ⟨gap, [], ?_, hskipped, ?_, hc₁, .inl ⟨rfl, rfl, hrest⟩⟩
        · rw [List.append_nil, hgap]
        · rw [if_pos rfl, hplace.1, hplace.2]
          simp [extentOf]
      · rw [if_neg hne]
        refine ⟨gap, word, by rw [hgap, hword, List.append_assoc], hword ▸ hskipped, ?_,
          hc₁.trans htakes.passes, .inr ⟨hne, hspells⟩⟩
        -- the last character of the word stands before the cursor
        obtain ⟨d, rest, line, column, hd, rfl, hlast⟩ := htakes
        obtain ⟨front, hfront⟩ := hlast.suffix
        have hsplit : word = front ++ [d] := by
          have htext : word ++ rest = front ++ [d] ++ rest := by
            rw [← hword, ← hfront, List.append_assoc]
            rfl
          exact List.append_cancel_right htext
        have hend : line = lineBehind (before ++ gap ++ front) ∧
            column = columnBehind (before ++ gap ++ front) := by
          refine Passes.place (c := ⟨d :: rest, line, column⟩) ?_
          rw [List.append_assoc, hfront, List.append_assoc, ← hgap]
          exact hc₁.trans hlast
        have hpos : 1 ≤ column := by
          rw [hend.2]
          exact Nat.le_add_left 1 _
        rw [extentOf, hsplit, List.dropLast_concat, ← hend.1, ← hend.2, hplace.1, hplace.2]
        dsimp only
        rw [Nat.add_sub_cancel, Nat.max_eq_left hpos]

end Token

namespace TokenStream

open Token Cursor

/-- The lexemes of the text behind `before`, each at its place: what stands between them is blanks and
comments, and the lexeme at the end of the input has the place behind the last character. -/
inductive Placed : (before text : List Char) → List Lexeme → Except SyntaxFault Lexeme → Prop
  | fault (before text : List Char) (e : SyntaxFault) : Placed before text [] (.error e)
  | ending {before text : List Char} (hgap : Skipped [] text) :
      Placed before text [] (.ok ⟨.endOfInput, extentOf (before ++ text) []⟩)
  | token {before gap word rest : List Char} {token : Token} {lexemes : List Lexeme}
      {ending : Except SyntaxFault Lexeme} (hgap : Skipped (word ++ rest) gap)
      (hword : Spells word token) (hrest : Placed (before ++ gap ++ word) rest lexemes ending) :
      Placed before (gap ++ word ++ rest) (⟨token, extentOf (before ++ gap) word⟩ :: lexemes) ending

theorem scanFrom_placed {fuel : Nat} {before : List Char} {c : Cursor}
    (hc : Passes ⟨before ++ c.rest, 1, 1⟩ c) (hfuel : c.rest.length < fuel) :
    Placed before c.rest (scanFrom fuel c).lexemes (scanFrom fuel c).ending := by
  induction fuel generalizing before c with
  | zero => omega
  | succ fuel ih =>
    rw [scanFrom]
    cases hnext : scanNext c with
    | error e => exact .fault before c.rest e
    | ok r =>
      obtain ⟨⟨token, extent⟩, after⟩ := r
      obtain ⟨gap, word, hrest, hskipped, hextent, hpasses, hend | ⟨hne, hspells⟩⟩ := scanNext_eq_ok hc hnext
      · obtain ⟨rfl, rfl, hafter⟩ := hend
        dsimp only at hextent ⊢
        rw [if_pos rfl, hextent]
        rw [hafter, List.append_nil, List.append_nil] at hrest
        rw [hafter] at hskipped
        rw [hrest]
        exact .ending hskipped
      · dsimp only at hextent hne hspells ⊢
        rw [if_neg hne, hrest, hextent]
        refine .token hskipped hspells (ih ?_ ?_)
        · rw [hrest] at hpasses
          simpa using hpasses
        · have hlen := congrArg List.length hrest
          have hpos := List.length_pos_iff.2 hspells.1
          simp only [List.length_append] at hlen
          omega

end TokenStream

/-- The lexemes of a text are at their places. -/
theorem Token.scan_placed {source : String} (h : source.toList.head? ≠ some '#') :
    TokenStream.Placed [] source.toList (scan source).lexemes (scan source).ending := by
  have hshebang : (Cursor.ofString source).skipShebang = Cursor.ofString source := by
    rw [Cursor.skipShebang, if_neg]
    simpa [Cursor.ofString] using h
  rw [scan, hshebang]
  have hstart : Cursor.Passes ⟨[] ++ (Cursor.ofString source).rest, 1, 1⟩ (Cursor.ofString source) := .refl _
  exact TokenStream.scanFrom_placed hstart (Nat.lt_succ_self _)

/-- A text with line ends of all kinds, a comment and a string over several lines. -/
theorem Token.scan_placed_mixed : "f\r\n  [[\n\r]]--[=[ \r]=]g -- h".toList.head? ≠ some '#' ∧
    TokenStream.Placed [] "f\r\n  [[\n\r]]--[=[ \r]=]g -- h".toList
      (scan "f\r\n  [[\n\r]]--[=[ \r]=]g -- h").lexemes
      (scan "f\r\n  [[\n\r]]--[=[ \r]=]g -- h").ending ∧
    (scan "f\r\n  [[\n\r]]--[=[ \r]=]g -- h").lexemes =
      [⟨.identifier "f", ⟨1, 1, 1, 1⟩⟩, ⟨.string "", ⟨2, 3, 3, 2⟩⟩, ⟨.identifier "g", ⟨4, 4, 4, 4⟩⟩] :=
  ⟨by decide, scan_placed (by decide), by decide +kernel⟩

end LuaMachine
