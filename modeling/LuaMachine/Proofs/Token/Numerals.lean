import LuaMachine.Proofs.Token.Spelling

/-!
# Numerals in programs and in texts

A numeral is recognised in two ways. The scanner takes in letters, digits and points, and a sign behind the
mark of an exponent, and then looks at what it has; a text that is coerced to a number is sifted for
characters that a numeral may have, and then looked at as a whole. What is looked at has a shape
(`Numeral.decimal?_shape`) that both of them let through, so nothing is lost on the way.

Main statement: `Token.readAs_number_iff`.
-/

namespace LuaMachine

/-! ## Decimal numerals -/

namespace Numeral

open Token

/-- A character that may be in a numeral, and is not the mark of an exponent, is taken in. -/
theorem numeralChars_char (hex : Bool) {c : Char} (rest : List Char)
    (hmark : ¬ (if hex then c == 'p' || c == 'P' else c == 'e' || c == 'E') = true)
    (hchar : (c.isAlphanum || c == '.') = true) :
    numeralChars hex (c :: rest) = c :: numeralChars hex rest := by
  rw [numeralChars_cons, if_neg hmark, if_pos hchar]

/-- The scanner takes in digits. -/
theorem numeralChars_digits {ds : List Char} (hds : ds.all Char.isDigit = true) (rest : List Char) :
    numeralChars false (ds ++ rest) = ds ++ numeralChars false rest := by
  induction ds with
  | nil => rfl
  | cons d ds ih =>
    obtain ⟨hd, hds⟩ := Bool.and_eq_true_iff.1 hds
    have hmark : ¬ (d == 'e' || d == 'E') = true := by
      intro hmark
      rcases Bool.or_eq_true_iff.1 hmark with h | h
      all_goals
        rw [beq_iff_eq.1 h] at hd
        cases hd
    rw [List.cons_append, numeralChars_char false _ hmark (by simp [Char.isAlphanum, hd]), ih hds, List.cons_append]

/-- The text behind the digits of a decimal numeral. -/
inductive IsExponent : List Char → Prop
  | none : IsExponent []
  | unsigned {mark : Char} {ds : List Char} (hmark : mark = 'e' ∨ mark = 'E') (hds : ds.all Char.isDigit = true) :
      IsExponent (mark :: ds)
  | signed {mark sign : Char} {ds : List Char} (hmark : mark = 'e' ∨ mark = 'E') (hsign : sign = '+' ∨ sign = '-')
      (hds : ds.all Char.isDigit = true) : IsExponent (mark :: sign :: ds)

theorem isExponent_of_eq_some {cs : List Char} {e : Int} (h : exponent? cs = some e) : IsExponent cs := by
  unfold exponent? at h
  split at h
  · exact .none
  · next c rest =>
    split at h
    · next hmark =>
      have hmark : c = 'e' ∨ c = 'E' := by simpa using hmark
      split at h
      next negative ds heq =>
      split at h
      · cases h
      · next hds =>
        have hds : ds.all Char.isDigit = true := by
          simp only [Bool.or_eq_true, not_or, Bool.not_eq_true, Bool.not_eq_false'] at hds
          exact hds.2
        split at heq
        · cases heq
          exact .signed hmark (.inr rfl) hds
        · cases heq
          exact .signed hmark (.inl rfl) hds
        · cases heq
          exact .unsigned hmark hds
    · cases h

theorem IsExponent.numeralChars {cs : List Char} (h : IsExponent cs) : numeralChars false cs = cs := by
  have hdigits : ∀ {ds : List Char}, ds.all Char.isDigit = true → Token.numeralChars false ds = ds := by
    intro ds hds
    have h := numeralChars_digits hds []
    rwa [List.append_nil, show Token.numeralChars false [] = [] from rfl, List.append_nil] at h
  cases h with
  | none => rfl
  | @unsigned mark ds hmark hds =>
    rw [numeralChars_cons, if_pos (by rcases hmark with rfl | rfl <;> rfl)]
    cases ds with
    | nil => rfl
    | cons d ds =>
      have hd : ¬ (d == '+' || d == '-') = true := by
        intro hsign
        have hd := (Bool.and_eq_true_iff.1 hds).1
        rcases Bool.or_eq_true_iff.1 hsign with h | h
        all_goals
          rw [beq_iff_eq.1 h] at hd
          cases hd
      dsimp only
      rw [if_neg hd, hdigits hds]
  | @signed mark sign ds hmark hsign hds =>
    rw [numeralChars_cons, if_pos (by rcases hmark with rfl | rfl <;> rfl)]
    dsimp only
    rw [if_pos (by rcases hsign with rfl | rfl <;> rfl), hdigits hds]

theorem isDecimalChar_of_isDigit {ds : List Char} (h : ds.all Char.isDigit = true) :
    ds.all isDecimalChar = true := by
  refine List.all_eq_true.2 fun c hc => ?_
  simp [isDecimalChar, List.all_eq_true.1 h c hc]

theorem IsExponent.all_isDecimalChar {cs : List Char} (h : IsExponent cs) : cs.all isDecimalChar = true := by
  cases h with
  | none => rfl
  | unsigned hmark hds =>
    refine Bool.and_eq_true_iff.2 ⟨?_, isDecimalChar_of_isDigit hds⟩
    rcases hmark with rfl | rfl <;> rfl
  | signed hmark hsign hds =>
    refine Bool.and_eq_true_iff.2 ⟨?_, Bool.and_eq_true_iff.2 ⟨?_, isDecimalChar_of_isDigit hds⟩⟩
    · rcases hmark with rfl | rfl <;> rfl
    · rcases hsign with rfl | rfl <;> rfl

/-- A decimal numeral consists of digits, perhaps with a point between them, and an exponent. -/
theorem decimal?_shape {cs : List Char} {v : Number} (h : decimal? cs = some v) :
    ∃ whole point part exponent, cs = whole ++ (point ++ (part ++ exponent)) ∧
      whole.all Char.isDigit = true ∧ (point = [] ∧ part = [] ∨ point = ['.']) ∧
      part.all Char.isDigit = true ∧ IsExponent exponent := by
  have hall : ∀ l : List Char, (l.takeWhile Char.isDigit).all Char.isDigit = true := fun l =>
    List.all_eq_true.2 fun c hc => List.mem_takeWhile_imp hc
  unfold decimal? at h
  dsimp only at h
  split at h
  · next r hr =>
    rw [Option.ite_none_left_eq_some] at h
    obtain ⟨e, he, -⟩ := Option.map_eq_some_iff.1 h.2
    refine ⟨_, ['.'], _, _, ?_, hall cs, .inr rfl, hall r, isExponent_of_eq_some he⟩
    rw [List.singleton_append, List.takeWhile_append_dropWhile, ← hr, List.takeWhile_append_dropWhile]
  · rw [Option.ite_none_left_eq_some] at h
    obtain ⟨e, he, -⟩ := Option.map_eq_some_iff.1 h.2
    exact ⟨_, [], [], _, (List.takeWhile_append_dropWhile).symm, hall cs, .inl ⟨rfl, rfl⟩, rfl,
      isExponent_of_eq_some he⟩

/-- Both the scanner and the sieve let a decimal numeral through. -/
theorem decimal?_recognised {cs : List Char} {v : Number} (h : decimal? cs = some v) :
    numeralChars false cs = cs ∧ cs.all isDecimalChar = true := by
  obtain ⟨whole, point, part, exponent, rfl, hwhole, hpoint, hpart, hexponent⟩ := decimal?_shape h
  have hrest : numeralChars false (part ++ exponent) = part ++ exponent := by
    rw [numeralChars_digits hpart, hexponent.numeralChars]
  refine ⟨?_, ?_⟩
  · rw [numeralChars_digits hwhole]
    rcases hpoint with ⟨rfl, rfl⟩ | rfl
    · rw [List.nil_append, hrest]
    · rw [List.singleton_append, numeralChars_char false _ (by decide) (by decide), hrest]
  · rw [List.all_append, List.all_append, List.all_append, isDecimalChar_of_isDigit hwhole,
      isDecimalChar_of_isDigit hpart, hexponent.all_isDecimalChar]
    rcases hpoint with ⟨rfl, -⟩ | rfl <;> rfl

/-! ## Hexadecimal numerals -/

/-- Without a point and an exponent there are only the digits to look at. -/
theorem hexWithPoint?_plain {ds : List Char} (hplain : ∀ c ∈ ds, c ≠ '.' ∧ c ≠ 'p' ∧ c ≠ 'P') :
    hexWithPoint? ds = if ds.isEmpty || !ds.all isHexDigit then none else some (hex ds) := by
  have hmark : ∀ c ∈ ds, (!(c == 'p' || c == 'P')) = true := by
    intro c hc
    obtain ⟨-, hp, hP⟩ := hplain c hc
    simp [hp, hP]
  have hpoint : ∀ c ∈ ds, (c != '.') = true := fun c hc => by simp [(hplain c hc).1]
  have htake : ds.takeWhile (fun c => !(c == 'p' || c == 'P')) = ds := List.takeWhile_eq_self_iff.2 hmark
  have hdrop : ds.dropWhile (fun c => !(c == 'p' || c == 'P')) = [] := List.dropWhile_eq_nil_iff.2 hmark
  have hwhole : ds.takeWhile (· != '.') = ds := List.takeWhile_eq_self_iff.2 hpoint
  have hpart : ds.dropWhile (· != '.') = [] := List.dropWhile_eq_nil_iff.2 hpoint
  unfold hexWithPoint?
  dsimp only
  rw [htake, hdrop, hwhole, hpart]
  simp

theorem isAlpha_iff {c : Char} : c.isAlpha = true ↔
    (65 ≤ c.val.toNat ∧ c.val.toNat ≤ 90) ∨ (97 ≤ c.val.toNat ∧ c.val.toNat ≤ 122) := by
  have halpha : c.isAlpha = (decide ('A'.val ≤ c.val ∧ c.val ≤ 'Z'.val) ||
      decide ('a'.val ≤ c.val) && decide (c.val ≤ 'z'.val)) := rfl
  simp only [halpha, Bool.or_eq_true, Bool.and_eq_true, decide_eq_true_eq, UInt32.le_iff_toNat_le]
  exact .rfl

theorem isAlphanum_of_isHexDigit {c : Char} (h : isHexDigit c = true) : c.isAlphanum = true := by
  simp only [isHexDigit, Bool.or_eq_true, Bool.and_eq_true, decide_eq_true_eq, Char.le_def,
    UInt32.le_iff_toNat_le] at h
  rw [Char.isAlphanum, Bool.or_eq_true, isAlpha_iff]
  have ha : 'a'.val.toNat = 97 := rfl
  have hf : 'f'.val.toNat = 102 := rfl
  have hA : 'A'.val.toNat = 65 := rfl
  have hF : 'F'.val.toNat = 70 := rfl
  rcases h with (hdigit | hlower) | hupper
  · exact .inr hdigit
  · exact .inl (.inr (by omega))
  · exact .inl (.inl (by omega))

/-- The scanner takes in hexadecimal digits. -/
theorem numeralChars_hexDigits {ds : List Char} (hds : ds.all isHexDigit = true) : numeralChars true ds = ds := by
  induction ds with
  | nil => rfl
  | cons d ds ih =>
    obtain ⟨hd, hds⟩ := Bool.and_eq_true_iff.1 hds
    have hmark : ¬ (d == 'p' || d == 'P') = true := by
      intro hmark
      rcases Bool.or_eq_true_iff.1 hmark with h | h
      all_goals
        rw [beq_iff_eq.1 h] at hd
        revert hd
        decide
    rw [numeralChars_char true _ hmark (by rw [isAlphanum_of_isHexDigit hd]; rfl), ih hds]

theorem numeralChars_hex {x : Char} {ds : List Char} (hx : x = 'x' ∨ x = 'X') (hds : ds.all isHexDigit = true) :
    numeralChars true ('0' :: x :: ds) = '0' :: x :: ds := by
  have hmark : ¬ (x == 'p' || x == 'P') = true := by
    rcases hx with rfl | rfl <;> decide
  have hchar : (x.isAlphanum || x == '.') = true := by
    rcases hx with rfl | rfl <;> decide
  rw [numeralChars_char true _ (by decide) (by decide), numeralChars_char true _ hmark hchar, numeralChars_hexDigits hds]

/-! ## Both recognisers -/

/-- A text that starts as a numeral does is recognised by its start. -/
theorem startsHex_iff {d : Char} {rest : List Char} :
    startsHex d rest = true ↔ ∃ x ds, d = '0' ∧ rest = x :: ds ∧ (x = 'x' ∨ x = 'X') := by
  cases rest with
  | nil => simp [startsHex]
  | cons x ds => simp [startsHex]

/-- The sieve looks at a decimal text as a whole. -/
theorem unsigned?_decimal {d : Char} {rest : List Char} (hnumeral : startsNumeral d rest = true)
    (hhex : ¬ startsHex d rest = true) :
    unsigned? (d :: rest) = if (d :: rest).all isDecimalChar then decimal? (d :: rest) else none := by
  have hstart : (d.isDigit || d == '.') = true := by
    rcases Bool.or_eq_true_iff.1 hnumeral with hd | hd
    · rw [hd, Bool.true_or]
    · rw [(Bool.and_eq_true_iff.1 hd).1, Bool.or_true]
  unfold unsigned?
  split
  · next heq =>
    cases heq
    exact absurd (startsHex_iff.2 ⟨_, _, rfl, rfl, .inl rfl⟩) hhex
  · next heq =>
    cases heq
    exact absurd (startsHex_iff.2 ⟨_, _, rfl, rfl, .inr rfl⟩) hhex
  · next heq => cases heq
  · next heq =>
    cases heq
    rw [hstart, Bool.true_and]

theorem unsigned?_hex {x : Char} {ds : List Char} (hx : x = 'x' ∨ x = 'X') :
    unsigned? ('0' :: x :: ds) = if ds.isEmpty || !ds.all isHexDigit then none else some (hex ds) := by
  rcases hx with rfl | rfl <;> rfl

/-- What the scanner makes of a text that it takes in to the end is what the sieve lets through. -/
theorem unsigned?_eq_some_iff {d : Char} {rest : List Char} {v : Number} (hnumeral : startsNumeral d rest = true)
    (hplain : startsHex d rest = true → ∀ c ∈ d :: rest, c ≠ '.' ∧ c ≠ 'p' ∧ c ≠ 'P') :
    unsigned? (d :: rest) = some v ↔
      numeralChars (startsHex d rest) (d :: rest) = d :: rest ∧
        (if startsHex d rest then hexWithPoint? (rest.drop 1) else decimal? (d :: rest)) = some v := by
  by_cases hhex : startsHex d rest = true
  · have hplain := hplain hhex
    rw [hhex, if_pos rfl]
    obtain ⟨x, ds, rfl, rfl, hx⟩ := startsHex_iff.1 hhex
    have hpoint := @hexWithPoint?_plain ds fun c hc =>
      hplain c (List.mem_cons_of_mem _ (List.mem_cons_of_mem _ hc))
    rw [unsigned?_hex hx, List.drop_one, List.tail_cons, hpoint]
    refine ⟨fun h => ⟨?_, h⟩, fun h => h.2⟩
    split at h
    · cases h
    · next hdigits =>
      simp only [Bool.or_eq_true, not_or, Bool.not_eq_true', Bool.not_eq_true, Bool.not_eq_false] at hdigits
      exact numeralChars_hex hx hdigits.2
  · rw [unsigned?_decimal hnumeral hhex, Bool.eq_false_iff.2 hhex, if_neg Bool.false_ne_true]
    constructor
    · intro h
      split at h
      · exact ⟨(decimal?_recognised h).1, h⟩
      · cases h
    · rintro ⟨-, h⟩
      rw [(decimal?_recognised h).2, if_pos rfl, h]

end Numeral

/-! ## A text that is one numeral -/

theorem Text.trimBlanks_compact {cs : List Char} (h : ∀ c ∈ cs, isBlank c = false) : trimBlanks cs = cs := by
  have hdrop : ∀ l : List Char, (∀ c ∈ l, isBlank c = false) → l.dropWhile isBlank = l := by
    intro l hl
    cases l with
    | nil => rfl
    | cons c l => rw [List.dropWhile_cons, hl c List.mem_cons_self, if_neg Bool.false_ne_true]
  rw [trimBlanks, hdrop cs h, hdrop _ fun c hc => h c (List.mem_reverse.1 hc), List.reverse_reverse]

namespace Token

/-- There is nothing to pass over. -/
theorem skipBlanks_compact {cs : List Char} (hblank : ∀ c ∈ cs, Text.isBlank c = false)
    (hcomment : StartsNoComment cs) (fuel line column : Nat) :
    skipBlanks fuel ⟨cs, line, column⟩ = .ok ⟨cs, line, column⟩ := by
  cases cs with
  | nil => exact skipBlanks_nil fuel rfl
  | cons d rest =>
    cases fuel with
    | zero => rfl
    | succ fuel =>
      have hd := hblank d List.mem_cons_self
      have hend : isLineEnd d = false := Bool.eq_false_iff.2 fun hend =>
        Bool.eq_false_iff.1 hd (isBlank_of_isLineEnd hend)
      rw [skipBlanks_char fuel rfl hcomment, hend, hd]
      rfl

/-- Where there is nothing to pass over, the next lexeme is the token that stands there. -/
theorem scanAt_of_scanNext {c after : Cursor} {l : Lexeme} (hblank : ∀ d ∈ c.rest, Text.isBlank d = false)
    (hcomment : StartsNoComment c.rest) (h : scanNext c = .ok (l, after)) : scanAt c = .ok (l.token, after) := by
  obtain ⟨cs, line, column⟩ := c
  rw [scanNext, skipBlanks_compact hblank hcomment] at h
  change (scanAt ⟨cs, line, column⟩ >>= _) = _ at h
  cases hscan : scanAt ⟨cs, line, column⟩ with
  | error e =>
    rw [hscan] at h
    cases h
  | ok result =>
    rw [hscan] at h
    cases h
    rfl

/-- The first lexeme of a text that has one. -/
theorem scanFrom_eq_cons {fuel : Nat} {c : Cursor} {l : Lexeme} {ls : List Lexeme}
    {ending : Except SyntaxFault Lexeme} (h : TokenStream.scanFrom (fuel + 1) c = ⟨l :: ls, ending⟩) :
    l.token ≠ .endOfInput ∧ ∃ after, scanNext c = .ok (l, after) ∧
      TokenStream.scanFrom fuel after = ⟨ls, ending⟩ := by
  rw [TokenStream.scanFrom] at h
  split at h
  · cases h
  · next l' after hnext =>
    split at h
    · cases h
    · next hne =>
      injection h with hlexemes hending
      injection hlexemes with hl hls
      subst hl
      exact ⟨hne, after, hnext, by rw [← hls, ← hending]⟩

/-- The end of a text that has no lexeme. -/
theorem scanFrom_eq_nil {fuel : Nat} {c : Cursor} {l : Lexeme}
    (h : TokenStream.scanFrom (fuel + 1) c = ⟨[], .ok l⟩) :
    l.token = .endOfInput ∧ ∃ after, scanNext c = .ok (l, after) := by
  rw [TokenStream.scanFrom] at h
  split at h
  · cases h
  · next l' after hnext =>
    split at h
    · next hend =>
      cases h
      exact ⟨hend, after, hnext⟩
    · cases h

/-- A text without blanks and comments is one token when its first token is all of it. -/
theorem readAs_iff_scanAt {d : Char} {rest : List Char} {token : Token} (hshebang : d ≠ '#') (hsign : d ≠ '-')
    (hblank : ∀ c ∈ d :: rest, Text.isBlank c = false) (hcomment : ¬ ['-', '-'] <:+: d :: rest) :
    ReadAs (d :: rest) token ↔
      token ≠ .endOfInput ∧ ∃ line column, scanAt ⟨d :: rest, 1, 1⟩ = .ok (token, ⟨[], line, column⟩) := by
  refine ⟨?_, ?_⟩
  swap
  · rintro ⟨hne, line, column, hscan⟩
    exact readAs_of_scanAt hshebang hsign (hblank d List.mem_cons_self) hne hscan
  rintro ⟨extent, extent', hread⟩
  have hfree : ∀ cs : List Char, cs <:+ d :: rest → StartsNoComment cs := by
    rintro _ hcs r rfl
    exact hcomment ((List.prefix_append ['-', '-'] r).isInfix.trans hcs.isInfix)
  have hscan : TokenStream.scanFrom (rest.length + 2) ⟨d :: rest, 1, 1⟩ =
      ⟨[⟨token, extent⟩], .ok ⟨.endOfInput, extent'⟩⟩ := by
    rw [scan, Cursor.skipShebang, if_neg (by simpa [Cursor.ofString] using hshebang)] at hread
    change TokenStream.scanFrom ((String.ofList (d :: rest)).toList.length + 1)
      ⟨(String.ofList (d :: rest)).toList, 1, 1⟩ = _ at hread
    rwa [String.toList_ofList] at hread
  obtain ⟨hne, after, hfirst, hbehind⟩ := scanFrom_eq_cons hscan
  obtain ⟨-, after', hlast⟩ := scanFrom_eq_nil hbehind
  have htoken := scanAt_of_scanNext hblank (hfree _ (List.suffix_refl _)) hfirst
  -- behind the token, too, there is nothing to pass over
  rcases scanAt_eq_ok htoken with ⟨hend, -⟩ | ⟨-, -, word, hword, -⟩
  · exact absurd hend hne
  have hsuffix : after.rest <:+ d :: rest := ⟨word, hword.symm⟩
  have hnone := scanAt_of_scanNext (fun c hc => hblank c (hsuffix.subset hc)) (hfree _ hsuffix) hlast
  rcases scanAt_eq_ok hnone with ⟨-, hrest, -⟩ | ⟨habsurd, -⟩
  · obtain ⟨cs, line, column⟩ := after
    obtain rfl : cs = [] := hrest
    exact ⟨hne, line, column, htoken⟩
  · exact absurd rfl habsurd

theorem not_isWordStart_of_startsNumeral {d : Char} {rest : List Char} (h : startsNumeral d rest = true) :
    ¬ isWordStart d = true := by
  rcases Bool.or_eq_true_iff.1 h with hd | hd
  · have hrange : 48 ≤ d.val.toNat ∧ d.val.toNat ≤ 57 := by
      simpa [Char.isDigit, UInt32.le_iff_toNat_le] using hd
    simp only [isWordStart, Bool.or_eq_true, Numeral.isAlpha_iff, beq_iff_eq]
    rintro ((hupper | hlower) | rfl)
    · omega
    · omega
    · exact absurd hrange.2 (by decide)
  · rw [beq_iff_eq.1 (Bool.and_eq_true_iff.1 hd).1]
    decide

/-- A numeral is a token of its own when the scanner takes it in to the end. -/
theorem scanAt_numeral_iff {d : Char} {rest : List Char} {v : Number} (hnumeral : startsNumeral d rest = true) :
    (∃ line column, scanAt ⟨d :: rest, 1, 1⟩ = .ok (.number v, ⟨[], line, column⟩)) ↔
      numeralChars (startsHex d rest) (d :: rest) = d :: rest ∧
        (if startsHex d rest then Numeral.hexWithPoint? (rest.drop 1) else Numeral.decimal? (d :: rest)) =
          some v := by
  have hword : ¬ isWordStart d = true := not_isWordStart_of_startsNumeral hnumeral
  rw [scanAt_numeral 1 1 hword hnumeral]
  constructor
  · rintro ⟨line, column, hscan⟩
    split at hscan
    · next n hn =>
      injection hscan with hscan
      injection hscan with htoken hafter
      injection htoken with htoken
      subst htoken
      obtain ⟨⟨tail, htail⟩, -, -⟩ := numeralChars_spec (startsHex d rest) (d :: rest)
      have htake : (d :: rest).drop (numeralChars (startsHex d rest) (d :: rest)).length = [] :=
        congrArg Cursor.rest hafter
      have hall : numeralChars (startsHex d rest) (d :: rest) = d :: rest := by
        have hdrop := congrArg (List.drop (numeralChars (startsHex d rest) (d :: rest)).length) htail
        rw [List.drop_left, htake] at hdrop
        rw [hdrop, List.append_nil] at htail
        exact htail
      rw [hall] at hn
      exact ⟨hall, hn⟩
    · cases hscan
  · rintro ⟨hall, hv⟩
    have hdrop : (d :: rest).drop 2 = rest.drop 1 := rfl
    rw [hall, hdrop, hv]
    refine ⟨1, 1 + (d :: rest).length, ?_⟩
    dsimp only
    rw [Cursor.skip, List.drop_length]

/-- A text without blanks and comments in it that starts as a numeral does, in hexadecimal without point and
exponent, is read as a number exactly when it can be coerced to it. -/
theorem readAs_number_iff {s : String} {v : Number} (hblank : ∀ c ∈ s.toList, Text.isBlank c = false)
    (hcomment : ¬ ['-', '-'] <:+: s.toList)
    (hstart : ∃ d rest, s.toList = d :: rest ∧ (d.isDigit = true ∨ d = '.' ∧ ∃ e ∈ rest.head?, e.isDigit = true))
    (hhex : ['0', 'x'] <+: s.toList ∨ ['0', 'X'] <+: s.toList → ∀ c ∈ s.toList, c ≠ '.' ∧ c ≠ 'p' ∧ c ≠ 'P') :
    ReadAs s.toList (.number v) ↔ Number.ofText? s = some v := by
  obtain ⟨d, rest, hs, hfirst⟩ := hstart
  have hnumeral : startsNumeral d rest = true := by
    rcases hfirst with hd | ⟨rfl, e, he, hdigit⟩
    · rw [startsNumeral, hd, Bool.true_or]
    · rw [startsNumeral, Option.mem_def.1 he]
      simp [hdigit]
  have hsign : d ≠ '#' ∧ d ≠ '-' ∧ d ≠ '+' := by
    refine ⟨?_, ?_, ?_⟩
    all_goals
      rintro rfl
      rcases hfirst with hd | ⟨hd, -⟩ <;> cases hd
  have htext : Number.ofText? s = Numeral.unsigned? (d :: rest) := by
    rw [Number.ofText?, Text.trimBlanks_compact hblank, hs]
    split
    · next heq => exact absurd (List.cons.inj heq).1 hsign.2.1
    · next heq => exact absurd (List.cons.inj heq).1 hsign.2.2
    · rfl
  rw [hs] at hblank hcomment hhex ⊢
  have hplain : startsHex d rest = true → ∀ c ∈ d :: rest, c ≠ '.' ∧ c ≠ 'p' ∧ c ≠ 'P' := by
    intro h
    obtain ⟨x, ds, rfl, rfl, hx⟩ := Numeral.startsHex_iff.1 h
    refine hhex ?_
    rcases hx with rfl | rfl
    · exact .inl ⟨ds, rfl⟩
    · exact .inr ⟨ds, rfl⟩
  rw [htext, readAs_iff_scanAt hsign.1 hsign.2.1 hblank hcomment, and_iff_right (by simp),
    scanAt_numeral_iff hnumeral, Numeral.unsigned?_eq_some_iff hnumeral hplain]

/-- Letters of both cases are digits; a second point is taken in, and refused. -/
theorem readAs_number_mixed :
    ReadAs "0xFf".toList (.number (.ofNat 255)) ∧ ¬ ReadAs "1..2".toList (.number .one) := by
  have hhex : "0xFf".toList = ['0', 'x', 'F', 'f'] := by decide
  have hpoints : "1..2".toList = ['1', '.', '.', '2'] := by decide
  constructor
  · have hread := readAs_number_iff (s := "0xFf") (v := .ofNat 255)
    rw [hhex] at hread ⊢
    refine (hread (by simp [Text.isBlank]) (by decide) ⟨'0', _, rfl, .inl rfl⟩ fun _ => by simp).2 ?_
    rw [Number.ofText?, hhex]
    decide +kernel
  · have hread := readAs_number_iff (s := "1..2") (v := .one)
    rw [hpoints] at hread ⊢
    refine mt (hread (by simp [Text.isBlank]) (by decide) ⟨'1', _, rfl, .inl rfl⟩ fun h => ?_).1 ?_
    · revert h
      decide
    · rw [Number.ofText?, hpoints]
      decide

end Token

end LuaMachine
