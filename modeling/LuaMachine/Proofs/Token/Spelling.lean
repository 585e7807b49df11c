import LuaMachine.Proofs.Token.Positions
import LuaMachine.Proofs.Text.Utf8

/-!
# What string literals spell

A string between quotes spells each of its characters in one of three ways: as the character itself, by an
escape of one letter, or by escapes for the bytes of the character in UTF-8. Between any of these there may
be gaps, that is `\z` and the blanks behind it. Whatever the mixture, the literal is read as the string
that it spells. A long string spells its own characters.

Main statement: `Token.scan_literal`.
-/

namespace LuaMachine.Token

/-! ## Spellings -/

/-- A hexadecimal digit of either case. -/
def IsHexDigit (d : Nat) (c : Char) : Prop := c = Nat.digitChar d ∨ c = (Nat.digitChar d).toUpper

/-- An escape for a byte: two hexadecimal digits, or three decimal ones. -/
inductive SpellsByte (b : UInt8) : List Char → Prop
  | hex {h k : Char} (hh : IsHexDigit (b.toNat / 16) h) (hk : IsHexDigit (b.toNat % 16) k) :
      SpellsByte b ['\\', 'x', h, k]
  | decimal : SpellsByte b ['\\', Nat.digitChar (b.toNat / 100), Nat.digitChar (b.toNat / 10 % 10),
      Nat.digitChar (b.toNat % 10)]

/-- A gap: blanks that are passed over. -/
structure IsGap (text : List Char) : Prop where
  blank : ∃ blanks, text = '\\' :: 'z' :: blanks ∧ ∀ c ∈ blanks, Text.isBlank c = true

/-- Escapes for bytes, with gaps between them. -/
inductive SpellsBytes : List UInt8 → List Char → Prop
  | nil : SpellsBytes [] []
  | byte {b : UInt8} {bs : List UInt8} {w text : List Char} (hw : SpellsByte b w)
      (h : SpellsBytes bs text) : SpellsBytes (b :: bs) (w ++ text)
  | gap {bs : List UInt8} {w text : List Char} (hw : IsGap w) (hne : bs ≠ []) (h : SpellsBytes bs text) :
      SpellsBytes bs (w ++ text)

/-- The escapes of one letter, and the characters that they stand for. -/
def letterEscapes : List (Char × Char) :=
  [('n', '\n'), ('t', '\t'), ('r', '\r'), ('a', '\x07'), ('b', '\x08'), ('f', '\x0c'), ('v', '\x0b'),
    ('\\', '\\'), ('"', '"'), ('\'', '\'')]

/-- What may stand between quotes to spell some characters. No blank follows a gap, as it would belong to
the gap. -/
inductive Denotes (quote : Char) : List Char → List Char → Prop
  | nil : Denotes quote [] []
  | raw {c : Char} {text cs : List Char} (hquote : c ≠ quote) (hescape : c ≠ '\\')
      (hend : isLineEnd c = false) (h : Denotes quote text cs) : Denotes quote (c :: text) (c :: cs)
  | letter {e c : Char} {text cs : List Char} (he : (e, c) ∈ letterEscapes) (h : Denotes quote text cs) :
      Denotes quote ('\\' :: e :: text) (c :: cs)
  | bytes {c : Char} {w text cs : List Char} (hw : SpellsBytes (String.utf8EncodeChar c) w)
      (h : Denotes quote text cs) : Denotes quote (w ++ text) (c :: cs)
  | gap {w text cs : List Char} (hw : IsGap w) (hnext : ∀ c ∈ text.head?, Text.isBlank c = false)
      (h : Denotes quote text cs) : Denotes quote (w ++ text) cs

/-! ## What is read -/

section

variable {start : Cursor} {quote : Char} {skipping : Bool} {line column : Nat} {done : List UInt8}
  {c : Char} {rest : List Char}

theorem quotedBody_raw (hskip : skipping = true → Text.isBlank c = false) (hquote : c ≠ quote)
    (hescape : c ≠ '\\') (hend : isLineEnd c = false) :
    quotedBody start quote skipping (c :: rest) line column done =
      quotedBody start quote false rest line (column + 1) ((Text.Utf8.encodeChar c).reverse ++ done) := by
  have hblank : ¬ (skipping && Text.isBlank c) = true := by
    cases skipping with
    | false => exact nofun
    | true => rw [hskip rfl]; exact nofun
  rw [quotedBody.eq_def]
  dsimp only
  rw [if_neg hblank, if_neg (by simpa using hquote), if_neg (by simp [hend]), if_neg (by simpa using hescape)]

/-- An escape is read behind a backslash, also where blanks are passed over. -/
theorem quotedBody_escape (hquote : quote ≠ '\\') (e : Char) (rest : List Char) :
    quotedBody start quote skipping ('\\' :: e :: rest) line column done =
      match namedEscape? e with
      | some b => quotedBody start quote false rest line (column + 2) (b :: done)
      | none =>
        if isLineEnd e then
          match rest with
          | [] => .error (start.fault .openString true)
          | d :: rest₁ =>
            if isLineEnd d && d != e then quotedBody start quote false rest₁ (line + 1) 1 (10 :: done)
            else quotedBody start quote false (d :: rest₁) (line + 1) 1 (10 :: done)
        else if e == 'z' then quotedBody start quote true rest line (column + 2) done
        else if e == 'x' then
          match rest with
          | [] => .error ⟨line, column + 2, .hexDigitExpected, false⟩
          | h :: rest₁ =>
            if !Numeral.isHexDigit h then .error ⟨line, column + 2, .hexDigitExpected, false⟩
            else match rest₁ with
              | [] => .error ⟨line, column + 3, .hexDigitExpected, false⟩
              | k :: rest₂ =>
                if !Numeral.isHexDigit k then .error ⟨line, column + 3, .hexDigitExpected, false⟩
                else quotedBody start quote false rest₂ line (column + 4)
                  ((Numeral.digitValue h * 16 + Numeral.digitValue k).toUInt8 :: done)
        else if e.isDigit then
          match rest with
          | [] => .error (start.fault .openString true)
          | f :: rest₁ =>
            if !f.isDigit then
              quotedBody start quote false (f :: rest₁) line (column + 2)
                ((Numeral.digitValue e).toUInt8 :: done)
            else match rest₁ with
              | [] => .error (start.fault .openString true)
              | g :: rest₂ =>
                if !g.isDigit then
                  quotedBody start quote false (g :: rest₂) line (column + 3)
                    ((Numeral.digitValue e * 10 + Numeral.digitValue f).toUInt8 :: done)
                else if (Numeral.digitValue e * 10 + Numeral.digitValue f) * 10 +
                    Numeral.digitValue g > 255 then
                  .error ⟨line, column + 4, .decimalEscapeTooLarge, false⟩
                else quotedBody start quote false rest₂ line (column + 4)
                  (((Numeral.digitValue e * 10 + Numeral.digitValue f) * 10 +
                    Numeral.digitValue g).toUInt8 :: done)
        else .error ⟨line, column + 1, .invalidEscape, false⟩ := by
  have hblank : ¬ (skipping && Text.isBlank '\\') = true := by
    cases skipping <;> decide
  have hquote' : ¬ ('\\' == quote) = true := by simpa using hquote.symm
  rw [quotedBody.eq_def]
  dsimp only
  rw [if_neg hblank, if_neg hquote', if_neg (by decide)]
  exact if_pos (by decide)

theorem quotedBody_letter {e : Char} {b : UInt8} (hquote : quote ≠ '\\') (he : namedEscape? e = some b) :
    quotedBody start quote skipping ('\\' :: e :: rest) line column done =
      quotedBody start quote false rest line (column + 2) (b :: done) := by
  rw [quotedBody_escape hquote, he]

theorem quotedBody_gap (hquote : quote ≠ '\\') :
    quotedBody start quote skipping ('\\' :: 'z' :: rest) line column done =
      quotedBody start quote true rest line (column + 2) done := by
  rw [quotedBody_escape hquote]
  rfl

theorem quotedBody_hex {h k : Char} (hquote : quote ≠ '\\') (hh : Numeral.isHexDigit h = true)
    (hk : Numeral.isHexDigit k = true) :
    quotedBody start quote skipping ('\\' :: 'x' :: h :: k :: rest) line column done =
      quotedBody start quote false rest line (column + 4)
        ((Numeral.digitValue h * 16 + Numeral.digitValue k).toUInt8 :: done) := by
  rw [quotedBody_escape hquote]
  change (if (!Numeral.isHexDigit h) = true then _ else if (!Numeral.isHexDigit k) = true then _ else _) = _
  rw [hh, hk]
  rfl

/-- What is read of a digit. -/
theorem decimalDigit {d : Nat} (h : d < 10) :
    namedEscape? (Nat.digitChar d) = none ∧ isLineEnd (Nat.digitChar d) = false ∧
      (Nat.digitChar d == 'z') = false ∧ (Nat.digitChar d == 'x') = false ∧
      (Nat.digitChar d).isDigit = true ∧ Numeral.digitValue (Nat.digitChar d) = d := by
  revert d
  decide

theorem hexDigit {d : Nat} (h : d < 16) {c : Char} (hc : IsHexDigit d c) :
    Numeral.isHexDigit c = true ∧ Numeral.digitValue c = d := by
  rcases hc with rfl | rfl
  · revert d
    decide
  · revert d
    decide

theorem quotedBody_decimal {e f g : Nat} (hquote : quote ≠ '\\') (he : e < 10) (hf : f < 10) (hg : g < 10)
    (hle : (e * 10 + f) * 10 + g ≤ 255) :
    quotedBody start quote skipping
        ('\\' :: Nat.digitChar e :: Nat.digitChar f :: Nat.digitChar g :: rest) line column done =
      quotedBody start quote false rest line (column + 4) (((e * 10 + f) * 10 + g).toUInt8 :: done) := by
  obtain ⟨hnamed, hend, hz, hx, hdigit, hvalue⟩ := decimalDigit he
  obtain ⟨-, -, -, -, hdigit', hvalue'⟩ := decimalDigit hf
  obtain ⟨-, -, -, -, hdigit'', hvalue''⟩ := decimalDigit hg
  rw [quotedBody_escape hquote, hnamed]
  dsimp only
  rw [hend, hz, hx, hdigit, hdigit', hdigit'', hvalue, hvalue', hvalue'']
  exact if_neg (Nat.not_lt.2 hle)

theorem quotedBody_lineEnd (hend : isLineEnd c = true) (hne : rest ≠ []) :
    quotedBody start quote true (c :: rest) line column done =
      quotedBody start quote true (afterLineEnd c rest) (line + 1) 1 done := by
  obtain ⟨d, rest, rfl⟩ := List.exists_cons_of_ne_nil hne
  have hblank : (true && Text.isBlank c) = true := isBlank_of_isLineEnd hend
  rw [quotedBody.eq_def, afterLineEnd]
  dsimp only
  rw [if_pos hblank, if_pos hend]
  by_cases hpair : (isLineEnd d && d != c) = true
  · rw [if_pos hpair, if_pos hpair]
  · rw [if_neg hpair, if_neg hpair]

theorem quotedBody_blank (hblank : Text.isBlank c = true) (hend : isLineEnd c = false) :
    quotedBody start quote true (c :: rest) line column done =
      quotedBody start quote true rest line (column + 1) done := by
  rw [quotedBody.eq_def]
  dsimp only
  rw [if_pos (show (true && Text.isBlank c) = true from hblank), if_neg (by simp [hend])]

/-- Blanks behind a gap are passed over. -/
theorem quotedBody_blanks {blanks : List Char} (hblanks : ∀ c ∈ blanks, Text.isBlank c = true)
    (hne : rest ≠ []) (hnext : ∀ c ∈ rest.head?, Text.isBlank c = false) :
    ∃ line' column', quotedBody start quote true (blanks ++ rest) line column done =
      quotedBody start quote true rest line' column' done := by
  -- the two characters of a line end go at once
  induction hlen : blanks.length using Nat.strong_induction_on generalizing blanks line column with
  | _ n ih =>
    cases blanks with
    | nil => exact ⟨line, column, rfl⟩
    | cons c blanks =>
      obtain ⟨hc, hblanks⟩ := List.forall_mem_cons.1 hblanks
      rw [List.length_cons] at hlen
      rw [List.cons_append]
      cases hend : isLineEnd c with
      | false =>
        rw [quotedBody_blank hc hend]
        exact ih _ (by omega) hblanks rfl
      | true =>
        have hafter : afterLineEnd c (blanks ++ rest) = afterLineEnd c blanks ++ rest := by
          cases blanks with
          | nil =>
            obtain ⟨d, rest, rfl⟩ := List.exists_cons_of_ne_nil hne
            have hd : isLineEnd d = false := Bool.eq_false_iff.2 fun hd =>
              Bool.eq_false_iff.1 (hnext d rfl) (isBlank_of_isLineEnd hd)
            simp [afterLineEnd, hd]
          | cons d blanks =>
            rw [List.cons_append, afterLineEnd, afterLineEnd]
            split <;> rfl
        have hsuffix := Cursor.afterLineEnd_suffix c blanks
        rw [quotedBody_lineEnd hend (List.append_ne_nil_of_right_ne_nil _ hne), hafter]
        exact ih _ (Nat.lt_of_le_of_lt hsuffix.length_le (by omega))
          (fun d hd => hblanks d (hsuffix.subset hd)) rfl

theorem SpellsByte.quotedBody {b : UInt8} {w : List Char} (h : SpellsByte b w) (hquote : quote ≠ '\\') :
    quotedBody start quote skipping (w ++ rest) line column done =
      quotedBody start quote false rest line (column + 4) (b :: done) := by
  have hb : b.toNat < 256 := b.toNat_lt
  cases h with
  | hex hh hk =>
    obtain ⟨hh, hvalue⟩ := hexDigit (by omega) hh
    obtain ⟨hk, hvalue'⟩ := hexDigit (by omega) hk
    refine (quotedBody_hex hquote hh hk).trans ?_
    rw [hvalue, hvalue', show b.toNat / 16 * 16 + b.toNat % 16 = b.toNat by omega, Nat.toUInt8,
      UInt8.ofNat_toNat]
    rfl
  | decimal =>
    refine (quotedBody_decimal hquote (by omega) (by omega) (by omega) (by omega)).trans ?_
    rw [show (b.toNat / 100 * 10 + b.toNat / 10 % 10) * 10 + b.toNat % 10 = b.toNat by omega,
      Nat.toUInt8, UInt8.ofNat_toNat]
    rfl

end

section

variable {quote : Char} {c : Char} {rest : List Char} (start : Cursor) (skipping : Bool) (line column : Nat)
  (done : List UInt8)

theorem IsGap.quotedBody {w : List Char} (h : IsGap w) (hquote : quote ≠ '\\') (hne : rest ≠ [])
    (hnext : ∀ c ∈ rest.head?, Text.isBlank c = false) :
    ∃ line' column', quotedBody start quote skipping (w ++ rest) line column done =
      quotedBody start quote true rest line' column' done := by
  obtain ⟨blanks, rfl, hblanks⟩ := h.blank
  rw [List.cons_append, List.cons_append, quotedBody_gap hquote]
  exact quotedBody_blanks hblanks hne hnext

theorem SpellsBytes.exists_escape {bs : List UInt8} {w : List Char} (h : SpellsBytes bs w) (hne : bs ≠ []) :
    ∃ text, w = '\\' :: text := by
  cases h with
  | nil => exact absurd rfl hne
  | byte hw _ =>
    cases hw with
    | hex => exact ⟨_, rfl⟩
    | decimal => exact ⟨_, rfl⟩
  | gap hw _ _ =>
    obtain ⟨blanks, rfl, -⟩ := hw.blank
    exact ⟨_, rfl⟩

/-- Escapes for bytes add those bytes. -/
theorem SpellsBytes.quotedBody {bs : List UInt8} {w : List Char} (h : SpellsBytes bs w) (hne : bs ≠ [])
    (hquote : quote ≠ '\\') :
    ∃ line' column', quotedBody start quote skipping (w ++ rest) line column done =
      quotedBody start quote false rest line' column' (bs.reverse ++ done) := by
  induction h generalizing skipping line column done with
  | nil => exact absurd rfl hne
  | @byte b bs w text hw h ih =>
    rw [List.append_assoc, hw.quotedBody hquote, List.reverse_cons, List.append_assoc]
    cases bs with
    | nil =>
      cases h with
      | nil => exact ⟨line, column + 4, rfl⟩
      | gap _ hne _ => exact absurd rfl hne
    | cons b' bs => exact ih _ _ _ _ (List.cons_ne_nil b' bs)
  | @gap bs w text hw _ h ih =>
    obtain ⟨text', rfl⟩ := h.exists_escape hne
    rw [List.append_assoc]
    obtain ⟨line₁, column₁, hgap⟩ := hw.quotedBody start skipping line column done hquote
      (List.cons_ne_nil '\\' (text' ++ rest)) (by rintro c ⟨⟩; rfl)
    rw [List.cons_append, hgap]
    exact ih _ _ _ _ hne

theorem namedEscape?_of_mem {e : Char} (he : (e, c) ∈ letterEscapes) :
    ∃ b, namedEscape? e = some b ∧ Text.Utf8.encodeChar c = [b] := by
  simp only [letterEscapes, List.mem_cons, Prod.mk.injEq, List.not_mem_nil, or_false] at he
  rcases he with ⟨rfl, rfl⟩ | ⟨rfl, rfl⟩ | ⟨rfl, rfl⟩ | ⟨rfl, rfl⟩ | ⟨rfl, rfl⟩ | ⟨rfl, rfl⟩ | ⟨rfl, rfl⟩ |
    ⟨rfl, rfl⟩ | ⟨rfl, rfl⟩ | ⟨rfl, rfl⟩ <;> exact ⟨_, rfl, rfl⟩

/-- What stands between quotes adds the bytes of the characters that it spells. -/
theorem Denotes.quotedBody {text cs : List Char} (h : Denotes quote text cs) (rest : List Char)
    (hquote : quote = '"' ∨ quote = '\'')
    (hskip : skipping = true → ∀ c ∈ text.head?, Text.isBlank c = false) :
    ∃ line' column', quotedBody start quote skipping (text ++ quote :: rest) line column done =
      .ok (done.reverse ++ cs.flatMap Text.Utf8.encodeChar, ⟨rest, line', column'⟩) := by
  have hescape : quote ≠ '\\' := by
    rcases hquote with rfl | rfl <;> decide
  have hblank : Text.isBlank quote = false := by
    rcases hquote with rfl | rfl <;> rfl
  induction h generalizing skipping line column done with
  | nil =>
    refine ⟨line, column + 1, ?_⟩
    rw [List.nil_append, quotedBody.eq_def]
    dsimp only
    rw [hblank, if_neg (by simp), if_pos (beq_self_eq_true quote), List.flatMap_nil, List.append_nil]
  | @raw c text cs hne hc hend h ih =>
    rw [List.cons_append, quotedBody_raw (fun hs => hskip hs c rfl) hne hc hend]
    obtain ⟨line', column', hrest⟩ := ih false line (column + 1)
      ((Text.Utf8.encodeChar c).reverse ++ done) (by simp)
    refine ⟨line', column', hrest.trans ?_⟩
    rw [List.reverse_append, List.reverse_reverse, List.append_assoc, List.flatMap_cons]
  | @letter e c text cs he h ih =>
    obtain ⟨b, hb, hbytes⟩ := namedEscape?_of_mem he
    rw [List.cons_append, List.cons_append, quotedBody_letter hescape hb]
    obtain ⟨line', column', hrest⟩ := ih false line (column + 2) (b :: done) (by simp)
    refine ⟨line', column', hrest.trans ?_⟩
    rw [List.reverse_cons, List.append_assoc, List.flatMap_cons, hbytes]
  | @bytes c w text cs hw h ih =>
    have hne : String.utf8EncodeChar c ≠ [] := by
      have hpos := c.utf8Size_pos
      rw [← String.length_utf8EncodeChar] at hpos
      exact List.ne_nil_of_length_pos hpos
    obtain ⟨line₁, column₁, hbytes⟩ := hw.quotedBody start skipping line column done hne hescape
    obtain ⟨line', column', hrest⟩ := ih false line₁ column₁ ((String.utf8EncodeChar c).reverse ++ done) (by simp)
    refine ⟨line', column', ?_⟩
    rw [List.append_assoc, hbytes, hrest, List.reverse_append, List.reverse_reverse, List.append_assoc,
      List.flatMap_cons]
    rfl
  | @gap w text cs hw hnext h ih =>
    have hnext' : ∀ c ∈ (text ++ quote :: rest).head?, Text.isBlank c = false := by
      cases text with
      | nil =>
        rintro c ⟨⟩
        exact hblank
      | cons d text => exact hnext
    obtain ⟨line₁, column₁, hgap⟩ := hw.quotedBody start skipping line column done hescape
      (List.append_ne_nil_of_right_ne_nil text (List.cons_ne_nil quote rest)) hnext'
    rw [List.append_assoc, hgap]
    exact ih true line₁ column₁ done fun _ => hnext

end

/-! ## Long strings -/

/-- A long string that has no carriage return in it and is not closed before its end is read as it is. -/
theorem longBody?_plain {level : Nat} {body : List Char} (hreturn : '\r' ∉ body)
    (hopen : ¬ longClosing level <:+: body ++ ']' :: List.replicate level '=') (line column : Nat)
    (done : List Char) : ∃ line' column', longBody? level (body ++ longClosing level) line column done =
      some (done.reverse ++ body, ⟨[], line', column'⟩) := by
  induction body generalizing line column done with
  | nil =>
    have hclosed : ReadsTo level (longBody? level · · · done) (longClosing level) line column _ [] :=
      readsTo_closing (longClosing_prefix_iff.1 (List.prefix_refl (longClosing level)))
    obtain ⟨line', column', hclosed⟩ := hclosed.alone line column
    exact ⟨line', column', by simpa using hclosed⟩
  | cons c body ih =>
    rw [List.mem_cons, not_or] at hreturn
    have hclose : ¬ longClosing level <+: c :: (body ++ longClosing level) := by
      intro hstarts
      -- it would end in front of the last character
      have hlast : c :: (body ++ longClosing level) =
          c :: body ++ ']' :: List.replicate level '=' ++ [']'] := by
        simp [longClosing]
      rw [hlast] at hstarts
      refine hopen (List.prefix_of_prefix_length_le hstarts (List.prefix_append _ _) ?_).isInfix
      simp [longClosing]
    have hrest := ih hreturn.2 fun h => hopen (h.trans (List.suffix_cons c _).isInfix)
    rw [List.cons_append]
    cases hend : isLineEnd c with
    | false =>
      obtain ⟨line', column', hrest⟩ := hrest line (column + 1) (c :: done)
      refine ⟨line', column', ?_⟩
      rw [longBody?_cons, if_neg (mt longClosing_prefix_iff.2 hclose), if_neg (by simp [hend]), hrest]
      simp
    | true =>
      obtain rfl : c = '\n' := (isLineEnd_iff.1 hend).resolve_right fun h => hreturn.1 h.symm
      obtain ⟨line', column', hrest⟩ := hrest (line + 1) 1 ('\n' :: done)
      refine ⟨line', column', ?_⟩
      have hafter : afterLineEnd '\n' (body ++ longClosing level) = body ++ longClosing level := by
        cases body with
        | nil => rfl
        | cons d body =>
          have hd : d ≠ '\r' := fun h => hreturn.2 (h ▸ List.mem_cons_self)
          rw [List.cons_append, afterLineEnd, if_neg (by simp [isLineEnd, hd])]
      rw [longBody?_lineEnd hend (append_longClosing_ne_nil level body), hafter, hrest]
      simp

/-! ## Literals -/

/-- A text is read as one token. -/
def ReadAs (text : List Char) (token : Token) : Prop :=
  ∃ extent extent', scan (String.ofList text) = ⟨[⟨token, extent⟩], .ok ⟨.endOfInput, extent'⟩⟩

theorem readAs_of_scanAt {d : Char} {rest : List Char} {token : Token} {line column : Nat}
    (hshebang : d ≠ '#') (hcomment : d ≠ '-') (hblank : Text.isBlank d = false) (hne : token ≠ .endOfInput)
    (hscan : scanAt ⟨d :: rest, 1, 1⟩ = .ok (token, ⟨[], line, column⟩)) : ReadAs (d :: rest) token := by
  have hskip : skipBlanks ((d :: rest).length + 1) ⟨d :: rest, 1, 1⟩ = .ok ⟨d :: rest, 1, 1⟩ := by
    have hend : isLineEnd d = false := Bool.eq_false_iff.2 fun hd =>
      Bool.eq_false_iff.1 hblank (isBlank_of_isLineEnd hd)
    rw [skipBlanks_char _ rfl fun _ heq => hcomment (List.cons.inj heq).1, hend, hblank]
    rfl
  have hnext : scanNext ⟨d :: rest, 1, 1⟩ =
      .ok (⟨token, ⟨1, 1, line, max (column - 1) 1⟩⟩, ⟨[], line, column⟩) := by
    rw [scanNext]
    dsimp only
    rw [hskip]
    show (scanAt ⟨d :: rest, 1, 1⟩ >>= _) = _
    rw [hscan]
    show Except.ok _ = _
    rw [if_neg hne]
  have hending : TokenStream.scanFrom (rest.length + 1) ⟨[], line, column⟩ =
      ⟨[], .ok ⟨.endOfInput, ⟨line, column, line, column⟩⟩⟩ := rfl
  refine ⟨⟨1, 1, line, max (column - 1) 1⟩, ⟨line, column, line, column⟩, ?_⟩
  rw [scan, Cursor.skipShebang, if_neg (by simpa [Cursor.ofString] using hshebang)]
  change TokenStream.scanFrom ((String.ofList (d :: rest)).toList.length + 1)
    ⟨(String.ofList (d :: rest)).toList, 1, 1⟩ = _
  rw [String.toList_ofList, List.length_cons, TokenStream.scanFrom, hnext]
  dsimp only
  rw [if_neg hne, hending]
  rfl

theorem Denotes.readAs {quote : Char} {text cs : List Char} (h : Denotes quote text cs)
    (hquote : quote = '"' ∨ quote = '\'') :
    ReadAs (quote :: (text ++ [quote])) (.string (String.ofList cs)) := by
  have hfree : quote ≠ '#' ∧ quote ≠ '-' ∧ Text.isBlank quote = false ∧ ¬ isWordStart quote = true ∧
      (∀ rest, ¬ startsNumeral quote rest = true) ∧ (quote == '"' || quote == '\'') = true := by
    rcases hquote with rfl | rfl
    · exact ⟨by decide, by decide, rfl, by decide, fun _ => nofun, rfl⟩
    · exact ⟨by decide, by decide, rfl, by decide, fun _ => nofun, rfl⟩
  obtain ⟨hshebang, hcomment, hblank, hword, hnumeral, hmark⟩ := hfree
  obtain ⟨line, column, hbody⟩ := h.quotedBody ⟨quote :: (text ++ [quote]), 1, 1⟩ false 1 2 [] []
    hquote (by simp)
  have hscan : scanAt ⟨quote :: (text ++ [quote]), 1, 1⟩ =
      .ok (.string (String.ofList cs), ⟨[], line, column⟩) := by
    rw [scanAt_quote 1 1 hword (hnumeral _) hmark, hbody]
    dsimp only
    rw [List.reverse_nil, List.nil_append, Text.Utf8.decodeLossy_flatMap_encodeChar]
  exact readAs_of_scanAt hshebang hcomment hblank (by simp) hscan

theorem readAs_long {level : Nat} {body : List Char} (hreturn : '\r' ∉ body) (hfirst : body.head? ≠ some '\n')
    (hopen : ¬ longClosing level <:+: body ++ ']' :: List.replicate level '=') :
    ReadAs (longOpening level ++ body ++ longClosing level) (.string (String.ofList body)) := by
  obtain ⟨line, column, hbody⟩ := longBody?_plain hreturn hopen 1 (1 + (level + 2)) []
  have hinside : longInside? level (body ++ longClosing level) 1 (1 + (level + 2)) =
      some (body, ⟨[], line, column⟩) := by
    rw [List.reverse_nil, List.nil_append] at hbody
    cases body with
    | nil => exact hbody
    | cons c body =>
      have hend : isLineEnd c = false := Bool.eq_false_iff.2 fun hend => by
        rcases isLineEnd_iff.1 hend with rfl | rfl
        · exact hfirst rfl
        · exact hreturn List.mem_cons_self
      rw [List.cons_append, longInside?, hend]
      exact hbody
  have hlong := longBracket_opening level (body ++ longClosing level) 1 1 "string"
  rw [hinside] at hlong
  rw [List.append_assoc]
  have htext : longOpening level ++ (body ++ longClosing level) =
      '[' :: (List.replicate level '=' ++ '[' :: (body ++ longClosing level)) := by
    simp [longOpening]
  rw [htext] at hlong ⊢
  have hscan : scanAt ⟨'[' :: (List.replicate level '=' ++ '[' :: (body ++ longClosing level)), 1, 1⟩ =
      .ok (.string (String.ofList body), ⟨[], line, column⟩) := by
    rw [scanAt_long 1 1 (longLevel?_opening level _), hlong]
  exact readAs_of_scanAt (by decide) (by decide) rfl (by simp) hscan

/-- A literal is read as the string that it spells: a string between quotes, however its characters are
spelled, and a long string of any level that is not closed before its end. -/
theorem scan_literal (s : String) :
    (∀ (quote : Char) (text : List Char), quote = '"' ∨ quote = '\'' → Denotes quote text s.toList →
      ReadAs (quote :: (text ++ [quote])) (.string s)) ∧
    (∀ level : Nat, '\r' ∉ s.toList → s.toList.head? ≠ some '\n' →
      ¬ longClosing level <:+: s.toList ++ ']' :: List.replicate level '=' →
        ReadAs (longOpening level ++ s.toList ++ longClosing level) (.string s)) := by
  refine ⟨fun quote text hquote h => ?_, fun level hreturn hfirst hopen => ?_⟩
  · have hread := h.readAs hquote
    rwa [String.ofList_toList] at hread
  · have hread := readAs_long hreturn hfirst hopen
    rwa [String.ofList_toList] at hread

/-- The two bytes of a character are spelled differently, with a gap between them. -/
theorem scan_literal_mixed :
    ReadAs ['"', '\\', 'x', 'C', '3', '\\', 'z', ' ', '\n', '\\', '1', '6', '9', '\\', 'n', '\\', 'z', ' ',
        '"']
      (.string "\u00e9\n") ∧
    ReadAs ['[', '=', '[', 'a', ']', ']', '\n', ']', '=', ']'] (.string "a]]\n") := by
  have hgap : ∀ blanks : List Char, blanks.all Text.isBlank = true → IsGap ('\\' :: 'z' :: blanks) :=
    fun blanks hblanks => ⟨blanks, rfl, List.all_eq_true.1 hblanks⟩
  have hend : Denotes '"' ['\\', 'z', ' '] [] := .gap (hgap [' '] (by decide)) nofun .nil
  have hsecond : SpellsBytes [169] ['\\', '1', '6', '9'] := .byte .decimal .nil
  have hbytes : SpellsBytes [195, 169] ['\\', 'x', 'C', '3', '\\', 'z', ' ', '\n', '\\', '1', '6', '9'] :=
    .byte (.hex (.inr (by decide)) (.inl (by decide)))
      (.gap (hgap [' ', '\n'] (by decide)) (List.cons_ne_nil _ _) hsecond)
  have hletter : Denotes '"' ['\\', 'n', '\\', 'z', ' '] ['\n'] := .letter (by decide) hend
  have hcharacter : String.utf8EncodeChar '\u00e9' = [195, 169] := by decide
  have hquoted : Denotes '"' _ ['\u00e9', '\n'] := .bytes (hcharacter ▸ hbytes) hletter
  have hs : "\u00e9\n".toList = ['\u00e9', '\n'] := by decide
  have hs' : "a]]\n".toList = ['a', ']', ']', '\n'] := by decide
  have hopen : ¬ longClosing 1 <:+: ['a', ']', ']', '\n'] ++ [']', '='] := by decide
  constructor
  · have hread := (scan_literal "\u00e9\n").1 '"'
    rw [hs] at hread
    specialize hread _ (.inl rfl) hquoted
    exact hread
  · have hlong := (scan_literal "a]]\n").2 1
    rw [hs'] at hlong
    exact hlong (by decide) (by decide) hopen

end LuaMachine.Token
