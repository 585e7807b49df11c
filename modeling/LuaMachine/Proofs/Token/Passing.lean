import LuaMachine.Proofs.Token.Continuation
import Mathlib.Data.List.DropRight

/-!
# What a cursor passes

A cursor counts lines and columns as it goes along. Three places of the scanner move it: one character of
a line, the end of a line, and several characters of a line at once. Here a cursor that comes after
another one has passed characters and line ends in between (`Cursor.Passes`), so that its counters tell
the place of what is left (`Passes.place`). Long brackets and what lies between tokens are read this way.
What a bracket is read as does not depend on the text behind it (`ReadsTo`).
-/

namespace LuaMachine

namespace Token

/-! ## Lines and columns -/

/-- How many line ends a text has. A carriage return and a line feed make one, in either order. -/
def lineEnds : List Char → Nat
  | '\r' :: '\n' :: rest => lineEnds rest + 1
  | '\n' :: '\r' :: rest => lineEnds rest + 1
  | '\r' :: rest => lineEnds rest + 1
  | '\n' :: rest => lineEnds rest + 1
  | _ :: rest => lineEnds rest
  | [] => 0

theorem isLineEnd_iff {c : Char} : isLineEnd c = true ↔ c = '\n' ∨ c = '\r' := by
  simp [isLineEnd]

theorem lineEnds_char {c : Char} (h : isLineEnd c = false) (rest : List Char) :
    lineEnds (c :: rest) = lineEnds rest := by
  have hne : c ≠ '\n' ∧ c ≠ '\r' := by simpa [isLineEnd] using h
  rw [lineEnds.eq_5]
  all_goals
    intros
    simp_all

theorem lineEnds_lineEnd {c : Char} (h : isLineEnd c = true) (rest : List Char) :
    lineEnds (c :: rest) = lineEnds (afterLineEnd c rest) + 1 := by
  rcases rest with _ | ⟨d, rest⟩
  · rcases isLineEnd_iff.1 h with rfl | rfl <;> rfl
  · by_cases hd : isLineEnd d = true
    · rcases isLineEnd_iff.1 h with rfl | rfl <;> rcases isLineEnd_iff.1 hd with rfl | rfl <;> rfl
    · have hafter : afterLineEnd c (d :: rest) = d :: rest := by simp [afterLineEnd, hd]
      have hne : d ≠ '\n' ∧ d ≠ '\r' := by simpa [isLineEnd] using hd
      rw [hafter]
      rcases isLineEnd_iff.1 h with rfl | rfl
      · exact lineEnds.eq_4 _ fun _ heq => hne.2 (List.cons.inj heq).1
      · exact lineEnds.eq_3 _ fun _ heq => hne.1 (List.cons.inj heq).1

/-- The line of what stands behind a text. -/
def lineBehind (before : List Char) : Nat := lineEnds before + 1

/-- The column of what stands behind a text: one more than the characters since the last line end. -/
def columnBehind (before : List Char) : Nat := (before.rtakeWhile (!isLineEnd ·)).length + 1

theorem columnBehind_lineEnd {d : Char} (h : isLineEnd d = true) (before : List Char) :
    columnBehind (before ++ [d]) = 1 := by
  rw [columnBehind, List.rtakeWhile_concat_neg _ _ _ (by simp [h])]
  rfl

theorem columnBehind_char {d : Char} (h : isLineEnd d = false) (before : List Char) :
    columnBehind (before ++ [d]) = columnBehind before + 1 := by
  rw [columnBehind, List.rtakeWhile_concat_pos _ _ _ (by simp [h]), List.length_append]
  rfl

theorem isBlank_of_isLineEnd {d : Char} (h : isLineEnd d = true) : Text.isBlank d = true := by
  simp only [isLineEnd, Bool.or_eq_true, beq_iff_eq] at h
  rcases h with rfl | rfl <;> rfl

/-- A line end takes one character or two. Behind it columns count from one again. -/
theorem exists_lineEnd {d : Char} (h : isLineEnd d = true) (rest : List Char) :
    ∃ e, d :: rest = e ++ afterLineEnd d rest ∧ (∀ x ∈ e, isLineEnd x = true) ∧
      ∀ before, columnBehind (before ++ e) = 1 := by
  have hone : (∀ x ∈ [d], isLineEnd x = true) ∧ ∀ before, columnBehind (before ++ [d]) = 1 :=
    ⟨List.forall_mem_singleton.2 h, columnBehind_lineEnd h⟩
  cases rest with
  | nil => exact ⟨[d], rfl, hone⟩
  | cons x rest =>
    rw [afterLineEnd]
    split
    · next hpair =>
      have hx := (Bool.and_eq_true_iff.1 hpair).1
      refine ⟨[d, x], rfl, List.forall_mem_cons.2 ⟨h, List.forall_mem_singleton.2 hx⟩, fun before => ?_⟩
      rw [List.append_cons]
      exact columnBehind_lineEnd hx _
    · exact ⟨[d], rfl, hone⟩

/-- The other half of a line end stays at its place when the text is cut off behind it. -/
theorem afterLineEnd_append {d : Char} {w rest : List Char}
    (h : rest <:+ afterLineEnd d (w ++ rest)) :
    afterLineEnd d (w ++ rest) = afterLineEnd d w ++ rest := by
  cases w with
  | nil =>
    refine (List.IsSuffix.eq_of_length_le h ?_).symm
    exact length_afterLineEnd d rest
  | cons e w =>
    rw [List.cons_append, afterLineEnd, afterLineEnd]
    split
    · rfl
    · rfl

/-- The line end in front of a text that is not empty, and the same line end when the text is cut off. -/
theorem exists_of_afterLineEnd_eq {c : Char} {cs text rest : List Char} (hne : text ≠ [])
    (h : afterLineEnd c cs = text ++ rest) :
    ∃ e, cs = e ++ (text ++ rest) ∧ (∀ d ∈ e, isLineEnd d = true) ∧ afterLineEnd c (e ++ text) = text := by
  obtain ⟨a, text, rfl⟩ := List.exists_cons_of_ne_nil hne
  cases cs with
  | nil => cases h
  | cons d cs =>
    rw [afterLineEnd] at h
    by_cases hpair : (isLineEnd d && d != c) = true
    · rw [if_pos hpair] at h
      refine ⟨[d], by rw [h]; rfl, fun x hx => ?_, ?_⟩
      · rw [List.mem_singleton.1 hx]
        exact (Bool.and_eq_true_iff.1 hpair).1
      · rw [List.singleton_append, afterLineEnd, if_pos hpair]
    · rw [if_neg hpair] at h
      obtain ⟨rfl, -⟩ := List.cons.inj h
      refine ⟨[], h, fun x hx => absurd hx List.not_mem_nil, ?_⟩
      rw [List.nil_append, afterLineEnd, if_neg hpair]

end Token

open Token

namespace Cursor

/-- The second cursor comes after the first one: characters and line ends are passed. -/
inductive Passes : Cursor → Cursor → Prop
  | refl (c : Cursor) : Passes c c
  | char {d : Char} {rest : List Char} {line column : Nat} {c' : Cursor} (h : isLineEnd d = false)
      (hpasses : Passes ⟨rest, line, column + 1⟩ c') : Passes ⟨d :: rest, line, column⟩ c'
  | lineEnd {d : Char} {rest : List Char} {line column : Nat} {c' : Cursor} (h : isLineEnd d = true)
      (hpasses : Passes ⟨afterLineEnd d rest, line + 1, 1⟩ c') : Passes ⟨d :: rest, line, column⟩ c'

variable {c c₁ c₂ c' : Cursor}

theorem Passes.trans (h₁ : c.Passes c₁) (h₂ : c₁.Passes c₂) : c.Passes c₂ := by
  induction h₁ with
  | refl => exact h₂
  | char h _ ih => exact .char h (ih h₂)
  | lineEnd h _ ih => exact .lineEnd h (ih h₂)

theorem afterLineEnd_suffix (d : Char) (rest : List Char) : afterLineEnd d rest <:+ rest := by
  cases rest with
  | nil => exact List.nil_suffix
  | cons e rest =>
    rw [afterLineEnd]
    split
    · exact List.suffix_cons e rest
    · exact List.suffix_refl _

theorem Passes.suffix (h : c.Passes c') : c'.rest <:+ c.rest := by
  induction h with
  | refl => exact List.suffix_refl _
  | char _ _ ih => exact ih.trans (List.suffix_cons _ _)
  | lineEnd _ _ ih => exact ih.trans ((afterLineEnd_suffix _ _).trans (List.suffix_cons _ _))

/-- Before what is left of a text behind its first character comes that character. -/
theorem exists_cons_of_suffix {α : Type} {d : α} {rest w r : List α} (hr : r <:+ rest)
    (h : d :: rest = w ++ r) : ∃ w', w = d :: w' ∧ rest = w' ++ r := by
  cases w with
  | nil =>
    have hle := hr.length_le
    rw [← List.nil_append r, ← h, List.length_cons] at hle
    omega
  | cons e w =>
    obtain ⟨rfl, htail⟩ := List.cons.inj h
    exact ⟨w, rfl, htail⟩

/-- A cursor that passes a text counts its line ends, and the characters since the last of them. -/
theorem Passes.counts (h : c.Passes c') {w : List Char} (hw : c.rest = w ++ c'.rest) :
    c'.line = c.line + lineEnds w ∧
      ∀ before, c.column = columnBehind before → c'.column = columnBehind (before ++ w) := by
  induction h generalizing w with
  | refl =>
    obtain rfl : w = [] := List.append_left_eq_self.1 hw.symm
    refine ⟨by rw [lineEnds]; rfl, fun before h => ?_⟩
    rw [List.append_nil, h]
  | char h hpasses ih =>
    obtain ⟨w, rfl, htail⟩ := exists_cons_of_suffix hpasses.suffix hw
    obtain ⟨hline, hcolumn⟩ := ih htail
    refine ⟨by rw [hline, lineEnds_char h], fun before hbefore => ?_⟩
    rw [List.append_cons]
    exact hcolumn _ (by rw [columnBehind_char h, ← hbefore])
  | lineEnd h hpasses ih =>
    obtain ⟨w, rfl, rfl⟩ := exists_cons_of_suffix (hpasses.suffix.trans (afterLineEnd_suffix _ _)) hw
    obtain ⟨hline, hcolumn⟩ := ih (afterLineEnd_append hpasses.suffix)
    obtain ⟨e, he, -, hbehind⟩ := exists_lineEnd h w
    refine ⟨by rw [hline, lineEnds_lineEnd h]; dsimp only; omega, fun before _ => ?_⟩
    rw [he, ← List.append_assoc]
    exact hcolumn _ (hbehind before).symm

/-- A cursor that comes from the start of a text tells the place of what it stands before. -/
theorem Passes.place {before : List Char} (h : Passes ⟨before ++ c.rest, 1, 1⟩ c) :
    c.line = lineBehind before ∧ c.column = columnBehind before := by
  obtain ⟨hline, hcolumn⟩ := h.counts rfl
  refine ⟨by rw [hline, lineBehind, Nat.add_comm], ?_⟩
  rw [hcolumn [] rfl, List.nil_append]

/-- Characters of one line are passed. -/
theorem passes_append {w : List Char} (h : ∀ d ∈ w, isLineEnd d = false) (rest : List Char)
    (line column : Nat) : Passes ⟨w ++ rest, line, column⟩ ⟨rest, line, column + w.length⟩ := by
  induction w generalizing column with
  | nil => exact .refl _
  | cons d w ih =>
    have hw := ih (fun e he => h e (List.mem_cons_of_mem _ he)) (column + 1)
    rw [show column + 1 + w.length = column + (d :: w).length by rw [List.length_cons]; omega] at hw
    exact .char (h d List.mem_cons_self) hw

/-- A token is read: the character that was passed last belongs to the line. -/
def Takes (c after : Cursor) : Prop :=
  ∃ d rest line column, isLineEnd d = false ∧ after = ⟨rest, line, column + 1⟩ ∧
    c.Passes ⟨d :: rest, line, column⟩

theorem Passes.takes (h : c.Passes c₁) (ht : c₁.Takes c₂) : c.Takes c₂ := by
  obtain ⟨d, rest, line, column, hd, hafter, hpasses⟩ := ht
  exact ⟨d, rest, line, column, hd, hafter, h.trans hpasses⟩

theorem Takes.passes (h : c.Takes c') : c.Passes c' := by
  obtain ⟨d, rest, line, column, hd, rfl, hpasses⟩ := h
  exact hpasses.trans (.char hd (.refl _))

theorem takes_append {w : List Char} (h : ∀ d ∈ w, isLineEnd d = false) (hne : w ≠ [])
    (rest : List Char) (line column : Nat) :
    Takes ⟨w ++ rest, line, column⟩ ⟨rest, line, column + w.length⟩ := by
  obtain ⟨front, d, rfl⟩ : ∃ front d, w = front ++ [d] :=
    ⟨w.dropLast, w.getLast hne, (List.dropLast_concat_getLast hne).symm⟩
  have hpasses := passes_append (fun e he => h e (List.mem_append_left _ he)) (d :: rest) line column
  refine ⟨d, rest, line, column + front.length, h d (by simp), ?_, ?_⟩
  · rw [List.length_append]
    rfl
  · rwa [List.append_assoc]

end Cursor

namespace Token

open Cursor

/-! ## Long brackets -/

/-- What a long bracket of a level begins with. -/
def longOpening (level : Nat) : List Char := '[' :: (List.replicate level '=' ++ ['['])

/-- What a long bracket of a level ends with. -/
def longClosing (level : Nat) : List Char := ']' :: (List.replicate level '=' ++ [']'])

/-- Behind this text a long bracket is closed for the first time. -/
def ClosesOnce (level : Nat) (body : List Char) : Prop :=
  ∀ a b, body ++ longClosing level = a ++ longClosing level ++ b → b = []

theorem closesOnce_nil (level : Nat) : ClosesOnce level [] := by
  intro a b h
  have hlen := congrArg List.length h
  simp only [List.nil_append, List.length_append] at hlen
  exact List.length_eq_zero_iff.1 (by omega)

/-- One more character in front closes nothing, if no closing bracket starts there. -/
theorem ClosesOnce.cons {level : Nat} {body : List Char} {c : Char} (h : ClosesOnce level body)
    (hc : ¬ longClosing level <+: c :: (body ++ longClosing level)) : ClosesOnce level (c :: body) := by
  intro a b hab
  cases a with
  | nil => exact absurd ⟨b, hab.symm⟩ hc
  | cons e a => exact h a b (List.cons.inj hab).2

theorem closesLong_iff {level : Nat} {cs : List Char} :
    closesLong level cs = true ↔ longClosing level <+: ']' :: cs := by
  rw [closesLong, List.isPrefixOf_iff_prefix, longClosing, List.prefix_cons_inj]

theorem longClosing_prefix_iff {level : Nat} {c : Char} {cs : List Char} :
    longClosing level <+: c :: cs ↔ (c == ']' && closesLong level cs) = true := by
  rw [Bool.and_eq_true, beq_iff_eq, closesLong_iff]
  constructor
  · intro h
    have hc : c = ']' := (List.cons_prefix_cons.1 h).1.symm
    exact ⟨hc, hc ▸ h⟩
  · rintro ⟨rfl, h⟩
    exact h

@[simp] theorem length_longClosing (level : Nat) : (longClosing level).length = level + 2 := by
  simp [longClosing]

theorem isLineEnd_longClosing {level : Nat} : ∀ d ∈ longClosing level, isLineEnd d = false := by
  intro d hd
  simp only [longClosing, List.mem_cons, List.mem_append, List.mem_replicate, List.not_mem_nil,
    or_false] at hd
  rcases hd with rfl | ⟨-, rfl⟩ | rfl <;> rfl

theorem not_longClosing_of_lineEnd {level : Nat} {c : Char} (h : isLineEnd c = true) (cs : List Char) :
    ¬ longClosing level <+: c :: cs := by
  intro hstarts
  rw [← (List.cons_prefix_cons.1 hstarts).1] at h
  cases h

/-- Line ends in front close nothing. -/
theorem ClosesOnce.lineEnds {level : Nat} {body w : List Char} (h : ClosesOnce level body)
    (hw : ∀ d ∈ w, isLineEnd d = true) : ClosesOnce level (w ++ body) := by
  induction w with
  | nil => exact h
  | cons d w ih =>
    have hd := hw d List.mem_cons_self
    exact (ih fun e he => hw e (List.mem_cons_of_mem _ he)).cons (not_longClosing_of_lineEnd hd _)

theorem append_longClosing_ne_nil (level : Nat) (body : List Char) : body ++ longClosing level ≠ [] := by
  simp [longClosing]

/-- A text is read from a place up to the closing bracket of a level. Nothing behind the bracket
matters. -/
structure ReadsTo (level : Nat) (read : List Char → Nat → Nat → Option (List Char × Cursor))
    (cs : List Char) (line column : Nat) (r : List Char × Cursor) (body : List Char) : Prop where
  text : cs = body ++ longClosing level ++ r.2.rest
  once : ClosesOnce level body
  takes : Takes ⟨cs, line, column⟩ r.2
  alone : ∀ line' column', ∃ line'' column'',
    read (body ++ longClosing level) line' column' = some (r.1, ⟨[], line'', column''⟩)

variable {level line column : Nat} {cs done body : List Char} {r : List Char × Cursor}
  {read read' : List Char → Nat → Nat → Option (List Char × Cursor)}

/-- A line end in front of what is read goes with it. -/
theorem ReadsTo.lineEnd {c : Char} {rest : List Char} (hend : isLineEnd c = true)
    (hread : ∀ rest line column, rest ≠ [] →
      read (c :: rest) line column = read' (afterLineEnd c rest) (line + 1) 1)
    (h : ReadsTo level read' (afterLineEnd c rest) (line + 1) 1 r body) :
    ∃ body', ReadsTo level read (c :: rest) line column r body' := by
  have htakes : Takes ⟨c :: rest, line, column⟩ r.2 := Passes.takes (.lineEnd hend (.refl _)) h.takes
  obtain ⟨e, htext, he, hcut⟩ := exists_of_afterLineEnd_eq (append_longClosing_ne_nil level body) h.text
  have hends : ∀ d ∈ c :: e, isLineEnd d = true := List.forall_mem_cons.2 ⟨hend, he⟩
  refine ⟨c :: e ++ body, ?_, h.once.lineEnds hends, htakes, fun line' column' => ?_⟩
  · rw [htext]
    simp
  · have hne : e ++ (body ++ longClosing level) ≠ [] := by simp [longClosing]
    rw [List.cons_append, List.cons_append, List.append_assoc, hread _ _ _ hne, hcut]
    exact h.alone _ _

theorem longBody?_lineEnd {c : Char} {rest : List Char} (hend : isLineEnd c = true) (hne : rest ≠ []) :
    longBody? level (c :: rest) line column done =
      longBody? level (afterLineEnd c rest) (line + 1) 1 ('\n' :: done) := by
  obtain ⟨d, rest, rfl⟩ := List.exists_cons_of_ne_nil hne
  rw [longBody?_cons, if_neg (mt longClosing_prefix_iff.2 (not_longClosing_of_lineEnd hend _)), if_pos hend,
    afterLineEnd]
  dsimp only
  by_cases hpair : (isLineEnd d && d != c) = true
  · rw [if_pos hpair, if_pos hpair]
  · rw [if_neg hpair, if_neg hpair]

theorem readsTo_closing {c : Char} {rest : List Char}
    (h : (c == ']' && closesLong level rest) = true) :
    ReadsTo level (longBody? level · · · done) (c :: rest) line column
      (done.reverse, ⟨rest.drop (level + 1), line, column + level + 2⟩) [] := by
  obtain ⟨t, ht⟩ := longClosing_prefix_iff.2 h
  have hdrop : rest.drop (level + 1) = t := by
    calc rest.drop (level + 1) = (c :: rest).drop (level + 2) := rfl
      _ = t := by rw [← ht]; exact List.drop_left' (length_longClosing level)
  rw [hdrop, ← ht]
  refine ⟨rfl, closesOnce_nil level, ?_, fun line' column' => ⟨line', column' + level + 2, ?_⟩⟩
  · have htakes := takes_append (w := longClosing level) isLineEnd_longClosing (List.cons_ne_nil _ _) t
      line column
    rwa [length_longClosing, ← Nat.add_assoc] at htakes
  · have hself : (']' == ']' && closesLong level (List.replicate level '=' ++ [']'])) = true :=
      longClosing_prefix_iff.1 (List.prefix_refl _)
    rw [List.nil_append, longClosing, longBody?_cons, if_pos hself]
    simp

theorem ReadsTo.char {c : Char} (hend : isLineEnd c = false)
    (hclose : ¬ (c == ']' && closesLong level cs) = true)
    (h : ReadsTo level (longBody? level · · · (c :: done)) cs line (column + 1) r body) :
    ReadsTo level (longBody? level · · · done) (c :: cs) line column r (c :: body) := by
  have hopen : ¬ longClosing level <+: c :: (body ++ longClosing level) := by
    intro hstarts
    refine hclose (longClosing_prefix_iff.1 (hstarts.trans ?_))
    rw [h.text, List.prefix_cons_inj]
    exact List.prefix_append _ _
  refine ⟨by rw [h.text]; rfl, h.once.cons hopen, ?_, fun line' column' => ?_⟩
  · exact Passes.takes (.char hend (.refl _)) h.takes
  · obtain ⟨line'', column'', halone⟩ := h.alone line' (column' + 1)
    refine ⟨line'', column'', ?_⟩
    rw [List.cons_append, longBody?_cons, if_neg (mt longClosing_prefix_iff.2 hopen), if_neg (by simp [hend]),
      halone]

theorem longBody?_eq_some (h : longBody? level cs line column done = some r) :
    ∃ body, ReadsTo level (longBody? level · · · done) cs line column r body := by
  fun_induction longBody? level cs line column done with
  | case1 line column done => cases h
  | case2 c rest line column done hclose =>
    cases h
    exact ⟨[], readsTo_closing hclose⟩
  | case3 c line column done hend hclose => cases h
  | case4 c line column done hend d rest₁ hpair hclose ih =>
    obtain ⟨body, ih⟩ := ih h
    have hbody : ReadsTo level (longBody? level · · · ('\n' :: done)) (afterLineEnd c (d :: rest₁))
        (line + 1) 1 r body := by rwa [afterLineEnd, if_pos hpair]
    exact hbody.lineEnd hend fun _ _ _ => longBody?_lineEnd hend
  | case5 c line column done hend d rest₁ hpair hclose ih =>
    obtain ⟨body, ih⟩ := ih h
    have hbody : ReadsTo level (longBody? level · · · ('\n' :: done)) (afterLineEnd c (d :: rest₁))
        (line + 1) 1 r body := by rwa [afterLineEnd, if_neg hpair]
    exact hbody.lineEnd hend fun _ _ _ => longBody?_lineEnd hend
  | case6 c rest line column done hclose hend ih =>
    obtain ⟨body, ih⟩ := ih h
    exact ⟨c :: body, .char (Bool.eq_false_iff.2 hend) hclose ih⟩

/-- What is read behind the opening of a long bracket: a line end right there is dropped. -/
def longInside? (level : Nat) (cs : List Char) (line column : Nat) : Option (List Char × Cursor) :=
  match cs with
  | c :: rest =>
    if isLineEnd c then longBody? level (afterLineEnd c rest) (line + 1) 1 []
    else longBody? level (c :: rest) line column []
  | [] => none

theorem longInside?_eq_some (h : longInside? level cs line column = some r) :
    ∃ body, ReadsTo level (longInside? level) cs line column r body := by
  cases cs with
  | nil => cases h
  | cons c rest =>
    rw [longInside?] at h
    by_cases hend : isLineEnd c = true
    · rw [if_pos hend] at h
      obtain ⟨body, hbody⟩ := longBody?_eq_some h
      refine ReadsTo.lineEnd hend (fun rest line column _ => ?_) hbody
      rw [longInside?, if_pos hend]
    · rw [if_neg hend] at h
      obtain ⟨body, hbody⟩ := longBody?_eq_some h
      refine ⟨body, hbody.text, hbody.once, hbody.takes, fun line' column' => ?_⟩
      obtain ⟨line'', column'', halone⟩ := hbody.alone line' column'
      obtain ⟨a, cs, hcs⟩ := List.exists_cons_of_ne_nil (append_longClosing_ne_nil level body)
      have hhead : a = c := by
        have htext := hbody.text
        rw [hcs] at htext
        exact (List.cons.inj htext).1.symm
      refine ⟨line'', column'', ?_⟩
      rw [hcs, longInside?, hhead, if_neg hend, ← hhead, ← hcs, halone]

/-- A long bracket as a whole: it is closed where its level is closed for the first time. -/
def IsLongBracket (level : Nat) (text : List Char) : Prop :=
  ∃ body, text = longOpening level ++ body ++ longClosing level ∧ ClosesOnce level body

theorem isLineEnd_longOpening {level : Nat} : ∀ d ∈ longOpening level, isLineEnd d = false := by
  intro d hd
  simp only [longOpening, List.mem_cons, List.mem_append, List.mem_replicate, List.not_mem_nil,
    or_false] at hd
  rcases hd with rfl | ⟨-, rfl⟩ | rfl <;> rfl

@[simp] theorem length_longOpening (level : Nat) : (longOpening level).length = level + 2 := by
  simp [longOpening]

theorem longBracket_opening (level : Nat) (tail : List Char) (line column : Nat) (what : String) :
    longBracket ⟨longOpening level ++ tail, line, column⟩ level what =
      match longInside? level tail line (column + (level + 2)) with
      | some r => .ok r
      | none => .error (Cursor.fault ⟨longOpening level ++ tail, line, column⟩ (.openBracket what) true) := by
  have hskip : skip ⟨longOpening level ++ tail, line, column⟩ (level + 2) =
      ⟨tail, line, column + (level + 2)⟩ := by
    rw [skip]
    dsimp only
    rw [List.drop_left' (length_longOpening level)]
  rw [longBracket, hskip]
  rfl

theorem longBracket_eq_ok {tail : List Char} {what : String}
    (h : longBracket ⟨longOpening level ++ tail, line, column⟩ level what = .ok r) :
    ∃ text, longOpening level ++ tail = text ++ r.2.rest ∧ IsLongBracket level text ∧
      Takes ⟨longOpening level ++ tail, line, column⟩ r.2 ∧
      ∀ line' column', ∃ line'' column'',
        longBracket ⟨text, line', column'⟩ level what = .ok (r.1, ⟨[], line'', column''⟩) := by
  rw [longBracket_opening] at h
  have hpasses := passes_append isLineEnd_longOpening tail line column (w := longOpening level)
  rw [length_longOpening] at hpasses
  split at h
  · next heq =>
    cases h
    obtain ⟨body, hbody⟩ := longInside?_eq_some heq
    refine ⟨longOpening level ++ body ++ longClosing level, ?_, ⟨body, rfl, hbody.once⟩,
      hpasses.takes hbody.takes, fun line' column' => ?_⟩
    · rw [hbody.text]
      simp
    · obtain ⟨line'', column'', halone⟩ := hbody.alone line' (column' + (level + 2))
      refine ⟨line'', column'', ?_⟩
      rw [List.append_assoc, longBracket_opening, halone]
  · cases h

theorem longLevel?_opening (level : Nat) (tail : List Char) :
    longLevel? (List.replicate level '=' ++ '[' :: tail) = some level := by
  have hlevel : (List.replicate level '=' ++ '[' :: tail).takeWhile (· == '=') =
      List.replicate level '=' := by
    rw [List.takeWhile_append_of_pos fun c hc => beq_iff_eq.2 (List.eq_of_mem_replicate hc),
      List.takeWhile_cons_of_neg (by decide), List.append_nil]
  rw [longLevel?, hlevel, List.drop_left' rfl, List.length_replicate]
  rfl

/-- A long bracket starts where its level is told. -/
theorem longLevel?_eq_some_iff {level : Nat} {cs : List Char} :
    longLevel? cs = some level ↔ longOpening level <+: '[' :: cs := by
  rw [longOpening, List.prefix_cons_inj]
  constructor
  · intro h
    rw [longLevel?] at h
    split at h
    · next hhead =>
      obtain rfl := Option.some.inj h
      obtain ⟨tail, htail⟩ := List.head?_eq_some_iff.1 (beq_iff_eq.1 hhead)
      have hlevel : cs.takeWhile (· == '=') = List.replicate (cs.takeWhile (· == '=')).length '=' :=
        List.eq_replicate_iff.2 ⟨rfl, fun c hc => by simpa using List.mem_takeWhile_imp hc⟩
      have hdrop : cs.drop (cs.takeWhile (· == '=')).length = cs.dropWhile (· == '=') := by
        calc cs.drop (cs.takeWhile (· == '=')).length
            = (cs.takeWhile (· == '=') ++ cs.dropWhile (· == '=')).drop
                (cs.takeWhile (· == '=')).length := by rw [List.takeWhile_append_dropWhile]
          _ = cs.dropWhile (· == '=') := List.drop_left' rfl
      refine ⟨tail, ?_⟩
      rw [← hlevel, List.append_assoc, List.singleton_append, ← htail, hdrop, List.takeWhile_append_dropWhile]
    · cases h
  · rintro ⟨tail, rfl⟩
    rw [List.append_assoc, List.singleton_append, longLevel?_opening]

/-! ## Blanks and comments -/

/-- A text that consists of blanks and comments only, in front of `rest`. A comment is a long bracket
behind two hyphens, or else goes on to the end of the line. -/
inductive Skipped (rest : List Char) : List Char → Prop
  | nil : Skipped rest []
  | blank {d : Char} {gap : List Char} (hblank : Text.isBlank d = true) (hgap : Skipped rest gap) :
      Skipped rest (d :: gap)
  | long {level : Nat} {text gap : List Char} (htext : IsLongBracket level text)
      (hgap : Skipped rest gap) : Skipped rest ('-' :: '-' :: text ++ gap)
  | line {text gap : List Char} (hline : ∀ d ∈ text, isLineEnd d = false)
      (hlong : ∀ level, ¬ longOpening level <+: text)
      (hend : ∀ d ∈ (gap ++ rest).head?, isLineEnd d = true)
      (hgap : Skipped rest gap) : Skipped rest ('-' :: '-' :: text ++ gap)

theorem Skipped.blanks {rest gap w : List Char} (hw : ∀ d ∈ w, Text.isBlank d = true)
    (h : Skipped rest gap) : Skipped rest (w ++ gap) := by
  induction w with
  | nil => exact h
  | cons d w ih => exact .blank (hw d List.mem_cons_self) (ih fun e he => hw e (List.mem_cons_of_mem _ he))

/-- The level of the long bracket that a comment starts with. -/
theorem commentLevel_eq_some_iff {level : Nat} {cs : List Char} :
    (match cs with
      | '[' :: r => longLevel? r
      | _ => none) = some level ↔ longOpening level <+: cs := by
  split
  · exact longLevel?_eq_some_iff
  · next hno =>
    refine ⟨nofun, fun h => ?_⟩
    obtain ⟨tail, rfl⟩ := h
    exact absurd rfl (hno _)

/-- A comment to the end of the line. -/
theorem exists_lineComment (cs : List Char) : ∃ text rest, cs = text ++ rest ∧
    text.length = (cs.takeWhile (!isLineEnd ·)).length ∧ (∀ d ∈ text, isLineEnd d = false) ∧
    ∀ d ∈ rest.head?, isLineEnd d = true := by
  refine ⟨cs.takeWhile (!isLineEnd ·), cs.dropWhile (!isLineEnd ·), ?_, rfl, fun d hd => ?_, fun d hd => ?_⟩
  · exact List.takeWhile_append_dropWhile.symm
  · simpa using List.mem_takeWhile_imp hd
  · have hnot := List.head?_dropWhile_not (!isLineEnd ·) cs
    rw [Option.mem_def.1 hd] at hnot
    simpa using hnot

theorem skipBlanks_eq_ok {fuel : Nat} {c c' : Cursor} (h : skipBlanks fuel c = .ok c') :
    c.Passes c' ∧ ∃ gap, c.rest = gap ++ c'.rest ∧ Skipped c'.rest gap := by
  induction fuel generalizing c with
  | zero =>
    cases h
    exact ⟨.refl _, [], rfl, .nil⟩
  | succ fuel ih =>
    obtain ⟨cs, line, column⟩ := c
    cases cs with
    | nil =>
      rw [skipBlanks_nil _ rfl] at h
      cases h
      exact ⟨.refl _, [], rfl, .nil⟩
    | cons d cs =>
      by_cases hcomment : ∃ rest, d :: cs = '-' :: '-' :: rest
      · obtain ⟨rest, heq⟩ := hcomment
        rw [heq] at h ⊢
        rw [skipBlanks_comment fuel rfl] at h
        have hhyphens : Passes ⟨'-' :: '-' :: rest, line, column⟩ ⟨rest, line, column + 2⟩ :=
          .char rfl (.char rfl (.refl _))
        split at h
        · next level hlevel =>
          obtain ⟨tail, rfl⟩ := commentLevel_eq_some_iff.1 hlevel
          split at h
          · cases h
          · next cs c₁ hlong =>
            obtain ⟨text, htext, hbracket, htakes, -⟩ := longBracket_eq_ok hlong
            obtain ⟨hpasses, gap, hgap, hskipped⟩ := ih h
            refine ⟨hhyphens.trans (htakes.passes.trans hpasses), '-' :: '-' :: text ++ gap, ?_,
              .long hbracket hskipped⟩
            rw [htext, hgap]
            simp
        · next hlevel =>
          obtain ⟨text, tail, rfl, hlen, hline, hend⟩ := exists_lineComment rest
          rw [← hlen] at h
          have hskip : skip ⟨'-' :: '-' :: (text ++ tail), line, column⟩ (2 + text.length) =
              ⟨tail, line, column + 2 + text.length⟩ := by
            rw [skip, Nat.add_assoc]
            dsimp only
            rw [Nat.add_comm 2, List.drop_succ_cons, List.drop_succ_cons, List.drop_left' rfl]
          rw [hskip] at h
          obtain ⟨hpasses, gap, rfl, hskipped⟩ := ih h
          refine ⟨hhyphens.trans ((passes_append hline _ line (column + 2)).trans hpasses),
            '-' :: '-' :: text ++ gap, by simp, .line hline (fun level hopen => ?_) hend hskipped⟩
          have hsome := commentLevel_eq_some_iff.2 (hopen.trans (List.prefix_append text (gap ++ c'.rest)))
          cases hlevel.symm.trans hsome
      · rw [skipBlanks_char fuel rfl fun rest heq => hcomment ⟨rest, heq⟩] at h
        split at h
        · next hend =>
          obtain ⟨hpasses, gap, hgap, hskipped⟩ := ih h
          obtain ⟨e, htext, he, -⟩ := exists_lineEnd hend cs
          refine ⟨.lineEnd hend hpasses, e ++ gap, ?_,
            .blanks (fun x hx => isBlank_of_isLineEnd (he x hx)) hskipped⟩
          calc d :: cs = e ++ afterLineEnd d cs := htext
            _ = e ++ (gap ++ c'.rest) := congrArg (e ++ ·) hgap
            _ = e ++ gap ++ c'.rest := (List.append_assoc ..).symm
        · next hend =>
          split at h
          · next hblank =>
            obtain ⟨hpasses, gap, hgap, hskipped⟩ := ih h
            exact ⟨.char (Bool.eq_false_iff.2 hend) hpasses, d :: gap, congrArg (d :: ·) hgap,
              .blank hblank hskipped⟩
          · cases h
            exact ⟨.refl _, [], rfl, .nil⟩

end Token

end LuaMachine
