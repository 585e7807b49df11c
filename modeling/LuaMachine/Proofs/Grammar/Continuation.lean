import LuaMachine.Proofs.Token.Continuation
import LuaMachine.Proofs.Grammar.Constructs

/-!
# Parsing a text that goes on

A parser that meets a fault before the end of the input meets the same fault when the input goes on.
Two readers are compared, one of which has more lexemes (`Reader.Continues`). As long as the parse has
not looked at the end of the shorter input, both do the same; and from there on it can only fail
prematurely or come to rest at the end (`Parse.Follows`). The relation also counts the lexemes that
are passed, which shows that the bound on the nesting of calls is never reached.

Main statement: `Block.parse_continued`.
-/

namespace LuaMachine

/-- The reader `r'` has the lexemes of `r` before it, and perhaps more behind them; the text of `r` only
ends too early. -/
structure Reader.Continues (r r' : Reader) : Prop where
  lexemes : r.lexemes <+: r'.lexemes
  last : r'.last = r.last
  opened : TokenStream.OpenEnd r.ending

theorem Reader.Continues.self {r : Reader} (h : TokenStream.OpenEnd r.ending) : r.Continues r :=
  ⟨List.prefix_refl _, rfl, h⟩

namespace Parse

/-- Reading at most `k` lexemes, of which at least `c` are passed, the step `p` does what `p'` does when
there is more to read. It comes to the end of the input instead, or it fails because of the end. -/
def Follows (A : Reader → Prop) (k c : Nat) (p p' : Parse α) : Prop :=
  ∀ r r', A r → r.Continues r' → r.lexemes.length ≤ k →
    match p r with
    | .error e => e.premature = true ∨ (r.lexemes ≠ [] ∧ p' r' = .error e)
    | .ok (a, r₁) => r₁.lexemes.length + c ≤ r.lexemes.length ∧ TokenStream.OpenEnd r₁.ending ∧
        (r₁.lexemes = [] ∨ ∃ r₁', p' r' = .ok (a, r₁') ∧ r₁.Continues r₁')

variable {A : Reader → Prop} {k c e : Nat} {α β : Type}

/-! ## The rules -/

theorem Follows.weaken {p p' : Parse α} (h : Follows Any k c p p') (he : e ≤ c) :
    Follows A k e p p' := by
  intro r r' _ hr hk
  have hp := h r r' trivial hr hk
  cases hx : p r with
  | error f =>
    rw [hx] at hp
    exact hp
  | ok x =>
    rw [hx] at hp
    obtain ⟨hlen, hrest⟩ := hp
    exact ⟨by omega, hrest⟩

/-- What follows a step reads what the step has left. -/
theorem Follows.bind {p p' : Parse α} {f f' : α → Parse β} (hp : Follows A k c p p')
    (hf : ∀ a, c ≤ k → Follows Any (k - c) (e - c) (f a) (f' a)) :
    Follows A k e (p >>= f) (p' >>= f') := by
  intro r r' hA hr hk
  have hp := hp r r' hA hr hk
  show match (p r >>= fun x => f x.1 x.2) with
    | .error e => _
    | .ok (a, r₁) => _
  cases hx : p r with
  | error x =>
    rw [hx] at hp
    rcases hp with hpre | ⟨hne, hx'⟩
    · exact .inl hpre
    · refine .inr ⟨hne, ?_⟩
      show (p' r' >>= fun x => f' x.1 x.2) = _
      rw [hx']
      rfl
  | ok x =>
    obtain ⟨a, r₁⟩ := x
    rw [hx] at hp
    obtain ⟨hlen, hopen, hp⟩ := hp
    show match f a r₁ with
      | .error e => _
      | .ok (a, r₁) => _
    have hf := hf a (by omega)
    rcases hp with hend | ⟨r₁', hx', hr₁⟩
    · -- at the end of the input the longer one does not matter
      have hf := hf r₁ r₁ trivial (.self hopen) (by omega)
      cases hy : f a r₁ with
      | error y =>
        rw [hy] at hf
        rcases hf with hpre | ⟨hne, -⟩
        · exact .inl hpre
        · exact absurd hend hne
      | ok y =>
        rw [hy] at hf
        obtain ⟨hlen', hopen', -⟩ := hf
        have hnone : r₁.lexemes.length = 0 := by rw [hend]; rfl
        exact ⟨by omega, hopen', .inl (List.eq_nil_of_length_eq_zero (by omega))⟩
    · have hf := hf r₁ r₁' trivial hr₁ (by omega)
      have hboth : (p' >>= f') r' = f' a r₁' := by
        show (p' r' >>= fun x => f' x.1 x.2) = _
        rw [hx']
        rfl
      cases hy : f a r₁ with
      | error y =>
        rw [hy] at hf
        rcases hf with hpre | ⟨hne, hy'⟩
        · exact .inl hpre
        · refine .inr ⟨?_, hboth.trans hy'⟩
          intro hnone
          have hpos := List.length_pos_iff.2 hne
          rw [hnone, List.length_nil] at hlen
          omega
      | ok y =>
        rw [hy] at hf
        obtain ⟨hlen', hopen', hf⟩ := hf
        refine ⟨by omega, hopen', ?_⟩
        rcases hf with hend | ⟨r₂', hy', hr₂⟩
        · exact .inl hend
        · exact .inr ⟨r₂', hboth.trans hy', hr₂⟩

theorem follows_pure (a : α) : Follows A k 0 (pure a) (pure a) := by
  intro r r' _ hr _
  exact ⟨Nat.le_refl _, hr.opened, .inr ⟨r', rfl, hr⟩⟩

theorem follows_lastExtent : Follows A k 0 lastExtent lastExtent := by
  intro r r' _ hr _
  refine ⟨Nat.le_refl _, hr.opened, .inr ⟨r', ?_, hr⟩⟩
  show Except.ok (r'.last, r') = _
  rw [hr.last]

/-- What is done after a look at the next lexeme. -/
theorem follows_peek_bind {f f' : Lexeme → Parse β}
    (hf : ∀ l, Follows (Sees l) k e (f l) (f' l)) : Follows A k e (peek >>= f) (peek >>= f') := by
  intro r r' _ hr hk
  cases hl : r.lexemes with
  | cons l rest =>
    obtain ⟨more, hmore⟩ := hr.lexemes
    have hx : (peek >>= f) r = f l r := by
      show (peek r >>= fun x => f x.1 x.2) = _
      unfold peek
      rw [hl]
      rfl
    have hx' : (peek >>= f') r' = f' l r' := by
      show (peek r' >>= fun x => f' x.1 x.2) = _
      unfold peek
      rw [← hmore, hl]
      rfl
    have hf := hf l r r' (.inl (by rw [hl]; rfl)) hr hk
    rw [hx, hx', ← hl]
    exact hf
  | nil =>
    cases hend : r.ending with
    | error x =>
      have hpre := hr.opened
      rw [hend] at hpre
      have hx : (peek >>= f) r = .error x := by
        show (peek r >>= fun x => f x.1 x.2) = _
        unfold peek
        rw [hl, hend]
        rfl
      rw [hx]
      exact .inl hpre
    | ok l =>
      have hx : (peek >>= f) r = f l r := by
        show (peek r >>= fun x => f x.1 x.2) = _
        unfold peek
        rw [hl, hend]
        rfl
      have hf := hf l r r (.inr ⟨hl, hend⟩) (.self hr.opened) hk
      rw [hx]
      cases hy : f l r with
      | error y =>
        rw [hy] at hf
        rcases hf with hpre | ⟨hne, -⟩
        · exact .inl hpre
        · exact absurd hl hne
      | ok y =>
        rw [hy, hl] at hf
        obtain ⟨hlen, hopen, -⟩ := hf
        rw [List.length_nil] at hlen
        exact ⟨hlen, hopen, .inl (List.eq_nil_of_length_eq_zero (by omega))⟩

/-- A lexeme that is not the end of the input is passed. -/
theorem follows_advance {l : Lexeme} (hl : l.token ≠ .endOfInput) :
    Follows (Sees l) k 1 advance advance := by
  intro r r' hsees hr _
  cases hlexemes : r.lexemes with
  | cons m rest =>
    obtain ⟨more, hmore⟩ := hr.lexemes
    unfold advance
    rw [hlexemes]
    refine ⟨Nat.le_refl _, hr.opened, .inr ⟨{ r' with lexemes := rest ++ more, last := m.extent }, ?_, ?_⟩⟩
    · rw [← hmore, hlexemes]
      rfl
    · exact ⟨List.prefix_append _ _, rfl, hr.opened⟩
  | nil =>
    -- the input does not end with this lexeme
    rcases hsees with hhead | ⟨-, hend⟩
    · rw [hlexemes] at hhead
      cases hhead
    · have hopen := hr.opened
      rw [hend] at hopen
      exact absurd hopen hl

/-- A fault at the next lexeme. -/
theorem follows_failAt (l : Lexeme) (cause : SyntaxCause) :
    Follows (Sees l) k e (failAt l cause : Parse α) (failAt l cause) := by
  intro r r' hl hr _
  by_cases hnone : r.lexemes = []
  · refine .inl ?_
    rcases hl with hl | ⟨-, hl⟩
    · rw [hnone] at hl
      cases hl
    · have hend := hr.opened
      rw [hl] at hend
      exact decide_eq_true hend
  · exact .inr ⟨hnone, rfl⟩

/-- So all constructs are followed. -/
theorem compatible_follows : Compatible Follows where
  weaken := Follows.weaken
  bind := Follows.bind
  pure := follows_pure
  lastExtent := follows_lastExtent
  peek_bind := follows_peek_bind
  advance := follows_advance
  failAt := follows_failAt

/-- Whatever the bounds are, the larger one reads on as the smaller one does. A call needs sixteen times
the number of lexemes, and a little more for the calls that it makes before it has passed a lexeme. -/
theorem follows_run {n n' : Nat} (hle : n ≤ n') {rank least : Nat} (c : Construct rank least α)
    (hk : 16 * k + rank < n) : Follows Any k least (run n c) (run n' c) := by
  induction n generalizing n' rank least α k with
  | zero => omega
  | succ n ih =>
    obtain ⟨n', rfl⟩ : ∃ m, n' = m + 1 := ⟨n' - 1, by omega⟩
    rw [run_succ, run_succ]
    exact related_step compatible_follows c fun c' _ hk' => ih (by omega) c' (by omega)

theorem follows_chunk {n n' : Nat} (hle : n ≤ n') (hk : 16 * k + 4 ≤ n) :
    Follows Any k 0 (chunk n) (chunk n') := by
  unfold chunk
  refine Follows.bind (follows_run hle .block hk) fun body _ => ?_
  refine follows_peek_bind fun l => ?_
  split
  · exact follows_pure _
  · exact follows_failAt l _

end Parse

namespace Block

/-- Lexemes that are refused before their end are refused in the same way when more of them come. -/
theorem ofTokens_continued {s s' : TokenStream} (hopen : TokenStream.OpenEnd s.ending)
    (hlexemes : s.lexemes <+: s'.lexemes) {e : SyntaxFault} (h : ofTokens s = .error e)
    (hfinal : e.premature = false) : ofTokens s' = .error e := by
  have hle : 16 * (s.lexemes.length + 2) ≤ 16 * (s'.lexemes.length + 2) := by
    have hlen := hlexemes.length_le
    omega
  have hroom : 16 * s.lexemes.length + 4 ≤ 16 * (s.lexemes.length + 2) := by omega
  have hfollows := Parse.follows_chunk hle hroom ⟨s.lexemes, s.ending, ⟨1, 1, 1, 1⟩⟩
    ⟨s'.lexemes, s'.ending, ⟨1, 1, 1, 1⟩⟩ trivial ⟨hlexemes, rfl, hopen⟩ (Nat.le_refl _)
  unfold ofTokens at h ⊢
  dsimp only [StateT.run] at h ⊢
  split at h
  · cases h
  · next hx =>
    cases h
    rw [hx] at hfollows
    rcases hfollows with hpre | ⟨-, hx'⟩
    · rw [hfinal] at hpre
      cases hpre
    · rw [hx']

/-- A text that is refused before its end is refused in the same way when lines come behind it. -/
theorem parse_continued {chunk s : String} {e : SyntaxError} (h : parse chunk s = .error e)
    (hfinal : e.premature = false) (t : String) : parse chunk (s ++ "\n" ++ t) = .error e := by
  unfold parse at h ⊢
  rcases Token.scan_append s t with hsame | ⟨hopen, hlexemes⟩
  · rw [hsame]
    exact h
  · split at h
    · cases h
    · next e' hx =>
      cases h
      rw [ofTokens_continued hopen hlexemes hx hfinal]

theorem parse_empty (chunk : String) : parse chunk "" = .ok [] := rfl

/-- A syntax error that is not premature is final: whatever text comes behind a line end, the error
stays the same, with its place and its cause. So when the lines of a chunk parse, the first lines of it
parse on their own, or they fail prematurely. -/
theorem parse_error_final :
    (∀ {chunk s : String} {e : SyntaxError}, parse chunk s = .error e → e.premature = false →
      ∀ t : String, parse chunk (s ++ "\n" ++ t) = .error e) ∧
    ∀ {chunk : String} {lines : List String} {body : Block},
      parse chunk ("\n".intercalate lines) = .ok body → ∀ n < lines.length,
        (∃ body', parse chunk ("\n".intercalate (lines.take n)) = .ok body') ∨
          ∃ e, parse chunk ("\n".intercalate (lines.take n)) = .error e ∧ e.premature = true := by
  refine ⟨parse_continued, ?_⟩
  intro chunk lines body h n hn
  cases hfirst : parse chunk ("\n".intercalate (lines.take n)) with
  | ok body' => exact .inl ⟨body', rfl⟩
  | error e =>
    refine .inr ⟨e, rfl, eq_true_of_ne_false fun hfinal => ?_⟩
    have hne : lines.take n ≠ [] := by
      -- no lines at all are no error
      intro hnone
      rw [hnone, String.intercalate_nil, parse_empty] at hfirst
      cases hfirst
    have hrest : lines.drop n ≠ [] := by
      intro hnone
      have hlen := List.drop_eq_nil_iff.1 hnone
      omega
    rw [← List.take_append_drop n lines, String.intercalate_append_of_ne_nil hne hrest,
      parse_continued hfirst hfinal] at h
    cases h

/-- What is checked of a text by parsing it: how it is refused, at which place, and whether more text
might mend it. -/
def refusedAt (source : String) (line column : Nat) (premature : Bool) : Bool :=
  match parse "c" source with
  | .ok _ => false
  | .error e => e.line == line && e.column == column && e.premature == premature

theorem exists_of_refusedAt {source : String} {line column : Nat} {premature : Bool}
    (h : refusedAt source line column premature = true) : ∃ e, parse "c" source = .error e ∧
      e.line = line ∧ e.column = column ∧ e.premature = premature := by
  unfold refusedAt at h
  cases hx : parse "c" source with
  | ok body =>
    rw [hx] at h
    cases h
  | error e =>
    rw [hx] at h
    simp only [Bool.and_eq_true, beq_iff_eq] at h
    exact ⟨e, rfl, h.1.1, h.1.2, h.2⟩

/-- A declaration without a name stays an error, and a chunk of two lines may begin with the first of
them. -/
theorem parse_error_final_local :
    (∃ e, parse "c" "local = 2" = .error e ∧ e.line = 1 ∧ e.column = 7 ∧
      ∀ t : String, parse "c" ("local = 2" ++ "\n" ++ t) = .error e) ∧
    ((∃ body', parse "c" ("\n".intercalate (["if x then", "end"].take 1)) = .ok body') ∨
      ∃ e, parse "c" ("\n".intercalate (["if x then", "end"].take 1)) = .error e ∧
        e.premature = true) := by
  constructor
  · obtain ⟨e, he, hline, hcolumn, hfinal⟩ :=
      exists_of_refusedAt (by decide +kernel : refusedAt "local = 2" 1 7 false = true)
    exact ⟨e, he, hline, hcolumn, parse_error_final.1 he hfinal⟩
  · have hrun : (parse "c" ("\n".intercalate ["if x then", "end"])).toBool = true := by
      decide +kernel
    cases hx : parse "c" ("\n".intercalate ["if x then", "end"]) with
    | ok body => exact parse_error_final.2 hx 1 (by decide)
    | error e =>
      rw [hx] at hrun
      cases hrun

end Block

end LuaMachine
