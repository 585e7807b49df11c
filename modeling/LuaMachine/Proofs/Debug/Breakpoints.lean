import LuaMachine.Code.Compile
import LuaMachine.Debug.Breakpoints
import Mathlib.Algebra.Ring.Parity

/-!
# Breakpoints at a place

Which spans a breakpoint at a place is about, and what turning it over does to the breakpoints.

Main statements:

- `Span.includes_iff_distance?_eq_zero`: the spans that include a place are those at distance zero.
- `DebugState.targets_nearest`: a breakpoint is about all spans that include the place, or else about
  one that is nearest to it.
- `DebugState.toggle_flips`: the spans are turned over one by one. A span that is listed twice is turned
  over twice, so a breakpoint at the place of a `repeat` statement does not change.
-/

namespace LuaMachine

/-! ## Distances -/

namespace Span

variable {s : Span} {source line column : Nat}

/-- The span does not start behind its end. -/
def Ordered (s : Span) : Prop :=
  s.fromLine < s.toLine ∨ s.fromLine = s.toLine ∧ s.fromColumn ≤ s.toColumn

instance (s : Span) : Decidable s.Ordered := inferInstanceAs (Decidable (_ ∨ _))

/-- All lines and columns of the span are below a bound. -/
def Below (s : Span) (bound : Nat) : Prop :=
  s.fromLine < bound ∧ s.fromColumn < bound ∧ s.toLine < bound ∧ s.toColumn < bound

instance (s : Span) (bound : Nat) : Decidable (s.Below bound) := inferInstanceAs (Decidable (_ ∧ _))

theorem distance?_eq_none_iff : s.distance? source line column = none ↔ s.origin ≠ .source source := by
  by_cases h : s.origin = .source source <;> simp [distance?, h]

theorem origin_eq_of_distance? {n : Nat} (h : s.distance? source line column = some n) :
    s.origin = .source source := by
  by_contra hother
  rw [distance?_eq_none_iff.2 hother] at h
  cases h

/-- A place lies in a span just if its distance is zero. -/
theorem includes_iff_distance?_eq_zero (h : s.Ordered) :
    s.includes source line column = true ↔ s.distance? source line column = some 0 := by
  by_cases horigin : s.origin = .source source
  · have hlines : (max line s.fromLine - min line s.fromLine) * columnsPerLine = 0 ↔
        line = s.fromLine := by
      simp only [columnsPerLine]
      omega
    have hlast : (max line s.toLine - min line s.toLine) * columnsPerLine = 0 ↔ line = s.toLine := by
      simp only [columnsPerLine]
      omega
    have hfirst : (s.fromLine - line) * columnsPerLine = 0 ↔ s.fromLine ≤ line := by
      simp only [columnsPerLine]
      omega
    unfold Ordered at h
    simp only [includes, distance?, horigin]
    grind
  · simp [includes, distance?, horigin]

/-- Distances between places on the first 2⁵⁰ lines and columns fit into 61 bits. -/
theorem distance?_lt (h : s.Below (2 ^ 50)) (hline : line < 2 ^ 50) (hcolumn : column < 2 ^ 50) {n : Nat}
    (hn : s.distance? source line column = some n) : n < 2 ^ 61 := by
  obtain ⟨hfrom, hfirst, hto, hlast⟩ := h
  have horigin := origin_eq_of_distance? hn
  simp only [distance?, horigin, columnsPerLine, bne_self_eq_false, Bool.false_eq_true, ↓reduceIte,
    Option.some.injEq] at hn
  grind

end Span

namespace DebugState

variable {s : SourceText} {source line column : Nat} {spans breakpoints : List Span} {x t : Span}

/-! ## The nearest span -/

/-- The nearer one of the span found so far, with its distance, and another one. -/
def nearer (source line column : Nat) (best : Option (Nat × Span)) (s : Span) : Option (Nat × Span) :=
  match s.distance? source line column, best with
  | some n, some (m, t) => if n < m then some (n, s) else some (m, t)
  | some n, none => some (n, s)
  | none, best => best

theorem nearest?_eq :
    nearest? source line column spans = (spans.foldl (nearer source line column) none).map (·.2) :=
  rfl

/-- Either what was found before is kept, and the other span is not nearer, or the other span is. -/
theorem nearer_cases (source line column : Nat) (best : Option (Nat × Span)) (u : Span) :
    nearer source line column best u = best ∧ (∀ m, u.distance? source line column = some m →
        ∃ n t, best = some (n, t) ∧ n ≤ m) ∨
      ∃ m, u.distance? source line column = some m ∧
        nearer source line column best u = some (m, u) ∧ ∀ n t, best = some (n, t) → m < n := by
  unfold nearer
  rcases u.distance? source line column with _ | m
  · exact .inl ⟨rfl, nofun⟩
  · rcases best with _ | ⟨n, t⟩
    · exact .inr ⟨m, rfl, rfl, nofun⟩
    · by_cases hlt : m < n
      · exact .inr ⟨m, rfl, if_pos hlt, by rintro n' t' ⟨⟩; exact hlt⟩
      · exact .inl ⟨if_neg hlt, by rintro m' ⟨⟩; exact ⟨n, t, rfl, Nat.le_of_not_lt hlt⟩⟩

/-- What is found is a span of the list, or what had been found before, and none is nearer. -/
theorem foldl_nearer_minimal {best : Option (Nat × Span)} {n : Nat}
    (h : spans.foldl (nearer source line column) best = some (n, t)) :
    (best = some (n, t) ∨ t ∈ spans ∧ t.distance? source line column = some n) ∧
      (∀ m u, best = some (m, u) → n ≤ m) ∧
      ∀ u ∈ spans, ∀ m, u.distance? source line column = some m → n ≤ m := by
  induction spans generalizing best with
  | nil =>
    obtain rfl : best = some (n, t) := h
    refine ⟨.inl rfl, fun m u hu => ?_, nofun⟩
    cases hu
    exact Nat.le_refl n
  | cons u rest ih =>
    obtain ⟨hfound, hbest, hrest⟩ := ih h
    rcases nearer_cases source line column best u with ⟨heq, hfar⟩ | ⟨m, hm, heq, hnear⟩
    · rw [heq] at hfound hbest
      refine ⟨hfound.imp_right fun h => ⟨List.mem_cons_of_mem u h.1, h.2⟩, hbest, fun v hv m hm => ?_⟩
      rcases List.mem_cons.1 hv with rfl | hv
      · obtain ⟨k, t', hk, hle⟩ := hfar m hm
        exact Nat.le_trans (hbest k t' hk) hle
      · exact hrest v hv m hm
    · rw [heq] at hfound hbest
      have hle : n ≤ m := hbest m u rfl
      refine ⟨.inr ?_, fun k v hk => Nat.le_trans hle (Nat.le_of_lt (hnear k v hk)), fun v hv k hk => ?_⟩
      · rcases hfound with heq | ⟨hmem, hn⟩
        · cases heq
          exact ⟨List.mem_cons_self, hm⟩
        · exact ⟨List.mem_cons_of_mem u hmem, hn⟩
      · rcases List.mem_cons.1 hv with rfl | hv
        · obtain rfl := Option.some.inj (hm.symm.trans hk)
          exact hle
        · exact hrest v hv k hk

/-- Nothing is found just if there was nothing and all spans are in other sources. -/
theorem foldl_nearer_eq_none {best : Option (Nat × Span)} :
    spans.foldl (nearer source line column) best = none ↔
      best = none ∧ ∀ u ∈ spans, u.distance? source line column = none := by
  induction spans generalizing best with
  | nil => simp
  | cons u rest ih =>
    have hstep : nearer source line column best u = none ↔
        best = none ∧ u.distance? source line column = none := by
      rcases nearer_cases source line column best u with ⟨heq, hfar⟩ | ⟨m, hm, heq, -⟩
      · rw [heq]
        refine ⟨fun hnone => ⟨hnone, Option.eq_none_iff_forall_ne_some.2 fun m hm => ?_⟩, And.left⟩
        obtain ⟨n, t, hsome, -⟩ := hfar m hm
        rw [hnone] at hsome
        cases hsome
      · simp [heq, hm]
    rw [List.foldl_cons, ih, hstep]
    simp [and_assoc]

/-- The nearest span is one of the list, in the source, and none in the source is nearer. -/
theorem nearest?_minimal (h : nearest? source line column spans = some t) :
    t ∈ spans ∧ ∃ n, t.distance? source line column = some n ∧
      ∀ u ∈ spans, ∀ m, u.distance? source line column = some m → n ≤ m := by
  rw [nearest?_eq] at h
  obtain ⟨⟨n, t'⟩, hfold, rfl⟩ := Option.map_eq_some_iff.1 h
  obtain ⟨hfound, -, hminimal⟩ := foldl_nearer_minimal hfold
  rcases hfound with hnone | ⟨hmem, hdistance⟩
  · cases hnone
  · exact ⟨hmem, n, hdistance, hminimal⟩

theorem nearest?_eq_none_iff :
    nearest? source line column spans = none ↔ ∀ u ∈ spans, u.origin ≠ .source source := by
  rw [nearest?_eq, Option.map_eq_none_iff, foldl_nearer_eq_none]
  simp [Span.distance?_eq_none_iff]

/-! ## What a breakpoint at a place is about -/

/-- The spans that include the place, if there are any. -/
theorem targets_of_includes (h : ∃ r ∈ s.breakable, r.includes s.id line column = true) :
    targets s line column = s.breakable.filter (·.includes s.id line column) := by
  obtain ⟨r, hr, hincludes⟩ := h
  have hmem : r ∈ s.breakable.filter (·.includes s.id line column) :=
    List.mem_filter.2 ⟨hr, hincludes⟩
  unfold targets
  split
  · next hnil =>
    rw [hnil] at hmem
    cases hmem
  · rfl

/-- The nearest span, if none includes the place. -/
theorem targets_of_not_includes (h : ¬∃ r ∈ s.breakable, r.includes s.id line column = true) :
    targets s line column = (nearest? s.id line column s.breakable).toList := by
  have hnil : s.breakable.filter (·.includes s.id line column) = [] := by
    refine List.filter_eq_nil_iff.2 fun r hr hincludes => h ⟨r, hr, hincludes⟩
  unfold targets
  rw [hnil]

theorem noBreakpoint_of_mem_breakable (h : x ∈ s.breakable) : x ∈ s.spans ∧ x.noBreakpoint = false := by
  simpa [SourceText.breakable] using h

/-- A span that a breakpoint is about can have one, and none of the source that can is nearer. -/
theorem minimal_of_mem_targets (hordered : ∀ r ∈ s.spans, r.Ordered) (h : x ∈ targets s line column) :
    x ∈ s.breakable ∧ ∃ n, x.distance? s.id line column = some n ∧
      ∀ u ∈ s.breakable, ∀ m, u.distance? s.id line column = some m → n ≤ m := by
  by_cases hincludes : ∃ r ∈ s.breakable, r.includes s.id line column = true
  · rw [targets_of_includes hincludes] at h
    obtain ⟨hx, hplace⟩ := List.mem_filter.1 h
    have hzero := (Span.includes_iff_distance?_eq_zero
      (hordered x (noBreakpoint_of_mem_breakable hx).1)).1 hplace
    exact ⟨hx, 0, hzero, fun _ _ m _ => Nat.zero_le m⟩
  · rw [targets_of_not_includes hincludes, Option.mem_toList] at h
    exact nearest?_minimal h

/-- A breakpoint at a place is about spans of the source that can have one and are at the least distance
that there is: about all of those that include the place, which are at distance zero, or else about a
single one; only if the source has none that can have a breakpoint is it about nothing. Lines and columns
below 2⁵⁰ give distances of at most 61 bits. -/
theorem targets_nearest (s : SourceText) (line column : Nat) (hordered : ∀ r ∈ s.spans, r.Ordered) :
    (∀ r ∈ s.spans, r.includes s.id line column = true ↔ r.distance? s.id line column = some 0) ∧
    (∀ r ∈ targets s line column, r ∈ s.spans ∧ r.noBreakpoint = false ∧ r.origin = .source s.id ∧
      ∃ n, r.distance? s.id line column = some n ∧
        ∀ u ∈ s.breakable, ∀ m, u.distance? s.id line column = some m → n ≤ m) ∧
    (if ∃ r ∈ s.breakable, r.includes s.id line column = true then
        targets s line column = s.breakable.filter (·.includes s.id line column)
      else if ∃ r ∈ s.breakable, r.origin = .source s.id then ∃ r, targets s line column = [r]
      else targets s line column = []) ∧
    (line < 2 ^ 50 → column < 2 ^ 50 → ∀ r ∈ s.spans, r.Below (2 ^ 50) →
      ∀ n, r.distance? s.id line column = some n → n < 2 ^ 61) := by
  refine ⟨fun r hr => Span.includes_iff_distance?_eq_zero (hordered r hr), fun r hr => ?_, ?_,
    fun hline hcolumn r _ hbelow n => Span.distance?_lt hbelow hline hcolumn⟩
  · obtain ⟨hbreakable, n, hn, hminimal⟩ := minimal_of_mem_targets hordered hr
    obtain ⟨hmem, hfree⟩ := noBreakpoint_of_mem_breakable hbreakable
    exact ⟨hmem, hfree, Span.origin_eq_of_distance? hn, n, hn, hminimal⟩
  · split
    · next hincludes => exact targets_of_includes hincludes
    · next hincludes =>
      rw [targets_of_not_includes hincludes]
      split
      · next hsource =>
        obtain ⟨r, hr, horigin⟩ := hsource
        cases hnearest : nearest? s.id line column s.breakable with
        | none => exact absurd horigin (nearest?_eq_none_iff.1 hnearest r hr)
        | some t => exact ⟨t, rfl⟩
      · next hsource =>
        rw [nearest?_eq_none_iff.2 fun u hu horigin => hsource ⟨u, hu, horigin⟩]
        rfl

/-- Line 4 has only code that the compiler added; a breakpoint there is about line 3. -/
theorem targets_nearest_gap :
    let wide := Span.ofSource 0 3 5 3 20
    let s : SourceText := { id := 0, name := "test", code := "", owner := ⟨0⟩, spans :=
      [.ofSource 0 1 1 1 10, wide, (Span.ofSource 0 4 1 4 8).nonBreakable, .ofSource 0 9 1 9 4] }
    (∀ r ∈ s.spans, r.Ordered) ∧ targets s 4 2 = [wide] ∧
      ∃ n, wide.distance? 0 4 2 = some n ∧
        ∀ u ∈ s.breakable, ∀ m, u.distance? 0 4 2 = some m → n ≤ m := by
  intro wide s
  have hordered : ∀ r ∈ s.spans, r.Ordered := by decide
  have htargets : targets s 4 2 = [wide] := by decide
  obtain ⟨-, hall, -⟩ := targets_nearest s 4 2 hordered
  obtain ⟨-, -, -, hminimal⟩ := hall wide (htargets ▸ List.mem_singleton_self wide)
  exact ⟨hordered, htargets, hminimal⟩

/-! ## Turning breakpoints over -/

/-- One span is set, cleared or turned over, and the others are left as they are. -/
theorem mem_place {state : Option Bool} :
    x ∈ place breakpoints state t ↔
      if x = t then state.getD (!breakpoints.contains t) = true else x ∈ breakpoints := by
  unfold place
  by_cases hx : x = t
  · subst hx
    rcases state.getD (!breakpoints.contains x)
    · simp
    · by_cases hmem : x ∈ breakpoints <;> simp [hmem]
  · rcases state.getD (!breakpoints.contains t)
    · simp [hx]
    · by_cases hmem : t ∈ breakpoints <;> simp [hmem, hx]

/-- Spans that are set or cleared. -/
theorem mem_foldl_place_some (enable : Bool) :
    x ∈ spans.foldl (place · (some enable) ·) breakpoints ↔
      if x ∈ spans then enable = true else x ∈ breakpoints := by
  induction spans generalizing breakpoints with
  | nil => simp
  | cons t rest ih =>
    rw [List.foldl_cons, ih, mem_place]
    by_cases hrest : x ∈ rest
    · simp [hrest]
    · by_cases hx : x = t <;> simp [hrest, hx]

/-- Spans that are turned over one by one: what is listed an even number of times stays as it was. -/
theorem mem_foldl_place_none :
    x ∈ spans.foldl (place · none ·) breakpoints ↔ (x ∈ breakpoints ↔ Even (spans.count x)) := by
  induction spans generalizing breakpoints with
  | nil => simp
  | cons t rest ih =>
    rw [List.foldl_cons, ih, mem_place]
    by_cases hx : x = t
    · subst hx
      rw [List.count_cons_self, Nat.even_add_one]
      by_cases hmem : x ∈ breakpoints <;> simp [hmem]
    · rw [if_neg hx, List.count_cons_of_ne (Ne.symm hx)]

/-- Setting or clearing spans that have the state already changes nothing. -/
theorem foldl_place_of_settled {enable : Bool} (h : ∀ x ∈ spans, x ∈ breakpoints ↔ enable = true) :
    spans.foldl (place · (some enable) ·) breakpoints = breakpoints := by
  have hone : ∀ x ∈ spans, place breakpoints (some enable) x = breakpoints := by
    intro x hx
    have hstate := h x hx
    unfold place
    cases enable with
    | true => simp [hstate.2 rfl]
    | false =>
      refine List.filter_eq_self.2 fun y hy => bne_iff_ne.2 fun heq => ?_
      exact absurd (hstate.1 (heq ▸ hy)) Bool.false_ne_true
  induction spans with
  | nil => rfl
  | cons t rest ih =>
    rw [List.foldl_cons, hone t List.mem_cons_self]
    exact ih (fun x hx => h x (List.mem_cons_of_mem t hx)) fun x hx =>
      hone x (List.mem_cons_of_mem t hx)

/-- Turning the breakpoints at a place over changes those spans that it is about an odd number of
times, so a span that the source lists twice keeps its state; to turn them over again restores all.
Setting or clearing them does so to all spans that the place is about and to no other, and to repeat it
changes nothing. -/
theorem toggle_flips (d : DebugState) (s : SourceText) (line column : Nat) :
    (∀ x, (x ∈ (d.toggle s line column none).breakpoints ↔ x ∉ d.breakpoints) ↔
      Odd ((targets s line column).count x)) ∧
    (∀ x, x ∈ ((d.toggle s line column none).toggle s line column none).breakpoints ↔
      x ∈ d.breakpoints) ∧
    (∀ enable x, x ∈ (d.toggle s line column (some enable)).breakpoints ↔
      if x ∈ targets s line column then enable = true else x ∈ d.breakpoints) ∧
    ∀ enable, (d.toggle s line column (some enable)).toggle s line column (some enable) =
      d.toggle s line column (some enable) := by
  have honce : ∀ (d : DebugState) (x : Span), x ∈ (d.toggle s line column none).breakpoints ↔
      (x ∈ d.breakpoints ↔ Even ((targets s line column).count x)) := by
    intro d x
    exact mem_foldl_place_none
  have hset : ∀ (enable : Bool) (x : Span), x ∈ (d.toggle s line column (some enable)).breakpoints ↔
      if x ∈ targets s line column then enable = true else x ∈ d.breakpoints := by
    intro enable x
    exact mem_foldl_place_some enable
  refine ⟨fun x => ?_, fun x => ?_, hset, fun enable => ?_⟩
  · rw [honce, ← Nat.not_even_iff_odd]
    by_cases hmem : x ∈ d.breakpoints <;> simp [hmem]
  · rw [honce, honce]
    by_cases heven : Even ((targets s line column).count x) <;> simp [heven]
  · have hall : ∀ x ∈ targets s line column,
        x ∈ (d.toggle s line column (some enable)).breakpoints ↔ enable = true := by
      intro x hx
      rw [hset, if_pos hx]
    have hsettled := foldl_place_of_settled hall
    unfold toggle at hsettled ⊢
    rw [hsettled]

/-- The source text of a parsed one, with the spans that its code is attributed to. -/
def sourceOf (body : Block) : SourceText :=
  { id := 0, name := "main", code := "", owner := ⟨0⟩, spans :=
      match body.compile { chunk := "main", source := 0 } 0 with
      | .ok (_, spans) => spans
      | .error _ => [] }

/-- The statement `repeat f() until x`. -/
def repeatCall : Block :=
  [.repeat [.call (.call (.name "f") []) ⟨1, 8, 1, 10⟩] (.name "x") ⟨1, 12, 1, 18⟩]

/-- A `repeat` statement is listed before its body and again before its condition, so a breakpoint on
it is not set by turning it over. -/
theorem toggle_flips_repeat :
    let s := sourceOf repeatCall
    ∃ r ∈ targets s 1 12, r ∉ (({} : DebugState).toggle s 1 12 none).breakpoints := by
  intro s
  let r := Span.ofSource 0 1 12 1 18
  have hcount : (targets s 1 12).count r = 2 := by decide +kernel
  obtain ⟨hflips, -⟩ := toggle_flips {} s 1 12
  refine ⟨r, List.count_pos_iff.1 (hcount ▸ Nat.two_pos), fun hmem => ?_⟩
  -- two times is no odd number, so the span is where it was before
  have hsame := mt (hflips r).1 (by rw [hcount]; decide)
  exact hsame (iff_of_true hmem List.not_mem_nil)

end DebugState

end LuaMachine
