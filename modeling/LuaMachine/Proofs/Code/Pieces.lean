import LuaMachine.Proofs.Code.Verifier

/-!
# Pieces of verified code

The generator makes code in pieces. `Fits f start c stop d d' holes exits` says that the piece `c`,
which lies from `start` up to `stop`, takes the depth `d` to the depth `d'` inside a function with
the scope `f`. Two kinds of loose ends are allowed. A hole `(x, e)` is a jump at `x`, reached with
depth `e`, whose target is filled in later. An exit `(y, e)` is an address outside of the piece that
control may pass to with depth `e`.

Main statements: pieces compose (`Fits.append`), exits that come to lie at the ends of a piece are
closed (`Fits.close`), patching a piece fills its holes (`Fits.patch`), and the code of a function is
a piece that pushes one value and whose inside is verified (`Fits.function`).

Some jumps of a piece are redirected when the piece becomes part of a larger one. `Holds code redirect
a c` says that a listing has the piece `c` at the address `a`, with those redirections. `Makes a c
breaks b P` says of a piece from `a` up to `b` that whatever listing holds it has the property `P`,
once its breaks are redirected to one target. Such pieces compose where they meet (`Makes.append`), and
the breaks of a piece may be redirected before (`Makes.patch`).
-/

namespace LuaMachine

/-- The operations of code that starts at an address. -/
def listing (start : Nat) (code : Code) : Listing := fun x =>
  if start ≤ x then (code[x - start]?).map (·.op) else none

section Listing

variable {start x : Nat} {c c₁ c₂ : Code} {op : OpCode}

theorem listing_bounds (h : listing start c x = some op) : start ≤ x ∧ x < start + c.length := by
  unfold listing at h
  split at h
  · obtain ⟨i, hi, -⟩ := Option.map_eq_some_iff.1 h
    have := (List.getElem?_eq_some_iff.1 hi).1
    omega
  · cases h

theorem listing_append_left (hx : x < start + c₁.length) :
    listing start (c₁ ++ c₂) x = listing start c₁ x := by
  unfold listing
  split
  · rw [List.getElem?_append_left (by omega)]
  · rfl

theorem listing_append_right (hx : start + c₁.length ≤ x) :
    listing start (c₁ ++ c₂) x = listing (start + c₁.length) c₂ x := by
  unfold listing
  rw [if_pos (by omega), if_pos hx, List.getElem?_append_right (by omega)]
  congr 2
  omega

theorem listing_nil : listing start [] x = none := by
  unfold listing
  split <;> simp

theorem listing_cons_self (i : Instruction) (c : Code) : listing start (i :: c) start = some i.op := by
  simp [listing]

theorem listing_cons_of_ne {i : Instruction} (hx : x ≠ start) :
    listing start (i :: c) x = listing (start + 1) c x := by
  unfold listing
  by_cases h : start + 1 ≤ x
  · rw [if_pos (by omega), if_pos h]
    obtain ⟨k, rfl⟩ : ∃ k, x = start + 1 + k := ⟨x - (start + 1), by omega⟩
    have h1 : start + 1 + k - start = k + 1 := by omega
    have h2 : start + 1 + k - (start + 1) = k := by omega
    rw [h1, h2, List.getElem?_cons_succ]
  · rw [if_neg h]
    by_cases h' : start ≤ x
    · exact absurd (Nat.le_antisymm (by omega) h') hx
    · rw [if_neg h']

theorem listing_singleton (i : Instruction) (h : listing start [i] x = some op) :
    x = start ∧ op = i.op := by
  by_cases hx : x = start
  · subst hx
    rw [listing_cons_self] at h
    exact ⟨rfl, (Option.some.inj h).symm⟩
  · rw [listing_cons_of_ne hx, listing_nil] at h
    cases h

end Listing

/-- The labels of a piece of code: what `Fits` says, for given depths. -/
structure Labels (f : FunctionScope) (start : Nat) (c : Code) (stop d d' : Nat)
    (holes exits : List (Nat × Nat)) (depth : Nat → Nat) : Prop where
  stop_eq : stop = start + c.length
  enters : depth start = d
  leaves : depth stop = d'
  /-- a function does not start the piece, ends inside it, and a closure is made of it -/
  headers : ∀ {h name kind n}, listing start c h = some (.header name kind n) →
    start < h ∧ h + n ≤ stop ∧ ∃ x captures, listing start c x = some (.closure h captures)
  flow : ∀ {x op}, listing start c x = some op → ¬ Covered (listing start c) 0 x →
    (∀ e, (x, e) ∉ holes) →
      op.needs ≤ depth x ∧ op.SlotsWithin f.locals.length f.upvalues.length ∧
      ∀ y e, (y, e) ∈ op.next x (depth x) →
        (start ≤ y ∧ y ≤ stop ∧ ¬ Covered (listing start c) 0 y ∧ depth y = e) ∨ (y, e) ∈ exits
  holes : ∀ {x e}, (x, e) ∈ holes →
    (∃ t, listing start c x = some (.jump t)) ∧ ¬ Covered (listing start c) 0 x ∧ depth x = e
  closures : ∀ {x b captures}, listing start c x = some (.closure b captures) →
    start ≤ b ∧ b < stop ∧ ∃ n, b + n ≤ stop ∧ FunctionAt (listing start c) b n captures.length

/-- A piece of code inside a function with scope `f` that takes depth `d` to depth `d'`. -/
def Fits (f : FunctionScope) (start : Nat) (c : Code) (stop d d' : Nat)
    (holes exits : List (Nat × Nat)) : Prop :=
  ∃ depth, Labels f start c stop d d' holes exits depth

namespace Labels

variable {f : FunctionScope} {start stop d d' : Nat} {c : Code} {holes exits : List (Nat × Nat)}
  {depth : Nat → Nat}

theorem not_covered_start (h : Labels f start c stop d d' holes exits depth) :
    ¬ Covered (listing start c) 0 start := by
  rintro ⟨b, name, kind, n, hb, -, hbx, -⟩
  have := (h.headers hb).1
  omega

theorem not_covered_stop (h : Labels f start c stop d d' holes exits depth) :
    ¬ Covered (listing start c) 0 stop := by
  rintro ⟨b, name, kind, n, hb, -, -, hxn⟩
  have := (h.headers hb).2.1
  omega

end Labels

/-! ## Single instructions -/

/-- Operations other than headers and closures. -/
def OpCode.isPlain : OpCode → Bool
  | header .. | closure .. => false
  | _ => true

theorem not_covered_singleton {start x : Nat} {op : OpCode} {span : Option Span}
    (hp : op.isPlain = true) : ¬ Covered (listing start [⟨op, span⟩]) 0 x := by
  rintro ⟨b, name, kind, n, hb, -, -, -⟩
  obtain rfl : op = .header name kind n := (listing_singleton _ hb).2.symm
  cases hp

namespace Fits

variable {f : FunctionScope} {start stop d d' : Nat} {c : Code} {holes exits : List (Nat × Nat)}

theorem nil (f : FunctionScope) (start d : Nat) : Fits f start [] start d d [] [] := by
  refine ⟨fun _ => d, rfl, rfl, rfl, ?_, ?_, ?_, ?_⟩
  · intro h name kind n hh
    rw [listing_nil] at hh
    cases hh
  · intro x op hx
    rw [listing_nil] at hx
    cases hx
  · intro x e hx
    cases hx
  · intro x b captures hx
    rw [listing_nil] at hx
    cases hx

/-- One operation; where control passes to is behind it, at it, or an exit. -/
theorem op {op : OpCode} {span : Option Span} (hp : op.isPlain = true) (hn : op.needs ≤ d)
    (hs : op.SlotsWithin f.locals.length f.upvalues.length)
    (hnext : ∀ y e, (y, e) ∈ op.next start d → (y = start + 1 ∧ e = d') ∨ (y, e) ∈ exits) :
    Fits f start [⟨op, span⟩] (start + 1) d d' [] exits := by
  refine ⟨fun x => if x = start then d else d', rfl, if_pos rfl, if_neg (by omega), ?_, ?_, ?_, ?_⟩
  · intro h name kind n hh
    obtain rfl : op = .header name kind n := (listing_singleton _ hh).2.symm
    cases hp
  · intro x o hx _ _
    obtain ⟨rfl, rfl⟩ := listing_singleton _ hx
    simp only [if_true]
    refine ⟨hn, hs, ?_⟩
    intro y e hy
    rcases hnext y e hy with ⟨rfl, rfl⟩ | he
    · refine .inl ⟨by omega, by omega, not_covered_singleton hp, if_neg (by omega)⟩
    · exact .inr he
  · intro x e hx
    cases hx
  · intro x b captures hx
    obtain rfl : op = .closure b captures := (listing_singleton _ hx).2.symm
    cases hp

/-- A jump to be filled in later; what lies behind it may have any depth. -/
theorem hole (f : FunctionScope) (start d d' : Nat) (span : Option Span) :
    Fits f start [⟨.jump 0, span⟩] (start + 1) d d' [(start, d)] [] := by
  refine ⟨fun x => if x = start then d else d', rfl, if_pos rfl, if_neg (by omega), ?_, ?_, ?_, ?_⟩
  · intro h name kind n hh
    have := (listing_singleton _ hh).2
    cases this
  · intro x o hx _ hnot
    obtain ⟨rfl, -⟩ := listing_singleton _ hx
    exact absurd (List.mem_singleton.2 rfl) (hnot d)
  · intro x e hx
    cases List.mem_singleton.1 hx
    exact ⟨⟨0, listing_cons_self _ _⟩, not_covered_singleton rfl, if_pos rfl⟩
  · intro x b captures hx
    have := (listing_singleton _ hx).2
    cases this

/-! ## Weakening and closing -/

theorem mono {g : FunctionScope} (h : Fits f start c stop d d' holes exits) (hfg : f.Extends g) :
    Fits g start c stop d d' holes exits := by
  obtain ⟨depth, h⟩ := h
  refine ⟨depth, h.stop_eq, h.enters, h.leaves, h.headers, ?_, h.holes, h.closures⟩
  intro x op hx hcov hnot
  obtain ⟨hn, hs, hnext⟩ := h.flow hx hcov hnot
  exact ⟨hn, hs.mono hfg.1.length_le hfg.2.length_le, hnext⟩

/-- Exits that lie at one of the two ends of the piece, with the depth of that end, are no exits. -/
theorem close {exits' : List (Nat × Nat)} (h : Fits f start c stop d d' holes exits)
    (hex : ∀ p ∈ exits, p = (start, d) ∨ p = (stop, d') ∨ p ∈ exits') :
    Fits f start c stop d d' holes exits' := by
  obtain ⟨depth, h⟩ := h
  have hle : start ≤ stop := by
    have := h.stop_eq
    omega
  refine ⟨depth, h.stop_eq, h.enters, h.leaves, h.headers, ?_, h.holes, h.closures⟩
  intro x op hx hcov hnot
  obtain ⟨hn, hs, hnext⟩ := h.flow hx hcov hnot
  refine ⟨hn, hs, ?_⟩
  intro y e hy
  rcases hnext y e hy with hin | hout
  · exact .inl hin
  · rcases hex _ hout with heq | heq | hmem
    · cases heq
      exact .inl ⟨Nat.le_refl _, hle, h.not_covered_start, h.enters⟩
    · cases heq
      exact .inl ⟨hle, Nat.le_refl _, h.not_covered_stop, h.leaves⟩
    · exact .inr hmem

/-- The order of the holes does not count. -/
theorem congr_holes {holes' : List (Nat × Nat)} (h : Fits f start c stop d d' holes exits)
    (hh : ∀ p, p ∈ holes' ↔ p ∈ holes) : Fits f start c stop d d' holes' exits := by
  obtain ⟨depth, h⟩ := h
  refine ⟨depth, h.stop_eq, h.enters, h.leaves, h.headers, ?_, ?_, h.closures⟩
  · intro x op hx hcov hnot
    exact h.flow hx hcov fun e he => hnot e ((hh _).2 he)
  · intro x e hx
    exact h.holes ((hh _).1 hx)

theorem stop_eq (h : Fits f start c stop d d' holes exits) : stop = start + c.length := by
  obtain ⟨depth, h⟩ := h
  exact h.stop_eq

end Fits

/-! ## Composition -/

section Append

variable {f : FunctionScope} {start mid stop d d₁ d' : Nat} {c₁ c₂ : Code}
  {holes₁ exits₁ holes₂ exits₂ : List (Nat × Nat)} {depth₁ depth₂ : Nat → Nat}

/-- An address of the first of two pieces is covered in both together as it is in the first. -/
theorem covered_append_left (h₁ : Labels f start c₁ mid d d₁ holes₁ exits₁ depth₁) {x : Nat}
    (hx : x < mid) :
    Covered (listing start (c₁ ++ c₂)) 0 x ↔ Covered (listing start c₁) 0 x := by
  have hmid := h₁.stop_eq
  exact covered_congr (fun y _ hy => listing_append_left (by omega)) hx

/-- An address of the second piece is covered as it is there: functions of the first end before. -/
theorem covered_append_right (h₁ : Labels f start c₁ mid d d₁ holes₁ exits₁ depth₁) {x : Nat}
    (hx : mid ≤ x) :
    Covered (listing start (c₁ ++ c₂)) 0 x ↔ Covered (listing mid c₂) 0 x := by
  have hmid := h₁.stop_eq
  constructor
  · rintro ⟨b, name, kind, n, hb, hlo, hbx, hxn⟩
    by_cases hlt : b < mid
    · rw [listing_append_left (by omega)] at hb
      have := (h₁.headers hb).2.1
      omega
    · rw [listing_append_right (by omega), ← hmid] at hb
      exact ⟨b, name, kind, n, hb, hlo, hbx, hxn⟩
  · rintro ⟨b, name, kind, n, hb, hlo, hbx, hxn⟩
    have := (listing_bounds hb).1
    refine ⟨b, name, kind, n, ?_, hlo, hbx, hxn⟩
    rw [listing_append_right (by omega), ← hmid]
    exact hb

theorem Labels.append (h₁ : Labels f start c₁ mid d d₁ holes₁ exits₁ depth₁)
    (h₂ : Labels f mid c₂ stop d₁ d' holes₂ exits₂ depth₂) :
    Labels f start (c₁ ++ c₂) stop d d' (holes₁ ++ holes₂) (exits₁ ++ exits₂)
      (fun x => if x < mid then depth₁ x else depth₂ x) := by
  have hmid := h₁.stop_eq
  have hstop := h₂.stop_eq
  -- the two labellings agree where the pieces meet
  have hleft : ∀ y, y ≤ mid → (if y < mid then depth₁ y else depth₂ y) = depth₁ y := by
    intro y hy
    split
    · rfl
    · obtain rfl : y = mid := by omega
      rw [h₁.leaves, h₂.enters]
  have hright : ∀ y, mid ≤ y → (if y < mid then depth₁ y else depth₂ y) = depth₂ y := by
    intro y hy
    exact if_neg (by omega)
  have hcovl : ∀ y, start ≤ y → y ≤ mid → ¬ Covered (listing start c₁) 0 y →
      ¬ Covered (listing start (c₁ ++ c₂)) 0 y := by
    intro y _ hy hcov
    by_cases hlt : y < mid
    · exact fun h => hcov ((covered_append_left h₁ hlt).1 h)
    · obtain rfl : y = mid := by omega
      exact fun h => h₂.not_covered_start ((covered_append_right h₁ (Nat.le_refl _)).1 h)
  have hcovr : ∀ y, mid ≤ y → ¬ Covered (listing mid c₂) 0 y →
      ¬ Covered (listing start (c₁ ++ c₂)) 0 y :=
    fun y hy hcov h => hcov ((covered_append_right h₁ hy).1 h)
  refine ⟨?_, ?_, ?_, ?_, ?_, ?_, ?_⟩
  · rw [List.length_append]
    omega
  · rw [hleft start (by omega)]
    exact h₁.enters
  · rw [hright stop (by omega)]
    exact h₂.leaves
  · intro h name kind n hh
    by_cases hlt : h < mid
    · rw [listing_append_left (by omega)] at hh
      obtain ⟨hs, hn, x, captures, hx⟩ := h₁.headers hh
      have hxb := (listing_bounds hx).2
      exact ⟨hs, by omega, x, captures, (listing_append_left hxb).trans hx⟩
    · rw [listing_append_right (by omega), ← hmid] at hh
      obtain ⟨hs, hn, x, captures, hx⟩ := h₂.headers hh
      have hxb := (listing_bounds hx).1
      refine ⟨by omega, hn, x, captures, ?_⟩
      rw [listing_append_right (by omega), ← hmid]
      exact hx
  · intro x op hx hcov hnot
    by_cases hlt : x < mid
    · rw [listing_append_left (by omega)] at hx
      obtain ⟨hn, hs, hnext⟩ := h₁.flow hx (fun h => hcov ((covered_append_left h₁ hlt).2 h))
        (fun e he => hnot e (List.mem_append_left _ he))
      simp only [hleft x (by omega)]
      refine ⟨hn, hs, ?_⟩
      intro y e hy
      rcases hnext y e hy with ⟨hy1, hy2, hy3, hy4⟩ | hout
      · exact .inl ⟨hy1, by omega, hcovl y hy1 hy2 hy3, (hleft y hy2).trans hy4⟩
      · exact .inr (List.mem_append_left _ hout)
    · rw [listing_append_right (by omega), ← hmid] at hx
      obtain ⟨hn, hs, hnext⟩ := h₂.flow hx
        (fun h => hcov ((covered_append_right h₁ (by omega)).2 h))
        (fun e he => hnot e (List.mem_append_right _ he))
      simp only [hright x (by omega)]
      refine ⟨hn, hs, ?_⟩
      intro y e hy
      rcases hnext y e hy with ⟨hy1, hy2, hy3, hy4⟩ | hout
      · exact .inl ⟨by omega, hy2, hcovr y hy1 hy3, (hright y hy1).trans hy4⟩
      · exact .inr (List.mem_append_right _ hout)
  · intro x e hx
    rcases List.mem_append.1 hx with hx | hx
    · obtain ⟨⟨t, ht⟩, hcov, hd⟩ := h₁.holes hx
      have hb := listing_bounds ht
      refine ⟨⟨t, (listing_append_left (by omega)).trans ht⟩, hcovl x hb.1 (by omega) hcov, ?_⟩
      exact (hleft x (by omega)).trans hd
    · obtain ⟨⟨t, ht⟩, hcov, hd⟩ := h₂.holes hx
      have hb := listing_bounds ht
      refine ⟨⟨t, ?_⟩, hcovr x hb.1 hcov, (hright x hb.1).trans hd⟩
      rw [listing_append_right (by omega), ← hmid]
      exact ht
  · intro x b captures hx
    by_cases hlt : x < mid
    · rw [listing_append_left (by omega)] at hx
      obtain ⟨hb, hbs, n, hn, hf⟩ := h₁.closures hx
      refine ⟨hb, by omega, n, by omega, hf.congr ?_⟩
      exact fun y _ hy => listing_append_left (by omega)
    · rw [listing_append_right (by omega), ← hmid] at hx
      obtain ⟨hb, hbs, n, hn, hf⟩ := h₂.closures hx
      refine ⟨by omega, hbs, n, hn, hf.congr ?_⟩
      intro y hy _
      rw [listing_append_right (by omega), ← hmid]

/-- Pieces that meet compose. -/
theorem Fits.append (h₁ : Fits f start c₁ mid d d₁ holes₁ exits₁)
    (h₂ : Fits f mid c₂ stop d₁ d' holes₂ exits₂) :
    Fits f start (c₁ ++ c₂) stop d d' (holes₁ ++ holes₂) (exits₁ ++ exits₂) := by
  obtain ⟨depth₁, h₁⟩ := h₁
  obtain ⟨depth₂, h₂⟩ := h₂
  exact ⟨_, h₁.append h₂⟩

end Append

/-! ## Filling holes -/

theorem listing_patch (addresses : List Nat) (target start : Nat) (code : Code) (x : Nat) :
    listing start (Gen.patch addresses target start code) x =
      (listing start code x).map fun op => if x ∈ addresses then op.withTarget target else op := by
  unfold listing Gen.patch
  split
  · next hle =>
    rw [List.getElem?_mapIdx]
    cases code[x - start]? with
    | none => rfl
    | some i =>
      have hx : start + (x - start) = x := by omega
      simp only [Option.map_some, hx, List.contains_iff_mem]
      by_cases hmem : x ∈ addresses <;> simp [hmem]
  · rfl

theorem length_patch (addresses : List Nat) (target start : Nat) (c : Code) :
    (Gen.patch addresses target start c).length = c.length := by
  simp [Gen.patch]

/-- Redirecting holes to the end of their piece fills them; those at other addresses are left. -/
theorem Fits.patch {f : FunctionScope} {start stop d d' : Nat} {c : Code}
    {holes holes' exits : List (Nat × Nat)} (h : Fits f start c stop d d' holes exits)
    {addresses : List Nat} (hA : ∀ a ∈ addresses, (a, d') ∈ holes) (hsub : holes' ⊆ holes)
    (hrest : ∀ p ∈ holes, p.1 ∉ addresses → p ∈ holes') :
    Fits f start (Gen.patch addresses stop start c) stop d d' holes' exits := by
  obtain ⟨depth, h⟩ := h
  have hle : start ≤ stop := by
    have := h.stop_eq
    omega
  -- only jumps change, so everything else is where it was
  have hold : ∀ {x op}, listing start c x = some op → x ∉ addresses →
      listing start (Gen.patch addresses stop start c) x = some op := by
    intro x op hx hnot
    rw [listing_patch, hx, Option.map_some, if_neg hnot]
  have hback : ∀ {x op}, listing start (Gen.patch addresses stop start c) x = some op →
      (x ∈ addresses ∧ op = .jump stop) ∨ (x ∉ addresses ∧ listing start c x = some op) := by
    intro x op hx
    rw [listing_patch] at hx
    obtain ⟨op', hop', heq⟩ := Option.map_eq_some_iff.1 hx
    by_cases hmem : x ∈ addresses
    · obtain ⟨⟨t, ht⟩, -, -⟩ := h.holes (hA x hmem)
      rw [ht] at hop'
      cases hop'
      rw [if_pos hmem] at heq
      exact .inl ⟨hmem, heq.symm⟩
    · rw [if_neg hmem] at heq
      exact .inr ⟨hmem, heq ▸ hop'⟩
  have hheader : ∀ {b name kind n},
      listing start (Gen.patch addresses stop start c) b = some (.header name kind n) ↔
        listing start c b = some (.header name kind n) := by
    intro b name kind n
    constructor
    · intro hb
      rcases hback hb with ⟨-, heq⟩ | ⟨-, heq⟩
      · cases heq
      · exact heq
    · intro hb
      refine hold hb fun hmem => ?_
      obtain ⟨⟨t, ht⟩, -, -⟩ := h.holes (hA b hmem)
      rw [hb] at ht
      cases ht
  have hcov : ∀ x, Covered (listing start (Gen.patch addresses stop start c)) 0 x ↔
      Covered (listing start c) 0 x := by
    intro x
    unfold Covered
    simp only [hheader]
  refine ⟨depth, h.stop_eq.trans (by rw [length_patch]), h.enters, h.leaves, ?_, ?_, ?_, ?_⟩
  · intro b name kind n hb
    obtain ⟨hs, hn, x, captures, hx⟩ := h.headers (hheader.1 hb)
    refine ⟨hs, hn, x, captures, hold hx fun hmem => ?_⟩
    obtain ⟨⟨t, ht⟩, -, -⟩ := h.holes (hA x hmem)
    rw [hx] at ht
    cases ht
  · intro x op hx hc hnot
    rcases hback hx with ⟨hmem, rfl⟩ | ⟨hmem, hx'⟩
    · obtain ⟨-, -, hd⟩ := h.holes (hA x hmem)
      refine ⟨Nat.zero_le _, trivial, ?_⟩
      intro y e hy
      obtain ⟨rfl, rfl⟩ : y = stop ∧ e = depth x := by simpa [OpCode.next] using hy
      exact .inl ⟨hle, Nat.le_refl _, fun hcs => h.not_covered_stop ((hcov _).1 hcs),
        h.leaves.trans hd.symm⟩
    · obtain ⟨hn, hs, hnext⟩ := h.flow hx' (fun hcx => hc ((hcov x).2 hcx)) (fun e he =>
        hnot e (hrest _ he hmem))
      refine ⟨hn, hs, ?_⟩
      intro y e hy
      rcases hnext y e hy with ⟨hy1, hy2, hy3, hy4⟩ | hout
      · exact .inl ⟨hy1, hy2, fun hcy => hy3 ((hcov y).1 hcy), hy4⟩
      · exact .inr hout
  · intro x e hx
    obtain ⟨⟨t, ht⟩, hc, hd⟩ := h.holes (hsub hx)
    refine ⟨?_, fun hcx => hc ((hcov x).1 hcx), hd⟩
    by_cases hmem : x ∈ addresses
    · exact ⟨stop, by rw [listing_patch, ht, Option.map_some, if_pos hmem, OpCode.withTarget]⟩
    · exact ⟨t, hold ht hmem⟩
  · intro x b captures hx
    rcases hback hx with ⟨-, heq⟩ | ⟨-, hx'⟩
    · cases heq
    · obtain ⟨hb, hbs, n, hn, hf⟩ := h.closures hx'
      refine ⟨hb, hbs, n, hn, hf.congr ?_⟩
      -- a hole lies in no function of the piece
      intro y hy hyn
      have hynot : y ∉ addresses := by
        intro hmem
        obtain ⟨-, hc, -⟩ := h.holes (hA y hmem)
        obtain ⟨⟨name, kind, hhead⟩, -⟩ := hf
        exact hc ⟨b, name, kind, n, hhead, Nat.zero_le _, hy, hyn⟩
      rw [listing_patch]
      simp [hynot]

/-! ## Functions -/

/-- Header, slots, arguments, a body that fits and a return make a verified function. -/
theorem verified_of_body {code : Listing} {f : FunctionScope} {a n stop params : Nat}
    {name : String} {kind : HeaderKind} {isVararg : Bool} {body : Code}
    (hheader : code a = some (.header name kind n))
    (hbegin : code (a + 1) = some (.beginFn f.locals))
    (hargs : code (a + 2) = some (.args params isVararg)) (hparams : params ≤ f.locals.length)
    (hbody : ∀ x, a + 3 ≤ x → x < stop → code x = listing (a + 3) body x)
    (hret : code stop = some (.ret 0)) (hn : a + n = stop + 1)
    (hfit : Fits f (a + 3) body stop 0 0 [] []) :
    ∃ depth, Verified code a n f.locals.length f.upvalues.length depth := by
  obtain ⟨depth, h⟩ := hfit
  have hstop := h.stop_eq
  have hheads : ∀ {b nm kd m}, code b = some (.header nm kd m) → a + 1 ≤ b → b ≤ stop →
      listing (a + 3) body b = some (.header nm kd m) := by
    intro b nm kd m hb hab hbs
    have h1 : b ≠ a + 1 := by
      rintro rfl
      rw [hbegin] at hb
      cases hb
    have h2 : b ≠ a + 2 := by
      rintro rfl
      rw [hargs] at hb
      cases hb
    have h3 : b ≠ stop := by
      rintro rfl
      rw [hret] at hb
      cases hb
    rw [← hbody b (by omega) (by omega)]
    exact hb
  have hcov : ∀ x, x ≤ stop → (Covered code (a + 1) x ↔ Covered (listing (a + 3) body) 0 x) := by
    intro x hx
    constructor
    · rintro ⟨b, nm, kd, m, hb, hab, hbx, hxm⟩
      exact ⟨b, nm, kd, m, hheads hb hab (by omega), Nat.zero_le _, hbx, hxm⟩
    · rintro ⟨b, nm, kd, m, hb, -, hbx, hxm⟩
      have hbb := listing_bounds hb
      exact ⟨b, nm, kd, m, (hbody b hbb.1 (by omega)).trans hb, by omega, hbx, hxm⟩
  have hprologue : ∀ x, x < a + 3 → ¬ Covered (listing (a + 3) body) 0 x := by
    rintro x hx ⟨b, nm, kd, m, hb, -, hbx, -⟩
    have := (listing_bounds hb).1
    omega
  have hown : ∀ x, a ≤ x → x ≤ stop → ¬ Covered (listing (a + 3) body) 0 x → Owns code a n x :=
    fun x hax hxs hc => ⟨hax, by omega, fun hcx => hc ((hcov x hxs).1 hcx)⟩
  refine ⟨fun x => if x < a + 3 then 0 else depth x, if_pos (by omega),
    hown a (by omega) (by omega) (hprologue a (by omega)), ?_⟩
  rintro x ⟨hax, hxn, hxc⟩
  have hxs : x ≤ stop := by omega
  -- the three instructions in front of the body only lead to the next one
  have hfall : ∀ y, y ≤ a + 3 → a ≤ y → Owns code a n y ∧ (if y < a + 3 then 0 else depth y) = 0 := by
    intro y hy hay
    by_cases hlt : y < a + 3
    · exact ⟨hown y hay (by omega) (hprologue y hlt), if_pos hlt⟩
    · obtain rfl : y = a + 3 := by omega
      exact ⟨hown _ hay (by omega) h.not_covered_start, by rw [if_neg (by omega), h.enters]⟩
  by_cases hx3 : x < a + 3
  · have hcases : x = a ∨ x = a + 1 ∨ x = a + 2 := by omega
    rcases hcases with rfl | rfl | rfl
    · refine ⟨_, hheader, Nat.zero_le _, trivial, ?_, by rintro b captures ⟨⟩⟩
      intro y d hy
      obtain ⟨rfl, rfl⟩ : y = x + 1 ∧ d = 0 := by simpa [OpCode.next, OpCode.leaves, hx3] using hy
      exact hfall _ (by omega) (by omega)
    · refine ⟨_, hbegin, Nat.zero_le _, trivial, ?_, by rintro b captures ⟨⟩⟩
      intro y d hy
      obtain ⟨rfl, rfl⟩ : y = a + 1 + 1 ∧ d = 0 := by
        simpa [OpCode.next, OpCode.leaves, hx3] using hy
      exact hfall _ (by omega) (by omega)
    · refine ⟨_, hargs, Nat.zero_le _, hparams, ?_, by rintro b captures ⟨⟩⟩
      intro y d hy
      obtain ⟨rfl, rfl⟩ : y = a + 2 + 1 ∧ d = 0 := by
        simpa [OpCode.next, OpCode.leaves, hx3] using hy
      exact hfall _ (by omega) (by omega)
  · by_cases hxe : x = stop
    · subst hxe
      refine ⟨_, hret, by simp [OpCode.needs], trivial, ?_, by rintro b captures ⟨⟩⟩
      intro y d hy
      simp [OpCode.next] at hy
    · have hcode := hbody x (by omega) (by omega)
      have hsome : (listing (a + 3) body x).isSome := by
        unfold listing
        rw [if_pos (by omega)]
        simp
        omega
      obtain ⟨op, hop⟩ := Option.isSome_iff_exists.1 hsome
      have hlc : ¬ Covered (listing (a + 3) body) 0 x := fun hc => hxc ((hcov x hxs).2 hc)
      obtain ⟨hneeds, hslots, hnext⟩ := h.flow hop hlc (by simp)
      refine ⟨op, hcode.trans hop, by simpa only [if_neg hx3] using hneeds, hslots, ?_, ?_⟩
      · intro y d hy
        simp only [if_neg hx3] at hy
        rcases hnext y d hy with ⟨hy1, hy2, hy3, hy4⟩ | hout
        · exact ⟨hown y (by omega) hy2 hy3, by rw [if_neg (by omega), hy4]⟩
        · cases hout
      · rintro b captures rfl
        obtain ⟨hb, hbs, m, hbm, ⟨nm, kd, hhead⟩, -⟩ := h.closures hop
        exact ⟨nm, kd, m, (hbody b hb hbs).trans hhead, by omega, by omega, by omega⟩

/-- The code of a function, which control passes over, and the closure made of it. -/
theorem Fits.function {f g : FunctionScope} {start stop d params : Nat} {name : String}
    {isVararg : Bool} {body : Code} {captures : List Symbol} {i₁ i₂ i₃ i₄ i₅ i₆ : Instruction}
    (hfit : Fits g (start + 4) body stop 0 0 [] []) (hparams : params ≤ g.locals.length)
    (hlen : captures.length = g.upvalues.length) (hcaps : ∀ s ∈ captures, f.Covers s)
    (h₁ : i₁.op = .jump (stop + 1)) (h₂ : i₂.op = .header name .function (stop + 1 - (start + 1)))
    (h₃ : i₃.op = .beginFn g.locals) (h₄ : i₄.op = .args params isVararg) (h₅ : i₅.op = .ret 0)
    (h₆ : i₆.op = .closure (start + 1) captures) :
    Fits f start (i₁ :: i₂ :: i₃ :: i₄ :: (body ++ [i₅, i₆])) (stop + 2) d (d + 1) [] [] := by
  obtain ⟨depth, h⟩ := id hfit
  have hstop := h.stop_eq
  have hheads := @h.headers
  have hclos := @h.closures
  have hin : ∀ {x op}, listing (start + 4) body x = some op → start + 4 ≤ x ∧ x < stop := by
    intro x op hx
    have := listing_bounds hx
    omega
  generalize hc : listing start (i₁ :: i₂ :: i₃ :: i₄ :: (body ++ [i₅, i₆])) = code
  -- what stands at each address
  have c₀ : code start = some (.jump (stop + 1)) := by
    rw [← hc, listing_cons_self, h₁]
  have c₁ : code (start + 1) = some (.header name .function (stop + 1 - (start + 1))) := by
    rw [← hc, listing_cons_of_ne (by omega), listing_cons_self, h₂]
  have c₂ : code (start + 2) = some (.beginFn g.locals) := by
    rw [← hc, listing_cons_of_ne (by omega), listing_cons_of_ne (by omega), listing_cons_self, h₃]
  have c₃ : code (start + 3) = some (.args params isVararg) := by
    rw [← hc, listing_cons_of_ne (by omega), listing_cons_of_ne (by omega),
      listing_cons_of_ne (by omega), listing_cons_self, h₄]
  have cbehind : ∀ x, start + 4 ≤ x → code x = listing (start + 4) (body ++ [i₅, i₆]) x := by
    intro x hx
    rw [← hc, listing_cons_of_ne (by omega), listing_cons_of_ne (by omega),
      listing_cons_of_ne (by omega), listing_cons_of_ne (by omega)]
  have cbody : ∀ x, start + 4 ≤ x → x < stop → code x = listing (start + 4) body x := by
    intro x hx hxs
    rw [cbehind x hx, listing_append_left (by omega)]
  have cret : code stop = some (.ret 0) := by
    rw [cbehind stop (by omega), listing_append_right (by omega), ← hstop, listing_cons_self, h₅]
  have cclosure : code (stop + 1) = some (.closure (start + 1) captures) := by
    rw [cbehind _ (by omega), listing_append_right (by omega), ← hstop,
      listing_cons_of_ne (by omega), listing_cons_self, h₆]
  have haddr : ∀ {x op}, code x = some op → x = start ∨ x = start + 1 ∨ x = start + 2 ∨
      x = start + 3 ∨ (start + 4 ≤ x ∧ x < stop) ∨ x = stop ∨ x = stop + 1 := by
    intro x op hx
    rw [← hc] at hx
    have := listing_bounds hx
    simp only [List.length_cons, List.length_append, List.length_nil] at this
    omega
  -- the function covers all but the first and the last instruction
  have hcovered : ∀ x, start + 1 ≤ x → x < stop + 1 → Covered code 0 x :=
    fun x hx hxs => ⟨_, _, _, _, c₁, Nat.zero_le _, hx, by omega⟩
  have hheaders : ∀ {b nm kd m}, code b = some (.header nm kd m) → start < b ∧ b + m ≤ stop + 1 ∧
      ∃ x caps, code x = some (.closure b caps) := by
    intro b nm kd m hb
    rcases haddr hb with rfl | rfl | rfl | rfl | hbb | rfl | rfl
    · rw [c₀] at hb
      cases hb
    · rw [c₁] at hb
      cases hb
      exact ⟨by omega, by omega, _, _, cclosure⟩
    · rw [c₂] at hb
      cases hb
    · rw [c₃] at hb
      cases hb
    · rw [cbody b hbb.1 hbb.2] at hb
      obtain ⟨hs, hm, x, caps, hx⟩ := hheads hb
      have hxb := hin hx
      exact ⟨by omega, by omega, x, caps, (cbody x hxb.1 hxb.2).trans hx⟩
    · rw [cret] at hb
      cases hb
    · rw [cclosure] at hb
      cases hb
  have hfree : ∀ x, x ≤ start ∨ stop + 1 ≤ x → ¬ Covered code 0 x := by
    rintro x hx ⟨b, nm, kd, m, hb, -, hbx, hxm⟩
    have := hheaders hb
    omega
  refine ⟨fun x => if x ≤ stop + 1 then d else d + 1, ?_, if_pos (by omega), if_neg (by omega),
    ?_, ?_, ?_, ?_⟩
  · simp only [List.length_cons, List.length_append, List.length_nil]
    omega
  · intro b nm kd m hb
    rw [hc] at hb ⊢
    obtain ⟨hs, hm, hx⟩ := hheaders hb
    exact ⟨hs, by omega, hx⟩
  · intro x op hx hcov _
    rw [hc] at hx hcov ⊢
    have hends : x = start ∨ x = stop + 1 := by
      rcases haddr hx with rfl | rfl | rfl | rfl | hxb | rfl | rfl
      · exact .inl rfl
      all_goals first
        | exact .inr rfl
        | exact absurd (hcovered _ (by omega) (by omega)) hcov
    rcases hends with rfl | rfl
    · rw [c₀] at hx
      cases hx
      refine ⟨Nat.zero_le _, trivial, ?_⟩
      intro y e hy
      obtain ⟨rfl, rfl⟩ : y = stop + 1 ∧ e = d := by
        simpa [OpCode.next, show x ≤ stop + 1 by omega] using hy
      exact .inl ⟨by omega, by omega, hfree _ (by omega), if_pos (by omega)⟩
    · rw [cclosure] at hx
      cases hx
      refine ⟨Nat.zero_le _, hcaps, ?_⟩
      intro y e hy
      obtain ⟨rfl, rfl⟩ : y = stop + 2 ∧ e = d + 1 := by
        simpa [OpCode.next, OpCode.leaves] using hy
      exact .inl ⟨by omega, by omega, hfree _ (by omega), if_neg (by omega)⟩
  · intro x e hx
    cases hx
  · intro x b caps hx
    rw [hc] at hx ⊢
    rcases haddr hx with rfl | rfl | rfl | rfl | hxb | rfl | rfl
    · rw [c₀] at hx
      cases hx
    · rw [c₁] at hx
      cases hx
    · rw [c₂] at hx
      cases hx
    · rw [c₃] at hx
      cases hx
    · rw [cbody x hxb.1 hxb.2] at hx
      obtain ⟨hb, hbs, n, hn, hf⟩ := hclos hx
      refine ⟨by omega, by omega, n, by omega, hf.congr ?_⟩
      exact fun y hy hyn => cbody y (by omega) (by omega)
    · rw [cret] at hx
      cases hx
    · rw [cclosure] at hx
      cases hx
      obtain ⟨dep, hv⟩ := verified_of_body c₁ c₂ c₃ hparams cbody cret (by omega) hfit
      rw [← hlen] at hv
      exact ⟨by omega, by omega, _, by omega, ⟨_, _, c₁⟩, _, dep, c₂, hv⟩

/-! ## Redirected jumps -/

namespace Gen

theorem patch_append (addresses : List Nat) (target a : Nat) (c₁ c₂ : Code) :
    patch addresses target a (c₁ ++ c₂) =
      patch addresses target a c₁ ++ patch addresses target (a + c₁.length) c₂ := by
  simp [patch, List.mapIdx_append, Nat.add_assoc, Nat.add_comm c₁.length]

/-- Addresses outside of a piece do not count. -/
theorem patch_congr {as bs : List Nat} {a : Nat} {c : Code} (target : Nat)
    (h : ∀ x, a ≤ x → x < a + c.length → (x ∈ as ↔ x ∈ bs)) :
    patch as target a c = patch bs target a c := by
  refine List.mapIdx_eq_mapIdx_iff.2 ?_
  intro i hi
  have hmem := h (a + i) (by omega) (by omega)
  simp [hmem]

theorem patch_of_outside {as : List Nat} {a : Nat} {c : Code} (target : Nat)
    (h : ∀ x ∈ as, x < a ∨ a + c.length ≤ x) : patch as target a c = c := by
  refine List.ext_getElem (by simp [patch]) ?_
  intro i hi _
  have hlt : i < c.length := by simpa [patch] using hi
  have hnot : a + i ∉ as := fun hx => by
    have := h _ hx
    omega
  simp [patch, hnot]

/-- Of the pieces in front of a jump, the jump, and the piece behind it. -/
theorem patch_around {exits : List Nat} {a x t : Nat} {front back : Code} {span : Option Span}
    (target : Nat) (hx : x = a + front.length) (h : ∀ y ∈ exits, x < y) :
    patch (x :: exits) target a (front ++ [⟨.jump t, span⟩] ++ back) =
      front ++ [⟨.jump target, span⟩] ++ patch exits target (x + 1) back := by
  have hfront : patch (x :: exits) target a front = front := by
    refine patch_of_outside target fun y hy => ?_
    rcases List.mem_cons.1 hy with rfl | hy
    · omega
    · have := h y hy
      omega
  have hjump : patch (x :: exits) target x [⟨.jump t, span⟩] = [⟨.jump target, span⟩] := by
    simp [patch, OpCode.withTarget]
  have hback : patch (x :: exits) target (x + 1) back = patch exits target (x + 1) back := by
    refine patch_congr target fun y hlo _ => ?_
    rw [List.mem_cons, or_iff_right (by omega)]
  rw [patch_append, patch_append, hfront, ← hx, hjump, List.length_append, ← Nat.add_assoc, ← hx,
    List.length_singleton, hback]

end Gen

/-! ## Holding -/

/-- A listing holds a piece of code at an address, with some of its jumps redirected. -/
def Holds (code : Listing) (redirect : Nat → Option Nat) (a : Nat) (c : Code) : Prop :=
  ∀ x op, listing a c x = some op → code x = some ((redirect x).elim op op.withTarget)

namespace Holds

variable {code : Listing} {redirect redirect' : Nat → Option Nat} {a : Nat} {c c₁ c₂ : Code}

theorem left (h : Holds code redirect a (c₁ ++ c₂)) : Holds code redirect a c₁ := by
  intro x op hx
  have hb := (listing_bounds hx).2
  exact h x op ((listing_append_left hb).trans hx)

theorem right (h : Holds code redirect a (c₁ ++ c₂)) :
    Holds code redirect (a + c₁.length) c₂ := by
  intro x op hx
  have hb := (listing_bounds hx).1
  exact h x op ((listing_append_right hb).trans hx)

theorem op {i : Instruction} (h : Holds code redirect a [i]) (hr : redirect a = none) :
    code a = some i.op := by
  have hi := h a i.op (listing_cons_self i [])
  rwa [hr] at hi

/-- Redirecting jumps in the piece or while it is held is the same. -/
theorem of_patch {addresses : List Nat} {target : Nat}
    (h : Holds code redirect a (Gen.patch addresses target a c))
    (hr : ∀ x, a ≤ x → x < a + c.length →
      redirect x = none ∧ redirect' x = if x ∈ addresses then some target else none) :
    Holds code redirect' a c := by
  intro x op hx
  obtain ⟨hlo, hhi⟩ := listing_bounds hx
  obtain ⟨hnone, hr'⟩ := hr x hlo hhi
  have hp := h x (if x ∈ addresses then op.withTarget target else op)
    (by rw [listing_patch, hx, Option.map_some])
  rw [hnone] at hp
  rw [hp, hr']
  by_cases hmem : x ∈ addresses <;> simp [hmem]

end Holds

/-- Whatever holds the piece `c`, from `a` up to `b`, has the property `P`, when its breaks go to one
target. -/
structure Makes (a : Nat) (c : Code) (breaks : List Nat) (b : Nat)
    (P : Listing → Option Nat → Prop) : Prop where
  stop_eq : b = a + c.length
  within : ∀ x ∈ breaks, a ≤ x ∧ x < b
  holds : ∀ {code : Listing} {target : Option Nat} {redirect : Nat → Option Nat},
    (breaks ≠ [] → target.isSome) →
    (∀ x, a ≤ x → x < b → redirect x = if x ∈ breaks then target else none) →
    Holds code redirect a c → P code target

namespace Makes

variable {a b d : Nat} {c c₁ c₂ : Code} {breaks b₁ b₂ : List Nat}
  {P Q : Listing → Option Nat → Prop}

theorem nil (a : Nat) : Makes a [] [] a fun _ _ => True :=
  ⟨rfl, by simp, fun _ _ _ => trivial⟩

theorem op (a : Nat) (op : OpCode) (span : Option Span) :
    Makes a [⟨op, span⟩] [] (a + 1) fun code _ => code a = some op := by
  refine ⟨rfl, by simp, ?_⟩
  intro code target redirect _ hr h
  exact h.op (by simpa using hr a (Nat.le_refl a) (Nat.lt_succ_self a))

/-- The jump of `break`. -/
theorem hole (a : Nat) (span : Option Span) :
    Makes a [⟨.jump 0, span⟩] [a] (a + 1) fun code target =>
      ∃ t, target = some t ∧ code a = some (.jump t) := by
  refine ⟨rfl, by simp, ?_⟩
  intro code target redirect hsome hr h
  obtain ⟨t, rfl⟩ := Option.isSome_iff_exists.1 (hsome (by simp))
  have hra : redirect a = some t := by simpa using hr a (Nat.le_refl a) (Nat.lt_succ_self a)
  have hi := h a (.jump 0) (listing_cons_self _ [])
  rw [hra] at hi
  exact ⟨t, rfl, hi⟩

theorem imp (h : Makes a c breaks b P) (hPQ : ∀ code target, P code target → Q code target) :
    Makes a c breaks b Q :=
  ⟨h.stop_eq, h.within, fun hs hr hc => hPQ _ _ (h.holds hs hr hc)⟩

/-- A piece without breaks, held as it is. -/
theorem unbroken {code : Listing} {redirect : Nat → Option Nat} (h : Makes a c [] b P)
    (hr : ∀ x, a ≤ x → x < b → redirect x = none) (hc : Holds code redirect a c) : P code none :=
  h.holds (fun hne => absurd rfl hne) (fun x hlo hhi => by simpa using hr x hlo hhi) hc

/-- Pieces that meet compose. -/
theorem append (h₁ : Makes a c₁ b₁ b P) (h₂ : Makes b c₂ b₂ d Q) :
    Makes a (c₁ ++ c₂) (b₂ ++ b₁) d fun code target => P code target ∧ Q code target := by
  have hb := h₁.stop_eq
  have hd := h₂.stop_eq
  refine ⟨by rw [List.length_append]; omega, ?_, ?_⟩
  · intro x hx
    rcases List.mem_append.1 hx with hx | hx
    · have := h₂.within x hx
      omega
    · have := h₁.within x hx
      omega
  · intro code target redirect hsome hr h
    constructor
    · refine h₁.holds (fun hne => hsome (by simp [hne])) ?_ h.left
      intro x hlo hhi
      -- a break of the second piece does not lie in the first one
      have hnot : x ∉ b₂ := fun hx => by
        have := (h₂.within x hx).1
        omega
      rw [hr x hlo (by omega)]
      simp [hnot]
    · have hright := h.right
      rw [← hb] at hright
      refine h₂.holds (fun hne => hsome (by simp [hne])) ?_ hright
      intro x hlo hhi
      have hnot : x ∉ b₁ := fun hx => by
        have := (h₁.within x hx).2
        omega
      rw [hr x (by omega) hhi]
      simp [hnot]

/-- Redirecting the breaks of a piece. -/
theorem patch (h : Makes a c breaks b P) (exit : Nat) :
    Makes a (Gen.patch breaks exit a c) [] b fun code _ => P code (some exit) := by
  have hb := h.stop_eq
  refine ⟨by rw [length_patch, hb], by simp, ?_⟩
  intro code target redirect _ hr hc
  have hmoved : Holds code (fun x => if x ∈ breaks then some exit else none) a c := by
    refine hc.of_patch fun x hlo hhi => ?_
    exact ⟨by simpa using hr x hlo (by omega), rfl⟩
  exact h.holds (fun _ => rfl) (fun x _ _ => rfl) hmoved

end Makes

end LuaMachine
