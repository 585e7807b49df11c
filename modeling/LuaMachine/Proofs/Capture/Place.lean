import LuaMachine.Proofs.Semantics.Placement

/-!
# What names stand for in code

A `Place` says what the names of a function stand for at an address: which of its declarations are
visible there, and which variables of other functions it has captured. A scoping gives a place to
every address. An instruction suits its place if its symbols are what their names stand for, and
control passes on to places where the same declarations are visible, without those of blocks that are
left and with those that the instruction makes.

`Scopes` is for places what `Fits` is for depths: it says of a piece of code that its addresses can be
given places, between the declarations that are visible before it and those that are visible behind
it. As in `Forms`, the functions that lie in a piece have places of their own. Something may be known of
the places of all instructions (`K`), from which the compiler was when it made them.

Main statements: pieces compose (`Scopes.append`), exits to the ends of a piece are closed
(`Scopes.close`), patching a piece fills its holes (`Scopes.patch`), blocks are left
(`Scopes.mono`), and a function and the closure made of it are a piece (`Scopes.function`).
-/

namespace LuaMachine

/-- What the names of a function are about: its captured variables and its slots, by name. -/
structure Outline where
  captured : List String
  slots : List String
deriving DecidableEq, Repr

/-- What the names of a function stand for at an address: its outline, and its visible declarations. -/
structure Place where
  outline : Outline
  visible : Visible
deriving DecidableEq, Repr

/-- The captured variables of the function, by name. -/
def Place.captured (p : Place) : List String := p.outline.captured

/-- The names of the slots of the function. -/
def Place.slots (p : Place) : List String := p.outline.slots

/-- A local or a captured variable. -/
def Symbol.isVariable : Symbol → Bool
  | .local .. | .upvalue .. => true
  | .global .. | .defaultEnv => false

namespace Place

/-- A symbol is what its name stands for: the latest visible declaration, and without one the captured
variable. -/
def Names (p : Place) : Symbol → Prop
  | .local name slot => p.visible.slot? name = some slot
  | .upvalue name i => p.visible.slot? name = none ∧ p.captured[i]? = some name
  | .global _ env => p.Names env
  | .defaultEnv => True

/-- The same function with fewer blocks open, or with fewer declarations in them. -/
def Within (q p : Place) : Prop := q.outline = p.outline ∧ q.visible <:+ p.visible

variable {p q r : Place}

theorem Within.refl (p : Place) : p.Within p := ⟨rfl, List.suffix_refl _⟩

theorem Within.trans (h₁ : p.Within q) (h₂ : q.Within r) : p.Within r :=
  ⟨h₁.1.trans h₂.1, h₁.2.trans h₂.2⟩

theorem within_mk {U : Outline} {Γ Δ : Visible} (h : Γ <:+ Δ) :
    (Place.mk U Γ).Within ⟨U, Δ⟩ := ⟨rfl, h⟩

/-- More captures do not change what the earlier symbols are. -/
theorem Names.mono {U U' : Outline} {Γ : Visible}
    (h : U.captured <+: U'.captured) : ∀ {s : Symbol}, (Place.mk U Γ).Names s →
      (Place.mk U' Γ).Names s
  | .local .., hs => hs
  | .upvalue _ i, ⟨hnone, hi⟩ => by
    obtain ⟨hlt, heq⟩ := List.getElem?_eq_some_iff.1 hi
    exact ⟨hnone, heq ▸ List.prefix_iff_getElem?.1 h i hlt⟩
  | .global _ env, hs => Names.mono (s := env) h hs
  | .defaultEnv, _ => trivial

end Place

namespace OpCode

/-- The slots that an operation binds to new variables. -/
def bound : OpCode → List Nat
  | .local slot _ | forVar slot => [slot]
  | args params _ => List.range params
  | _ => []

/-- Where control may pass to from an operation at an address. -/
def targets (x : Nat) (op : OpCode) : List Nat := (op.next x 0).map (·.1)

/-- The operation neither begins a function nor makes a closure. -/
def isOrdinary : OpCode → Bool
  | beginFn _ | closure .. => false
  | _ => true

/-- The outline of a function behind an operation. A function begins by naming its slots. -/
def announces (U : Outline) : OpCode → Outline
  | beginFn slots => { U with slots }
  | _ => U

/-- Symbols are what their names stand for, functions begin without declarations, and a declaration
takes a slot that no visible one has. -/
def Suits (p : Place) : OpCode → Prop
  | load s | store s _ => p.Names s
  | closure _ captures => ∀ s ∈ captures, s.isVariable = true ∧ p.Names s
  | header .. => p.visible = [] ∧ p.slots = []
  | beginFn _ | args .. => p.visible = []
  | .local slot _ | forVar slot => ∀ d ∈ p.visible, d.2 ≠ slot
  | _ => True

/-- The place that control passes on to: what an operation declares may become visible there, and what
was visible may be so no more. -/
def Passes (op : OpCode) (p q : Place) : Prop :=
  q.outline = op.announces p.outline ∧
    ∃ added : Visible, added.map (·.2) = op.bound.reverse ∧ q.visible <:+ added ++ p.visible

variable {op : OpCode} {p q r : Place}

theorem Passes.within (h : op.Passes p q) (hr : r.Within q) : op.Passes p r := by
  obtain ⟨hc, added, hadded, hv⟩ := h
  exact ⟨hr.1.trans hc, added, hadded, hr.2.trans hv⟩

theorem ne_closure (h : op.isOrdinary = true) (a : Nat) (captures : List Symbol) :
    op ≠ .closure a captures := by
  rintro rfl
  cases h

theorem announces_of_isOrdinary (h : op.isOrdinary = true) (U : Outline) : op.announces U = U := by
  cases op with
  | beginFn slots => cases h
  | _ => rfl

theorem passes_of_within (hop : op.bound = []) (hsame : op.announces p.outline = p.outline)
    (h : q.Within p) : op.Passes p q :=
  ⟨h.1.trans hsame.symm, [], by rw [hop]; rfl, h.2⟩

/-- The operation declares something. -/
theorem passes_declared {U : Outline} {Γ added : Visible} (hsame : op.announces U = U)
    (h : added.map (·.2) = op.bound.reverse) : op.Passes ⟨U, Γ⟩ ⟨U, added ++ Γ⟩ :=
  ⟨hsame.symm, added, h, List.suffix_refl _⟩

theorem captured_announces (op : OpCode) (U : Outline) : (op.announces U).captured = U.captured := by
  cases op <;> rfl

theorem Passes.captured (h : op.Passes p q) : q.captured = p.captured :=
  (congrArg Outline.captured h.1).trans (captured_announces op _)

/-- Slots are named where a function begins, and nowhere else. -/
theorem Passes.slots (h : op.Passes p q) (hsame : ∀ names, op ≠ .beginFn names) : q.slots = p.slots := by
  refine congrArg Outline.slots (h.1.trans ?_)
  cases op with
  | beginFn names => exact absurd rfl (hsame names)
  | _ => rfl

theorem exists_not_mem_bound (op : OpCode) : ∃ slot, slot ∉ op.bound := by
  cases op with
  | args params varargs => exact ⟨params, List.not_mem_range_self⟩
  | «local» slot index => exact ⟨slot + 1, by simp [bound]⟩
  | forVar slot => exact ⟨slot + 1, by simp [bound]⟩
  | _ => exact ⟨0, List.not_mem_nil⟩

end OpCode

/-- Places for all addresses of a piece of code of a function with the outline `U`, which has the outline
`V` where the piece begins. -/
structure Scoped (K : Nat → Place → Prop) (V U : Outline) (start : Nat) (c : Code) (stop : Nat)
    (Γ Δ : Visible) (holes exits : List (Nat × Visible)) (label : Nat → Place) : Prop where
  stop_eq : stop = start + c.length
  enters : (label start).Within ⟨V, Γ⟩
  leaves : label stop = ⟨U, Δ⟩
  flow : ∀ {x op}, listing start c x = some op → (∀ Λ, (x, Λ) ∉ holes) →
    op.Suits (label x) ∧ ∀ y ∈ op.targets x,
      (start ≤ y ∧ y ≤ stop ∧ op.Passes (label x) (label y)) ∨
        ∃ Λ, (y, Λ) ∈ exits ∧ op.Passes (label x) ⟨U, Λ⟩
  holes : ∀ {x Λ}, (x, Λ) ∈ holes →
    (∃ t, listing start c x = some (.jump t)) ∧ (Place.mk U Λ).Within (label x)
  closures : ∀ {x a captures}, listing start c x = some (.closure a captures) →
    start ≤ a ∧ a < stop ∧ (label a).captured = captures.map Symbol.name
  known : ∀ {x op}, listing start c x = some op → K x (label x)

/-- A piece of code in a function with the outline `U`, which begins where the declarations `Γ` are
visible and the outline is `V`, and ends where the declarations `Δ` are visible; `holes` are jumps to be
filled in, and `exits` lead out of it. -/
def Scopes (K : Nat → Place → Prop) (V U : Outline) (start : Nat) (c : Code) (stop : Nat)
    (Γ Δ : Visible) (holes exits : List (Nat × Visible)) : Prop :=
  ∃ label, Scoped K V U start c stop Γ Δ holes exits label

namespace Scopes

variable {K : Nat → Place → Prop} {V U : Outline} {start mid stop : Nat} {c c₁ c₂ : Code}
  {Γ Δ Γ' Δ' Θ : Visible}
  {holes holes' holes₁ holes₂ exits exits' exits₁ exits₂ : List (Nat × Visible)}

theorem stop_eq (h : Scopes K V U start c stop Γ Δ holes exits) : stop = start + c.length := by
  obtain ⟨label, h⟩ := h
  exact h.stop_eq

theorem nil (K : Nat → Place → Prop) (U : Outline) (start : Nat) (Γ : Visible) :
    Scopes K U U start [] start Γ Γ [] [] := by
  refine ⟨fun _ => ⟨U, Γ⟩, rfl, .refl _, rfl, ?_, ?_, ?_, ?_⟩
  · intro x op hx
    rw [listing_nil] at hx
    cases hx
  · intro x Λ hx
    cases hx
  · intro x a captures hx
    rw [listing_nil] at hx
    cases hx
  · intro x op hx
    rw [listing_nil] at hx
    cases hx

/-- One operation; where control passes to is behind it, or an exit. -/
theorem op {op : OpCode} {span : Option Span} (hordinary : op.isOrdinary = true)
    (hknown : K start ⟨U, Γ⟩) (hsuits : op.Suits ⟨U, Γ⟩)
    (htargets : ∀ y ∈ op.targets start, y = start + 1 ∧ op.Passes ⟨U, Γ⟩ ⟨U, Δ⟩ ∨
      ∃ Λ, (y, Λ) ∈ exits ∧ op.Passes ⟨U, Γ⟩ ⟨U, Λ⟩) :
    Scopes K U U start [⟨op, span⟩] (start + 1) Γ Δ [] exits := by
  refine ⟨fun x => if x = start then ⟨U, Γ⟩ else ⟨U, Δ⟩, rfl, ?_, if_neg (by omega), ?_, ?_, ?_, ?_⟩
  · rw [if_pos rfl]
    exact .refl _
  · intro x o hx _
    obtain ⟨rfl, rfl⟩ := listing_singleton _ hx
    simp only [if_true]
    refine ⟨hsuits, fun y hy => ?_⟩
    rcases htargets y hy with ⟨rfl, hpasses⟩ | hout
    · exact .inl ⟨by omega, by omega, by rwa [if_neg (by omega)]⟩
    · exact .inr hout
  · intro x Λ hx
    cases hx
  · intro x a captures hx
    exact absurd (listing_singleton _ hx).2.symm (OpCode.ne_closure hordinary a captures)
  · intro x o hx
    obtain ⟨rfl, -⟩ := listing_singleton _ hx
    rwa [if_pos rfl]

/-- A jump to be filled in later; what lies behind it may have any declarations. -/
theorem hole {Γ : Visible} (hknown : K start ⟨U, Γ⟩) (Δ : Visible) (span : Option Span) :
    Scopes K U U start [⟨.jump 0, span⟩] (start + 1) Γ Δ [(start, Γ)] [] := by
  refine ⟨fun x => if x = start then ⟨U, Γ⟩ else ⟨U, Δ⟩, rfl, ?_, if_neg (by omega), ?_, ?_, ?_, ?_⟩
  · rw [if_pos rfl]
    exact .refl _
  · intro x o hx hnot
    obtain ⟨rfl, -⟩ := listing_singleton _ hx
    exact absurd (List.mem_singleton.2 rfl) (hnot Γ)
  · intro x Λ hx
    cases List.mem_singleton.1 hx
    refine ⟨⟨0, listing_cons_self _ _⟩, ?_⟩
    rw [if_pos rfl]
    exact .refl _
  · intro x a captures hx
    obtain ⟨-, hop⟩ := listing_singleton _ hx
    cases hop
  · intro x o hx
    obtain ⟨rfl, -⟩ := listing_singleton _ hx
    rwa [if_pos rfl]

/-! ## Weakening and closing -/

/-- A piece may begin where more is visible. Behind it and at its holes less may be visible, as when a
block is left. -/
theorem mono (h : Scopes K V U start c stop Γ Δ holes exits) (hΓ : Γ <:+ Γ') (hΔ : Δ' <:+ Δ)
    (hholes : ∀ x Λ, (x, Λ) ∈ holes' → ∃ Λ', (x, Λ') ∈ holes ∧ Λ <:+ Λ')
    (hsame : ∀ x, (∀ Λ, (x, Λ) ∉ holes') → ∀ Λ, (x, Λ) ∉ holes) :
    Scopes K V U start c stop Γ' Δ' holes' exits := by
  obtain ⟨label, h⟩ := h
  have hlt : ∀ {x op}, listing start c x = some op → x ≠ stop := by
    intro x op hx
    have hbounds := listing_bounds hx
    have hstop := h.stop_eq
    omega
  have hwithin : ∀ y, (if y = stop then ⟨U, Δ'⟩ else label y : Place).Within (label y) := by
    intro y
    split
    · next heq =>
      rw [heq, h.leaves]
      exact Place.within_mk hΔ
    · exact .refl _
  refine ⟨fun y => if y = stop then ⟨U, Δ'⟩ else label y, h.stop_eq, ?_, if_pos rfl, ?_, ?_, ?_, ?_⟩
  · exact ((hwithin start).trans h.enters).trans (Place.within_mk hΓ)
  · intro x op hx hnot
    obtain ⟨hsuits, hflow⟩ := h.flow hx (hsame x hnot)
    simp only [if_neg (hlt hx)]
    refine ⟨hsuits, fun y hy => ?_⟩
    rcases hflow y hy with ⟨hy₁, hy₂, hpasses⟩ | hout
    · exact .inl ⟨hy₁, hy₂, hpasses.within (hwithin y)⟩
    · exact .inr hout
  · intro x Λ hx
    obtain ⟨Λ', hx', hΛ⟩ := hholes x Λ hx
    obtain ⟨⟨t, ht⟩, hin⟩ := h.holes hx'
    refine ⟨⟨t, ht⟩, ?_⟩
    simp only [if_neg (hlt ht)]
    exact (Place.within_mk hΛ).trans hin
  · intro x a captures hx
    obtain ⟨ha, hastop, hlabel⟩ := h.closures hx
    refine ⟨ha, hastop, ?_⟩
    simp only [if_neg (Nat.ne_of_lt hastop)]
    exact hlabel
  · intro x op hx
    simp only [if_neg (hlt hx)]
    exact h.known hx

/-- Exits that lie at one of the two ends of the piece, where no more is visible, are no exits. -/
theorem close (h : Scopes K U U start c stop Γ Δ holes exits)
    (hex : ∀ y Λ, (y, Λ) ∈ exits → y = start ∧ Γ <:+ Λ ∨ y = stop ∧ Δ <:+ Λ ∨ (y, Λ) ∈ exits') :
    Scopes K U U start c stop Γ Δ holes exits' := by
  obtain ⟨label, h⟩ := h
  have hle : start ≤ stop := h.stop_eq ▸ Nat.le_add_right _ _
  refine ⟨label, h.stop_eq, h.enters, h.leaves, ?_, h.holes, h.closures, h.known⟩
  intro x op hx hnot
  obtain ⟨hsuits, hflow⟩ := h.flow hx hnot
  refine ⟨hsuits, fun y hy => ?_⟩
  rcases hflow y hy with hin | ⟨Λ, hout, hpasses⟩
  · exact .inl hin
  · rcases hex y Λ hout with ⟨rfl, hΛ⟩ | ⟨rfl, hΛ⟩ | hmem
    · exact .inl ⟨Nat.le_refl _, hle, hpasses.within (h.enters.trans (Place.within_mk hΛ))⟩
    · exact .inl ⟨hle, Nat.le_refl _, hpasses.within (h.leaves ▸ Place.within_mk hΛ)⟩
    · exact .inr ⟨Λ, hmem, hpasses⟩

/-! ## Composition -/

/-- Pieces that meet compose; the second one may begin with less visible than the first one leaves. -/
theorem append (h₁ : Scopes K V U start c₁ mid Γ Δ holes₁ exits₁)
    (h₂ : Scopes K U U mid c₂ stop Γ' Δ' holes₂ exits₂) (hmeet : Γ' <:+ Δ) :
    Scopes K V U start (c₁ ++ c₂) stop Γ Δ' (holes₁ ++ holes₂) (exits₁ ++ exits₂) := by
  obtain ⟨label₁, h₁⟩ := h₁
  obtain ⟨label₂, h₂⟩ := h₂
  have hmid := h₁.stop_eq
  have hstop := h₂.stop_eq
  have hright : ∀ y, mid ≤ y → (if y < mid then label₁ y else label₂ y) = label₂ y :=
    fun y hy => if_neg (by omega)
  -- where the pieces meet, the second one has no more visible than the first one
  have hleft : ∀ y, y ≤ mid → (if y < mid then label₁ y else label₂ y : Place).Within (label₁ y) := by
    intro y hy
    split
    · exact .refl _
    · obtain rfl : y = mid := by omega
      rw [h₁.leaves]
      exact h₂.enters.trans (Place.within_mk hmeet)
  have hlt : ∀ {x op}, listing start c₁ x = some op →
      (if x < mid then label₁ x else label₂ x) = label₁ x := by
    intro x op hx
    have hbounds := listing_bounds hx
    exact if_pos (by omega)
  refine ⟨fun x => if x < mid then label₁ x else label₂ x, ?_, ?_, ?_, ?_, ?_, ?_, ?_⟩
  · rw [List.length_append]
    omega
  · exact (hleft start (by omega)).trans h₁.enters
  · rw [hright stop (by omega)]
    exact h₂.leaves
  · intro x op hx hnot
    by_cases hxmid : x < mid
    · rw [listing_append_left (by omega)] at hx
      obtain ⟨hsuits, hflow⟩ := h₁.flow hx fun Λ hΛ => hnot Λ (List.mem_append_left _ hΛ)
      simp only [if_pos hxmid]
      refine ⟨hsuits, fun y hy => ?_⟩
      rcases hflow y hy with ⟨hy₁, hy₂, hpasses⟩ | ⟨Λ, hout, hpasses⟩
      · exact .inl ⟨hy₁, by omega, hpasses.within (hleft y hy₂)⟩
      · exact .inr ⟨Λ, List.mem_append_left _ hout, hpasses⟩
    · rw [listing_append_right (by omega), ← hmid] at hx
      obtain ⟨hsuits, hflow⟩ := h₂.flow hx fun Λ hΛ => hnot Λ (List.mem_append_right _ hΛ)
      simp only [if_neg hxmid]
      refine ⟨hsuits, fun y hy => ?_⟩
      rcases hflow y hy with ⟨hy₁, hy₂, hpasses⟩ | ⟨Λ, hout, hpasses⟩
      · exact .inl ⟨by omega, hy₂, by rwa [hright y hy₁]⟩
      · exact .inr ⟨Λ, List.mem_append_right _ hout, hpasses⟩
  · intro x Λ hx
    rcases List.mem_append.1 hx with hx | hx
    · obtain ⟨⟨t, ht⟩, hin⟩ := h₁.holes hx
      have hbounds := listing_bounds ht
      exact ⟨⟨t, (listing_append_left (by omega)).trans ht⟩, by rwa [hlt ht]⟩
    · obtain ⟨⟨t, ht⟩, hin⟩ := h₂.holes hx
      have hbounds := listing_bounds ht
      refine ⟨⟨t, ?_⟩, by rwa [hright x hbounds.1]⟩
      rw [listing_append_right (by omega), ← hmid]
      exact ht
  · intro x a captures hx
    by_cases hxmid : x < mid
    · rw [listing_append_left (by omega)] at hx
      obtain ⟨ha, hamid, hlabel⟩ := h₁.closures hx
      exact ⟨ha, by omega, by rwa [if_pos hamid]⟩
    · rw [listing_append_right (by omega), ← hmid] at hx
      obtain ⟨ha, hastop, hlabel⟩ := h₂.closures hx
      exact ⟨by omega, hastop, by rwa [hright a ha]⟩
  · intro x op hx
    by_cases hxmid : x < mid
    · rw [listing_append_left (by omega)] at hx
      rw [if_pos hxmid]
      exact h₁.known hx
    · rw [listing_append_right (by omega), ← hmid] at hx
      rw [if_neg hxmid]
      exact h₂.known hx

/-- Redirecting holes to the end of their piece fills them; those at other addresses are left. -/
theorem patch (h : Scopes K V U start c stop Γ Δ holes exits) {addresses : List Nat}
    (hA : ∀ a ∈ addresses, (a, Δ) ∈ holes) (hsub : holes' ⊆ holes)
    (hrest : ∀ p ∈ holes, p.1 ∉ addresses → p ∈ holes') :
    Scopes K V U start (Gen.patch addresses stop start c) stop Γ Δ holes' exits := by
  obtain ⟨label, h⟩ := h
  have hle : start ≤ stop := h.stop_eq ▸ Nat.le_add_right _ _
  refine ⟨label, h.stop_eq.trans (by rw [length_patch]), h.enters, h.leaves, ?_, ?_, ?_, ?_⟩
  · intro x op hx hnot
    rw [listing_patch] at hx
    obtain ⟨op', hop', rfl⟩ := Option.map_eq_some_iff.1 hx
    by_cases hmem : x ∈ addresses
    · -- a hole is a jump, and it has become one to the end
      obtain ⟨⟨t, ht⟩, hin⟩ := h.holes (hA x hmem)
      rw [ht] at hop'
      cases hop'
      rw [if_pos hmem]
      refine ⟨trivial, fun y hy => ?_⟩
      obtain rfl := List.mem_singleton.1 hy
      exact .inl ⟨hle, Nat.le_refl _, OpCode.passes_of_within rfl rfl (h.leaves ▸ hin)⟩
    · rw [if_neg hmem]
      exact h.flow hop' fun Λ hΛ => hnot Λ (hrest _ hΛ hmem)
  · intro x Λ hx
    obtain ⟨⟨t, ht⟩, hin⟩ := h.holes (hsub hx)
    refine ⟨?_, hin⟩
    by_cases hmem : x ∈ addresses
    · exact ⟨stop, by rw [listing_patch, ht, Option.map_some, if_pos hmem, OpCode.withTarget]⟩
    · exact ⟨t, by rw [listing_patch, ht, Option.map_some, if_neg hmem]⟩
  · intro x a captures hx
    rw [listing_patch] at hx
    obtain ⟨op', hop', heq⟩ := Option.map_eq_some_iff.1 hx
    have hclosure : op' = .closure a captures := by
      split at heq
      · cases op' <;> simp_all [OpCode.withTarget]
      · exact heq
    exact h.closures (hclosure ▸ hop')
  · intro x op hx
    rw [listing_patch] at hx
    obtain ⟨op', hop', -⟩ := Option.map_eq_some_iff.1 hx
    exact h.known hop'

/-! ## Functions -/

/-- A function begins, by naming its slots. -/
theorem beginning (U : Outline) {slots : List String} {span₀ span₁ : Option Span} (name : String)
    (kind : HeaderKind) (length : Nat) (hheader : K start ⟨⟨U.captured, []⟩, []⟩)
    (hbegin : K (start + 1) ⟨⟨U.captured, []⟩, []⟩) (hslots : U.slots = slots) :
    Scopes K ⟨U.captured, []⟩ U start ([⟨.header name kind length, span₀⟩] ++ [⟨.beginFn slots, span₁⟩])
      (start + 2) [] [] [] [] := by
  have hcases : ∀ {x op}, listing start
      ([⟨.header name kind length, span₀⟩] ++ [⟨.beginFn slots, span₁⟩]) x = some op →
      x = start ∧ op = .header name kind length ∨ x = start + 1 ∧ op = .beginFn slots := by
    intro x op hx
    by_cases hstart : x = start
    · subst hstart
      rw [List.singleton_append, listing_cons_self] at hx
      exact .inl ⟨rfl, (Option.some.inj hx).symm⟩
    · rw [List.singleton_append, listing_cons_of_ne hstart] at hx
      exact .inr (listing_singleton _ hx)
  have hbefore : ∀ x, x ≠ start + 2 →
      (if x = start + 2 then ⟨U, []⟩ else ⟨⟨U.captured, []⟩, []⟩ : Place) = ⟨⟨U.captured, []⟩, []⟩ :=
    fun x hx => if_neg hx
  refine ⟨fun x => if x = start + 2 then ⟨U, []⟩ else ⟨⟨U.captured, []⟩, []⟩, rfl, ?_, if_pos rfl, ?_,
    ?_, ?_, ?_⟩
  · rw [hbefore start (by omega)]
    exact .refl _
  · intro x op hx _
    rcases hcases hx with ⟨rfl, rfl⟩ | ⟨rfl, rfl⟩
    · rw [hbefore x (by omega)]
      refine ⟨⟨rfl, rfl⟩, fun y hy => .inl ?_⟩
      obtain rfl : y = x + 1 := List.mem_singleton.1 hy
      rw [hbefore (x + 1) (by omega)]
      exact ⟨by omega, by omega, OpCode.passes_of_within rfl rfl (.refl _)⟩
    · rw [hbefore (start + 1) (by omega)]
      refine ⟨rfl, fun y hy => .inl ?_⟩
      obtain rfl : y = start + 1 + 1 := List.mem_singleton.1 hy
      rw [if_pos rfl]
      exact ⟨by omega, by omega, hslots ▸ rfl, [], rfl, List.suffix_refl _⟩
  · intro x Λ hx
    cases hx
  · intro x a captures hx
    rcases hcases hx with ⟨-, hop⟩ | ⟨-, hop⟩ <;> cases hop
  · intro x op hx
    rcases hcases hx with ⟨rfl, -⟩ | ⟨rfl, -⟩
    · rw [hbefore x (by omega)]
      exact hheader
    · rw [hbefore (start + 1) (by omega)]
      exact hbegin

/-- The code of a function, which control passes over, and the closure made of it. What it captures
is what the names stand for where it is made. -/
theorem function {captures : List Symbol} {slots : List String} {span₀ span₁ span₂ : Option Span}
    (hbody : Scopes K ⟨captures.map Symbol.name, []⟩ ⟨captures.map Symbol.name, slots⟩ (start + 1) c stop
      [] Δ [] [])
    (hcaptures : ∀ s ∈ captures, s.isVariable = true ∧ (Place.mk U Γ).Names s) (hne : c ≠ [])
    (hjump : K start ⟨U, Γ⟩) (hret : K stop ⟨⟨captures.map Symbol.name, slots⟩, Δ⟩)
    (hclosure : K (stop + 1) ⟨U, Γ⟩) :
    Scopes K U U start ([⟨.jump (stop + 1), span₀⟩] ++ c ++ [⟨.ret 0, span₁⟩] ++
      [⟨.closure (start + 1) captures, span₂⟩]) (stop + 2) Γ Γ [] [] := by
  obtain ⟨label, h⟩ := hbody
  have hstop := h.stop_eq
  have hpos : 0 < c.length := List.length_pos_iff.2 hne
  let label' : Nat → Place := fun x => if start < x ∧ x ≤ stop then label x else ⟨U, Γ⟩
  have hinside : ∀ x, start < x → x ≤ stop → label' x = label x := fun x h₁ h₂ => if_pos ⟨h₁, h₂⟩
  have houtside : ∀ x, (x ≤ start ∨ stop < x) → label' x = ⟨U, Γ⟩ := fun x hx => if_neg (by omega)
  have hstart : (label (start + 1)).captured = captures.map Symbol.name :=
    congrArg Outline.captured h.enters.1
  -- the instructions of the piece, one part after the other
  have hcases : ∀ {x op}, listing start ([⟨.jump (stop + 1), span₀⟩] ++ c ++ [⟨.ret 0, span₁⟩] ++
      [⟨.closure (start + 1) captures, span₂⟩]) x = some op →
      x = start ∧ op = .jump (stop + 1) ∨ listing (start + 1) c x = some op ∨
        x = stop ∧ op = .ret 0 ∨ x = stop + 1 ∧ op = .closure (start + 1) captures := by
    intro x op hx
    have hbounds := listing_bounds hx
    simp only [List.length_append, List.length_cons, List.length_nil] at hbounds
    by_cases hlast : x = stop + 1
    · rw [listing_append_right (by simp; omega)] at hx
      obtain ⟨-, rfl⟩ := listing_singleton _ hx
      exact .inr (.inr (.inr ⟨hlast, rfl⟩))
    · rw [listing_append_left (by simp; omega)] at hx
      by_cases hreturn : x = stop
      · rw [listing_append_right (by simp; omega)] at hx
        obtain ⟨-, rfl⟩ := listing_singleton _ hx
        exact .inr (.inr (.inl ⟨hreturn, rfl⟩))
      · rw [listing_append_left (by simp; omega)] at hx
        by_cases hskip : x = start
        · subst hskip
          rw [List.singleton_append, listing_cons_self] at hx
          exact .inl ⟨rfl, (Option.some.inj hx).symm⟩
        · rw [List.singleton_append, listing_cons_of_ne hskip] at hx
          exact .inr (.inl hx)
  refine ⟨label', ?_, ?_, houtside _ (by omega), ?_, ?_, ?_, ?_⟩
  · simp only [List.length_append, List.length_cons, List.length_nil]
    omega
  · rw [houtside start (by omega)]
    exact .refl _
  · intro x op hx _
    rcases hcases hx with ⟨rfl, rfl⟩ | hx | ⟨rfl, rfl⟩ | ⟨rfl, rfl⟩
    · refine ⟨trivial, fun y hy => .inl ?_⟩
      obtain rfl : y = stop + 1 := List.mem_singleton.1 hy
      rw [houtside x (by omega), houtside (stop + 1) (by omega)]
      exact ⟨by omega, by omega, OpCode.passes_of_within rfl rfl (.refl _)⟩
    · obtain ⟨hsuits, hflow⟩ := h.flow hx fun Λ => List.not_mem_nil
      have hbounds := listing_bounds hx
      rw [hinside x (by omega) (by omega)]
      refine ⟨hsuits, fun y hy => .inl ?_⟩
      rcases hflow y hy with ⟨hy₁, hy₂, hpasses⟩ | ⟨Λ, hout, -⟩
      · exact ⟨by omega, by omega, by rwa [hinside y (by omega) hy₂]⟩
      · cases hout
    · exact ⟨trivial, fun y hy => by cases hy⟩
    · rw [houtside (stop + 1) (by omega)]
      refine ⟨hcaptures, fun y hy => .inl ?_⟩
      obtain rfl : y = stop + 1 + 1 := List.mem_singleton.1 hy
      rw [houtside (stop + 1 + 1) (by omega)]
      exact ⟨by omega, by omega, OpCode.passes_of_within rfl rfl (.refl _)⟩
  · intro x Λ hx
    cases hx
  · intro x a captures' hx
    rcases hcases hx with ⟨-, hop⟩ | hx | ⟨-, hop⟩ | ⟨-, hop⟩
    · cases hop
    · obtain ⟨ha, hastop, hlabel⟩ := h.closures hx
      exact ⟨by omega, by omega, by rwa [hinside a (by omega) (by omega)]⟩
    · cases hop
    · cases hop
      refine ⟨by omega, by omega, ?_⟩
      rw [hinside (start + 1) (by omega) (by omega)]
      exact hstart
  · intro x op hx
    rcases hcases hx with ⟨rfl, -⟩ | hx | ⟨rfl, -⟩ | ⟨rfl, -⟩
    · rwa [houtside x (by omega)]
    · have hbounds := listing_bounds hx
      rw [hinside x (by omega) (by omega)]
      exact h.known hx
    · rwa [hinside x (by omega) (by omega), h.leaves]
    · rwa [houtside (stop + 1) (by omega)]

end Scopes

end LuaMachine
