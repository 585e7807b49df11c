import LuaMachine.Proofs.Code.Compilation
import LuaMachine.Proofs.Code.Pieces

/-!
# Shapes of the value stack

A verifier that knows the depth of the stack knows nothing about the values on it. What matters about
a value here is whether it may be a tuple: the values that control a loop must not be. The shape of a
stack says of each value above the base of a frame, from the top down, whether it is known to be a
single one. The instructions that begin a loop make its control values single, and
`OpCode.Admits` says where the other instructions of loops expect to find them.

`Forms` is the counterpart of `Fits` for shapes. Here each address of a piece has one shape, also
those of the functions that lie in it: the shape at a header is empty. Pieces compose
(`Forms.append`), exits to the ends of a piece are closed (`Forms.close`), and patching a piece fills
its holes (`Forms.patch`).

`Molds s c i o holes exits s'` says what the generator promises of a piece `c` made between the sites
`s` and `s'`: on top of a stack of any shape it takes values of the shape `i` to values of the shape
`o`. It is the counterpart of `Compiles` for shapes, and says nothing about scopes. Pieces without
loose ends are made by `Turns`, and steps of the generator that make such pieces are `Forming`. There
is one lemma for each kind of expression, which assumes the promise for the parts.
-/

namespace LuaMachine

/-- What is known of the values above the base of a frame, from the top down: whether each is a
single value. -/
abbrev Shape := List Bool

/-- The shape of several values that may be tuples. -/
abbrev Shape.any (n : Nat) : Shape := List.replicate n false

namespace OpCode

/-- The shape that an operation leaves when control goes on to the next instruction. -/
def shape (σ : Shape) : OpCode → Shape
  | literal _ | load _ | closure .. | varargs | newTable | copy _ => false :: σ
  | method _ => false :: false :: σ.drop 1
  | pop n => σ.drop n
  | makeTuple n => false :: σ.drop n
  | call n => false :: σ.drop (n + 1)
  | binary _ | index => false :: σ.drop 2
  | not | neg | len | scalar => false :: σ.drop 1
  | tableAppend .. | jumpIfFalse _ | jumpFalseOrPop _ | jumpTrueOrPop _ => σ.drop 1
  | tableSet | indexSet _ => σ.drop 2
  | forPrep => true :: true :: true :: σ.drop 3
  | iterPrep => true :: true :: true :: σ.drop 1
  | _ => σ

/-- Where control may pass to from an operation at an address, and the shape there. -/
def passes (x : Nat) (σ : Shape) (op : OpCode) : List (Nat × Shape) :=
  match op with
  | ret _ => []
  | jump t => [(t, σ)]
  | jumpIfFalse t | iterCheck t => [(t, σ.drop 1), (x + 1, op.shape σ)]
  | jumpFalseOrPop t | jumpTrueOrPop t | forLoop t => [(t, σ), (x + 1, op.shape σ)]
  | _ => [(x + 1, op.shape σ)]

/-- The operands of an operation are there, and what it takes for a control value of a loop is a
single one. Functions begin with nothing on the stack, and no literal is a tuple. -/
def Admits (σ : Shape) (op : OpCode) : Prop :=
  op.needs ≤ σ.length ∧ match op with
    | header .. => σ = []
    | literal v => v.isTuple = false
    | forLoop _ | forStep | forVar _ => ∃ π, σ = true :: true :: true :: π
    | iterCheck _ => ∃ b π, σ = b :: true :: true :: true :: π
    | copy n => σ[n]? = some true
    | _ => True

end OpCode

/-- Shapes for all addresses of a piece of code, which agree with what its operations do. -/
structure Shaped (start : Nat) (c : Code) (stop : Nat) (σ τ : Shape) (holes exits : List (Nat × Shape))
    (shape : Nat → Shape) : Prop where
  stop_eq : stop = start + c.length
  enters : shape start = σ
  leaves : shape stop = τ
  flow : ∀ {x op}, listing start c x = some op → (∀ π, (x, π) ∉ holes) →
    op.Admits (shape x) ∧ ∀ y π, (y, π) ∈ op.passes x (shape x) →
      (start ≤ y ∧ y ≤ stop ∧ shape y = π) ∨ (y, π) ∈ exits
  holes : ∀ {x π}, (x, π) ∈ holes → (∃ t, listing start c x = some (.jump t)) ∧ shape x = π

/-- A piece of code that takes the shape `σ` to the shape `τ`; `holes` are jumps to be filled in, and
`exits` lead out of it. -/
def Forms (start : Nat) (c : Code) (stop : Nat) (σ τ : Shape) (holes exits : List (Nat × Shape)) :
    Prop :=
  ∃ shape, Shaped start c stop σ τ holes exits shape

namespace Forms

variable {start mid stop : Nat} {c c₁ c₂ : Code} {σ π τ : Shape}
  {holes holes₁ holes₂ exits exits₁ exits₂ : List (Nat × Shape)}

theorem stop_eq (h : Forms start c stop σ τ holes exits) : stop = start + c.length := by
  obtain ⟨shape, h⟩ := h
  exact h.stop_eq

theorem nil (start : Nat) (σ : Shape) : Forms start [] start σ σ [] [] := by
  refine ⟨fun _ => σ, rfl, rfl, rfl, ?_, ?_⟩
  · intro x op hx
    rw [listing_nil] at hx
    cases hx
  · intro x π hx
    cases hx

/-- One operation; where control passes to is behind it, or an exit. -/
theorem op {op : OpCode} {span : Option Span} (hadmits : op.Admits σ)
    (hpasses : ∀ p ∈ op.passes start σ, p = (start + 1, τ) ∨ p ∈ exits) :
    Forms start [⟨op, span⟩] (start + 1) σ τ [] exits := by
  refine ⟨fun x => if x = start then σ else τ, rfl, if_pos rfl, if_neg (by omega), ?_, ?_⟩
  · intro x o hx _
    obtain ⟨rfl, rfl⟩ := listing_singleton _ hx
    simp only [if_true]
    refine ⟨hadmits, fun y π hy => ?_⟩
    rcases hpasses _ hy with hp | hp
    · cases hp
      exact .inl ⟨by omega, by omega, if_neg (by omega)⟩
    · exact .inr hp
  · intro x π hx
    cases hx

/-- A jump to be filled in later; what lies behind it may have any shape. -/
theorem hole (start : Nat) (σ τ : Shape) (span : Option Span) :
    Forms start [⟨.jump 0, span⟩] (start + 1) σ τ [(start, σ)] [] := by
  refine ⟨fun x => if x = start then σ else τ, rfl, if_pos rfl, if_neg (by omega), ?_, ?_⟩
  · intro x o hx hnot
    obtain ⟨rfl, -⟩ := listing_singleton _ hx
    exact absurd (List.mem_singleton.2 rfl) (hnot σ)
  · intro x π hx
    cases List.mem_singleton.1 hx
    exact ⟨⟨0, listing_cons_self _ _⟩, if_pos rfl⟩

/-- Exits that lie at one of the two ends of the piece, with the shape of that end, are no exits. -/
theorem close {exits' : List (Nat × Shape)} (h : Forms start c stop σ τ holes exits)
    (hex : ∀ p ∈ exits, p = (start, σ) ∨ p = (stop, τ) ∨ p ∈ exits') :
    Forms start c stop σ τ holes exits' := by
  obtain ⟨shape, h⟩ := h
  have hle : start ≤ stop := h.stop_eq ▸ Nat.le_add_right _ _
  refine ⟨shape, h.stop_eq, h.enters, h.leaves, ?_, h.holes⟩
  intro x op hx hnot
  obtain ⟨hadmits, hpasses⟩ := h.flow hx hnot
  refine ⟨hadmits, fun y π hy => ?_⟩
  rcases hpasses y π hy with hin | hout
  · exact .inl hin
  · rcases hex _ hout with heq | heq | hmem
    · cases heq
      exact .inl ⟨Nat.le_refl _, hle, h.enters⟩
    · cases heq
      exact .inl ⟨hle, Nat.le_refl _, h.leaves⟩
    · exact .inr hmem

/-- The order of the holes does not count. -/
theorem congr_holes {holes' : List (Nat × Shape)} (h : Forms start c stop σ τ holes exits)
    (hh : ∀ p, p ∈ holes' ↔ p ∈ holes) : Forms start c stop σ τ holes' exits := by
  obtain ⟨shape, h⟩ := h
  refine ⟨shape, h.stop_eq, h.enters, h.leaves, ?_, fun hx => h.holes ((hh _).1 hx)⟩
  exact fun hx hnot => h.flow hx fun π hπ => hnot π ((hh _).2 hπ)

/-- Pieces that meet compose. -/
theorem append (h₁ : Forms start c₁ mid σ π holes₁ exits₁) (h₂ : Forms mid c₂ stop π τ holes₂ exits₂) :
    Forms start (c₁ ++ c₂) stop σ τ (holes₁ ++ holes₂) (exits₁ ++ exits₂) := by
  obtain ⟨shape₁, h₁⟩ := h₁
  obtain ⟨shape₂, h₂⟩ := h₂
  have hmid := h₁.stop_eq
  have hstop := h₂.stop_eq
  -- the two labellings agree where the pieces meet
  have hleft : ∀ y, y ≤ mid → (if y < mid then shape₁ y else shape₂ y) = shape₁ y := by
    intro y hy
    split
    · rfl
    · obtain rfl : y = mid := by omega
      rw [h₁.leaves, h₂.enters]
  have hright : ∀ y, mid ≤ y → (if y < mid then shape₁ y else shape₂ y) = shape₂ y :=
    fun y hy => if_neg (by omega)
  refine ⟨fun x => if x < mid then shape₁ x else shape₂ x, ?_, ?_, ?_, ?_, ?_⟩
  · rw [List.length_append]
    omega
  · rw [hleft start (by omega)]
    exact h₁.enters
  · rw [hright stop (by omega)]
    exact h₂.leaves
  · intro x op hx hnot
    by_cases hlt : x < mid
    · rw [listing_append_left (by omega)] at hx
      obtain ⟨hadmits, hpasses⟩ := h₁.flow hx fun π hπ => hnot π (List.mem_append_left _ hπ)
      simp only [hleft x (by omega)]
      refine ⟨hadmits, fun y π hy => ?_⟩
      rcases hpasses y π hy with ⟨hy₁, hy₂, hy₃⟩ | hout
      · exact .inl ⟨hy₁, by omega, (hleft y hy₂).trans hy₃⟩
      · exact .inr (List.mem_append_left _ hout)
    · rw [listing_append_right (by omega), ← hmid] at hx
      obtain ⟨hadmits, hpasses⟩ := h₂.flow hx fun π hπ => hnot π (List.mem_append_right _ hπ)
      simp only [hright x (by omega)]
      refine ⟨hadmits, fun y π hy => ?_⟩
      rcases hpasses y π hy with ⟨hy₁, hy₂, hy₃⟩ | hout
      · exact .inl ⟨by omega, hy₂, (hright y hy₁).trans hy₃⟩
      · exact .inr (List.mem_append_right _ hout)
  · intro x π hx
    rcases List.mem_append.1 hx with hx | hx
    · obtain ⟨⟨t, ht⟩, hπ⟩ := h₁.holes hx
      have hb := listing_bounds ht
      exact ⟨⟨t, (listing_append_left (by omega)).trans ht⟩, (hleft x (by omega)).trans hπ⟩
    · obtain ⟨⟨t, ht⟩, hπ⟩ := h₂.holes hx
      have hb := listing_bounds ht
      refine ⟨⟨t, ?_⟩, (hright x hb.1).trans hπ⟩
      rw [listing_append_right (by omega), ← hmid]
      exact ht

/-- Redirecting holes to the end of their piece fills them; those at other addresses are left. -/
theorem patch {holes' : List (Nat × Shape)} (h : Forms start c stop σ τ holes exits)
    {addresses : List Nat} (hA : ∀ a ∈ addresses, (a, τ) ∈ holes) (hsub : holes' ⊆ holes)
    (hrest : ∀ p ∈ holes, p.1 ∉ addresses → p ∈ holes') :
    Forms start (Gen.patch addresses stop start c) stop σ τ holes' exits := by
  obtain ⟨shape, h⟩ := h
  have hle : start ≤ stop := h.stop_eq ▸ Nat.le_add_right _ _
  refine ⟨shape, h.stop_eq.trans (by rw [length_patch]), h.enters, h.leaves, ?_, ?_⟩
  · intro x op hx hnot
    rw [listing_patch] at hx
    obtain ⟨op', hop', rfl⟩ := Option.map_eq_some_iff.1 hx
    by_cases hmem : x ∈ addresses
    · -- a hole is a jump, and it has become one to the end
      obtain ⟨⟨t, ht⟩, hshape⟩ := h.holes (hA x hmem)
      rw [ht] at hop'
      cases hop'
      rw [if_pos hmem]
      refine ⟨⟨Nat.zero_le _, trivial⟩, fun y π hy => ?_⟩
      cases List.mem_singleton.1 hy
      exact .inl ⟨hle, Nat.le_refl _, h.leaves.trans hshape.symm⟩
    · rw [if_neg hmem]
      exact h.flow hop' fun π hπ => hnot π (hrest _ hπ hmem)
  · intro x π hx
    obtain ⟨⟨t, ht⟩, hx⟩ := h.holes (hsub hx)
    refine ⟨?_, hx⟩
    by_cases hmem : x ∈ addresses
    · exact ⟨stop, by rw [listing_patch, ht, Option.map_some, if_pos hmem, OpCode.withTarget]⟩
    · exact ⟨t, by rw [listing_patch, ht, Option.map_some, if_neg hmem]⟩

end Forms

namespace Shape

theorem any_append (m n : Nat) : any m ++ any n = any (m + n) := List.replicate_append_replicate

theorem drop_any (m n : Nat) : (any n).drop m = any (n - m) := List.drop_replicate

theorem length_any (n : Nat) : (any n).length = n := List.length_replicate

end Shape

/-- The shapes of the control values of a loop. -/
abbrev Shape.control : Shape := [true, true, true]

/-- Loose ends of a piece of code that is run above a stack of the shape `σ`. -/
def above (σ : Shape) (ends : List (Nat × Shape)) : List (Nat × Shape) :=
  ends.map fun p => (p.1, p.2 ++ σ)

theorem above_nil (σ : Shape) : above σ [] = [] := rfl

theorem above_append (σ : Shape) (a b : List (Nat × Shape)) : above σ (a ++ b) = above σ a ++ above σ b :=
  List.map_append

theorem above_above (σ π : Shape) (ends : List (Nat × Shape)) :
    above σ (above π ends) = above (π ++ σ) ends := by
  simp [above, List.append_assoc]

/-- The same shape for several addresses. -/
def alike (π : Shape) (addresses : List Nat) : List (Nat × Shape) := addresses.map (·, π)

theorem above_alike (σ π : Shape) (addresses : List Nat) :
    above σ (alike π addresses) = alike (π ++ σ) addresses := by
  simp [above, alike]

theorem mem_alike {π : Shape} {addresses : List Nat} {p : Nat × Shape} :
    p ∈ alike π addresses ↔ p.1 ∈ addresses ∧ p.2 = π := by
  obtain ⟨x, e⟩ := p
  constructor
  · intro h
    obtain ⟨a, ha, heq⟩ := List.mem_map.1 h
    cases heq
    exact ⟨ha, rfl⟩
  · rintro ⟨hx, rfl⟩
    exact List.mem_map.2 ⟨x, hx, rfl⟩

namespace OpCode

variable {op : OpCode} {i : Shape}

theorem shape_append (hn : op.needs ≤ i.length) (σ : Shape) : op.shape (i ++ σ) = op.shape i ++ σ := by
  have hdrop : ∀ n ≤ i.length, (i ++ σ).drop n = i.drop n ++ σ :=
    fun n hn => List.drop_append_of_le_length hn
  cases op with
  | pop n => exact hdrop n hn
  | tableSet | indexSet j =>
    have hthree : 3 ≤ i.length := hn
    exact hdrop 2 (by omega)
  | tableAppend j expand =>
    have htwo : 2 ≤ i.length := hn
    exact hdrop 1 (by omega)
  | jumpIfFalse t | jumpFalseOrPop t | jumpTrueOrPop t => exact hdrop 1 hn
  | method name | not | neg | len | scalar | iterPrep =>
    simp only [shape, hdrop 1 hn, List.cons_append]
  | binary b | index => simp only [shape, hdrop 2 hn, List.cons_append]
  | forPrep => simp only [shape, hdrop 3 hn, List.cons_append]
  | makeTuple n => simp only [shape, hdrop n hn, List.cons_append]
  | call n => simp only [shape, hdrop (n + 1) hn, List.cons_append]
  | _ => rfl

/-- Control passes on in the same way above a stack of any shape. -/
theorem passes_append (hn : op.needs ≤ i.length) (x : Nat) (σ : Shape) :
    op.passes x (i ++ σ) = above σ (op.passes x i) := by
  have hshape := shape_append hn σ
  cases op with
  | jumpIfFalse t =>
    have hdrop : (i ++ σ).drop 1 = i.drop 1 ++ σ := List.drop_append_of_le_length hn
    simp only [passes, above, List.map_cons, List.map_nil, hshape, hdrop]
  | iterCheck t =>
    have hfour : 4 ≤ i.length := hn
    have hdrop : (i ++ σ).drop 1 = i.drop 1 ++ σ := List.drop_append_of_le_length (by omega)
    simp only [passes, above, List.map_cons, List.map_nil, hshape, hdrop]
  | ret n | jump t => rfl
  | _ => simp only [passes, above, List.map_cons, List.map_nil, hshape]

/-- What an operation finds on top of a stack it finds above a stack of any shape; only the header of
a function wants the stack to be empty. -/
theorem Admits.above (h : op.Admits i) (hheader : ∀ name kind n, op ≠ .header name kind n)
    (σ : Shape) : op.Admits (i ++ σ) := by
  obtain ⟨hn, hrest⟩ := h
  refine ⟨Nat.le_trans hn (by simp), ?_⟩
  cases op with
  | header name kind n => exact absurd rfl (hheader name kind n)
  | literal v => exact hrest
  | copy n => exact (List.getElem?_append_left hn).trans hrest
  | forLoop t | forStep | forVar slot =>
    obtain ⟨π, rfl⟩ := hrest
    exact ⟨π ++ σ, rfl⟩
  | iterCheck t =>
    obtain ⟨b, π, rfl⟩ := hrest
    exact ⟨b, π ++ σ, rfl⟩
  | _ => trivial

end OpCode

/-- A piece of code made between two sites, which takes values of one shape to values of another one
above a stack of any shape. -/
def Molds (s : Site) (c : Code) (i o : Shape) (holes exits : List (Nat × Shape)) (s' : Site) : Prop :=
  ∀ σ, Forms s.address c s'.address (i ++ σ) (o ++ σ) (above σ holes) (above σ exits)

namespace Molds

variable {s s₁ s₂ t : Site} {c c₁ c₂ : Code} {i m o : Shape}
  {holes holes₁ holes₂ exits exits₁ exits₂ : List (Nat × Shape)}

/-- Values of any shape may lie below those that the piece works on. -/
theorem lift (h : Molds s c i o holes exits s₁) (π : Shape) :
    Molds s c (i ++ π) (o ++ π) (above π holes) (above π exits) s₁ := by
  intro σ
  rw [above_above, above_above, List.append_assoc, List.append_assoc]
  exact h (π ++ σ)

/-- Pieces compose. -/
theorem seq (h₁ : Molds s c₁ i m holes₁ exits₁ s₁) (h₂ : Molds s₁ c₂ m o holes₂ exits₂ s₂) :
    Molds s (c₁ ++ c₂) i o (holes₁ ++ holes₂) (exits₁ ++ exits₂) s₂ := by
  intro σ
  rw [above_append, above_append]
  exact (h₁ σ).append (h₂ σ)

theorem nil (s : Site) (i : Shape) : Molds s [] i i [] [] s := fun _ => .nil _ _

/-- A site counts only by its address. -/
theorem congr_left (h : Molds s c i o holes exits s₁) (ha : t.address = s.address) :
    Molds t c i o holes exits s₁ := by
  intro σ
  rw [ha]
  exact h σ

theorem congr_right (h : Molds s c i o holes exits s₁) (ha : t.address = s₁.address) :
    Molds s c i o holes exits t := by
  intro σ
  rw [ha]
  exact h σ

/-- Exits to the two ends of a piece are no loose ends. -/
theorem close (h : Molds s c i o holes exits s₁)
    (hex : ∀ p ∈ exits, p = (s.address, i) ∨ p = (s₁.address, o)) : Molds s c i o holes [] s₁ := by
  intro σ
  refine (h σ).close ?_
  intro p hp
  obtain ⟨q, hq, rfl⟩ := List.mem_map.1 hp
  rcases hex q hq with rfl | rfl
  · exact .inl rfl
  · exact .inr (.inl rfl)

theorem congr_holes (h : Molds s c i o holes exits s₁) (hh : ∀ p, p ∈ holes₁ ↔ p ∈ holes) :
    Molds s c i o holes₁ exits s₁ := by
  intro σ
  refine (h σ).congr_holes ?_
  intro p
  simp only [above, List.mem_map, hh]

/-- Redirecting holes of the right shape to the end of the piece fills them. -/
theorem patch {a b : List Nat} (h : Molds s c i o (alike o (a ++ b)) exits s₁) :
    Molds s (Gen.patch a s₁.address s.address c) i o (alike o b) exits s₁ := by
  intro σ
  have hf := h σ
  rw [above_alike] at hf ⊢
  refine hf.patch ?_ ?_ ?_
  · intro x hx
    exact mem_alike.2 ⟨List.mem_append_left _ hx, rfl⟩
  · intro p hp
    obtain ⟨hp, he⟩ := mem_alike.1 hp
    exact mem_alike.2 ⟨List.mem_append_right _ hp, he⟩
  · intro p hp hnot
    obtain ⟨hp, he⟩ := mem_alike.1 hp
    exact mem_alike.2 ⟨(List.mem_append.1 hp).resolve_left hnot, he⟩

/-- A loop: its exits lead to its ends, and its breaks are redirected to behind it. -/
theorem loop {breaks : List Nat} (h : Molds s c i i (alike i breaks) exits s₁)
    (hex : ∀ p ∈ exits, p = (s.address, i) ∨ p = (s₁.address, i)) :
    Molds s (Gen.patch breaks s₁.address s.address c) i i [] [] s₁ := by
  refine patch (b := []) ?_
  rw [List.append_nil]
  exact h.close hex

/-- One operation, whose ways other than to the next instruction are exits. -/
theorem op {op : OpCode} {span : Option Span} (hadmits : op.Admits i)
    (hheader : ∀ name kind n, op ≠ .header name kind n)
    (hpasses : ∀ p ∈ op.passes s.address i, p = (s.address + 1, o) ∨ p ∈ exits)
    (ha : t.address = s.address + 1) : Molds s [⟨op, span⟩] i o [] exits t := by
  intro σ
  rw [ha]
  refine .op (hadmits.above hheader σ) fun p hp => ?_
  rw [OpCode.passes_append hadmits.1] at hp
  obtain ⟨q, hq, rfl⟩ := List.mem_map.1 hp
  rcases hpasses q hq with rfl | hq
  · exact .inl rfl
  · exact .inr (List.mem_map_of_mem hq)

end Molds

/-- A piece without loose ends. -/
structure Turns (s : Site) (c : Code) (i o : Shape) (s' : Site) : Prop where
  molds : Molds s c i o [] [] s'
  loops : s'.loops = s.loops

namespace Turns

variable {s s₁ s₂ : Site} {c c₁ c₂ : Code} {i m o : Shape}

theorem lift (h : Turns s c i o s₁) (π : Shape) : Turns s c (i ++ π) (o ++ π) s₁ :=
  ⟨h.molds.lift π, h.loops⟩

theorem seq (h₁ : Turns s c₁ i m s₁) (h₂ : Turns s₁ c₂ m o s₂) : Turns s (c₁ ++ c₂) i o s₂ :=
  ⟨h₁.molds.seq h₂.molds, h₂.loops.trans h₁.loops⟩

/-- What works on the topmost of some values leaves those below. -/
theorem onTop {i o : Nat} (h : Turns s c (.any i) (.any o) s₁) (n : Nat) :
    Turns s c (.any (i + n)) (.any (o + n)) s₁ := by
  rw [← Shape.any_append, ← Shape.any_append]
  exact h.lift (.any n)

theorem nil (s : Site) (i : Shape) : Turns s [] i i s := ⟨.nil s i, rfl⟩

end Turns

/-- A step makes code that takes values of one shape to values of another one. -/
def Forming (x : Gen Code) (i o : Shape) : Prop := ∀ s, x.Ensures s fun c s' => Turns s c i o s'

namespace Gen

/-! ## Single operations -/

theorem forming_emit {op : OpCode} {i o : Shape} (hadmits : op.Admits i)
    (hheader : ∀ name kind n, op ≠ .header name kind n)
    (hpasses : ∀ x, op.passes x i = [(x + 1, o)]) : Forming (emit op) i o := by
  intro s
  rw [ensures_emit]
  refine ⟨.op hadmits hheader (fun p hp => ?_) rfl, rfl⟩
  rw [hpasses, List.mem_singleton] at hp
  exact .inl hp

/-- An operation that leads to the next instruction and does not care for shapes. -/
theorem forming_emit_simple {op : OpCode} {i o : Nat} (hop : isSimple op = true)
    (hadmits : op.Admits (.any i)) (hshape : op.shape (.any i) = .any o) :
    Forming (emit op) (.any i) (.any o) := by
  refine forming_emit hadmits ?_ ?_
  · rintro name kind n rfl
    cases hop
  · intro x
    rw [← hshape]
    cases op <;> first
      | rfl
      | cases hop

/-- An operation that goes on or to another address. -/
theorem molds_branch {s : Site} (op : OpCode) {i o e : Shape} {target : Nat} (span : Option Span)
    (hadmits : op.Admits i) (hheader : ∀ name kind n, op ≠ .header name kind n)
    (hpasses : ∀ x, op.passes x i = [(target, e), (x + 1, o)]) :
    Molds s [⟨op, span⟩] i o [] [(target, e)] { s with address := s.address + 1 } := by
  refine .op hadmits hheader (fun p hp => ?_) rfl
  rw [hpasses] at hp
  rcases List.mem_cons.1 hp with rfl | hp
  · exact .inr (List.mem_singleton.2 rfl)
  · exact .inl (List.mem_singleton.1 hp)

/-- A jump; what lies behind it may have any shape. -/
theorem molds_jump {s : Site} (target : Nat) (i o : Shape) (span : Option Span) :
    Molds s [⟨.jump target, span⟩] i o [] [(target, i)] { s with address := s.address + 1 } :=
  .op ⟨Nat.zero_le _, trivial⟩ (fun _ _ _ => OpCode.noConfusion) (fun _ hp => .inr hp) rfl

theorem forming_literal {v : Value} (hv : v.isTuple = false) : Forming (emit (.literal v)) [] (.any 1) :=
  forming_emit ⟨Nat.le_refl _, hv⟩ (fun _ _ _ => OpCode.noConfusion) fun _ => rfl

theorem forming_scalarAfter (e : Expr) : Forming (scalarAfter e) (.any 1) (.any 1) := by
  intro s
  unfold scalarAfter
  split
  · have h : Forming (emit .scalar) (.any 1) (.any 1) :=
      forming_emit_simple rfl ⟨Nat.le_refl _, trivial⟩ rfl
    exact h s
  · rw [ensures_pure]
    exact .nil s _

/-- The value of an expression, cut down to one. -/
theorem forming_scalar {e : Expr} (he : Forming (expr e) [] (.any 1)) {s : Site}
    {Q : Code → Code → Site → Prop} (hQ : ∀ c c' s', Turns s (c ++ c') [] (.any 1) s' → Q c c' s') :
    (expr e).Ensures s fun c s₁ => (scalarAfter e).Ensures s₁ fun c' s' => Q c c' s' := by
  refine (he s).mono fun c s₁ h₁ => ?_
  refine (forming_scalarAfter e s₁).mono fun c' s₂ h₂ => ?_
  exact hQ c c' s₂ (h₁.seq h₂)

/-- A resolved name, and an operation on what it stands for. -/
theorem forming_resolve_op {s : Site} (op : Symbol → OpCode) {i o : Shape} (name : String)
    (hadmits : ∀ sym, (op sym).Admits i)
    (hheader : ∀ sym name kind n, op sym ≠ .header name kind n)
    (hpasses : ∀ sym x, (op sym).passes x i = [(x + 1, o)]) :
    (resolve name).Ensures s fun sym s₁ =>
      (emit (op sym)).Ensures s₁ fun c s' => Turns s c i o s' := by
  rw [ensures_resolve]
  have hop := forming_emit (hadmits (s.scopes.resolve name).1) (hheader _) (hpasses _)
    { s with scopes := (s.scopes.resolve name).2 }
  exact hop.mono fun c s' h => ⟨h.molds.congr_left rfl, h.loops⟩

/-! ## Expressions -/

theorem forming_varargs : Forming (expr .varargs) [] (.any 1) := by
  intro s
  simp only [expr, ensures_bind, ensures_get]
  split
  · have h : Forming (emit .varargs) [] (.any 1) :=
      forming_emit ⟨Nat.le_refl _, trivial⟩ (fun _ _ _ => OpCode.noConfusion) fun _ => rfl
    exact h s
  · rw [ensures_failHere]
    trivial

theorem forming_name (name : String) : Forming (expr (.name name)) [] (.any 1) := by
  intro s
  simp only [expr, ensures_bind]
  exact forming_resolve_op .load name (fun _ => ⟨Nat.le_refl _, trivial⟩)
    (fun _ _ _ _ h => OpCode.noConfusion h) fun _ _ => rfl

/-- Two values, and an operation on them. -/
theorem forming_two {left right : Expr} (hl : Forming (expr left) [] (.any 1))
    (hr : Forming (expr right) [] (.any 1)) {op : OpCode} {o : Shape} (hop : Forming (emit op) (.any 2) o)
    {s : Site} : (expr left).Ensures s fun l s₁ => (scalarAfter left).Ensures s₁ fun l' s₂ =>
      (expr right).Ensures s₂ fun r s₃ => (scalarAfter right).Ensures s₃ fun r' s₄ =>
        (emit op).Ensures s₄ fun c s₅ =>
          (pure (l ++ l' ++ r ++ r' ++ c) : Gen Code).Ensures s₅ fun c s' => Turns s c [] o s' := by
  refine forming_scalar hl fun l l' s₁ h₁ => ?_
  refine forming_scalar hr fun r r' s₂ h₂ => ?_
  refine (hop s₂).mono fun b s₃ h₃ => ?_
  rw [ensures_pure]
  have hall := (h₁.seq (h₂.onTop (i := 0) 1)).seq h₃
  simpa only [List.append_assoc] using hall

theorem forming_binary {op : BinaryOp} {left right : Expr} (hl : Forming (expr left) [] (.any 1))
    (hr : Forming (expr right) [] (.any 1)) : Forming (expr (.binary op left right)) [] (.any 1) := by
  intro s
  simp only [expr, ensures_bind]
  exact forming_two hl hr (forming_emit_simple (o := 1) rfl ⟨Nat.le_refl _, trivial⟩ rfl)

theorem forming_index {object key : Expr} (ho : Forming (expr object) [] (.any 1))
    (hk : Forming (expr key) [] (.any 1)) : Forming (expr (.index object key)) [] (.any 1) := by
  intro s
  simp only [expr, ensures_bind]
  exact forming_two ho hk (forming_emit_simple (o := 1) rfl ⟨Nat.le_refl _, trivial⟩ rfl)

theorem forming_logical {op : LogicalOp} {left right : Expr} (hl : Forming (expr left) [] (.any 1))
    (hr : Forming (expr right) [] (.any 1)) : Forming (expr (.logical op left right)) [] (.any 1) := by
  intro s
  simp only [expr, ensures_bind]
  refine forming_scalar hl fun l l' s₁ h₁ => ?_
  rw [ensures_reserve]
  refine forming_scalar (s := { s₁ with address := s₁.address + 1 }) hr fun r r' s₂ h₂ => ?_
  rw [ensures_here, ensures_pure]
  -- the short cut keeps the left value and goes behind the right one
  have hshort : ∀ op : OpCode, op.Admits (.any 1) → (∀ name kind n, op ≠ .header name kind n) →
      (∀ x, op.passes x (.any 1) = [(s₂.address, Shape.any 1), (x + 1, [])]) →
      Turns s (l ++ l' ++ [⟨op, s₁.span⟩] ++ r ++ r') [] (.any 1) s₂ := by
    intro op hadmits hheader hpasses
    have hj := molds_branch (s := s₁) op s₁.span hadmits hheader hpasses
    refine ⟨?_, h₂.loops.trans h₁.loops⟩
    have hall := (h₁.molds.seq hj).seq h₂.molds
    simp only [List.append_assoc] at hall ⊢
    refine hall.close ?_
    intro p hp
    exact .inr (List.mem_singleton.1 hp)
  cases op with
  | and =>
    exact hshort (.jumpFalseOrPop s₂.address) ⟨Nat.le_refl _, trivial⟩
      (fun _ _ _ => OpCode.noConfusion) fun _ => rfl
  | or =>
    exact hshort (.jumpTrueOrPop s₂.address) ⟨Nat.le_refl _, trivial⟩
      (fun _ _ _ => OpCode.noConfusion) fun _ => rfl

theorem forming_unary {op : UnaryOp} {operand : Expr} (he : Forming (expr operand) [] (.any 1)) :
    Forming (expr (.unary op operand)) [] (.any 1) := by
  intro s
  simp only [expr, ensures_bind]
  refine forming_scalar he fun c c' s₁ h₁ => ?_
  have happly : ∀ apply : OpCode, Forming (emit apply) (.any 1) (.any 1) →
      (emit apply).Ensures s₁ fun a s' => (pure (c ++ c' ++ a) : Gen Code).Ensures s' fun r s'' =>
        Turns s r [] (.any 1) s'' := by
    intro apply h
    refine (h s₁).mono fun a s₂ h₂ => ?_
    rw [ensures_pure]
    exact h₁.seq h₂
  cases op with
  | not => exact happly _ (forming_emit_simple rfl ⟨Nat.le_refl _, trivial⟩ rfl)
  | neg => exact happly _ (forming_emit_simple rfl ⟨Nat.le_refl _, trivial⟩ rfl)
  | len => exact happly _ (forming_emit_simple rfl ⟨Nat.le_refl _, trivial⟩ rfl)

theorem forming_paren {e : Expr} (he : Forming (expr e) [] (.any 1)) :
    Forming (expr (.paren e)) [] (.any 1) := by
  intro s
  simp only [expr, ensures_bind]
  refine forming_scalar he fun c c' s₁ h₁ => ?_
  rw [ensures_pure]
  exact h₁

/-- A call takes the function and its arguments and leaves what it returns. -/
theorem forming_emit_call (argc : Nat) : Forming (emit (.call argc)) (.any (argc + 1)) (.any 1) := by
  refine forming_emit_simple rfl ⟨?_, trivial⟩ ?_
  · rw [Shape.length_any]
    exact Nat.le_refl _
  · simp only [OpCode.shape, Shape.drop_any, Nat.sub_self]
    rfl

theorem forming_call {f : Expr} {args : List Expr} (hf : Forming (expr f) [] (.any 1))
    (hargs : Forming (exprs args) [] (.any args.length)) : Forming (expr (.call f args)) [] (.any 1) := by
  intro s
  simp only [expr, ensures_bind]
  refine forming_scalar hf fun c c' s₁ h₁ => ?_
  refine (hargs s₁).mono fun vs s₂ h₂ => ?_
  refine (forming_emit_call args.length s₂).mono fun call s₃ h₃ => ?_
  rw [ensures_pure]
  exact (h₁.seq (h₂.onTop (i := 0) 1)).seq h₃

theorem forming_methodCall {object : Expr} {method : String} {args : List Expr}
    (ho : Forming (expr object) [] (.any 1)) (hargs : Forming (exprs args) [] (.any args.length)) :
    Forming (expr (.methodCall object method args)) [] (.any 1) := by
  intro s
  have hm : Forming (emit (.method method)) (.any 1) (.any 2) :=
    forming_emit_simple rfl ⟨Nat.le_refl _, trivial⟩ rfl
  simp only [expr, ensures_bind]
  refine forming_scalar ho fun o o' s₁ h₁ => ?_
  refine (hm s₁).mono fun m s₂ h₂ => ?_
  refine (hargs s₂).mono fun vs s₃ h₃ => ?_
  refine (forming_emit_call (args.length + 1) s₃).mono fun call s₄ h₄ => ?_
  rw [ensures_pure]
  exact ((h₁.seq h₂).seq (h₃.onTop (i := 0) 2)).seq h₄

theorem forming_exprs_cons {e e' : Expr} {rest : List Expr} (he : Forming (expr e) [] (.any 1))
    (hrest : Forming (exprs (e' :: rest)) [] (.any (e' :: rest).length)) :
    Forming (exprs (e :: e' :: rest)) [] (.any (e :: e' :: rest).length) := by
  intro s
  simp only [exprs, ensures_bind]
  refine forming_scalar he fun c c' s₁ h₁ => ?_
  refine (hrest s₁).mono fun cs s₂ h₂ => ?_
  rw [ensures_pure]
  exact h₁.seq (h₂.onTop (i := 0) 1)

/-! ## Tables and assignments -/

theorem forming_emit_tableSet : Forming (emit .tableSet) (.any 3) (.any 1) :=
  forming_emit_simple rfl ⟨Nat.le_refl _, trivial⟩ rfl

theorem forming_fields_positional {value : Expr} {rest : List Field} {position : Nat}
    (hv : Forming (expr value) [] (.any 1))
    (hrest : Forming (fields rest (position + 1)) (.any 1) (.any 1)) :
    Forming (fields (.positional value :: rest) position) (.any 1) (.any 1) := by
  intro s
  have hop : ∀ expand, Forming (emit (.tableAppend position expand)) (.any 2) (.any 1) :=
    fun expand => forming_emit_simple rfl ⟨Nat.le_refl _, trivial⟩ rfl
  simp only [fields, ensures_bind]
  refine (hv s).mono fun c s₁ h₁ => ?_
  have hbehind : ∀ c' s₂, Turns s₁ c' (.any 1) (.any 1) s₂ → ∀ expand,
      (emit (.tableAppend position expand)).Ensures s₂ fun a s₃ =>
        (fields rest (position + 1)).Ensures s₃ fun cs s₄ =>
          (pure (c ++ c' ++ a ++ cs) : Gen Code).Ensures s₄ fun r s' =>
            Turns s r (.any 1) (.any 1) s' := by
    intro c' s₂ h₂ expand
    refine (hop expand s₂).mono fun a s₃ h₃ => ?_
    refine (hrest s₃).mono fun cs s₄ h₄ => ?_
    rw [ensures_pure]
    exact (((h₁.onTop (i := 0) 1).seq (h₂.onTop 1)).seq h₃).seq h₄
  -- the last positional field may keep all its values
  split
  · simp only [ensures_bind]
    rw [ensures_pure]
    exact hbehind [] s₁ (.nil s₁ _) _
  · simp only [ensures_bind]
    exact (forming_scalarAfter value s₁).mono fun c' s₂ h₂ => hbehind c' s₂ h₂ _

/-- A key, its value, and the fields behind them. -/
theorem forming_entry {value : Expr} {rest : List Field} {position : Nat} {k : Code} {s s₁ : Site}
    (hk : Turns s k [] (.any 1) s₁) (hv : Forming (expr value) [] (.any 1))
    (hrest : Forming (fields rest position) (.any 1) (.any 1)) :
    (expr value).Ensures s₁ fun c s₂ => (scalarAfter value).Ensures s₂ fun c' s₃ =>
      (emit .tableSet).Ensures s₃ fun a s₄ => (fields rest position).Ensures s₄ fun cs s₅ =>
        (pure (k ++ c ++ c' ++ a ++ cs) : Gen Code).Ensures s₅ fun r s' =>
          Turns s r (.any 1) (.any 1) s' := by
  refine forming_scalar hv fun c c' s₂ h₂ => ?_
  refine (forming_emit_tableSet s₂).mono fun a s₃ h₃ => ?_
  refine (hrest s₃).mono fun cs s₄ h₄ => ?_
  rw [ensures_pure]
  have hall := (((hk.onTop (i := 0) 1).seq (h₂.onTop (i := 0) 2)).seq h₃).seq h₄
  simpa only [List.append_assoc] using hall

theorem forming_fields_named {name : String} {value : Expr} {rest : List Field} {position : Nat}
    (hv : Forming (expr value) [] (.any 1)) (hrest : Forming (fields rest position) (.any 1) (.any 1)) :
    Forming (fields (.named name value :: rest) position) (.any 1) (.any 1) := by
  intro s
  simp only [fields, ensures_bind]
  refine (forming_literal rfl s).mono fun k s₁ h₁ => ?_
  exact forming_entry h₁ hv hrest

theorem forming_fields_keyed {key value : Expr} {rest : List Field} {position : Nat}
    (hk : Forming (expr key) [] (.any 1)) (hv : Forming (expr value) [] (.any 1))
    (hrest : Forming (fields rest position) (.any 1) (.any 1)) :
    Forming (fields (.keyed key value :: rest) position) (.any 1) (.any 1) := by
  intro s
  simp only [fields, ensures_bind]
  exact forming_scalar hk fun k k' s₁ h₁ => forming_entry h₁ hv hrest

theorem forming_table {fs : List Field} (hfs : Forming (fields fs 1) (.any 1) (.any 1)) :
    Forming (expr (.table fs)) [] (.any 1) := by
  intro s
  have hop : Forming (emit .newTable) [] (.any 1) :=
    forming_emit ⟨Nat.le_refl _, trivial⟩ (fun _ _ _ => OpCode.noConfusion) fun _ => rfl
  simp only [expr, ensures_bind]
  refine (hop s).mono fun c s₁ h₁ => ?_
  refine (hfs s₁).mono fun cs s₂ h₂ => ?_
  rw [ensures_pure]
  exact h₁.seq h₂

theorem forming_bindNames (names : List String) (i : Nat) :
    Forming (bindNames names i) (.any 1) (.any 1) := by
  induction names generalizing i with
  | nil =>
    intro s
    rw [bindNames, ensures_pure]
    exact .nil s _
  | cons name names ih =>
    intro s
    have hbind : ∀ slot, Forming (emit (.local slot i)) (.any 1) (.any 1) :=
      fun slot =>
        forming_emit ⟨Nat.le_refl _, trivial⟩ (fun _ _ _ => OpCode.noConfusion) fun _ => rfl
    simp only [bindNames, ensures_bind, ensures_declare]
    refine (hbind _ { s with scopes := s.scopes.declare name }).mono fun c s₁ h₁ => ?_
    refine (ih (i + 1) s₁).mono fun cs s₂ h₂ => ?_
    rw [ensures_pure]
    have hall := h₁.seq h₂
    exact ⟨hall.molds.congr_left rfl, hall.loops⟩

theorem forming_assignField : ∀ keys : List String, keys ≠ [] →
    Forming (assignField keys) (.any 2) (.any 1)
  | [], h => absurd rfl h
  | [key], _ => by
    intro s
    have hop : Forming (emit (.indexSet 0)) (.any 3) (.any 1) :=
      forming_emit_simple rfl ⟨Nat.le_refl _, trivial⟩ rfl
    simp only [assignField, ensures_bind]
    refine (forming_literal rfl s).mono fun k s₁ h₁ => ?_
    refine (hop s₁).mono fun a s₂ h₂ => ?_
    rw [ensures_pure]
    exact (h₁.onTop (i := 0) 2).seq h₂
  | key :: key' :: rest, _ => by
    intro s
    have hop : Forming (emit .index) (.any 2) (.any 1) :=
      forming_emit_simple rfl ⟨Nat.le_refl _, trivial⟩ rfl
    have ih := forming_assignField (key' :: rest) (by simp)
    simp only [assignField, ensures_bind]
    refine (forming_literal rfl s).mono fun k s₁ h₁ => ?_
    refine (hop s₁).mono fun a s₂ h₂ => ?_
    refine (ih s₂).mono fun cs s₃ h₃ => ?_
    rw [ensures_pure]
    exact ((h₁.onTop (i := 0) 2).seq (h₂.onTop 1)).seq h₃

theorem forming_assignTo_name {name : String} {rest : List Expr} {i : Nat}
    (hrest : Forming (assignTo rest (i + 1)) (.any 1) (.any 1)) :
    Forming (assignTo (.name name :: rest) i) (.any 1) (.any 1) := by
  intro s
  simp only [assignTo, ensures_bind]
  have hstore := forming_resolve_op (s := s) (i := .any 1) (o := .any 1) (.store · i) name
    (fun _ => ⟨Nat.le_refl _, trivial⟩)
    (fun _ _ _ _ h => OpCode.noConfusion h) fun _ _ => rfl
  refine hstore.mono fun sym s₁ h₁ => ?_
  refine h₁.mono fun c s₂ h₂ => ?_
  refine (hrest s₂).mono fun cs s₃ h₃ => ?_
  rw [ensures_pure]
  exact h₂.seq h₃

theorem forming_assignTo_index {object key : Expr} {rest : List Expr} {i : Nat}
    (ho : Forming (expr object) [] (.any 1)) (hk : Forming (expr key) [] (.any 1))
    (hrest : Forming (assignTo rest (i + 1)) (.any 1) (.any 1)) :
    Forming (assignTo (.index object key :: rest) i) (.any 1) (.any 1) := by
  intro s
  have hop : Forming (emit (.indexSet i)) (.any 3) (.any 1) :=
    forming_emit_simple rfl ⟨Nat.le_refl _, trivial⟩ rfl
  simp only [assignTo, ensures_bind]
  refine forming_scalar ho fun o o' s₁ h₁ => ?_
  refine forming_scalar hk fun k k' s₂ h₂ => ?_
  refine (hop s₂).mono fun a s₃ h₃ => ?_
  refine (hrest s₃).mono fun cs s₄ h₄ => ?_
  rw [ensures_pure]
  have hall := (((h₁.onTop (i := 0) 1).seq (h₂.onTop (i := 0) 2)).seq h₃).seq h₄
  simpa only [List.append_assoc] using hall

theorem forming_assignTo_refused {e : Expr} {rest : List Expr} {i : Nat}
    (he : e.isAssignable = false) : Forming (assignTo (e :: rest) i) (.any 1) (.any 1) := by
  intro s
  have hfail : assignTo (e :: rest) i = failHere .notAssignable := by
    cases e with
    | name n => cases he
    | index object key => cases he
    | _ => rw [assignTo] <;> simp
  rw [hfail, ensures_failHere]
  trivial

end Gen

end LuaMachine
