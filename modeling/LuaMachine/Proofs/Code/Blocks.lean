import LuaMachine.Dump.Function
import LuaMachine.Proofs.Code.Verification

/-!
# Blocks of a segment

A segment grows by blocks (`Segment.Grows`), so an address names the same instruction for ever, and
what begins with a function goes on to do so. Blocks are made by the compiler (`Segment.Compiled`), or
read from dumps.

Blocks lie side by side from address zero on, none of them is empty, and together they cover the
code (`Segment.Tiled`). So each address of the code lies in exactly one block, the ends of the blocks
are in order, and the search by halving finds that block (`Segment.Tiled.blockAt?_eq_some_iff`).

What blocks added to the empty segment make of it is tiled (`Segment.Grows.tiled`).
-/

namespace LuaMachine

/-- Paths stay when code is added. -/
theorem Reaches.mono {code code' : Listing} (h : ∀ x op, code x = some op → code' x = some op)
    {a x d : Nat} (hr : Reaches code a x d) : Reaches code' a x d := by
  induction hr with
  | entry => exact .entry
  | step _ hop hnext ih => exact .step ih (h _ _ hop) hnext

namespace Segment

/-- One segment comes from another by adding blocks. -/
inductive Grows : Segment → Segment → Prop where
  | refl (s : Segment) : Grows s s
  | append {s t : Segment} (code : Code) : Grows s t → Grows s (t.append code)

theorem Grows.trans {s t u : Segment} (h₁ : s.Grows t) (h₂ : t.Grows u) : s.Grows u := by
  induction h₂ with
  | refl => exact h₁
  | append code _ ih => exact .append code ih

theorem Grows.one (s : Segment) (code : Code) : s.Grows (s.append code) := .append code (.refl s)

theorem ops_eq_none_of_le {s : Segment} {x : Nat} (hx : s.size ≤ x) : s.ops x = none := by
  unfold ops instruction?
  rw [Array.getElem?_eq_none hx]
  rfl

theorem ops_append {s : Segment} {code : Code} {x : Nat} {op : OpCode} (h : s.ops x = some op) :
    (s.append code).ops x = some op := by
  by_cases hx : x < s.size
  · rw [ops_append_of_lt hx, h]
  · rw [ops_eq_none_of_le (Nat.le_of_not_lt hx)] at h
    cases h

theorem Grows.ops {s t : Segment} (h : s.Grows t) {x : Nat} {op : OpCode}
    (hx : s.ops x = some op) : t.ops x = some op := by
  induction h with
  | refl => exact hx
  | append code _ ih => exact ops_append ih

/-- The blocks of a segment were all made by the compiler. -/
inductive Compiled : Segment → Prop where
  | empty : Compiled {}
  | compile {s s' : Segment} {options : CompileOptions} {source : String} {chunk : CompiledChunk} :
      Compiled s → s.compile options source = .ok (chunk, s') → Compiled s'

/-- A block that was added last can be told from the rest. -/
theorem append_inj {s t : Segment} {c d : Code} (hc : c ≠ []) (hd : d ≠ [])
    (h : s.append c = t.append d) : s = t := by
  obtain ⟨codeS, blocksS⟩ := s
  obtain ⟨codeT, blocksT⟩ := t
  have hce : c.isEmpty = false := by simpa using hc
  have hde : d.isEmpty = false := by simpa using hd
  simp only [append, hce, hde, Bool.false_eq_true, if_false, Segment.mk.injEq] at h
  obtain ⟨hcode, hblocks⟩ := h
  obtain ⟨hlast, hblocks⟩ := Array.push_eq_push.1 hblocks
  simp only [nextBlock, size, CodeBlock.mk.injEq] at hlast
  obtain ⟨hcode, -⟩ := Array.append_inj hcode hlast.1
  rw [hcode, hblocks]

theorem eq_empty_of_append {s : Segment} {code : Code} (h : s.append code = {}) : s = {} := by
  by_cases hc : code = []
  · subst hc
    exact h
  · -- a block with instructions leaves a trace
    have hne : code.isEmpty = false := by simpa using hc
    have hblocks := congrArg Segment.blocks h
    simp [append, hne] at hblocks

/-- A function starts at an address. -/
def HasHeader (s : Segment) (a : Nat) : Prop := ∃ name kind n, s.ops a = some (.header name kind n)

theorem Grows.hasHeader {s t : Segment} (h : s.Grows t) {a : Nat} (ha : s.HasHeader a) :
    t.HasHeader a := by
  obtain ⟨name, kind, n, ha⟩ := ha
  exact ⟨name, kind, n, h.ops ha⟩

theorem size_append (s : Segment) (code : Code) : (s.append code).size = s.size + code.length := by
  unfold append size
  split
  · next hempty => simp [List.isEmpty_iff.1 hempty]
  · simp

/-- What has grown without getting larger is the same. -/
theorem Grows.eq_of_size_le {s t : Segment} (h : s.Grows t) (hsize : t.size ≤ s.size) : t = s := by
  induction h with
  | refl => rfl
  | @append t code hg ih =>
    have hgrown : s.size ≤ t.size := by
      clear ih hsize
      induction hg with
      | refl => exact Nat.le_refl _
      | append code _ ih =>
        rw [size_append]
        omega
    rw [size_append] at hsize
    obtain rfl : code = [] := List.eq_nil_of_length_eq_zero (by omega)
    exact ih (by omega)

/-- The first instruction of a chunk is a header. -/
theorem hasHeader_compile {s s' : Segment} {options : CompileOptions} {source : String}
    {chunk : CompiledChunk} (h : s.compile options source = .ok (chunk, s')) :
    s.Grows s' ∧ s'.HasHeader chunk.entry := by
  obtain ⟨hentry, hall⟩ := allVerified_compile h
  obtain ⟨⟨name, kind, ha⟩, -⟩ := hall.outermost
  obtain ⟨body, code, spans, -, -, rfl, -⟩ := compile_eq_ok h
  exact ⟨.one s code, name, kind, _, by rw [hentry]; exact ha⟩

/-- The first instruction of a dump is a header. -/
theorem hasHeader_undump {s s' : Segment} {bytes : List UInt8} {source : Nat} {f : Undumped}
    (h : s.undump bytes source = .ok (f, s')) : s.Grows s' ∧ s'.HasHeader f.entry := by
  unfold undump at h
  split at h
  · cases h
  · split at h
    · next name kind n span rest _ =>
      cases h
      refine ⟨.one _ _, name, kind, n, ?_⟩
      rw [ops_append_of_le (Nat.le_refl _), List.map_cons, listing_cons_self]
      rfl
    · cases h

end Segment

theorem CodeBlock.contains_iff {b : CodeBlock} {x : Nat} :
    b.contains x = true ↔ b.base ≤ x ∧ x < b.limit := by
  simp [contains]

/-- A place in a range up to which a test holds and from which on it fails is the one that is found. -/
theorem partitionPoint_eq {test : Nat → Bool} {start stop k : Nat} (hstart : start ≤ k)
    (hstop : k ≤ stop) (hbefore : ∀ i < k, test i = true)
    (hafter : ∀ i, k ≤ i → i < stop → test i = false) : partitionPoint test start stop = k := by
  fun_induction partitionPoint test start stop with
  | case1 start stop hlt middle htest ih =>
    -- the test holds in the middle, so the place is behind it
    have hmiddle : middle < k := by
      by_contra hle
      have hfails := hafter middle (by omega) (by omega)
      rw [htest] at hfails
      cases hfails
    exact ih hmiddle hstop hafter
  | case2 start stop hlt middle htest ih =>
    have hmiddle : k ≤ middle := by
      by_contra hle
      exact htest (hbefore middle (by omega))
    exact ih hstart hmiddle fun i hki hi => hafter i hki (by omega)
  | case3 start stop hge => omega

namespace Segment

/-- The blocks lie side by side, starting at address zero, and cover the code. -/
structure Tiled (s : Segment) : Prop where
  nonempty : ∀ b ∈ s.blocks, b.base < b.limit
  first : ∀ {b}, s.blocks[0]? = some b → b.base = 0
  next : ∀ {i b c}, s.blocks[i]? = some b → s.blocks[i + 1]? = some c → c.base = b.limit
  size_eq : s.size = (s.blocks.back?.map (·.limit)).getD 0

theorem append_nil (s : Segment) : s.append [] = s := rfl

theorem blocks_append {s : Segment} {code : Code} (hne : code ≠ []) :
    (s.append code).blocks = s.blocks.push (s.nextBlock code.length) := by
  have hempty : code.isEmpty = false := by simpa using hne
  unfold append
  rw [hempty]
  rfl

theorem code_append (s : Segment) (code : Code) :
    (s.append code).code = s.code ++ code.toArray := by
  unfold append
  split
  · next hempty => simp [List.isEmpty_iff.1 hempty]
  · rfl

namespace Tiled

variable {s : Segment} {code : Code} {a i j : Nat} {b c : CodeBlock}

theorem empty : Segment.empty.Tiled := by
  constructor <;> simp [Segment.empty, size]

/-- A block at the old end of the code goes on with the tiling. -/
theorem append (h : s.Tiled) (code : Code) : (s.append code).Tiled := by
  by_cases hne : code = []
  · subst hne
    exact h
  have hpos : 0 < code.length := List.length_pos_iff.2 hne
  have hblocks := blocks_append (s := s) hne
  constructor
  · intro b hb
    rw [hblocks, Array.mem_push] at hb
    rcases hb with hb | rfl
    · exact h.nonempty b hb
    · exact Nat.lt_add_of_pos_right hpos
  · intro b hb
    rw [hblocks, Array.getElem?_push] at hb
    split at hb
    · next hzero =>
      -- the first block of all, so there was no code before
      cases hb
      have hnone : s.blocks.back? = none := by
        rw [Array.back?, ← hzero]
        simp [← hzero]
      have hsize := h.size_eq
      rw [hnone] at hsize
      exact hsize
    · exact h.first hb
  · intro i b c hb hc
    rw [hblocks, Array.getElem?_push] at hb hc
    split at hc
    · next hi =>
      cases hc
      rw [if_neg (by omega)] at hb
      have hback : s.blocks.back? = some b := by
        rw [Array.back?, ← hi]
        exact hb
      have hsize := h.size_eq
      rw [hback] at hsize
      exact hsize
    · next hi =>
      have hlt := (Array.getElem?_eq_some_iff.1 hc).1
      rw [if_neg (by omega)] at hb
      exact h.next hb hc
  · rw [hblocks, size_append, Array.back?_push]
    rfl

/-- The ends of blocks are in order. -/
theorem limit_le_base (h : s.Tiled) (hb : s.blocks[i]? = some b) (hc : s.blocks[j]? = some c)
    (hij : i < j) : b.limit ≤ c.base := by
  induction j generalizing c with
  | zero => omega
  | succ j ih =>
    have hj : j < s.blocks.size := by
      have := (Array.getElem?_eq_some_iff.1 hc).1
      omega
    have hd : s.blocks[j]? = some s.blocks[j] := Array.getElem?_eq_getElem hj
    have hnext := h.next hd hc
    rcases Nat.lt_succ_iff_lt_or_eq.1 hij with hlt | rfl
    · have := ih hd hlt
      have := h.nonempty _ (Array.getElem_mem hj)
      omega
    · rw [hd] at hb
      cases hb
      omega

theorem limit_le (h : s.Tiled) (hb : b ∈ s.blocks) : b.limit ≤ s.size := by
  obtain ⟨i, hb⟩ := Array.getElem?_of_mem hb
  have hi := (Array.getElem?_eq_some_iff.1 hb).1
  obtain ⟨c, hc⟩ : ∃ c, s.blocks[s.blocks.size - 1]? = some c :=
    ⟨_, Array.getElem?_eq_getElem (by omega)⟩
  have hsize : s.size = c.limit := by
    rw [h.size_eq, Array.back?, hc]
    rfl
  rw [hsize]
  rcases Nat.lt_or_eq_of_le (Nat.le_sub_one_of_lt hi) with hlt | heq
  · have := h.limit_le_base hb hc hlt
    have := h.nonempty c (Array.mem_of_getElem? hc)
    omega
  · rw [← heq, hb] at hc
    cases hc
    exact Nat.le_refl _

/-- Two blocks that have an address in common are the same. -/
theorem index_eq (h : s.Tiled) (hb : s.blocks[i]? = some b) (hc : s.blocks[j]? = some c)
    (hba : b.contains a = true) (hca : c.contains a = true) : i = j := by
  rw [CodeBlock.contains_iff] at hba hca
  rcases Nat.lt_trichotomy i j with hlt | heq | hgt
  · have := h.limit_le_base hb hc hlt
    omega
  · exact heq
  · have := h.limit_le_base hc hb hgt
    omega

/-- The search finds the block of an address. -/
theorem blockAt?_of_contains (h : s.Tiled) (hb : b ∈ s.blocks) (hba : b.contains a = true) :
    s.blockAt? a = some b := by
  obtain ⟨k, hk⟩ := Array.getElem?_of_mem hb
  have hlt := (Array.getElem?_eq_some_iff.1 hk).1
  have hin := CodeBlock.contains_iff.1 hba
  -- the blocks in front of it end before the address, and no other block does
  have hplace : partitionPoint (fun i => s.blocks[i]?.any (·.limit ≤ a)) 0 s.blocks.size = k := by
    refine partitionPoint_eq (Nat.zero_le k) (Nat.le_of_lt hlt) ?_ ?_
    · intro i hi
      obtain ⟨c, hc⟩ : ∃ c, s.blocks[i]? = some c := ⟨_, Array.getElem?_eq_getElem (by omega)⟩
      have := h.limit_le_base hc hk hi
      rw [hc, Option.any_some, decide_eq_true_iff]
      omega
    · intro i hki hi
      obtain ⟨c, hc⟩ : ∃ c, s.blocks[i]? = some c := ⟨_, Array.getElem?_eq_getElem hi⟩
      rw [hc, Option.any_some, decide_eq_false_iff_not]
      rcases Nat.lt_or_eq_of_le hki with hlt | rfl
      · have := h.limit_le_base hk hc hlt
        have := h.nonempty c (Array.mem_of_getElem? hc)
        omega
      · rw [hk] at hc
        cases hc
        omega
  unfold Segment.blockAt?
  simp only [hplace, hk, Option.filter_some, hba, if_true]

theorem blockAt?_eq_some_iff (h : s.Tiled) :
    s.blockAt? a = some b ↔ b ∈ s.blocks ∧ b.contains a = true := by
  constructor
  · intro hb
    obtain ⟨hget, hba⟩ := Option.filter_eq_some_iff.1 hb
    exact ⟨Array.mem_of_getElem? hget, hba⟩
  · rintro ⟨hb, hba⟩
    exact h.blockAt?_of_contains hb hba

/-- Nothing is found behind the code. -/
theorem blockAt?_eq_none (h : s.Tiled) (ha : s.size ≤ a) : s.blockAt? a = none := by
  rw [Option.eq_none_iff_forall_ne_some]
  intro b hb
  obtain ⟨hmem, hba⟩ := h.blockAt?_eq_some_iff.1 hb
  have := (CodeBlock.contains_iff.1 hba).2
  have := h.limit_le hmem
  omega

end Tiled

/-! ## Instructions -/

theorem instruction?_append_of_lt {s : Segment} {code : Code} {x : Nat} (hx : x < s.size) :
    (s.append code).instruction? x = s.instruction? x := by
  unfold append instruction?
  split
  · rfl
  · rw [Array.getElem?_append_left hx]

theorem instruction?_append_of_le {s : Segment} {code : Code} {x : Nat} (hx : s.size ≤ x) :
    (s.append code).instruction? x = code[x - s.size]? := by
  unfold append instruction?
  split
  · next hempty =>
    rw [List.isEmpty_iff.1 hempty, Array.getElem?_eq_none hx, List.getElem?_nil]
  · rw [Array.getElem?_append_right hx]
    simp [size]

theorem lt_size_of_instruction? {s : Segment} {x : Nat} {i : Instruction}
    (h : s.instruction? x = some i) : x < s.size := by
  by_contra hx
  rw [instruction?, Array.getElem?_eq_none (Nat.le_of_not_lt hx)] at h
  cases h

theorem Grows.instruction? {s t : Segment} (h : s.Grows t) {x : Nat} {i : Instruction}
    (hx : s.instruction? x = some i) : t.instruction? x = some i := by
  induction h with
  | refl => exact hx
  | append code _ ih => rw [instruction?_append_of_lt (lt_size_of_instruction? ih), ih]

/-! ## Growth -/

variable {s t : Segment} {code : Code} {a : Nat} {b : CodeBlock}

theorem Grows.tiled_of (h : s.Grows t) (hs : s.Tiled) : t.Tiled := by
  induction h with
  | refl => exact hs
  | append code _ ih => exact ih.append code

/-- What blocks make of the empty segment. -/
theorem Grows.tiled (h : Segment.empty.Grows s) : s.Tiled := h.tiled_of .empty

theorem mem_blocks_append (code : Code) (hb : b ∈ s.blocks) : b ∈ (s.append code).blocks := by
  by_cases hne : code = []
  · subst hne
    exact hb
  · rw [blocks_append hne, Array.mem_push]
    exact .inl hb

theorem Grows.mem_blocks (h : s.Grows t) (hb : b ∈ s.blocks) : b ∈ t.blocks := by
  induction h with
  | refl => exact hb
  | append code _ ih => exact mem_blocks_append code ih

/-- A block that was found is found after every growth. -/
theorem Grows.blockAt? (h : s.Grows t) (hs : s.Tiled) (hb : s.blockAt? a = some b) :
    t.blockAt? a = some b := by
  obtain ⟨hmem, hba⟩ := hs.blockAt?_eq_some_iff.1 hb
  exact (h.tiled_of hs).blockAt?_of_contains (h.mem_blocks hmem) hba

/-- An address of the code that was added last lies in the block made of it. -/
theorem Tiled.blockAt?_append (h : s.Tiled) (ha : s.size ≤ a) (hlt : a < s.size + code.length) :
    (s.append code).blockAt? a = some (s.nextBlock code.length) := by
  have hne : code ≠ [] := by
    rintro rfl
    simp only [List.length_nil] at hlt
    omega
  refine (h.append code).blockAt?_of_contains ?_ (CodeBlock.contains_iff.2 ⟨ha, hlt⟩)
  rw [blocks_append hne, Array.mem_push]
  exact .inr rfl

/-- Each address of the code lies in a block. -/
theorem Grows.exists_block (h : Segment.empty.Grows s) (ha : a < s.size) :
    ∃ b ∈ s.blocks, b.contains a = true := by
  induction h with
  | refl => exact absurd ha (Nat.not_lt_zero a)
  | @append t code h ih =>
    by_cases hlt : a < t.size
    · obtain ⟨b, hb, hba⟩ := ih hlt
      exact ⟨b, mem_blocks_append code hb, hba⟩
    · rw [size_append] at ha
      have hfound := h.tiled.blockAt?_append (Nat.le_of_not_lt hlt) ha
      exact ⟨_, (h.tiled.append code).blockAt?_eq_some_iff.1 hfound⟩

end Segment

end LuaMachine
