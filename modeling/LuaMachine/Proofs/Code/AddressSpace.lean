import LuaMachine.Proofs.Code.Blocks

/-!
# The address space of a segment

A segment is built by operations one after the other (`Segment.Operation`): a block is built by hand, a
text is compiled, or a dump is read, and each of them may fail. What an operation adds stands behind
everything that was there, so an address means the same for ever, and the segment can be read in three
ways that agree: as one list of instructions, block by block, and by a search for the block of an
address (`Segment.Lists`).

Main statement: `Segment.append_only`.
-/

namespace LuaMachine

namespace Segment

/-- What is done to a segment. -/
inductive Operation : Type 1 where
  | build {ε α : Type} (builder : Builder → Except ε (α × Builder))
  | compile (options : CompileOptions) (source : String)
  | undump (bytes : List UInt8) (source : Nat)

/-- The segment after an operation; one that fails leaves it as it is. -/
def Operation.apply (s : Segment) : Operation → Segment
  | build builder => match s.appendWith builder with
    | .ok (_, t) => t
    | .error _ => s
  | compile options source => match s.compile options source with
    | .ok (_, t) => t
    | .error _ => s
  | undump bytes source => match s.undump bytes source with
    | .ok (_, t) => t
    | .error _ => s

/-- The instructions that an operation makes for a segment: those of the builder, of the generator, or
of the dump with its addresses shifted. -/
def Operation.code (s : Segment) : Operation → Code
  | build builder => match builder { base := s.size } with
    | .ok (_, b) => b.code.toList
    | .error _ => []
  | compile options source => match Block.parse options.chunk source with
    | .ok body => match body.compile options s.size with
      | .ok (code, _) => code
      | .error _ => []
    | .error _ => []
  | undump bytes source => match s.undump bytes source, (Dump.readFunction source).run { bytes } with
    | .ok _, .ok (_, body) _ => body.map fun i => { i with op := i.op.relocate s.size }
    | _, _ => []

/-- Operations one after the other. -/
def after (s : Segment) (ops : List Operation) : Segment := ops.foldl Operation.apply s

/-- The lists of instructions that operations make, one for each of them. -/
def committed (s : Segment) : List Operation → List Code
  | [] => []
  | op :: ops => op.code s :: committed (op.apply s) ops

/-- An operation adds the instructions that it makes, as a block. -/
theorem apply_eq (s : Segment) (op : Operation) : op.apply s = s.append (op.code s) := by
  cases op with
  | build builder =>
    unfold Operation.apply Operation.code appendWith
    dsimp only
    cases builder { base := s.size } with
    | ok p => rfl
    | error e => rfl
  | compile options source =>
    unfold Operation.apply Operation.code
    dsimp only
    cases hc : s.compile options source with
    | ok p =>
      obtain ⟨chunk, t⟩ := p
      obtain ⟨body, code, spans, hparse, hcode, rfl, -⟩ := compile_eq_ok hc
      simp only [hparse, hcode]
    | error e =>
      -- the text is refused by the reader or by the generator
      unfold Segment.compile at hc
      cases hparse : Block.parse options.chunk source with
      | error e => rfl
      | ok body =>
        rw [hparse] at hc
        cases hcode : body.compile options s.size with
        | error e =>
          simp only [hcode]
          exact (append_nil s).symm
        | ok p =>
          simp only [bind, Except.bind, hcode] at hc
          cases hc
  | undump bytes source =>
    unfold Operation.apply Operation.code
    dsimp only
    cases hu : s.undump bytes source with
    | ok p =>
      unfold Segment.undump at hu
      split at hu
      · cases hu
      · next hasEnv body r hread =>
        split at hu
        · cases hu
          simp only [hread]
        · cases hu
    | error e => exact (append_nil s).symm

theorem grows_after (s : Segment) (ops : List Operation) : s.Grows (s.after ops) := by
  induction ops generalizing s with
  | nil => exact .refl s
  | cons op ops ih =>
    have hop : s.Grows (op.apply s) := apply_eq s op ▸ .one s (op.code s)
    exact hop.trans (ih (op.apply s))

/-! ## The contents of blocks -/

variable {s t : Segment} {b : CodeBlock} {a : Nat}

/-- A range of the code that ends before the old end stays as it is. -/
theorem extract_append {start stop : Nat} (code : Code) (hstop : stop ≤ s.size) :
    (s.append code).code.extract start stop = s.code.extract start stop := by
  rw [code_append, Array.extract_append]
  have hzero : stop - s.code.size = 0 := Nat.sub_eq_zero_of_le hstop
  rw [hzero]
  simp

theorem blockCode_append (code : Code) (hs : s.Tiled) (hb : b ∈ s.blocks) :
    (s.append code).blockCode b = s.blockCode b :=
  congrArg Array.toList (extract_append code (hs.limit_le hb))

/-- The block that is added has the instructions that were given. -/
theorem blockCode_nextBlock (s : Segment) (code : Code) :
    (s.append code).blockCode (s.nextBlock code.length) = code := by
  simp only [blockCode, nextBlock, code_append, size, Array.extract_append_right]
  simp

/-- What a block has at one of its addresses is what the code has there. -/
theorem get?_eq (hs : s.Tiled) (hb : b ∈ s.blocks) (ha : b.contains a = true) :
    s.get? b a = s.instruction? a := by
  obtain ⟨hbase, hlimit⟩ := CodeBlock.contains_iff.1 ha
  have hle := hs.limit_le hb
  unfold size at hle
  unfold get? blockCode instruction?
  rw [if_pos hbase, Array.getElem?_toList, Array.getElem?_extract, if_pos (by omega)]
  congr 1
  omega

theorem range?_append_of_mem {start length : Nat} (code : Code) (hs : s.Tiled) (hb : b ∈ s.blocks) :
    (s.append code).range? b start length = s.range? b start length := by
  have hle := hs.limit_le hb
  unfold range?
  split
  · next hin =>
    rw [Bool.and_eq_true, decide_eq_true_iff, decide_eq_true_iff] at hin
    rw [extract_append code (by omega)]
  · rfl

/-! ## Reading a segment -/

/-- A segment reads as lists of instructions, in three ways that agree: as one list, block by block,
and by the search for the block of an address. -/
structure Lists (s : Segment) (log : List Code) : Prop where
  tiled : s.Tiled
  size_eq : s.size = log.flatten.length
  /-- the blocks are the lists that are not empty -/
  contents : s.blocks.toList.map s.blockCode = log.filter (!·.isEmpty)
  exists_unique : ∀ a < s.size, ∃! i : Nat, ∃ b : CodeBlock, s.blocks[i]? = some b ∧ b.contains a = true
  found_iff : ∀ a (b : CodeBlock), s.blockAt? a = some b ↔ b ∈ s.blocks ∧ b.contains a = true
  not_found : ∀ a, s.size ≤ a → s.blockAt? a = none
  instruction : ∀ a, s.instruction? a = log.flatten[a]?
  in_block : ∀ a, (s.blockAt? a).bind (s.get? · a) = s.instruction? a
  span : ∀ a, s.span? a = log.flatten[a]?.bind (·.span)
  listing : s.listing = log.flatten.mapIdx line

/-- All that was in one segment is in another, where it was. -/
structure Keeps (s t : Segment) : Prop where
  instruction : ∀ a < s.size, t.instruction? a = s.instruction? a
  span : ∀ a < s.size, t.span? a = s.span? a
  found : ∀ a < s.size, t.blockAt? a = s.blockAt? a
  block : ∀ b ∈ s.blocks, b ∈ t.blocks ∧ t.blockCode b = s.blockCode b
  range : ∀ b ∈ s.blocks, ∀ start length, t.range? b start length = s.range? b start length

/-- Reading on: the lists of a segment, with one more at the end, are those of the larger segment. -/
theorem contents_append {log : List Code} (code : Code) (hs : s.Tiled)
    (h : s.blocks.toList.map s.blockCode = log.filter (!·.isEmpty)) :
    (s.append code).blocks.toList.map (s.append code).blockCode =
      (log ++ [code]).filter (!·.isEmpty) := by
  by_cases hne : code = []
  · subst hne
    rw [append_nil, h, List.filter_append]
    exact (List.append_nil _).symm
  have hold : s.blocks.toList.map (s.append code).blockCode = s.blocks.toList.map s.blockCode :=
    List.map_congr_left fun b hb => blockCode_append code hs (Array.mem_toList_iff.1 hb)
  have hkept : [code].filter (!·.isEmpty) = [code] := by simp [hne]
  rw [blocks_append hne, Array.toList_push, List.map_append, hold, h, List.filter_append, hkept,
    List.map_singleton, blockCode_nextBlock]

theorem listing_append (code : Code) (hs : s.Tiled) :
    (s.append code).listing = s.listing ++ code.mapIdx fun i ins => line (s.size + i) ins := by
  by_cases hne : code = []
  · subst hne
    exact (List.append_nil _).symm
  have hold : s.blocks.toList.flatMap (fun b => ((s.append code).blockCode b).mapIdx
      fun i ins => line (b.base + i) ins) = s.listing :=
    List.flatMap_congr fun b hb => by rw [blockCode_append code hs (Array.mem_toList_iff.1 hb)]
  conv_lhs => unfold listing
  rw [blocks_append hne, Array.toList_push, List.flatMap_append, hold, List.flatMap_singleton,
    blockCode_nextBlock]
  rfl

/-- Each line of the listing of a tiled segment stands at its address. -/
theorem Grows.listing_eq (h : Segment.empty.Grows s) : s.listing = s.code.toList.mapIdx line := by
  induction h with
  | refl => rfl
  | @append t code h ih =>
    rw [listing_append code h.tiled, ih, code_append, Array.toList_append, List.mapIdx_append]
    simp only [size, Array.length_toList, Nat.add_comm]

theorem Grows.contents (h : s.Grows t) (hs : s.Tiled) (hb : b ∈ s.blocks) :
    b ∈ t.blocks ∧ t.blockCode b = s.blockCode b := by
  refine ⟨h.mem_blocks hb, ?_⟩
  induction h with
  | refl => rfl
  | append code h ih => rw [blockCode_append code (h.tiled_of hs) (h.mem_blocks hb), ih]

theorem Grows.range? (h : s.Grows t) (hs : s.Tiled) (hb : b ∈ s.blocks) (start length : Nat) :
    t.range? b start length = s.range? b start length := by
  induction h with
  | refl => rfl
  | append code h ih => rw [range?_append_of_mem code (h.tiled_of hs) (h.mem_blocks hb), ih]

/-- What comes from the empty segment keeps all its blocks as it grows. -/
theorem Grows.keeps (h : s.Grows t) (hs : Segment.empty.Grows s) : s.Keeps t where
  instruction a ha := by
    have hsome : s.instruction? a = some s.code[a] := Array.getElem?_eq_getElem ha
    rw [hsome, h.instruction? hsome]
  span a ha := by
    have hsome : s.instruction? a = some s.code[a] := Array.getElem?_eq_getElem ha
    have hkept := h.instruction? hsome
    rw [← hsome] at hkept
    exact congrArg (Option.bind · (·.span)) hkept
  found a ha := by
    obtain ⟨b, hb, hba⟩ := hs.exists_block ha
    have hfound := hs.tiled.blockAt?_of_contains hb hba
    rw [hfound, h.blockAt? hs.tiled hfound]
  block b hb := h.contents hs.tiled hb
  range b hb := h.range? hs.tiled hb

/-- A segment that grew from the empty one by given lists reads as these. -/
theorem Grows.lists {log : List Code} (h : Segment.empty.Grows s)
    (hcode : s.code.toList = log.flatten)
    (hcontents : s.blocks.toList.map s.blockCode = log.filter (!·.isEmpty)) : s.Lists log where
  tiled := h.tiled
  size_eq := by rw [size, ← Array.length_toList, hcode]
  contents := hcontents
  exists_unique a ha := by
    obtain ⟨b, hb, hba⟩ := h.exists_block ha
    obtain ⟨i, hi⟩ := Array.getElem?_of_mem hb
    refine ⟨i, ⟨b, hi, hba⟩, ?_⟩
    rintro j ⟨c, hc, hca⟩
    exact h.tiled.index_eq hc hi hca hba
  found_iff _ _ := h.tiled.blockAt?_eq_some_iff
  not_found _ := h.tiled.blockAt?_eq_none
  instruction a := by rw [Segment.instruction?, ← hcode, Array.getElem?_toList]
  in_block a := by
    by_cases ha : a < s.size
    · obtain ⟨b, hb, hba⟩ := h.exists_block ha
      rw [h.tiled.blockAt?_of_contains hb hba, Option.bind_some, get?_eq h.tiled hb hba]
    · rw [h.tiled.blockAt?_eq_none (Nat.le_of_not_lt ha), Option.bind_none, Segment.instruction?,
        Array.getElem?_eq_none (Nat.le_of_not_lt ha)]
  span a := by rw [span?, ← hcode, Array.getElem?_toList]
  listing := by rw [h.listing_eq, hcode]

/-! ## Runs of operations -/

/-- A segment that reads as some lists reads after operations as these and those that the operations
made. -/
theorem after_lists {log : List Code} (ops : List Operation) (hs : Segment.empty.Grows s)
    (hcode : s.code.toList = log.flatten)
    (hcontents : s.blocks.toList.map s.blockCode = log.filter (!·.isEmpty)) :
    (s.after ops).Lists (log ++ s.committed ops) := by
  induction ops generalizing s log with
  | nil => exact (List.append_nil log).symm ▸ hs.lists hcode hcontents
  | cons op ops ih =>
    have hstep := apply_eq s op
    have hlog : log ++ s.committed (op :: ops) = (log ++ [op.code s]) ++ (op.apply s).committed ops :=
      (List.append_assoc log [op.code s] _).symm
    rw [hlog]
    refine ih (s := op.apply s) ?_ ?_ ?_
    · exact hstep ▸ .append (op.code s) hs
    · rw [hstep, code_append, Array.toList_append, hcode, List.flatten_append]
      simp
    · rw [hstep]
      exact contents_append (op.code s) hs.tiled hcontents

/-- After any operations the segment reads as the lists of instructions that they made, and it keeps
all of it through any others. -/
theorem append_only (ops later : List Operation) :
    (empty.after ops).Lists (empty.committed ops) ∧
      (empty.after ops).Keeps ((empty.after ops).after later) := by
  have hgrown : empty.Grows (empty.after ops) := grows_after empty ops
  have hread : (empty.after ops).Lists ([] ++ empty.committed ops) :=
    after_lists ops (.refl empty) rfl rfl
  exact ⟨hread, (grows_after _ later).keeps hgrown⟩

end Segment

end LuaMachine
