import LuaMachine.Proofs.Code.Blocks
import LuaMachine.Proofs.Dump.Writing

/-!
# Dumping and undumping

A function read from its dump is the function that was dumped, moved to the end of another segment:
addresses are shifted, spans get another source, nothing else changes. Every function of compiled
code can be dumped.

A segment is what blocks added to the empty segment make of it, so its blocks lie side by side
(`Segment.Grows.tiled`).

Main statement: `dump_undump`.
-/

namespace LuaMachine

/-! ## Instructions and blocks of a segment -/

namespace Segment

/-- The block that was added last holds the code that was added. -/
theorem range?_append (s : Segment) (code : Code) :
    (s.append code).range? (s.nextBlock code.length) s.size code.length = some code := by
  have hcode : ((s.append code).code.extract s.size (s.size + code.length)).toList = code := by
    unfold append
    split
    · next hempty =>
      rw [List.isEmpty_iff.1 hempty]
      simp
    · simp [size]
  rw [range?, hcode, if_pos (by simp [nextBlock])]

/-- The instructions of a range, in their order. -/
theorem range?_eq_some {s : Segment} (h : Segment.empty.Grows s) {b : CodeBlock} (hb : b ∈ s.blocks)
    {start n : Nat} {body : List Instruction} (hbody : s.range? b start n = some body) :
    body.length = n ∧ ∀ i < n, s.instruction? (start + i) = body[i]? := by
  have hlimit := h.tiled.limit_le hb
  unfold range? at hbody
  split at hbody
  · next hin =>
    simp only [Bool.and_eq_true, decide_eq_true_eq] at hin
    cases hbody
    have hsize : s.code.size = s.size := rfl
    constructor
    · rw [Array.length_toList, Array.size_extract]
      omega
    · intro i hi
      rw [Array.getElem?_toList, Array.getElem?_extract, instruction?]
      rw [if_pos (by omega)]
  · cases hbody

end Segment

namespace OpCode

/-- Where an operation passes control to, its jump target is among that. -/
theorem jumpTarget_mem_next {op : OpCode} {t x d : Nat} (h : op.jumpTarget? = some t) :
    ∃ e, (t, e) ∈ op.next x d := by
  cases op <;> simp_all [jumpTarget?, next]

end OpCode

/-- The addresses that an instruction in a function of a chunk holds lie in that function. -/
theorem AllVerified.addresses_within {code : Listing} {base n upvalues : Nat}
    (h : AllVerified code base n upvalues) (hbehind : ClosuresBehind code base n) {a m x : Nat}
    {name : String} {kind : HeaderKind} (ha : code a = some (.header name kind m)) (hle : base ≤ a)
    (hlt : a < base + n) (hax : a ≤ x) (hxm : x < a + m) {op : OpCode} (hop : code x = some op) :
    ∀ t ∈ op.addresses, a ≤ t ∧ t ≤ a + m := by
  have hm := (h.functionAt hle hlt ha).1
  obtain ⟨b, k, u, hab, ⟨⟨name', kind', hb⟩, locals, depth, -, hv⟩, hown⟩ :=
    h.owner hle ha hax hxm (by omega)
  -- the function that owns the instruction ends no later than the one around it
  have hend : b + k ≤ a + m := by
    rcases Nat.eq_or_lt_of_le hab with rfl | hlt'
    · rw [ha] at hb
      cases hb
      exact Nat.le_refl _
    · have hbx := hown.1
      exact h.nested hbehind ha hb hle hlt' (by omega) (by omega)
  obtain ⟨op', hop', hchecked⟩ := hv.checked x hown
  rw [hop] at hop'
  cases hop'
  have hjump : ∀ t, op.jumpTarget? = some t → a ≤ t ∧ t ≤ a + m := by
    intro t ht
    obtain ⟨e, he⟩ := OpCode.jumpTarget_mem_next (x := x) (d := depth x) ht
    obtain ⟨⟨hbt, htk, -⟩, -⟩ := hchecked.flow t e he
    omega
  intro t ht
  cases op with
  | closure entry captures =>
    simp only [OpCode.addresses, List.mem_singleton] at ht
    subst ht
    obtain ⟨_, _, _, _, hbt, htk, -⟩ := hchecked.nested t captures rfl
    omega
  | jump | jumpIfFalse | jumpFalseOrPop | jumpTrueOrPop | forLoop | iterCheck =>
    exact hjump t (by simpa [OpCode.addresses, OpCode.jumpTarget?, eq_comm] using ht)
  | _ => simp [OpCode.addresses, OpCode.jumpTarget?] at ht

namespace Dump

/-! ## Dumps of compiled functions -/

/-- What it takes for a function to be dumped. -/
theorem ofFunction_eq_ok {s : Segment} {entry : Nat} {hasEnv : Bool} {bytes : List UInt8} :
    ofFunction s entry hasEnv = .ok bytes ↔
      ∃ block name kind n span body w, s.blockAt? entry = some block ∧
        s.instruction? entry = some ⟨.header name kind n, span⟩ ∧
        s.range? block entry n = some body ∧
        writeFunction entry hasEnv body {} = .ok () w ∧ bytes = w.bytes.toList := by
  constructor
  · intro h
    unfold ofFunction at h
    cases hblock : s.blockAt? entry with
    | none =>
      rw [hblock] at h
      cases h
    | some block =>
      simp only [hblock] at h
      split at h
      · next name kind n span hins =>
        cases hbody : s.range? block entry n with
        | none =>
          rw [hbody] at h
          cases h
        | some body =>
          simp only [hbody] at h
          cases hrun : (writeFunction entry hasEnv body).run {} with
          | error e =>
            rw [hrun] at h
            cases h
          | ok written =>
            rw [hrun] at h
            cases h
            exact ⟨block, name, kind, n, span, body, written.2, rfl, hins, hbody,
              Write.run_eq_ok.1 hrun, rfl⟩
      · cases h
  · rintro ⟨block, name, kind, n, span, body, w, hblock, hins, hbody, hrun, rfl⟩
    unfold ofFunction
    simp only [hblock, hins, hbody, Write.run_eq_ok.2 hrun]
    rfl

/-- Every function of compiled code can be dumped when its sizes are bounded, also after the segment
has grown. -/
theorem ofFunction_of_compile {s s' t : Segment} {options : CompileOptions} {source : String}
    {chunk : CompiledChunk} (hs : Segment.empty.Grows s)
    (h : s.compile options source = .ok (chunk, s')) (ht : s'.Grows t) {a n : Nat} {name : String}
    {kind : HeaderKind} (hin : chunk.block.contains a = true)
    (ha : s'.ops a = some (.header name kind n)) :
    ∃ body, t.range? chunk.block a n = some body ∧
      (SizesBounded body → ∀ hasEnv, ∃ bytes, ofFunction t a hasEnv = .ok bytes) := by
  obtain ⟨-, hall⟩ := Segment.allVerified_compile h
  obtain ⟨hplain, hbehind, -⟩ := Segment.laid_compile h
  rw [CodeBlock.contains_iff] at hin
  have hgrows' : Segment.empty.Grows s' := hs.trans (Segment.hasHeader_compile h).1
  have hgrows : Segment.empty.Grows t := hgrows'.trans ht
  have hblock : s'.blockAt? a = some chunk.block := by
    obtain ⟨tree, code, spans, -, -, rfl, rfl⟩ := Segment.compile_eq_ok h
    exact hs.tiled.blockAt?_append hin.1 hin.2
  have hmem' : chunk.block ∈ s'.blocks := (hgrows'.tiled.blockAt?_eq_some_iff.1 hblock).1
  have hmem : chunk.block ∈ t.blocks := ht.mem_blocks hmem'
  have hend : a + n ≤ chunk.block.limit := by
    have := (hall.functionAt hin.1 (by omega) ha).1
    omega
  have hrange : t.range? chunk.block a n = some (t.code.extract a (a + n)).toList := by
    simp [Segment.range?, hin.1, hend]
  refine ⟨_, hrange, fun hsizes hasEnv => ?_⟩
  obtain ⟨hlength, hbody⟩ := Segment.range?_eq_some hgrows hmem hrange
  generalize (t.code.extract a (a + n)).toList = body at *
  -- the instructions of the function are those that were compiled
  have hops : ∀ i ∈ body, ∃ x, a ≤ x ∧ x < a + n ∧ s'.ops x = some i.op := by
    intro i hi
    obtain ⟨j, hj, rfl⟩ := List.getElem_of_mem hi
    rw [hlength] at hj
    have hget := hbody j hj
    rw [List.getElem?_eq_getElem (by omega)] at hget
    have hsize := hgrows'.tiled.limit_le hmem'
    refine ⟨a + j, by omega, by omega, ?_⟩
    cases hold : s'.instruction? (a + j) with
    | none =>
      have hlt : a + j < s'.size := by omega
      rw [Segment.instruction?, Array.getElem?_eq_none_iff] at hold
      exact absurd hlt (Nat.not_lt_of_le hold)
    | some i =>
      rw [ht.instruction? hold] at hget
      cases hget
      rw [Segment.ops, hold]
      rfl
  have hplain' : ∀ i ∈ body, ∀ v, i.op = .literal v → v.isLiteral = true := by
    intro i hi v hv
    obtain ⟨x, hax, hxn, hx⟩ := hops i hi
    exact hplain x v (CodeBlock.contains_iff.2 ⟨by omega, by omega⟩) (hv ▸ hx)
  have haddresses : ∀ i ∈ body, ∀ b ∈ i.op.addresses, a ≤ b ∧ b ≤ a + body.length := by
    intro i hi
    obtain ⟨x, hax, hxn, hx⟩ := hops i hi
    rw [hlength]
    exact hall.addresses_within hbehind ha hin.1 (by omega) hax hxn hx
  obtain ⟨w, hrun⟩ := succeeds_function hasEnv hsizes hplain' haddresses
  obtain ⟨⟨op, span⟩, hi, hop⟩ := Option.map_eq_some_iff.1 ha
  simp only at hop
  subst hop
  exact ⟨_, ofFunction_eq_ok.2 ⟨chunk.block, name, kind, n, span, body, w, ht.blockAt? hgrows'.tiled hblock,
    ht.instruction? hi, hrange, hrun, rfl⟩⟩

/-! ## Reading a dump back -/

/-- An operation that is written holds addresses of its function only. -/
theorem within_of_writeOp {entry length : Nat} {op : OpCode} {w w' : Writer}
    (h : writeOp entry length op w = .ok () w') :
    ∀ a ∈ op.addresses, entry ≤ a ∧ a ≤ entry + length := by
  have haddress : ∀ {a : Nat} {w w' : Writer},
      (relative entry length a >>= Write.nat) w = .ok () w' →
        entry ≤ a ∧ a ≤ entry + length := by
    intro a w w' h
    obtain ⟨r, w₁, hrel, -⟩ := Write.run_bind_ok.1 h
    unfold relative at hrel
    split at hrel
    · next hin =>
      simp only [Bool.and_eq_true, decide_eq_true_eq] at hin
      omega
    · cases hrel
  cases op with
  | closure target captures =>
    obtain ⟨⟨⟩, w₁, -, h⟩ := Write.run_bind_ok.1 h
    obtain ⟨⟨⟩, w₂, h, -⟩ := Write.run_bind_ok.1 h
    simpa [OpCode.addresses] using haddress h
  | jump | jumpIfFalse | jumpFalseOrPop | jumpTrueOrPop | forLoop | iterCheck =>
    obtain ⟨⟨⟩, w₁, -, h⟩ := Write.run_bind_ok.1 h
    simpa [OpCode.addresses, OpCode.jumpTarget?] using haddress h
  | _ => simp [OpCode.addresses, OpCode.jumpTarget?]

/-- An item of a sequence that is written is written itself. -/
theorem exists_run_of_each {write : α → Write Unit} : ∀ {items : List α} {w w' : Writer},
    Write.each write items w = .ok () w' →
      ∀ a ∈ items, ∃ w₁ w₂, write a w₁ = .ok () w₂
  | [], _, _, _ => by simp
  | a :: rest, w, w', h => by
    obtain ⟨⟨⟩, w₁, hfirst, hrest⟩ := Write.run_bind_ok.1 h
    intro b hb
    rcases List.mem_cons.1 hb with rfl | hb
    · exact ⟨w, w₁, hfirst⟩
    · exact exists_run_of_each hrest b hb

theorem within_of_writeFunction {entry : Nat} {hasEnv : Bool} {body : List Instruction}
    {w w' : Writer} (h : writeFunction entry hasEnv body w = .ok () w') :
    ∀ i ∈ body, ∀ a ∈ i.op.addresses, entry ≤ a ∧ a ≤ entry + body.length := by
  intro i hi
  obtain ⟨⟨⟩, w₁, -, h⟩ := Write.run_bind_ok.1 h
  obtain ⟨⟨⟩, w₂, -, h⟩ := Write.run_bind_ok.1 h
  obtain ⟨⟨⟩, w₃, -, h⟩ := Write.run_bind_ok.1 h
  obtain ⟨⟨⟩, w₄, -, h⟩ := Write.run_bind_ok.1 h
  obtain ⟨w₅, w₆, hi⟩ := exists_run_of_each h i hi
  obtain ⟨⟨⟩, w₇, hop, -⟩ := Write.run_bind_ok.1 hi
  exact within_of_writeOp hop

/-- A moved operation is written in the same way. -/
theorem writeOp_mapAddress {entry length base : Nat} {op : OpCode}
    (h : ∀ a ∈ op.addresses, entry ≤ a ∧ a ≤ entry + length) :
    writeOp base length (op.mapAddress (· + base - entry)) = writeOp entry length op := by
  have hrel : ∀ a ∈ op.addresses,
      relative base length (a + base - entry) = relative entry length a := by
    intro a ha
    obtain ⟨h₁, h₂⟩ := h a ha
    have hsub : a + base - entry - base = a - entry := by omega
    have hlow : base ≤ a + base - entry := by omega
    have hin : a ≤ length + entry := by omega
    simp [relative, hsub, hlow, h₁, hin]
  cases op with
  | closure | jump | jumpIfFalse | jumpFalseOrPop | jumpTrueOrPop | forLoop | iterCheck =>
    simp only [OpCode.mapAddress, writeOp]
    rw [hrel _ (by simp [OpCode.addresses, OpCode.jumpTarget?])]
  | _ => rfl

theorem writeSpan_moved (k : Nat) (span : Option Span) :
    writeSpan (span.map ({ · with origin := .source k })) = writeSpan span := by
  cases span <;> rfl

theorem writeFunction_moved {entry base k : Nat} {hasEnv : Bool} {body : List Instruction}
    (h : ∀ i ∈ body, ∀ a ∈ i.op.addresses, entry ≤ a ∧ a ≤ entry + body.length) :
    writeFunction base hasEnv (body.map (·.moved (· + base - entry) k)) =
      writeFunction entry hasEnv body := by
  have heach : ∀ items : List Instruction, (∀ i ∈ items, i ∈ body) →
      Write.each (writeInstruction base body.length)
          (items.map (·.moved (· + base - entry) k)) =
        Write.each (writeInstruction entry body.length) items := by
    intro items hitems
    induction items with
    | nil => rfl
    | cons i rest ih =>
      have hi : writeInstruction base body.length (i.moved (· + base - entry) k) =
          writeInstruction entry body.length i := by
        unfold writeInstruction Instruction.moved
        rw [writeOp_mapAddress (h i (hitems i (by simp))), writeSpan_moved]
      rw [List.map_cons, Write.each, Write.each, hi, ih fun j hj => hitems j (by simp [hj])]
  unfold writeFunction
  rw [List.length_map, heach body fun i hi => hi]

/-- The function of `n` instructions at `entry` of `s` was added at the end of `t`, which gave `f`
and `t'`: nothing else of `t` changed, and each instruction is the original one with its addresses,
which lie in the function, shifted along, and attributed to the source `k`. -/
structure Relocated (s : Segment) (entry n : Nat) (name : String) (hasEnv : Bool) (t : Segment)
    (k : Nat) (f : Undumped) (t' : Segment) : Prop where
  entry_eq : f.entry = t.size
  block_eq : f.block = ⟨t.size, t.size + n⟩
  name_eq : f.name = name
  hasEnv_eq : f.hasEnv = hasEnv
  size_eq : t'.size = t.size + n
  before : ∀ x < t.size, t'.instruction? x = t.instruction? x
  moved : ∀ i < n, ∃ ins, s.instruction? (entry + i) = some ins ∧
    (∀ a ∈ ins.op.addresses, entry ≤ a ∧ a ≤ entry + n) ∧
    t'.instruction? (t.size + i) = some (ins.moved (· + t.size - entry) k)

/-- Shifting addresses from one base to another, by way of zero. -/
theorem moved_relocate {entry length base k : Nat} {i : Instruction}
    (h : ∀ a ∈ i.op.addresses, entry ≤ a ∧ a ≤ entry + length) :
    { i.moved (· - entry) k with op := (i.moved (· - entry) k).op.relocate base } =
      i.moved (· + base - entry) k := by
  unfold Instruction.moved
  rw [OpCode.relocate_eq_mapAddress, OpCode.mapAddress_mapAddress]
  refine congrArg (Instruction.mk · _) (OpCode.mapAddress_congr ?_)
  intro a ha
  have := (h a ha).1
  omega

/-- A dump is read back as the function that was dumped, at the end of the segment, and dumping that
again gives the same bytes. -/
theorem undump_ofFunction {s t : Segment} (hs : Segment.empty.Grows s) (ht : Segment.empty.Grows t)
    {entry n : Nat} {name : String} {kind : HeaderKind} {span : Option Span} {hasEnv : Bool}
    {bytes : List UInt8} (hheader : s.instruction? entry = some ⟨.header name kind n, span⟩)
    (hn : 1 ≤ n) (h : ofFunction s entry hasEnv = .ok bytes) (k : Nat) :
    ∃ f t', t.undump bytes k = .ok (f, t') ∧ Relocated s entry n name hasEnv t k f t' ∧
      ofFunction t' f.entry hasEnv = .ok bytes := by
  obtain ⟨block, name', kind', n', span', body, w, hblock, hheader', hrange, hrun, rfl⟩ :=
    ofFunction_eq_ok.1 h
  rw [hheader] at hheader'
  cases hheader'
  obtain ⟨hlength, hbody⟩ :=
    Segment.range?_eq_some hs (hs.tiled.blockAt?_eq_some_iff.1 hblock).1 hrange
  have hwithin := within_of_writeFunction hrun
  -- what was written is read, up to the last byte
  obtain ⟨out, hout, hread⟩ := codes_function entry k hasEnv body _ _ hrun
  have hread := hread []
  simp only [List.append_nil] at hread
  have hbytes : w.bytes.toList = out := by simpa using hout
  -- the first instruction is the header
  obtain ⟨i₀, rest, rfl⟩ : ∃ i₀ rest, body = i₀ :: rest := List.exists_cons_of_length_pos (by omega)
  have h₀ := hbody 0 (by omega)
  rw [Nat.add_zero, hheader, List.getElem?_cons_zero] at h₀
  cases h₀
  generalize hb : (⟨.header name kind n, span⟩ :: rest : List Instruction) = body at *
  have hcode : (body.map (·.moved (· - entry) k)).map
      (fun i => { i with op := i.op.relocate t.size }) =
        body.map (·.moved (· + t.size - entry) k) := by
    rw [List.map_map]
    refine List.map_congr_left fun i hi => ?_
    exact moved_relocate (hwithin i hi)
  have hundump : t.undump w.bytes.toList k = .ok
      ({ entry := t.size, block := t.nextBlock body.length, name, hasEnv
         spans := (body.map (·.moved (· - entry) k)).filterMap (·.span) },
        t.append (body.map (·.moved (· + t.size - entry) k))) := by
    have hread' : (readFunction k).run { bytes := out } = _ := hread
    unfold Segment.undump
    rw [hbytes, hread', ← hcode]
    subst hb
    have hlen : (rest.map (·.moved (· - entry) k)).length = rest.length := List.length_map _
    simp only [List.length_cons, ← hlen]
    rfl
  have hget : ∀ i < n, ∃ ins ∈ body, s.instruction? (entry + i) = some ins ∧
      t.size ≤ t.size + i ∧ (t.append (body.map (·.moved (· + t.size - entry) k))).instruction?
        (t.size + i) = some (ins.moved (· + t.size - entry) k) := by
    intro i hi
    have hlt : i < body.length := by omega
    refine ⟨body[i], List.getElem_mem hlt, ?_, Nat.le_add_right _ _, ?_⟩
    · rw [hbody i hi, List.getElem?_eq_getElem hlt]
    · rw [Segment.instruction?_append_of_le (Nat.le_add_right _ _), Nat.add_sub_cancel_left,
        List.getElem?_map, List.getElem?_eq_getElem hlt, Option.map_some]
  have hsize : (t.append (body.map (·.moved (· + t.size - entry) k))).size = t.size + n := by
    rw [Segment.size_append, List.length_map, hlength]
  refine ⟨_, _, hundump, ⟨rfl, ?_, rfl, rfl, hsize, ?_, ?_⟩, ?_⟩
  · rw [hlength]
    rfl
  · exact fun x hx => Segment.instruction?_append_of_lt hx
  · intro i hi
    obtain ⟨ins, hmem, hins, -, hins'⟩ := hget i hi
    have hw := hwithin ins hmem
    rw [hlength] at hw
    exact ⟨ins, hins, hw, hins'⟩
  · -- the moved function is written in the same way
    generalize hcode' : body.map (·.moved (· + t.size - entry) k) = code at *
    have hlen : code.length = n := by rw [← hcode', List.length_map, hlength]
    have hblock' : (t.append code).blockAt? t.size = some (t.nextBlock code.length) :=
      ht.tiled.blockAt?_append (Nat.le_refl _) (by omega)
    have hrange' : (t.append code).range? (t.nextBlock code.length) t.size n = some code := by
      rw [← hlen]
      exact Segment.range?_append t code
    have hheader' : ∃ span', (t.append code).instruction? t.size =
        some ⟨.header name kind n, span'⟩ := by
      obtain ⟨ins, -, hins, -, hins'⟩ := hget 0 (by omega)
      rw [Nat.add_zero, hheader] at hins
      cases hins
      exact ⟨_, hins'⟩
    obtain ⟨span', hheader'⟩ := hheader'
    refine ofFunction_eq_ok.2 ⟨_, name, kind, n, span', code, w, hblock', hheader', hrange', ?_, rfl⟩
    rw [← hcode', writeFunction_moved hwithin, hrun]

/-! ## The round trip -/

instance (body : List Instruction) : Decidable (SizesBounded body) :=
  decidable_of_iff
    (body.length < sizeLimit ∧ (∀ i ∈ body, ∀ n ∈ i.sizes, n < sizeLimit) ∧
      (∀ i ∈ body, ∀ s ∈ i.op.texts, s.utf8ByteSize < sizeLimit) ∧
      (body.flatMap (·.op.texts)).dedup.length < sizeLimit)
    ⟨fun h => ⟨h.1, h.2.1, h.2.2.1, h.2.2.2⟩, fun h => ⟨h.length, h.sizes, h.texts, h.distinct⟩⟩

/-- Dumping and undumping are inverse to each other up to the place of the code. Every function of
compiled code whose sizes are bounded can be dumped, whatever was added to the segment since. And
whenever a function of a segment was dumped, its dump is read back at the end of any other segment,
under any source: name, environment and instructions are the same, but for the addresses, which are
shifted along, and the source of the spans; dumped again it gives the same bytes. -/
theorem dump_undump :
    (∀ {s s' t : Segment} {options : CompileOptions} {source : String} {chunk : CompiledChunk},
      Segment.empty.Grows s → s.compile options source = .ok (chunk, s') → s'.Grows t →
      ∀ {a n : Nat} {name : String} {kind : HeaderKind}, chunk.block.contains a = true →
        s'.ops a = some (.header name kind n) →
        ∃ body, t.range? chunk.block a n = some body ∧
          (SizesBounded body → ∀ hasEnv, ∃ bytes, ofFunction t a hasEnv = .ok bytes)) ∧
    (∀ {s t : Segment}, Segment.empty.Grows s → Segment.empty.Grows t →
      ∀ {entry n : Nat} {name : String} {kind : HeaderKind} {span : Option Span} {hasEnv : Bool}
        {bytes : List UInt8}, s.instruction? entry = some ⟨.header name kind n, span⟩ → 1 ≤ n →
        ofFunction s entry hasEnv = .ok bytes → ∀ k, ∃ f t', t.undump bytes k = .ok (f, t') ∧
          Relocated s entry n name hasEnv t k f t' ∧ ofFunction t' f.entry hasEnv = .ok bytes) :=
  ⟨fun hs h ht _ _ _ _ hin ha => ofFunction_of_compile hs h ht hin ha,
    fun hs ht _ _ _ _ _ _ _ hheader hn h k => undump_ofFunction hs ht hheader hn h k⟩

/-- What is checked of a source text by compiling it: an inner function, and its sizes. -/
def hasSmallInner (source : String) (a : Nat) : Bool :=
  match Segment.empty.compile { chunk := "c", source := 0 } source with
  | .ok (chunk, s') => chunk.block.contains a && (match s'.instruction? a with
    | some ⟨.header _ _ n, _⟩ => decide (1 ≤ n) && (match s'.range? chunk.block a n with
      | some body => decide (SizesBounded body)
      | none => false)
    | _ => false)
  | .error _ => false

/-- A function with a jump, a table field and a local, dumped and moved behind the code it is
from. -/
theorem dump_undump_inner_function : ∃ chunk s' bytes f t',
    Segment.empty.compile { chunk := "c", source := 0 }
        "return function(a) if a then return x.y end end" = .ok (chunk, s') ∧
      ofFunction s' 4 true = .ok bytes ∧ s'.undump bytes 7 = .ok (f, t') ∧
      f.entry = s'.size ∧ ofFunction t' f.entry true = .ok bytes := by
  have hrun : hasSmallInner "return function(a) if a then return x.y end end" 4 = true := by
    decide +kernel
  unfold hasSmallInner at hrun
  cases hc : Segment.empty.compile { chunk := "c", source := 0 }
      "return function(a) if a then return x.y end end" with
  | error e =>
    rw [hc] at hrun
    cases hrun
  | ok p =>
    obtain ⟨chunk, s'⟩ := p
    simp only [hc, Bool.and_eq_true] at hrun
    obtain ⟨hin, hhead⟩ := hrun
    split at hhead
    · next name kind n span ha =>
      simp only [Bool.and_eq_true, decide_eq_true_eq] at hhead
      obtain ⟨hn, hsizes⟩ := hhead
      have hops : s'.ops 4 = some (.header name kind n) := by
        rw [Segment.ops, ha]
        rfl
      have hs' := (Segment.hasHeader_compile hc).1
      obtain ⟨body, hbody, hdump⟩ := dump_undump.1 (.refl _) hc (.refl _) hin hops
      rw [hbody] at hsizes
      obtain ⟨bytes, hbytes⟩ := hdump (of_decide_eq_true hsizes) true
      obtain ⟨f, t', hundump, hf, hagain⟩ := dump_undump.2 hs' hs' ha hn hbytes 7
      exact ⟨chunk, s', bytes, f, t', rfl, hbytes, hundump, hf.entry_eq, hagain⟩
    · cases hhead

end Dump

end LuaMachine
