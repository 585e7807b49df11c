import LuaMachine.Proofs.Dump.Roundtrip

/-!
# Code that comes from the compiler

The code of a segment is genuine when its blocks were made by the compiler, or read from dumps of
functions of genuine code (`Segment.Genuine`). All such blocks are sound (`SoundBlock`): their
functions are verified and nested, their closures are made of functions, and their loops are left
forwards. A dump makes a block of a function that was part of another one, so this is shown by
moving verified code from one place to another (`Moved.soundBlock`).

Main statements: `Segment.Genuine.block`, and what follows from it for every address that control
can come to.
-/

namespace LuaMachine

/-- Code of `n` instructions at `base`, filled by the function that it begins with. All its functions
are verified, and they are nested. -/
structure SoundBlock (code : Listing) (base n : Nat) : Prop where
  pos : 0 < n
  header : ∃ name kind, code base = some (.header name kind n)
  functions : ∀ {a name kind m}, base ≤ a → a < base + n → code a = some (.header name kind m) →
    a + m ≤ base + n ∧ ∃ u, FunctionAt code a m u
  nested : ∀ {a b name name' kind kind' m k}, base ≤ a → code a = some (.header name kind m) →
    code b = some (.header name' kind' k) → a < b → b < a + m → b < base + n → b + k ≤ a + m
  closures : ∀ {x a captures}, base ≤ x → x < base + n → code x = some (.closure a captures) →
    base ≤ a ∧ a < base + n ∧ ∃ name kind m, code a = some (.header name kind m)
  exits : ∀ {x op t}, base ≤ x → x < base + n → code x = some op → op.exit? = some t → x < t

theorem FunctionAt.one_lt {code : Listing} {a m u : Nat} (h : FunctionAt code a m u) : 1 < m := by
  obtain ⟨⟨name, kind, ha⟩, locals, depth, -, hv⟩ := h
  exact hv.one_lt_length ha

theorem SoundBlock.congr {code code' : Listing} {base n : Nat} (h : SoundBlock code base n)
    (hcode : ∀ x, base ≤ x → x < base + n → code' x = code x) : SoundBlock code' base n := by
  have hpos := h.pos
  refine ⟨h.pos, ?_, ?_, ?_, ?_, ?_⟩
  · obtain ⟨name, kind, hbase⟩ := h.header
    exact ⟨name, kind, (hcode base (Nat.le_refl _) (by omega)).trans hbase⟩
  · intro a name kind m hle hlt ha
    rw [hcode a hle hlt] at ha
    obtain ⟨hm, u, hf⟩ := h.functions hle hlt ha
    exact ⟨hm, u, hf.congr fun x hx hxm => hcode x (by omega) (by omega)⟩
  · intro a b name name' kind kind' m k hle ha hb hab hbm hlt
    rw [hcode a hle (by omega)] at ha
    rw [hcode b (by omega) hlt] at hb
    exact h.nested hle ha hb hab hbm hlt
  · intro x a captures hle hlt hx
    rw [hcode x hle hlt] at hx
    obtain ⟨ha, han, name, kind, m, hheader⟩ := h.closures hle hlt hx
    exact ⟨ha, han, name, kind, m, (hcode a ha han).trans hheader⟩
  · intro x op t hle hlt hx
    rw [hcode x hle hlt] at hx
    exact h.exits hle hlt hx

/-- A chunk that the compiler made is a sound block. -/
theorem Segment.soundBlock_compile {s s' : Segment} {options : CompileOptions} {source : String}
    {chunk : CompiledChunk} (h : s.compile options source = .ok (chunk, s')) :
    SoundBlock s'.ops chunk.block.base (chunk.block.limit - chunk.block.base) := by
  obtain ⟨-, hall⟩ := allVerified_compile h
  obtain ⟨-, hbehind, hexits⟩ := laid_compile h
  refine ⟨Nat.lt_trans Nat.zero_lt_one hall.outermost.one_lt, hall.outermost.1, ?_, ?_, ?_, ?_⟩
  · exact fun hle hlt ha => hall.functionAt hle hlt ha
  · exact fun hle ha hb hab hbm hlt => hall.nested hbehind ha hb hle hab hbm hlt
  · intro x a captures hle hlt hx
    obtain ⟨ha, m, hm, hf⟩ := hall.closures hle hlt hx
    have hone := hf.one_lt
    obtain ⟨⟨name, kind, hheader⟩, -⟩ := hf
    exact ⟨by omega, by omega, name, kind, m, hheader⟩
  · exact fun hle _ hx ht => hexits _ _ _ hle hx ht

/-! ## Moved code -/

namespace OpCode

variable {op : OpCode} {f : Nat → Nat}

theorem needs_mapAddress : (op.mapAddress f).needs = op.needs := by cases op <;> rfl

theorem slotsWithin_mapAddress {locals upvalues : Nat} :
    (op.mapAddress f).SlotsWithin locals upvalues ↔ op.SlotsWithin locals upvalues := by
  cases op <;> exact Iff.rfl

theorem exit?_mapAddress : (op.mapAddress f).exit? = op.exit?.map f := by cases op <;> rfl

/-- A moved operation passes control on to where it passed control on to before. -/
theorem next_mapAddress {x y : Nat} (hf : f (x + 1) = y + 1) (d : Nat) :
    (op.mapAddress f).next y d = (op.next x d).map fun p => (f p.1, p.2) := by
  cases op <;> simp [mapAddress, next, leaves, hf]

theorem mapAddress_eq_header {name : String} {kind : HeaderKind} {m : Nat} :
    op.mapAddress f = .header name kind m ↔ op = .header name kind m := by
  cases op <;> simp [mapAddress]

end OpCode

/-- The `n` instructions at `a` stand at `b` in another listing, with their addresses shifted
along. -/
def Moved (code code' : Listing) (a n b : Nat) : Prop :=
  ∀ i < n, ∃ op, code (a + i) = some op ∧ code' (b + i) = some (op.mapAddress (· + b - a))

namespace Moved

variable {code code' : Listing} {a b n i j m u : Nat}

theorem header_iff (h : Moved code code' a n b) (hi : i < n) {name : String} {kind : HeaderKind} :
    code' (b + i) = some (.header name kind m) ↔ code (a + i) = some (.header name kind m) := by
  obtain ⟨op, hop, hop'⟩ := h i hi
  rw [hop, hop', Option.some_inj, Option.some_inj, OpCode.mapAddress_eq_header]

theorem covered_iff (h : Moved code code' a n b) (hi : i < n) :
    Covered code' (b + j) (b + i) ↔ Covered code (a + j) (a + i) := by
  constructor
  · rintro ⟨x, name, kind, k, hx, hlo, hle, hlt⟩
    have hplace : x = b + (x - b) := by omega
    rw [hplace, h.header_iff (by omega)] at hx
    exact ⟨a + (x - b), name, kind, k, hx, by omega, by omega, by omega⟩
  · rintro ⟨x, name, kind, k, hx, hlo, hle, hlt⟩
    have hplace : x = a + (x - a) := by omega
    rw [hplace, ← h.header_iff (by omega)] at hx
    exact ⟨b + (x - a), name, kind, k, hx, by omega, by omega, by omega⟩

theorem owns_iff (h : Moved code code' a n b) (hi : i < n) :
    Owns code' (b + j) m (b + i) ↔ Owns code (a + j) m (a + i) := by
  unfold Owns
  rw [Nat.add_assoc b j 1, Nat.add_assoc a j 1, h.covered_iff hi]
  refine and_congr (by omega) (and_congr (by omega) Iff.rfl)

/-- A verified function is verified where it was moved to. -/
theorem verified (h : Moved code code' a n b) {locals upvalues : Nat} {depth : Nat → Nat}
    (hjm : j + m ≤ n) (hv : Verified code (a + j) m locals upvalues depth) :
    Verified code' (b + j) m locals upvalues fun y => depth (y + a - b) := by
  have hplace : ∀ i, b + i + a - b = a + i := fun i => by omega
  have hentry := hv.owns_entry.2.1
  refine ⟨?_, (h.owns_iff (by omega)).2 hv.owns_entry, ?_⟩
  · rw [hplace]
    exact hv.entry
  · intro y hy
    obtain ⟨i, rfl⟩ : ∃ i, y = b + i := ⟨y - b, by have := hy.1; omega⟩
    have hin : i < n := by
      have := hy.2.1
      omega
    have hown := (h.owns_iff hin).1 hy
    obtain ⟨op, hop, hop'⟩ := h i hin
    obtain ⟨op₀, hop₀, hc⟩ := hv.checked _ hown
    rw [hop] at hop₀
    cases hop₀
    refine ⟨_, hop', ?_, OpCode.slotsWithin_mapAddress.2 hc.slots, ?_, ?_⟩
    · rw [hplace, OpCode.needs_mapAddress]
      exact hc.operands
    · intro y' d hnext
      have hbehind : (a + i) + 1 + b - a = b + i + 1 := by omega
      rw [hplace, OpCode.next_mapAddress hbehind, List.mem_map] at hnext
      obtain ⟨⟨y₀, d₀⟩, hy₀, heq⟩ := hnext
      cases heq
      obtain ⟨hown₀, hd₀⟩ := hc.flow _ _ hy₀
      have hge := hown₀.1
      have hlt := hown₀.2.1
      have hy' : y₀ + b - a = b + (y₀ - a) := by omega
      have hy₀' : y₀ = a + (y₀ - a) := by omega
      dsimp only
      rw [hy', hplace, ← hy₀']
      refine ⟨(h.owns_iff (by omega)).2 ?_, hd₀⟩
      rw [← hy₀']
      exact hown₀
    · intro c captures hclosure
      obtain ⟨c₀, hop₀, rfl⟩ : ∃ c₀, op = .closure c₀ captures ∧ c₀ + b - a = c := by
        cases op <;> simp_all [OpCode.mapAddress]
      obtain ⟨name, kind, k, hheader, hlo, hhi, hend⟩ := hc.nested c₀ captures hop₀
      have hc₀ : c₀ = a + (c₀ - a) := by omega
      rw [hc₀, ← h.header_iff (by omega)] at hheader
      have hc' : c₀ + b - a = b + (c₀ - a) := by omega
      rw [hc']
      exact ⟨name, kind, k, hheader, by omega, by omega, by omega⟩

theorem functionAt (h : Moved code code' a n b) (hjm : j + m ≤ n)
    (hf : FunctionAt code (a + j) m u) : FunctionAt code' (b + j) m u := by
  have hone := hf.one_lt
  obtain ⟨⟨name, kind, hheader⟩, locals, depth, hbegin, hv⟩ := hf
  refine ⟨⟨name, kind, (h.header_iff (by omega)).2 hheader⟩, locals, _, ?_, h.verified hjm hv⟩
  obtain ⟨op, hop, hop'⟩ := h (j + 1) (by omega)
  rw [← Nat.add_assoc, hbegin] at hop
  cases hop
  exact hop'

/-- A function of a sound block makes a sound block where it is moved to. -/
theorem soundBlock (h : Moved code code' a n b) {base k : Nat} (hs : SoundBlock code base k)
    (hle : base ≤ a) (hlt : a < base + k) {name : String} {kind : HeaderKind}
    (ha : code a = some (.header name kind n)) : SoundBlock code' b n := by
  obtain ⟨hend, u, hf⟩ := hs.functions hle hlt ha
  have hone := hf.one_lt
  have hplace : ∀ {y}, b ≤ y → y < b + n → ∃ i < n, y = b + i :=
    fun {y} hy hyn => ⟨y - b, by omega, by omega⟩
  -- a function that starts inside ends inside
  have hinside : ∀ {i m : Nat} {name' : String} {kind' : HeaderKind}, i < n →
      code (a + i) = some (.header name' kind' m) → i + m ≤ n := by
    intro i m name' kind' hi hheader
    rcases Nat.eq_zero_or_pos i with rfl | hpos
    · rw [Nat.add_zero, ha] at hheader
      cases hheader
      omega
    · have hm := hs.nested hle ha hheader (by omega) (by omega) (by omega)
      omega
  refine ⟨by omega, ⟨name, kind, (h.header_iff (i := 0) (by omega)).2 ha⟩, ?_, ?_, ?_, ?_⟩
  · intro c name' kind' m hc hcn hheader
    obtain ⟨i, hi, rfl⟩ := hplace hc hcn
    rw [h.header_iff hi] at hheader
    have hm := hinside hi hheader
    obtain ⟨-, u', hf'⟩ := hs.functions (by omega) (by omega) hheader
    exact ⟨by omega, u', h.functionAt hm hf'⟩
  · intro c d name' name'' kind' kind'' m m' hc hheader hheader' hcd hdm hd
    obtain ⟨i, hi, rfl⟩ := hplace hc (by omega)
    obtain ⟨j, hj, rfl⟩ := hplace (by omega) hd
    rw [h.header_iff hi] at hheader
    rw [h.header_iff hj] at hheader'
    have hm := hs.nested (by omega) hheader hheader' (by omega) (by omega) (by omega)
    omega
  · intro y c captures hy hyn hclosure
    obtain ⟨i, hi, rfl⟩ := hplace hy hyn
    obtain ⟨op, hop, hop'⟩ := h i hi
    rw [hclosure, Option.some_inj] at hop'
    obtain ⟨c₀, rfl, rfl⟩ : ∃ c₀, op = .closure c₀ captures ∧ c₀ + b - a = c := by
      cases op <;> simp_all [OpCode.mapAddress]
    -- the closure belongs to a function inside, and is made of one inside that
    obtain ⟨d, k', u', hd, hf', hown⟩ :=
      exists_owner (x := a + i) hs.functions hle ha (by omega) (by omega) (by omega)
    obtain ⟨⟨name', kind', hd'⟩, locals, depth, -, hv⟩ := hf'
    obtain ⟨op, hop₀, hc⟩ := hv.checked _ hown
    rw [hop] at hop₀
    cases hop₀
    obtain ⟨name'', kind'', m, hheader, hlo, hhi, -⟩ := hc.nested c₀ captures rfl
    have hdi := hown.1
    have hd₀ : d = a + (d - a) := by omega
    have hm := hinside (i := d - a) (by omega) (hd₀ ▸ hd')
    have hc₀ : c₀ = a + (c₀ - a) := by omega
    rw [hc₀, ← h.header_iff (by omega)] at hheader
    have hc' : c₀ + b - a = b + (c₀ - a) := by omega
    rw [hc']
    exact ⟨by omega, by omega, name'', kind'', m, hheader⟩
  · intro y op' t hy hyn hop₀ ht
    obtain ⟨i, hi, rfl⟩ := hplace hy hyn
    obtain ⟨op, hop, hop'⟩ := h i hi
    rw [hop₀, Option.some_inj] at hop'
    subst hop'
    rw [OpCode.exit?_mapAddress] at ht
    obtain ⟨t₀, ht₀, rfl⟩ := Option.map_eq_some_iff.1 ht
    have hahead := hs.exits (by omega) (by omega) hop ht₀
    omega

end Moved

/-- The code of a dump that was read is the code that was dumped, moved to the end. -/
theorem Dump.Relocated.moved_ops {s t t' : Segment} {entry n : Nat} {name : String} {hasEnv : Bool}
    {k : Nat} {f : Undumped} (h : Relocated s entry n name hasEnv t k f t') :
    Moved s.ops t'.ops entry n t.size := by
  intro i hi
  obtain ⟨ins, hins, -, hins'⟩ := h.moved i hi
  refine ⟨ins.op, ?_, ?_⟩
  · rw [Segment.ops, hins]
    rfl
  · rw [Segment.ops, hins']
    rfl

namespace Segment

variable {s s' t : Segment} {a d x : Nat} {op : OpCode}

/-! ## Where blocks come from -/

/-- The blocks of a segment were made by the compiler, or read from dumps of functions of such
code. -/
inductive Genuine : Segment → Prop
  | empty : Genuine {}
  | compile {s s' : Segment} {options : CompileOptions} {source : String} {chunk : CompiledChunk}
    (h : Genuine s) (hcompile : s.compile options source = .ok (chunk, s')) : Genuine s'
  | undump {s s' t : Segment} {entry source : Nat} {hasEnv : Bool} {bytes : List UInt8} {f : Undumped}
    (h : Genuine s) (ht : Genuine t) (hdump : Dump.ofFunction t entry hasEnv = .ok bytes)
    (hundump : s.undump bytes source = .ok (f, s')) : Genuine s'

theorem Compiled.genuine (h : s.Compiled) : s.Genuine := by
  induction h with
  | empty => exact .empty
  | compile _ hcompile ih => exact .compile ih hcompile

theorem undump_eq_ok {bytes : List UInt8} {source : Nat} {f : Undumped}
    (h : s.undump bytes source = .ok (f, s')) : ∃ code, s' = s.append code := by
  unfold undump at h
  split at h
  · cases h
  · split at h
    · cases h
      exact ⟨_, rfl⟩
    · cases h

theorem Genuine.grows (h : s.Genuine) : Segment.empty.Grows s := by
  induction h with
  | empty => exact .refl _
  | compile _ hcompile ih => exact ih.trans (hasHeader_compile hcompile).1
  | undump _ _ _ hundump ih _ => exact ih.trans (hasHeader_undump hundump).1

/-- What a segment was before a block was added is genuine if it is genuine now. -/
theorem Genuine.of_append_eq (ht : t.Genuine) {code : Code} (h : s.append code = t) : s.Genuine := by
  have hstep : ∀ {u : Segment} {code' : Code}, u.Genuine → (u.append code').Genuine →
      (∀ {s : Segment} {code : Code}, s.append code = u → s.Genuine) →
      ∀ {s : Segment} {code : Code}, s.append code = u.append code' → s.Genuine := by
    intro u code' hu hall ih s code h
    by_cases hc : code = []
    · subst hc
      change s = _ at h
      rw [h]
      exact hall
    · by_cases hc' : code' = []
      · subst hc'
        exact ih h
      · rw [append_inj hc hc' h]
        exact hu
  induction ht generalizing s code with
  | empty => exact eq_empty_of_append h ▸ .empty
  | compile hu hcompile ih =>
    obtain ⟨body, code', spans, -, -, rfl, -⟩ := compile_eq_ok hcompile
    exact hstep hu (.compile hu hcompile) (fun h => ih h) h
  | undump hu ht hdump hundump ih _ =>
    obtain ⟨code', rfl⟩ := undump_eq_ok hundump
    exact hstep hu (.undump hu ht hdump hundump) (fun h => ih h) h

theorem Grows.genuine (h : s.Grows t) (ht : t.Genuine) : s.Genuine := by
  induction h with
  | refl => exact ht
  | append code _ ih => exact ih (ht.of_append_eq rfl)

/-! ## What is known of every address -/

/-- Every address of genuine code lies in a sound block. -/
theorem Genuine.block (h : s.Genuine) (hx : s.ops x = some op) :
    ∃ base n, SoundBlock s.ops base n ∧ base ≤ x ∧ x < base + n ∧ base + n ≤ s.size := by
  -- an older block does not change
  have hold : ∀ {s s' : Segment} {code : Code} {x : Nat}, s' = s.append code →
      (∃ base n, SoundBlock s.ops base n ∧ base ≤ x ∧ x < base + n ∧ base + n ≤ s.size) →
      ∃ base n, SoundBlock s'.ops base n ∧ base ≤ x ∧ x < base + n ∧ base + n ≤ s'.size := by
    rintro s s' code x rfl ⟨base, n, hsound, hle, hlt, hend⟩
    refine ⟨base, n, hsound.congr ?_, hle, hlt, ?_⟩
    · exact fun y _ hyn => ops_append_of_lt (by omega)
    · rw [size_append]
      omega
  induction h generalizing x op with
  | empty => simp [ops, instruction?] at hx
  | @compile s s' options source chunk hs hcompile ih =>
    obtain ⟨body, code, spans, -, -, hs', hchunk⟩ := compile_eq_ok hcompile
    by_cases hlt : x < s.size
    · rw [hs', ops_append_of_lt hlt] at hx
      exact hold hs' (ih hx)
    · have hsound := soundBlock_compile hcompile
      rw [hs', ops_append_of_le (Nat.le_of_not_lt hlt)] at hx
      have hb := (listing_bounds hx).2
      rw [hchunk] at hsound
      simp only [nextBlock, Nat.add_sub_cancel_left] at hsound
      have hend : s'.size = s.size + code.length := by rw [hs', size_append]
      exact ⟨s.size, code.length, hsound, by omega, hb, Nat.le_of_eq hend.symm⟩
  | @undump s s' t entry source hasEnv bytes f hs ht hdump hundump ih iht =>
    obtain ⟨code, hs'⟩ := undump_eq_ok hundump
    by_cases hlt : x < s.size
    · rw [hs', ops_append_of_lt hlt] at hx
      exact hold hs' (ih hx)
    · obtain ⟨-, name, kind, n, span, -, -, -, hheader, -⟩ := Dump.ofFunction_eq_ok.1 hdump
      have hop : t.ops entry = some (.header name kind n) := by
        rw [ops, hheader]
        rfl
      obtain ⟨base, m, hsound, hle, hm, -⟩ := iht hop
      have hone := (hsound.functions hle hm hop).2.choose_spec.one_lt
      obtain ⟨f', s'', hundump', hmoved, -⟩ :=
        Dump.undump_ofFunction ht.grows hs.grows hheader (by omega) hdump source
      rw [hundump] at hundump'
      cases hundump'
      have hx' : x < s'.size := by
        by_contra hover
        rw [ops_eq_none_of_le (by omega)] at hx
        cases hx
      have hsize := hmoved.size_eq
      exact ⟨s.size, n, hmoved.moved_ops.soundBlock hsound hle hm hop, by omega,
        by omega, by omega⟩

theorem Genuine.functionAt (h : s.Genuine) (ha : s.HasHeader a) :
    ∃ m u, FunctionAt s.ops a m u := by
  obtain ⟨name, kind, m, ha⟩ := ha
  obtain ⟨base, n, hsound, hle, hlt, -⟩ := h.block ha
  obtain ⟨-, u, hf⟩ := hsound.functions hle hlt ha
  exact ⟨m, u, hf⟩

/-- Closures are made of functions. -/
theorem Genuine.hasHeader_of_closure (h : s.Genuine) {captures : List Symbol}
    (hx : s.ops x = some (.closure a captures)) : s.HasHeader a := by
  obtain ⟨base, n, hsound, hle, hlt, -⟩ := h.block hx
  obtain ⟨-, -, name, kind, m, ha⟩ := hsound.closures hle hlt hx
  exact ⟨name, kind, m, ha⟩

/-- Control that comes from the header of a function stays in the function, and the operands of the
next instruction are there. -/
theorem Genuine.reaches (h : s.Genuine) (ha : s.HasHeader a) (hr : Reaches s.ops a x d) :
    ∃ name kind m op, s.ops a = some (.header name kind m) ∧ Owns s.ops a m x ∧
      s.ops x = some op ∧ op.needs ≤ d := by
  obtain ⟨m, u, ⟨name, kind, ha⟩, locals, depth, -, hv⟩ := h.functionAt ha
  obtain ⟨hown, hd⟩ := hv.reaches hr
  obtain ⟨op, hop, hc⟩ := hv.checked x hown
  exact ⟨name, kind, m, op, ha, hown, hop, hd ▸ hc.operands⟩

/-- Wherever control comes from the header of a function, the operands are there. -/
theorem Genuine.operands (h : s.Genuine) (ha : s.HasHeader a) (hr : Reaches s.ops a x d)
    (hx : s.ops x = some op) : op.needs ≤ d := by
  obtain ⟨-, -, -, op', -, -, hop', hneeds⟩ := h.reaches ha hr
  rw [hx] at hop'
  cases hop'
  exact hneeds

/-- Loops are left forwards. -/
theorem Genuine.exits (h : s.Genuine) (hx : s.ops x = some op) {t : Nat} (ht : op.exit? = some t) :
    x < t := by
  obtain ⟨base, n, hsound, hle, hlt, -⟩ := h.block hx
  exact hsound.exits hle hlt hx ht

/-- Genuine code begins with a function. -/
theorem Genuine.first (h : s.Genuine) (hx : s.ops 0 = some op) :
    (∃ name kind n, op = .header name kind n) ∧ ∃ locals, s.ops 1 = some (.beginFn locals) := by
  obtain ⟨base, n, hsound, hle, hlt, -⟩ := h.block hx
  obtain rfl : base = 0 := Nat.le_zero.1 hle
  obtain ⟨name, kind, hheader⟩ := hsound.header
  obtain ⟨-, u, -, locals, depth, hbegin, -⟩ := hsound.functions (Nat.le_refl _) hlt hheader
  rw [hx] at hheader
  exact ⟨⟨name, kind, n, Option.some_inj.1 hheader⟩, locals, hbegin⟩

end Segment

end LuaMachine
