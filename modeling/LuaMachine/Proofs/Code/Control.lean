import LuaMachine.Proofs.Code.Shapes
import LuaMachine.Proofs.Dump.Genuine

/-!
# Control values in genuine code

`Marks` follows control through a function and keeps the shape of its stack. In genuine code each
instruction finds on every path what it expects of the shape: above all, the control values of a loop
are known to be single ones wherever the loop works on them.

A function that was read from a dump stood somewhere else when it was compiled, so its paths are
followed back to where it came from (`Moved.marks`).

Main statement: `Segment.Genuine.admits`.
-/

namespace LuaMachine

/-- The addresses that control can come to from `a`, with the shapes of the stack there. -/
inductive Marks (code : Listing) (a : Nat) : Nat → Shape → Prop where
  | entry : Marks code a a []
  | step {x y : Nat} {σ τ : Shape} {op : OpCode} : Marks code a x σ → code x = some op →
      (y, τ) ∈ op.passes x σ → Marks code a y τ

theorem Marks.mono {code code' : Listing} {a x : Nat} {σ : Shape} (h : Marks code a x σ)
    (hcode : ∀ x op, code x = some op → code' x = some op) : Marks code' a x σ := by
  induction h with
  | entry => exact .entry
  | step _ hop hnext ih => exact ih.step (hcode _ _ hop) hnext

namespace OpCode

variable {op : OpCode} {x y : Nat} {σ τ : Shape}

theorem length_shape (hn : op.needs ≤ σ.length) : (op.shape σ).length = op.leaves σ.length := by
  cases op with
  | forPrep =>
    have hthree : 3 ≤ σ.length := hn
    simp only [shape, leaves, List.length_cons, List.length_drop]
    omega
  | method name | not | neg | len | scalar =>
    have hone : 1 ≤ σ.length := hn
    simp only [shape, leaves, List.length_cons, List.length_drop]
    omega
  | binary b | index =>
    have htwo : 2 ≤ σ.length := hn
    simp only [shape, leaves, List.length_cons, List.length_drop]
    omega
  | _ => simp [shape, leaves]

/-- What passes on with a shape passes on with its length. -/
theorem mem_next_of_mem_passes (hn : op.needs ≤ σ.length) (h : (y, τ) ∈ op.passes x σ) :
    (y, τ.length) ∈ op.next x σ.length := by
  have hshape := length_shape hn
  have hmap : ∀ {l : List (Nat × Shape)}, (y, τ) ∈ l →
      (y, τ.length) ∈ l.map fun p => (p.1, p.2.length) :=
    fun hl => List.mem_map_of_mem (f := fun p : Nat × Shape => (p.1, p.2.length)) hl
  have heq : (op.passes x σ).map (fun p => (p.1, p.2.length)) = op.next x σ.length := by
    cases op <;>
      simp only [passes, next, List.map_cons, List.map_nil, hshape, List.length_drop]
  exact heq ▸ hmap h

/-- A moved operation passes control on to where it passed control on to before, with the same
shape. -/
theorem passes_mapAddress {f : Nat → Nat} (hf : f (x + 1) = y + 1) (σ : Shape) :
    (op.mapAddress f).passes y σ = (op.passes x σ).map fun p => (f p.1, p.2) := by
  cases op <;> simp [mapAddress, passes, shape, hf]

theorem Admits.mapAddress (h : op.Admits σ) (f : Nat → Nat) : (op.mapAddress f).Admits σ := by
  cases op <;> exact h

end OpCode

namespace Segment

variable {s s' : Segment} {a x : Nat} {σ : Shape} {op : OpCode}

/-- Control that comes to an address with a shape comes to it with the depth of the shape. -/
theorem Genuine.reaches_of_marks (h : s.Genuine) (ha : s.HasHeader a) (hm : Marks s.ops a x σ) :
    Reaches s.ops a x σ.length := by
  induction hm with
  | entry => exact .entry
  | step _ hop hpass ih =>
    exact ih.step hop (OpCode.mem_next_of_mem_passes (h.operands ha ih hop) hpass)

/-- Control stays in the function. -/
theorem Genuine.owns_of_marks (h : s.Genuine) (ha : s.HasHeader a) (hm : Marks s.ops a x σ) :
    ∃ name kind m, s.ops a = some (.header name kind m) ∧ Owns s.ops a m x := by
  obtain ⟨name, kind, m, -, hheader, hown, -⟩ := h.reaches ha (h.reaches_of_marks ha hm)
  exact ⟨name, kind, m, hheader, hown⟩

/-- Code that is added behind a function does not change its paths. -/
theorem Genuine.marks_of_append {code : Code} (h : s.Genuine) (ha : s.HasHeader a)
    (hm : Marks (s.append code).ops a x σ) : Marks s.ops a x σ := by
  induction hm with
  | entry => exact .entry
  | step _ hop hpass ih =>
    obtain ⟨-, -, -, op', -, -, hop', -⟩ := h.reaches ha (h.reaches_of_marks ha ih)
    rw [ops_append hop'] at hop
    cases hop
    exact ih.step hop' hpass

end Segment

/-! ## Where the code comes from -/

/-- In a piece without loose ends, paths from the header of a function keep to the shapes of the
piece. -/
theorem Shaped.marks {start stop a x n : Nat} {c : Code} {code : Listing} {shape : Nat → Shape}
    {name : String} {kind : HeaderKind} {σ : Shape} (h : Shaped start c stop [] [] [] [] shape)
    (hcode : ∀ x, start ≤ x → code x = listing start c x) (hle : start ≤ a)
    (ha : code a = some (.header name kind n)) (hm : Marks code a x σ) : start ≤ x ∧ shape x = σ := by
  induction hm with
  | entry =>
    rw [hcode a hle] at ha
    exact ⟨hle, (h.flow ha fun π => List.not_mem_nil).1.2⟩
  | step _ hop hpass ih =>
    obtain ⟨hx, rfl⟩ := ih
    rw [hcode _ hx] at hop
    rcases (h.flow hop fun π => List.not_mem_nil).2 _ _ hpass with ⟨hy, -, hshape⟩ | hout
    · exact ⟨hy, hshape⟩
    · cases hout

/-- A path in moved code is a path where the code came from. -/
theorem Moved.marks {code code' : Listing} {a b n j x : Nat} {σ : Shape} (h : Moved code code' a n b)
    (hstay : ∀ {x σ}, Marks code' (b + j) x σ → ∃ i < n, x = b + i)
    (hback : ∀ {x σ}, Marks code (a + j) x σ → a ≤ x) (hm : Marks code' (b + j) x σ) :
    ∃ i < n, x = b + i ∧ Marks code (a + j) (a + i) σ := by
  induction hm with
  | entry =>
    obtain ⟨i, hi, heq⟩ := hstay .entry
    obtain rfl : j = i := by omega
    exact ⟨j, hi, rfl, .entry⟩
  | step hm hop hpass ih =>
    obtain ⟨i, hi, rfl, hfrom⟩ := ih
    obtain ⟨op₀, hop₀, hop'⟩ := h i hi
    rw [hop'] at hop
    cases hop
    have hnext : a + i + 1 + b - a = b + i + 1 := by omega
    have hpass₀ := hpass
    rw [OpCode.passes_mapAddress hnext] at hpass₀
    obtain ⟨⟨y₀, τ⟩, hthere, heq⟩ := List.mem_map.1 hpass₀
    cases heq
    have hfrom' := hfrom.step hop₀ hthere
    have hle := hback hfrom'
    obtain ⟨i', hi', hy⟩ := hstay (hm.step hop' hpass)
    obtain rfl : y₀ = a + i' := by
      dsimp only at hy
      omega
    exact ⟨i', hi', hy, hfrom'⟩

namespace Segment

variable {s s' : Segment} {a x : Nat} {σ : Shape} {op : OpCode}

/-- A chunk has shapes for all its addresses. -/
theorem shaped_compile {options : CompileOptions} {source : String} {chunk : CompiledChunk}
    (h : s.compile options source = .ok (chunk, s')) :
    ∃ code stop shape, s' = s.append code ∧ Shaped s.size code stop [] [] [] [] shape := by
  obtain ⟨body, code, spans, -, hcode, rfl, -⟩ := compile_eq_ok h
  unfold Block.compile at hcode
  simp only [StateT.run] at hcode
  split at hcode
  · next hrun =>
    cases hcode
    obtain ⟨shape, hshaped⟩ := Gen.forms_chunk _ _ body _ rfl _ _ hrun
    exact ⟨_, _, shape, rfl, hshaped⟩
  · cases hcode

/-- Wherever control comes from the header of a function, each instruction finds what it expects of
the stack. -/
theorem Genuine.admits (h : s.Genuine) (ha : s.HasHeader a) (hm : Marks s.ops a x σ)
    (hx : s.ops x = some op) : op.Admits σ := by
  -- an older function has the paths that it had
  have hold : ∀ {s : Segment} {code : Code} {a x : Nat} {σ : Shape} {op : OpCode}, s.Genuine →
      a < s.size → (s.append code).HasHeader a → Marks (s.append code).ops a x σ →
      (s.append code).ops x = some op →
      (∀ {a x : Nat} {σ : Shape} {op : OpCode}, s.HasHeader a → Marks s.ops a x σ →
        s.ops x = some op → op.Admits σ) → op.Admits σ := by
    intro s code a x σ op hs hlt ha hm hx ih
    obtain ⟨name, kind, m, ha⟩ := ha
    rw [ops_append_of_lt hlt] at ha
    have hheader : s.HasHeader a := ⟨name, kind, m, ha⟩
    have hm := hs.marks_of_append hheader hm
    obtain ⟨-, -, -, op', -, -, hop', -⟩ := hs.reaches hheader (hs.reaches_of_marks hheader hm)
    rw [ops_append hop'] at hx
    cases hx
    exact ih hheader hm hop'
  induction h generalizing a x σ op with
  | empty =>
    obtain ⟨name, kind, m, ha⟩ := ha
    simp [ops, instruction?] at ha
  | @compile s s' options source chunk hs hcompile ih =>
    obtain ⟨code, stop, shape, rfl, hshaped⟩ := shaped_compile hcompile
    by_cases hlt : a < s.size
    · exact hold hs hlt ha hm hx ih
    · obtain ⟨name, kind, m, ha⟩ := ha
      have hcode : ∀ x, s.size ≤ x → (s.append code).ops x = LuaMachine.listing s.size code x :=
        fun x => ops_append_of_le
      obtain ⟨hle, rfl⟩ := hshaped.marks hcode (Nat.le_of_not_lt hlt) ha hm
      rw [hcode x hle] at hx
      exact (hshaped.flow hx fun π => List.not_mem_nil).1
  | @undump s s' t entry source hasEnv bytes f hs ht hdump hundump ih iht =>
    have hs' : s'.Genuine := .undump hs ht hdump hundump
    by_cases hlt : a < s.size
    · obtain ⟨code, rfl⟩ := undump_eq_ok hundump
      exact hold hs hlt ha hm hx ih
    · obtain ⟨-, name, kind, n, span, -, -, -, hheader, -⟩ := Dump.ofFunction_eq_ok.1 hdump
      have hop : t.ops entry = some (.header name kind n) := by
        rw [ops, hheader]
        rfl
      obtain ⟨base, k, hsound, hle, hk, -⟩ := ht.block hop
      have hone := (hsound.functions hle hk hop).2.choose_spec.one_lt
      obtain ⟨f', s'', hundump', hrelocated, -⟩ :=
        Dump.undump_ofFunction ht.grows hs.grows hheader (by omega) hdump source
      rw [hundump] at hundump'
      cases hundump'
      have hmoved := hrelocated.moved_ops
      have hblock := hmoved.soundBlock hsound hle hk hop
      have hsize := hrelocated.size_eq
      -- the function stands somewhere in the block, and came from the same place in the dumped one
      obtain ⟨name', kind', m, ha'⟩ := id ha
      have hend : a < s'.size := by
        by_contra hover
        rw [ops_eq_none_of_le (by omega)] at ha'
        cases ha'
      obtain ⟨j, rfl⟩ : ∃ j, a = s.size + j := ⟨a - s.size, by omega⟩
      have hfrom : t.HasHeader (entry + j) :=
        ⟨name', kind', m, (hmoved.header_iff (by omega)).1 ha'⟩
      have hstay : ∀ {x σ}, Marks s'.ops (s.size + j) x σ → ∃ i < n, x = s.size + i := by
        intro x σ hm
        obtain ⟨name'', kind'', m', hheader', hown⟩ := hs'.owns_of_marks ha hm
        have hin := (hblock.functions (by omega) (by omega) hheader').1
        have hlo := hown.1
        have hhi := hown.2.1
        exact ⟨x - s.size, by omega, by omega⟩
      have hback : ∀ {x σ}, Marks t.ops (entry + j) x σ → entry ≤ x := by
        intro x σ hm
        obtain ⟨_, _, _, -, hown⟩ := ht.owns_of_marks hfrom hm
        have hlo := hown.1
        omega
      obtain ⟨i, hi, rfl, hm₀⟩ := hmoved.marks hstay hback hm
      obtain ⟨op₀, hop₀, hop'⟩ := hmoved i hi
      rw [hx] at hop'
      cases hop'
      exact (iht hfrom hm₀ hop₀).mapAddress _

end Segment

end LuaMachine
