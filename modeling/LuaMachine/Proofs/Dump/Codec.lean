import LuaMachine.Dump.Codec
import LuaMachine.Proofs.Text.Utf8

/-!
# The codec reads what it writes

`Codes write read a` says that whatever `write` adds to a dump, `read` takes off again and gives `a`,
whatever comes behind it. Writer and reader meet the same strings in the same order, so the table of
strings is part of the statement: after the read the reader knows the strings that the writer knew
after the write.

What is written in sequence is read in sequence (`Codes.bind`, `codes_each`). Integers of thirty-two
bits (`codes_int`), sizes, numbers and strings (`codes_string`) are read as they were written.
-/

namespace LuaMachine.Dump

/-! ## Bytes as integers -/

theorem length_littleEndian (n : Nat) (v : Int) : (littleEndian n v).length = n := by
  induction n generalizing v with
  | zero => rfl
  | succ n ih => rw [littleEndian, List.length_cons, ih]

/-- The value of the lowest byte of an integer. -/
theorem toNat_lowByte (v : Int) : ((v % 256).toNat.toUInt8.toNat : Int) = v % 256 := by
  have hlt : (v % 256).toNat < 256 := by omega
  have hbyte : (v % 256).toNat.toUInt8.toNat = (v % 256).toNat := by
    simpa using Nat.mod_eq_of_lt hlt
  rw [hbyte]
  omega

theorem valueOf_littleEndian (n : Nat) (v : Int) :
    (valueOf (littleEndian n v) : Int) = v % (Nat.pow 256 n : Nat) := by
  induction n generalizing v with
  | zero => simp [littleEndian, valueOf]
  | succ n ih =>
    have hpos : (0 : Int) < (Nat.pow 256 n : Nat) := by
      exact Int.natCast_pos.2 (Nat.pow_pos (by decide))
    rw [littleEndian, valueOf, Nat.pow_eq, Nat.pow_succ, ← Nat.pow_eq, Int.natCast_add,
      Int.natCast_mul, toNat_lowByte, ih, Int.natCast_mul]
    generalize (Nat.pow 256 n : Int) = m at *
    -- the lowest byte and the bytes above it
    have hhigh := Int.emod_add_mul_ediv (v / 256) m
    have hnonneg := Int.emod_nonneg (v / 256) (Int.ne_of_gt hpos)
    have hlt := Int.emod_lt_of_pos (v / 256) hpos
    refine (Int.ediv_emod_unique (q := v / 256 / m) (by omega)).2 ⟨?_, by omega, by omega⟩ |>.2.symm
    rw [Int.mul_comm m, Int.mul_assoc]
    omega

/-- Bytes with a sign hold the integers that the highest bit leaves room for. -/
theorem signedValueOf_littleEndian {n : Nat} {v : Int} (h₁ : -(Nat.pow 256 n : Nat) ≤ 2 * v)
    (h₂ : 2 * v < (Nat.pow 256 n : Nat)) : signedValueOf (littleEndian n v) = v := by
  have hvalue := valueOf_littleEndian n v
  unfold signedValueOf
  rw [length_littleEndian]
  simp only
  generalize Nat.pow 256 n = m at *
  by_cases hv : 0 ≤ v
  · rw [Int.emod_eq_of_lt hv (by omega)] at hvalue
    rw [if_pos (by omega), hvalue]
  · have hneg : v % m = v + m := by
      rw [← Int.add_emod_right, Int.emod_eq_of_lt (by omega) (by omega)]
    rw [hneg] at hvalue
    rw [if_neg (by omega), hvalue]
    omega

/-! ## What a read makes of a write -/

/-- What `write` adds to a dump, `read` takes off again, and gives `a`. -/
def Codes (write : Write Unit) (read : Read α) (a : α) : Prop :=
  ∀ w w', write w = .ok () w' → ∃ out : List UInt8,
    w'.bytes.toList = w.bytes.toList ++ out ∧
      ∀ rest, read.run ⟨out ++ rest, w.strings.toArray⟩ = .ok a ⟨rest, w'.strings.toArray⟩

theorem Write.run_eq_ok {write : Write α} {w w' : Writer} {a : α} :
    write.run w = .ok (a, w') ↔ write w = .ok a w' := by
  unfold Write.run
  cases write w <;> simp

theorem Write.run_bind_ok {x : Write α} {f : α → Write β} {w w'' : Writer} {b : β} :
    (x >>= f) w = .ok b w'' ↔ ∃ a w', x w = .ok a w' ∧ f a w' = .ok b w'' := by
  change EStateM.bind x f w = _ ↔ _
  unfold EStateM.bind
  cases x w with
  | error e w' => simp
  | ok a w' =>
    constructor
    · intro h
      exact ⟨a, w', rfl, h⟩
    · rintro ⟨a, w', hp, h⟩
      cases hp
      exact h

theorem Read.run_bind_ok {x : Read α} (f : α → Read β) {r r' : Reader} {a : α}
    (hx : x.run r = .ok a r') : (x >>= f).run r = (f a).run r' := by
  change EStateM.bind x f r = _
  unfold EStateM.bind
  change x r = _ at hx
  rw [hx]
  rfl

/-- What is written in sequence is read in sequence. -/
theorem Codes.bind {write write' : Write Unit} {read : Read α} {next : α → Read β} {a : α} {b : β}
    (h : Codes write read a) (h' : Codes write' (next a) b) :
    Codes (write >>= fun _ => write') (read >>= next) b := by
  intro w w'' hw
  obtain ⟨⟨⟩, w', hfirst, hsecond⟩ := Write.run_bind_ok.1 hw
  obtain ⟨out, hbytes, hread⟩ := h w w' hfirst
  obtain ⟨out', hbytes', hread'⟩ := h' w' w'' hsecond
  refine ⟨out ++ out', ?_, ?_⟩
  · rw [hbytes', hbytes, List.append_assoc]
  · intro rest
    rw [List.append_assoc, Read.run_bind_ok next (hread _), hread']

/-- A dump only grows. -/
theorem Codes.size_le {write : Write Unit} {read : Read α} {a : α} (h : Codes write read a)
    {w w' : Writer} (hw : write w = .ok () w') : w.bytes.size ≤ w'.bytes.size := by
  obtain ⟨out, hbytes, -⟩ := h w w' hw
  have hlen := congrArg List.length hbytes
  simp only [List.length_append, Array.length_toList] at hlen
  omega

/-- After the last read nothing more is taken. -/
theorem Codes.done {write : Write Unit} {read : Read α} {next : α → Read β} {a : α} {b : β}
    (h : Codes write read a) (hnext : next a = pure b) : Codes write (read >>= next) b := by
  intro w w' hw
  obtain ⟨out, hbytes, hread⟩ := h w w' hw
  refine ⟨out, hbytes, fun rest => ?_⟩
  rw [Read.run_bind_ok _ (hread rest), hnext]
  rfl

/-- What is read may be put into a larger whole. -/
theorem Codes.map {write : Write Unit} {read : Read α} {a : α} (f : α → β)
    (h : Codes write read a) : Codes write (read >>= fun x => pure (f x)) (f a) :=
  h.done rfl

/-- Nothing is written where nothing is read. -/
theorem codes_pure (a : α) : Codes (pure ()) (pure a) a := by
  intro w w' hw
  cases hw
  exact ⟨[], by simp, fun rest => rfl⟩

theorem codes_throw (e : DumpError) (read : Read α) (a : α) : Codes (throw e) read a := by
  intro w w' hw
  cases hw

/-- Items one after the other. -/
theorem codes_each {write : α → Write Unit} {read : Read β} {f : α → β} :
    ∀ items : List α, (∀ a ∈ items, Codes (write a) read (f a)) →
      Codes (Write.each write items) (Read.each read items.length) (items.map f)
  | [], _ => codes_pure []
  | a :: rest, h => by
    have hfirst := h a (by simp)
    have hrest := codes_each rest fun b hb => h b (by simp [hb])
    exact hfirst.bind (hrest.map (f a :: ·))

/-! ## Bytes, integers and numbers -/

theorem Read.run_bytes (taken rest : List UInt8) (strings : Array String) {n : Nat}
    (hn : taken.length = n) :
    (Read.bytes n).run ⟨taken ++ rest, strings⟩ = .ok taken ⟨rest, strings⟩ := by
  subst hn
  have hget : (get : Read Reader).run ⟨taken ++ rest, strings⟩ =
      .ok ⟨taken ++ rest, strings⟩ ⟨taken ++ rest, strings⟩ := rfl
  unfold Read.bytes
  rw [Read.run_bind_ok _ hget]
  simp only [List.take_left, List.drop_left, Nat.lt_irrefl, if_false]
  rfl

theorem codes_bytes (bs : List UInt8) {n : Nat} (hn : bs.length = n) :
    Codes (.bytes bs) (.bytes n) bs := by
  intro w w' hw
  cases hw
  exact ⟨bs, by simp, fun rest => Read.run_bytes bs rest _ hn⟩

theorem Read.run_u8 (b : UInt8) (rest : List UInt8) (strings : Array String) :
    Read.u8.run ⟨b :: rest, strings⟩ = .ok b ⟨rest, strings⟩ :=
  Read.run_bind_ok _ (Read.run_bytes [b] rest strings rfl)

theorem Write.size_u8 {b : UInt8} {w w' : Writer} (h : Write.u8 b w = .ok () w') :
    w'.bytes.size = w.bytes.size + 1 := by
  cases h
  simp

theorem codes_u8 (b : UInt8) : Codes (.u8 b) .u8 b := by
  intro w w' hw
  cases hw
  exact ⟨[b], by simp, fun rest => Read.run_u8 b rest _⟩

/-- An integer is read from its bytes. -/
theorem Read.run_int (v : Int) (h₁ : -2147483648 ≤ v) (h₂ : v < 2147483648) (rest : List UInt8)
    (strings : Array String) :
    Read.int.run ⟨intBytes v ++ rest, strings⟩ = .ok v ⟨rest, strings⟩ := by
  unfold intBytes Read.int
  split
  · next hsmall =>
    -- one byte, which is no mark
    simp only [Bool.and_eq_true, decide_eq_true_eq, bne_iff_ne] at hsmall
    have hbytes : littleEndian 1 v = [(v % 256).toNat.toUInt8] := rfl
    have hbyte := toNat_lowByte v
    have hvalue : signedValueOf (littleEndian 1 v) = v :=
      signedValueOf_littleEndian (by simp; omega) (by simp; omega)
    rw [hbytes] at hvalue ⊢
    generalize (v % 256).toNat.toUInt8 = b at *
    have hshort : (b == markShort) = false := by
      rw [beq_eq_false_iff_ne]
      rintro rfl
      have : (markShort.toNat : Int) = 127 := rfl
      omega
    have hlong : (b == markLong) = false := by
      rw [beq_eq_false_iff_ne]
      rintro rfl
      have : (markLong.toNat : Int) = 126 := rfl
      omega
    refine (Read.run_bind_ok _ (Read.run_u8 b rest strings)).trans ?_
    rw [hshort, hlong, hvalue]
    rfl
  · split
    · next hshort =>
      simp only [Bool.and_eq_true, decide_eq_true_eq] at hshort
      have hvalue : signedValueOf (littleEndian 2 v) = v :=
        signedValueOf_littleEndian (by simp; omega) (by simp; omega)
      refine (Read.run_bind_ok _ (Read.run_u8 _ _ strings)).trans ?_
      refine (Read.run_bind_ok _ (Read.run_bytes _ rest strings (length_littleEndian 2 v))).trans ?_
      rw [hvalue]
      rfl
    · have hvalue : signedValueOf (littleEndian 4 v) = v :=
        signedValueOf_littleEndian (by simp; omega) (by simp; omega)
      refine (Read.run_bind_ok _ (Read.run_u8 _ _ strings)).trans ?_
      refine (Read.run_bind_ok _ (Read.run_bytes _ rest strings (length_littleEndian 4 v))).trans ?_
      rw [hvalue]
      rfl

theorem codes_int {v : Int} (h₁ : -2147483648 ≤ v) (h₂ : v < 2147483648) :
    Codes (.int v) .int v := by
  intro w w' hw
  cases hw
  exact ⟨intBytes v, by simp, fun rest => Read.run_int v h₁ h₂ rest _⟩

theorem Write.run_nat_ok {n : Nat} {w w' : Writer} :
    Write.nat n w = .ok () w' ↔
      n < 2147483648 ∧ w' = { w with bytes := w.bytes ++ intBytes n } := by
  unfold Write.nat
  split
  · next hn =>
    constructor
    · intro h
      cases h
      exact ⟨hn, rfl⟩
    · rintro ⟨-, rfl⟩
      rfl
  · next hn =>
    constructor
    · intro h
      cases h
    · rintro ⟨hn', -⟩
      exact absurd hn' hn

theorem Read.run_nat {n : Nat} (hn : n < 2147483648) (rest : List UInt8) (strings : Array String) :
    Read.nat.run ⟨intBytes n ++ rest, strings⟩ = .ok n ⟨rest, strings⟩ := by
  unfold Read.nat
  rw [Read.run_bind_ok _ (Read.run_int n (by omega) (by omega) rest strings)]
  have hnonneg : ¬ (n : Int) < 0 := by omega
  simp only [hnonneg, if_false, Int.toNat_natCast]
  rfl

theorem codes_nat (n : Nat) : Codes (.nat n) .nat n := by
  intro w w' hw
  obtain ⟨hn, rfl⟩ := Write.run_nat_ok.1 hw
  exact ⟨intBytes n, by simp, fun rest => Read.run_nat hn rest _⟩

theorem codes_bool (b : Bool) : Codes (.bool b) .bool b := by
  have h := (codes_u8 (if b then 1 else 0)).map (· != 0)
  cases b <;> exact h

theorem codes_number (n : Number) : Codes (.number n) .number n := by
  have h := (codes_bytes _ (length_littleEndian 8 n.bits.toNat)).map
    fun bs => (⟨(valueOf bs).toUInt64⟩ : Number)
  have hvalue : valueOf (littleEndian 8 n.bits.toNat) = n.bits.toNat := by
    have hbits := n.bits.toNat_lt
    have hmod := valueOf_littleEndian 8 n.bits.toNat
    have hpow : Nat.pow 256 8 = 18446744073709551616 := rfl
    rw [hpow, Int.emod_eq_of_lt (by omega) (by omega)] at hmod
    omega
  have hbits : (valueOf (littleEndian 8 n.bits.toNat)).toUInt64 = n.bits := by
    rw [hvalue]
    simp
  rw [hbits] at h
  exact h

/-! ## Strings -/

theorem Write.run_string (s : String) (w : Writer) :
    Write.string s w = match w.strings.findIdx? (· == s) with
      | some i => Write.nat i w
      | none => (do
          Write.nat w.strings.length
          Write.nat s.utf8ByteSize
          Write.bytes (Text.Utf8.encode s)) { w with strings := w.strings ++ [s] } := by
  have hget : ∀ f : Writer → Write Unit, (get >>= f) w = f w w := fun _ => rfl
  unfold Write.string
  rw [hget]
  cases w.strings.findIdx? (· == s) <;> rfl

/-- A string is read as it was written, by its number or by its bytes. -/
theorem codes_string (s : String) : Codes (.string s) .string s := by
  intro w w' hw
  have hget : ∀ r : Reader, (get : Read Reader).run r = .ok r r := fun _ => rfl
  rw [Write.run_string] at hw
  cases hfind : w.strings.findIdx? (· == s) with
  | some i =>
    -- the string was met before
    rw [hfind] at hw
    obtain ⟨hi, rfl⟩ := Write.run_nat_ok.1 hw
    obtain ⟨hlt, heq, -⟩ := List.findIdx?_eq_some_iff_getElem.1 hfind
    have hknown : w.strings.toArray[i]? = some s := by
      rw [List.getElem?_toArray, List.getElem?_eq_getElem hlt]
      exact congrArg some (eq_of_beq heq)
    refine ⟨intBytes i, by simp, fun rest => ?_⟩
    unfold Read.string
    rw [Read.run_bind_ok _ (Read.run_nat hi rest _), Read.run_bind_ok _ (hget _)]
    simp only [hknown]
    rfl
  | none =>
    -- its number is the next one, and its bytes follow
    rw [hfind] at hw
    obtain ⟨⟨⟩, w₁, hnumber, hw⟩ := Write.run_bind_ok.1 hw
    obtain ⟨⟨⟩, w₂, hsizes, hw⟩ := Write.run_bind_ok.1 hw
    obtain ⟨hlen, rfl⟩ := Write.run_nat_ok.1 hnumber
    obtain ⟨hsize, rfl⟩ := Write.run_nat_ok.1 hsizes
    cases hw
    refine ⟨intBytes w.strings.length ++ intBytes s.utf8ByteSize ++ Text.Utf8.encode s, by simp,
      fun rest => ?_⟩
    have hunknown : w.strings.toArray[w.strings.length]? = none := by simp
    have hnext : ¬ w.strings.length > w.strings.toArray.size := by simp
    unfold Read.string
    simp only [List.append_assoc]
    rw [Read.run_bind_ok _ (Read.run_nat hlen _ _), Read.run_bind_ok _ (hget _)]
    simp only [hunknown, hnext, if_false]
    rw [Read.run_bind_ok _ (Read.run_nat hsize _ _),
      Read.run_bind_ok _ (Read.run_bytes _ rest _ (Text.Utf8.length_encode s)),
      Text.Utf8.decode?_encode]
    simp only [← List.push_toArray]
    rfl

end LuaMachine.Dump
