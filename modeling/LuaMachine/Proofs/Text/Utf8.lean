import LuaMachine.Text.Utf8

/-!
# UTF-8 is read as it is written

The bytes of a text spell that text. The scan reads the bytes of one character, whatever follows
them, as that character (`scan_encodeChar`); it goes by the number of bytes, which the first byte
announces and which the encoder takes from the size of the code point.

Main statement: `decode?_encode`.
-/

namespace LuaMachine.Text.Utf8

/-! ## The bytes of one character -/

attribute [local simp] scan

section

variable {a b c d : UInt8}

theorem continues_iff {low high : UInt8} :
    continues low high b = true ↔ low.toNat ≤ b.toNat ∧ b.toNat ≤ high.toNat := by
  simp [continues, UInt8.le_iff_toNat_le]

/-- A byte that continues a character, without further bounds. -/
theorem continues_tail (h₁ : 128 ≤ b.toNat) (h₂ : b.toNat < 192) :
    continues 0x80 0xBF b = true := by
  have hlow : (0x80 : UInt8).toNat = 128 := rfl
  have hhigh : (0xBF : UInt8).toNat = 191 := rfl
  rw [continues_iff, hlow, hhigh]
  omega

theorem not_lt_first (h : 128 ≤ b.toNat) : ¬ b < 0x80 := by
  have hbound : (0x80 : UInt8).toNat = 128 := rfl
  rw [UInt8.lt_iff_toNat_lt, hbound]
  omega

theorem lead?_two (h₁ : 194 ≤ b.toNat) (h₂ : b.toNat < 224) : lead? b = some (0x80, 0xBF, 1) := by
  have h : 0xC2 ≤ b ∧ b ≤ 0xDF := by
    constructor <;> rw [UInt8.le_iff_toNat_le]
    · exact h₁
    · exact Nat.le_of_lt_succ h₂
  simp [lead?, h]

/-- The bounds after the first byte of a character of three bytes leave out what would fit in two
bytes, and the surrogates. -/
theorem lead?_three (h₁ : 224 ≤ b.toNat) (h₂ : b.toNat < 240) : lead? b =
    some (if b.toNat = 224 then 0xA0 else 0x80, if b.toNat = 237 then 0x9F else 0xBF, 2) := by
  have hall : ∀ n < 16, lead? (.ofNat (n + 224)) =
      some (if n + 224 = 224 then 0xA0 else 0x80, if n + 224 = 237 then 0x9F else 0xBF, 2) := by
    decide +kernel
  have hb : UInt8.ofNat (b.toNat - 224 + 224) = b := by
    rw [Nat.sub_add_cancel h₁]
    simp
  have h := hall (b.toNat - 224) (by omega)
  rw [hb, Nat.sub_add_cancel h₁] at h
  exact h

/-- The bounds after the first byte of a character of four bytes leave out what would fit in three
bytes, and what is no character. -/
theorem lead?_four (h₁ : 240 ≤ b.toNat) (h₂ : b.toNat < 245) : lead? b =
    some (if b.toNat = 240 then 0x90 else 0x80, if b.toNat = 244 then 0x8F else 0xBF, 3) := by
  have hall : ∀ n < 5, lead? (.ofNat (n + 240)) =
      some (if n + 240 = 240 then 0x90 else 0x80, if n + 240 = 244 then 0x8F else 0xBF, 3) := by
    decide +kernel
  have hb : UInt8.ofNat (b.toNat - 240 + 240) = b := by
    rw [Nat.sub_add_cancel h₁]
    simp
  have h := hall (b.toNat - 240) (by omega)
  rw [hb, Nat.sub_add_cancel h₁] at h
  exact h

theorem scan_two (ha : 194 ≤ a.toNat) (ha' : a.toNat < 224) (hb : 128 ≤ b.toNat)
    (hb' : b.toNat < 192) (rest : List UInt8) :
    scan (a :: b :: rest) =
      some (Char.ofNat ((a.toNat - 192) * 64 + (b.toNat - 128))) :: scan rest := by
  have hc := continues_tail hb hb'
  rw [scan.eq_def]
  simp only [if_neg (not_lt_first (b := a) (by omega)), lead?_two ha ha', hc]
  exact if_neg (by simp)

theorem scan_three (ha : 224 ≤ a.toNat) (ha' : a.toNat < 240) (hb : 128 ≤ b.toNat)
    (hb' : b.toNat < 192) (hc : 128 ≤ c.toNat) (hc' : c.toNat < 192)
    (hlow : a.toNat = 224 → 160 ≤ b.toNat) (hhigh : a.toNat = 237 → b.toNat < 160)
    (rest : List UInt8) :
    scan (a :: b :: c :: rest) =
      some (Char.ofNat (((a.toNat - 224) * 64 + (b.toNat - 128)) * 64 + (c.toNat - 128))) ::
        scan rest := by
  have hcb : continues (if a.toNat = 224 then 0xA0 else 0x80) (if a.toNat = 237 then 0x9F else 0xBF)
      b = true := by
    rw [continues_iff]
    split <;> split <;> simp <;> omega
  have hcc := continues_tail hc hc'
  rw [scan.eq_def]
  simp only [if_neg (not_lt_first (b := a) (by omega)), lead?_three ha ha', hcb, hcc]
  rw [if_neg (by simp)]
  exact if_pos trivial

theorem scan_four (ha : 240 ≤ a.toNat) (ha' : a.toNat < 245) (hb : 128 ≤ b.toNat)
    (hb' : b.toNat < 192) (hc : 128 ≤ c.toNat) (hc' : c.toNat < 192) (hd : 128 ≤ d.toNat)
    (hd' : d.toNat < 192) (hlow : a.toNat = 240 → 144 ≤ b.toNat)
    (hhigh : a.toNat = 244 → b.toNat < 144) (rest : List UInt8) :
    scan (a :: b :: c :: d :: rest) =
      some (Char.ofNat ((((a.toNat - 240) * 64 + (b.toNat - 128)) * 64 + (c.toNat - 128)) * 64 +
        (d.toNat - 128))) :: scan rest := by
  have hcb : continues (if a.toNat = 240 then 0x90 else 0x80) (if a.toNat = 244 then 0x8F else 0xBF)
      b = true := by
    rw [continues_iff]
    split <;> split <;> simp <;> omega
  have hcc := continues_tail hc hc'
  have hcd := continues_tail hd hd'
  rw [scan.eq_def]
  simp only [if_neg (not_lt_first (b := a) (by omega)), lead?_four ha ha', hcb, hcc, hcd]
  rw [if_neg (by simp), if_neg (by simp)]
  exact if_pos trivial

end

/-- The code points of characters: all but the surrogates. -/
theorem char_range (c : Char) : c.toNat < 0xD800 ∨ (0xDFFF < c.toNat ∧ c.toNat < 0x110000) := by
  have h := c.valid
  simpa [UInt32.isValidChar, Nat.isValidChar] using h

/-- The bytes of a character are read as that character. -/
theorem scan_encodeChar (c : Char) (rest : List UInt8) :
    scan (encodeChar c ++ rest) = some c :: scan rest := by
  have hbyte : ∀ n < 256, (UInt8.ofNat n).toNat = n := fun n hn => by simp; omega
  have hc : Char.ofNat c.toNat = c := by simp
  have hr := char_range c
  unfold encodeChar String.utf8EncodeChar
  generalize hv : c.toNat = v at *
  have hv' : c.val.toNat = v := hv
  simp only [hv']
  -- the encoder and the scan agree on the number of bytes
  split
  · have hn := hbyte v (by omega)
    have hb : UInt8.ofNat v < 0x80 := by
      rw [UInt8.lt_iff_toNat_lt, hn]
      simp; omega
    simp [hb, hn, hc]
  · split
    · have h₁ := hbyte (v / 64 % 32 + 192) (by omega)
      have h₂ := hbyte (v % 64 + 128) (by omega)
      have hv : (v / 64 % 32 + 192 - 192) * 64 + (v % 64 + 128 - 128) = v := by omega
      refine (scan_two (by omega) (by omega) (by omega) (by omega) rest).trans ?_
      rw [h₁, h₂, hv, hc]
    · split
      · have h₁ := hbyte (v / 4096 % 16 + 224) (by omega)
        have h₂ := hbyte (v / 64 % 64 + 128) (by omega)
        have h₃ := hbyte (v % 64 + 128) (by omega)
        have hv : ((v / 4096 % 16 + 224 - 224) * 64 + (v / 64 % 64 + 128 - 128)) * 64 +
            (v % 64 + 128 - 128) = v := by omega
        refine (scan_three (by omega) (by omega) (by omega) (by omega) (by omega) (by omega)
          (by omega) (by omega) rest).trans ?_
        rw [h₁, h₂, h₃, hv, hc]
      · have h₁ := hbyte (v / 262144 % 8 + 240) (by omega)
        have h₂ := hbyte (v / 4096 % 64 + 128) (by omega)
        have h₃ := hbyte (v / 64 % 64 + 128) (by omega)
        have h₄ := hbyte (v % 64 + 128) (by omega)
        have hv : (((v / 262144 % 8 + 240 - 240) * 64 + (v / 4096 % 64 + 128 - 128)) * 64 +
            (v / 64 % 64 + 128 - 128)) * 64 + (v % 64 + 128 - 128) = v := by omega
        refine (scan_four (by omega) (by omega) (by omega) (by omega) (by omega) (by omega)
          (by omega) (by omega) (by omega) (by omega) rest).trans ?_
        rw [h₁, h₂, h₃, h₄, hv, hc]

/-! ## The bytes of a text -/

theorem toList_loop (b : ByteArray) (i : Nat) (r : List UInt8) :
    ByteArray.toList.loop b i r = r.reverse ++ b.data.toList.drop i := by
  fun_induction ByteArray.toList.loop b i r with
  | case1 i r h ih =>
    have hi : i < b.data.toList.length := by simpa using h
    have hget : b.get! i = b.data.toList[i] := by
      simp [ByteArray.get!, getElem!_pos b.data i (by simpa using h)]
    rw [ih, hget, List.reverse_cons, List.append_assoc, List.drop_eq_getElem_cons hi]
    rfl
  | case2 i r h =>
    have hi : b.data.toList.length ≤ i := by simpa using h
    rw [List.drop_eq_nil_of_le hi, List.append_nil]

/-- The bytes of a text are those of its characters. -/
theorem encode_eq_flatMap (s : String) : encode s = s.toList.flatMap encodeChar := by
  have hbytes : s.toUTF8 = s.toList.utf8Encode := by simp [String.toUTF8]
  unfold encode ByteArray.toList
  rw [hbytes, toList_loop]
  simp only [List.utf8Encode, List.reverse_nil, List.nil_append, List.drop_zero,
    List.toList_data_toByteArray]
  rfl

theorem length_encode (s : String) : (encode s).length = s.utf8ByteSize := by
  unfold encode ByteArray.toList
  rw [toList_loop]
  simp [String.toUTF8]

theorem scan_flatMap_encodeChar (cs : List Char) : scan (cs.flatMap encodeChar) = cs.map some := by
  induction cs with
  | nil => rw [List.flatMap_nil, scan, List.map_nil]
  | cons c cs ih => rw [List.flatMap_cons, scan_encodeChar, ih, List.map_cons]

theorem decodeLossy_flatMap_encodeChar (cs : List Char) :
    decodeLossy (cs.flatMap encodeChar) = String.ofList cs := by
  unfold decodeLossy
  rw [scan_flatMap_encodeChar, List.map_map]
  exact congrArg String.ofList (List.map_id cs)

/-- The bytes of a text spell that text. -/
theorem decode?_encode (s : String) : decode? (encode s) = some s := by
  have hall : ∀ cs : List Char, (cs.map some).mapM id = some cs := by
    intro cs
    induction cs with
    | nil => rfl
    | cons c cs ih => simp [ih]
  unfold decode?
  rw [encode_eq_flatMap, scan_flatMap_encodeChar, hall, Option.map_some, String.ofList_toList]

end LuaMachine.Text.Utf8
