import LuaMachine.Table
import Mathlib.Data.List.Nodup

/-!
# What the entries of a table say

A table is seen by the list of its keys and by the value of each key (`Table.find`). A table is sound
when its parts agree: the index has exactly the positions of the keys, the counter of cleared entries
is right, and no value is a tuple. Assignment keeps tables sound, changes the value of one key only
(`Sound.find_put`), and never moves keys: it adds the new key at the end, after cleared entries may
have been dropped (`Sound.keys_put`). Keys are compared by an equivalence (`Key.ofValue_lawful`).
-/

namespace LuaMachine

/-- What is no tuple and stands for nothing is `nil`. -/
theorem Value.eq_nil_of_isNil {v : Value} (h : v.isNil) (hv : v.isTuple = false) : v = .nil := by
  cases v <;> first | rfl | cases h | cases hv

/-- A value stands for nothing when its scalar is `nil`. -/
theorem Value.isNil_iff {v : Value} : v.isNil ↔ v.scalar = .nil := by
  fun_induction Value.scalar v with
  | case1 => exact iff_of_true rfl rfl
  | case2 v rest ih => exact ih
  | case3 v hempty hcons =>
    cases v with
    | tuple vs => cases vs <;> simp_all
    | _ => simp [Value.isNil]

namespace Key

theorem toValue_injective : Function.Injective toValue := by
  intro k k' h
  cases k <;> cases k' <;> cases h <;> rfl

theorem ofNumber_eq_of_isZero {n : Number} (h : n.isZero) : ofNumber n = number .zero := by
  unfold ofNumber
  rw [if_pos h]

/-- Two numbers index the same entry when they are equal as numbers. -/
theorem ofNumber_eq_iff {m n : Number} (hm : m.isNaN = false) (hn : n.isNaN = false) :
    ofNumber m = ofNumber n ↔ m.equals n := by
  have hbits : m.bits = n.bits ↔ m = n := ⟨fun h => congrArg Number.mk h, fun h => h ▸ rfl⟩
  have hzero : Number.zero.isZero = true := by decide
  unfold ofNumber Number.equals
  simp only [hm, hn, number.injEq, Bool.not_false, Bool.true_and, Bool.or_eq_true,
    Bool.and_eq_true, beq_iff_eq, hbits]
  constructor
  · intro h
    by_cases hmz : m.isZero = true <;> by_cases hnz : n.isZero = true
    · exact .inr ⟨hmz, hnz⟩
    · rw [if_pos hmz, if_neg hnz] at h
      exact absurd (h ▸ hzero) hnz
    · rw [if_neg hmz, if_pos hnz] at h
      exact absurd (h ▸ hzero) hmz
    · rw [if_neg hmz, if_neg hnz] at h
      exact .inl h
  · rintro (rfl | ⟨hmz, hnz⟩)
    · rfl
    · rw [if_pos hmz, if_pos hnz]

/-- The values that cannot index a table. -/
theorem ofValue_eq_error_iff {v : Value} {e : TableFault} : ofValue v = .error e ↔
    (v.scalar = .nil ∧ e = .nilKey) ∨ ∃ n, v.scalar = .number n ∧ n.isNaN ∧ e = .nanKey := by
  have htuple := Value.isTuple_scalar v
  unfold ofValue
  cases hv : v.scalar with
  | nil =>
    simp only [Except.error.injEq, true_and, reduceCtorEq, false_and, exists_false, or_false]
    exact eq_comm
  | tuple vs =>
    rw [hv] at htuple
    cases htuple
  | number n =>
    simp only [reduceCtorEq, false_and, false_or, Value.number.injEq, exists_eq_left']
    cases hn : n.isNaN with
    | false => simp
    | true => simpa using eq_comm
  | _ => simp

end Key

/-!
## Equality of keys

Primitive equality is no equivalence of values: an undefined number differs from itself, and a tuple equals
what its first item equals. The keys of a table are made so that it is one of keys. A key is canonical when
its number, if it is one, is defined and is not the negative zero; then it is known by its hashed data
(`Key.Canonical.equals_iff_hashed`), and it stands for its value in every comparison
(`Key.atomEquals_toValue`).
-/

/-- A zero is as good as the other one in comparisons. -/
theorem Number.equals_zero {m : Number} (hm : m.isZero = true) (n : Number) :
    zero.equals n = m.equals n ∧ n.equals zero = n.equals m := by
  have hzero : zero.isZero = true ∧ zero.isNaN = false := by decide
  have hdefined : m.isNaN = false := by
    rw [isZero, beq_iff_eq] at hm
    rw [isNaN, hm]
    decide
  have hbits : ∀ x y : Number, x.isZero = true → (x.bits == y.bits || y.isZero) = y.isZero := by
    intro x y hx
    cases hy : y.isZero with
    | true => exact Bool.or_true _
    | false =>
      rw [Bool.or_false, beq_eq_false_iff_ne]
      intro heq
      rw [isZero, magnitude, ← heq] at hy
      exact Bool.eq_false_iff.1 hy hx
  have hbits' : ∀ x y : Number, x.isZero = true → (y.bits == x.bits || y.isZero) = y.isZero := fun x y hx => by
    rw [Bool.beq_comm, hbits x y hx]
  unfold equals
  rw [hm, hzero.1, hzero.2, hdefined]
  simp only [Bool.true_and, Bool.and_true, hbits _ n hzero.1, hbits _ n hm, hbits' _ n hzero.1, hbits' _ n hm,
    and_self]

namespace Value

theorem rawEquals_of_isTuple_eq_false {a : Value} (ha : a.isTuple = false) (b : Value) :
    rawEquals a b = atomEquals a b.scalar := by
  cases a with
  | tuple vs => cases ha
  | _ => rw [rawEquals, scalar_of_isTuple_eq_false rfl]; simp

end Value

-- numbers are known by their bits, identities by their positions
attribute [ext] Number TableId ClosureId ObjectId CoroutineId

namespace Key

@[simp] theorem isTuple_toValue (k : Key) : k.toValue.isTuple = false := by
  cases k <;> rfl

theorem equals_eq_atomEquals (a b : Key) : a.equals b = a.toValue.atomEquals b.toValue := by
  rw [equals, Value.rawEquals_of_isTuple_eq_false (isTuple_toValue a),
    Value.scalar_of_isTuple_eq_false (isTuple_toValue b)]

/-- A key as it is made of a value: a number is defined, and only one of the zeros occurs. -/
def Canonical (k : Key) : Prop :=
  ∀ n, k = number n → n.isNaN = false ∧ (n.isZero = true → n = .zero)

/-- What is a key is its own value, the other zero aside. -/
theorem ofValue_eq_ok {v : Value} {k : Key} (h : ofValue v = .ok k) :
    k.Canonical ∧
      (k.toValue = v.scalar ∨ ∃ n, v.scalar = .number n ∧ n.isZero = true ∧ k = number .zero) := by
  unfold ofValue at h
  cases hv : v.scalar with
  | nil | tuple =>
    rw [hv] at h
    cases h
  | number n =>
    rw [hv] at h
    dsimp only at h
    split at h
    · cases h
    · next hn =>
      cases h
      by_cases hz : n.isZero = true
      · rw [ofNumber_eq_of_isZero hz]
        refine ⟨?_, .inr ⟨n, rfl, hz, rfl⟩⟩
        rintro _ ⟨⟩
        exact ⟨by decide, fun _ => rfl⟩
      · rw [ofNumber, if_neg hz]
        refine ⟨?_, .inl rfl⟩
        rintro _ ⟨⟩
        exact ⟨Bool.eq_false_iff.2 hn, fun h => absurd h hz⟩
  | _ =>
    rw [hv] at h
    cases h
    exact ⟨by rintro n ⟨⟩, .inl rfl⟩

/-- Canonical numbers are equal when they are the same bits. -/
theorem Canonical.equals_iff_bits {m n : Number} (hm : (number m).Canonical) (hn : (number n).Canonical) :
    m.equals n = true ↔ m.bits = n.bits := by
  have hself : ∀ x : Number, (number x).Canonical → ofNumber x = number x := by
    intro x hx
    unfold ofNumber
    split
    · next hz => rw [(hx x rfl).2 hz]
    · rfl
  rw [← ofNumber_eq_iff (hm m rfl).1 (hn n rfl).1, hself m hm, hself n hn, number.injEq]
  exact ⟨congrArg Number.bits, congrArg Number.mk⟩

/-- Canonical keys are the same exactly when the same data of them are hashed. -/
theorem Canonical.equals_iff_hashed {a b : Key} (ha : a.Canonical) (hb : b.Canonical) :
    a.equals b = true ↔ a.hashed = b.hashed := by
  rw [equals_eq_atomEquals]
  cases a with
  | number m =>
    cases b with
    | number n => simpa [toValue, Value.atomEquals, hashed] using ha.equals_iff_bits hb
    | _ => simp [toValue, Value.atomEquals, hashed]
  | _ =>
    cases b <;>
      simp [toValue, Value.atomEquals, hashed, TableId.ext_iff, ClosureId.ext_iff, ObjectId.ext_iff,
        CoroutineId.ext_iff]

/-- Only callbacks of one identity can differ as data when what is hashed of them does not. -/
theorem eq_of_hashed {a b : Key} (h : a.hashed = b.hashed)
    (hcallbacks : ∀ x y, a = callback x → b = callback y → x.identity = y.identity → x = y) : a = b := by
  cases a with
  | callback x =>
    cases b with
    | callback y => exact congrArg callback (hcallbacks x y rfl rfl (by simpa [hashed] using h))
    | _ => simp [hashed] at h
  | _ =>
    cases b <;>
      simp_all [hashed, Number.ext_iff, TableId.ext_iff, ClosureId.ext_iff, ObjectId.ext_iff, CoroutineId.ext_iff]

/-- A key stands for its value in comparisons. -/
theorem atomEquals_toValue {v : Value} {k : Key} (h : ofValue v = .ok k) (x : Value) :
    k.toValue.atomEquals x = v.scalar.atomEquals x ∧ x.atomEquals k.toValue = x.atomEquals v.scalar := by
  obtain ⟨-, hk | ⟨n, hv, hn, rfl⟩⟩ := ofValue_eq_ok h
  · rw [hk]
    exact ⟨rfl, rfl⟩
  · rw [hv]
    cases x with
    | number m => exact Number.equals_zero hn m
    | _ => exact ⟨rfl, rfl⟩

theorem equals_iff_rawEquals {u v : Value} {a b : Key} (ha : ofValue u = .ok a) (hb : ofValue v = .ok b) :
    a.equals b = true ↔ u.scalar.rawEquals v.scalar = true := by
  rw [equals_eq_atomEquals, (atomEquals_toValue ha _).1, (atomEquals_toValue hb _).2,
    Value.rawEquals_of_isTuple_eq_false (Value.isTuple_scalar u), Value.scalar_scalar]

/-- The keys of values are compared by an equivalence that the hashed data respect, and it is primitive
equality of what the values stand for. Where the callbacks of one identity are one, equal keys are the same
as data. -/
theorem ofValue_lawful {u v w : Value} {a b c : Key} (ha : ofValue u = .ok a) (hb : ofValue v = .ok b)
    (hc : ofValue w = .ok c) :
    a.equals a = true ∧ (a.equals b = true → b.equals a = true) ∧
    (a.equals b = true → b.equals c = true → a.equals c = true) ∧
    (a.equals b = true → a.hashed = b.hashed) ∧
    (a.equals b = true ↔ u.scalar.rawEquals v.scalar = true) ∧
    ((∀ x y, a = callback x → b = callback y → x.identity = y.identity → x = y) →
      (a.equals b = true ↔ a = b)) := by
  have hca := (ofValue_eq_ok ha).1
  have hcb := (ofValue_eq_ok hb).1
  have hcc := (ofValue_eq_ok hc).1
  have hself : a.equals a = true := (hca.equals_iff_hashed hca).2 rfl
  refine ⟨hself, fun h => ?_, fun h h' => ?_, fun h => (hca.equals_iff_hashed hcb).1 h,
    equals_iff_rawEquals ha hb, fun hcallbacks => ⟨fun h => ?_, fun h => h ▸ hself⟩⟩
  · exact (hcb.equals_iff_hashed hca).2 ((hca.equals_iff_hashed hcb).1 h).symm
  · exact (hca.equals_iff_hashed hcc).2
      (((hca.equals_iff_hashed hcb).1 h).trans ((hcb.equals_iff_hashed hcc).1 h'))
  · exact eq_of_hashed ((hca.equals_iff_hashed hcb).1 h) hcallbacks

/-- A zero of either sign, however deep in a tuple, is one key; a text is another. -/
theorem ofValue_lawful_zeros :
    ofValue (.tuple [.tuple [.number ⟨0x8000000000000000⟩, .nil]]) = .ok (number .zero) ∧
    ofValue (.number .zero) = .ok (number .zero) ∧ ofValue (.tuple [.string "0"]) = .ok (string "0") ∧
    Value.rawEquals (.number ⟨0x8000000000000000⟩) (.number .zero) = true ∧
    (string "0").equals (string "0") = true := by
  have hnested : ofValue (.tuple [.tuple [.number ⟨0x8000000000000000⟩, .nil]]) = .ok (number .zero) := by
    decide
  have hplain : ofValue (.number .zero) = .ok (number .zero) := by decide
  have htext : ofValue (.tuple [.string "0"]) = .ok (string "0") := by decide
  obtain ⟨hself, -, -, -, hequal, -⟩ := ofValue_lawful hnested hplain htext
  obtain ⟨htextSelf, -⟩ := ofValue_lawful htext hplain hnested
  exact ⟨hnested, hplain, htext, hequal.1 hself, htextSelf⟩

end Key

/-! ## Tables -/

namespace Table

/-- All keys with an entry, also those whose entry is cleared. -/
def keys (t : Table) : List Key := t.entries.toList.map (·.1)

/-- The keys that have a value, in traversal order. -/
def liveKeys (t : Table) : List Key := (t.entries.toList.filter fun e => !e.2.isNil).map (·.1)

/-- The parts of a table agree. -/
structure Sound (t : Table) : Prop where
  index : ∀ (k : Key) (i : Nat), t.index[k]? = some i ↔ t.keys[i]? = some k
  cleared : t.cleared = t.entries.toList.countP (·.2.isNil)
  scalars : ∀ e ∈ t.entries.toList, e.2.isTuple = false

variable {t : Table} {k k' : Key} {v : Value} {i : Nat}

/-! ## Keys and values -/

theorem getElem?_keys (t : Table) (i : Nat) : t.keys[i]? = t.entries[i]?.map (·.1) := by
  unfold keys
  rw [List.getElem?_map, Array.getElem?_toList]

theorem length_keys (t : Table) : t.keys.length = t.entries.size := by
  unfold keys
  rw [List.length_map, Array.length_toList]

theorem sound_empty : empty.Sound := by
  refine ⟨fun k i => ?_, rfl, by simp [empty]⟩
  unfold empty keys
  simp

namespace Sound

theorem nodup (h : t.Sound) : t.keys.Nodup := by
  rw [List.nodup_iff_getElem?_ne_getElem?]
  intro i j hij hj heq
  obtain ⟨k, hk⟩ : ∃ k, t.keys[j]? = some k := ⟨_, List.getElem?_eq_getElem hj⟩
  have hi := (h.index k i).2 (heq.trans hk)
  have hj' := (h.index k j).2 hk
  rw [hi] at hj'
  exact absurd (Option.some.inj hj') (Nat.ne_of_lt hij)

theorem index_eq_none (h : t.Sound) : t.index[k]? = none ↔ k ∉ t.keys := by
  constructor
  · intro hnone hmem
    obtain ⟨i, hi⟩ := List.mem_iff_getElem?.1 hmem
    rw [(h.index k i).2 hi] at hnone
    cases hnone
  · intro hmem
    cases hi : t.index[k]? with
    | none => rfl
    | some i => exact absurd (List.mem_of_getElem? ((h.index k i).1 hi)) hmem

theorem find_of_not_mem (h : t.Sound) (hk : k ∉ t.keys) : t.find k = .nil := by
  unfold find
  rw [h.index_eq_none.2 hk]

/-- The value of a key is the one in its entry. -/
theorem find_of_getElem? (h : t.Sound) (hi : t.entries[i]? = some (k, v)) : t.find k = v := by
  have hindex : t.index[k]? = some i := (h.index k i).2 (by rw [getElem?_keys, hi]; rfl)
  unfold find
  rw [hindex]
  dsimp only
  rw [hi]

theorem find_of_mem (h : t.Sound) (he : (k, v) ∈ t.entries.toList) : t.find k = v := by
  obtain ⟨i, hi⟩ := List.mem_iff_getElem?.1 he
  exact h.find_of_getElem? (by rwa [Array.getElem?_toList] at hi)

/-- A key that the index knows has an entry. -/
theorem exists_entry (h : t.Sound) (hi : t.index[k]? = some i) :
    ∃ v, t.entries[i]? = some (k, v) := by
  have hkey := (h.index k i).1 hi
  rw [getElem?_keys, Option.map_eq_some_iff] at hkey
  obtain ⟨⟨k', v⟩, he, rfl⟩ := hkey
  exact ⟨v, he⟩

/-- The live keys are the keys with a value. -/
theorem liveKeys_eq (h : t.Sound) : t.liveKeys = t.keys.filter fun k => !(t.find k).isNil := by
  unfold liveKeys keys
  rw [List.filter_map]
  refine congrArg _ (List.filter_congr fun e he => ?_)
  rw [Function.comp_apply, h.find_of_mem he]

theorem mem_liveKeys (h : t.Sound) : k ∈ t.liveKeys ↔ (t.find k).isNil = false := by
  rw [h.liveKeys_eq, List.mem_filter, Bool.not_eq_true']
  constructor
  · exact (·.2)
  · intro hlive
    refine ⟨?_, hlive⟩
    by_contra hmem
    rw [h.find_of_not_mem hmem] at hlive
    cases hlive

theorem nodup_liveKeys (h : t.Sound) : t.liveKeys.Nodup := by
  rw [h.liveKeys_eq]
  exact h.nodup.filter _

/-- A traversal lists the live keys with their values. -/
theorem pairs_eq (h : t.Sound) : t.pairs = t.liveKeys.map fun k => (k.toValue, t.find k) := by
  unfold pairs liveKeys
  rw [List.map_map]
  refine List.map_congr_left fun e he => ?_
  rw [Function.comp_apply, h.find_of_mem (List.mem_of_mem_filter he)]

/-- No more entries are cleared than there are. -/
theorem cleared_le (h : t.Sound) : t.cleared ≤ t.entries.size := by
  rw [h.cleared, ← Array.length_toList]
  exact List.countP_le_length

theorem count_add_cleared (h : t.Sound) : t.count + t.cleared = t.entries.size :=
  Nat.sub_add_cancel h.cleared_le

theorem count_eq (h : t.Sound) : t.count = t.liveKeys.length := by
  have hsum := t.entries.toList.length_eq_countP_add_countP (·.2.isNil)
  have hcount := h.count_add_cleared
  unfold liveKeys
  rw [List.length_map, ← List.countP_eq_length_filter]
  rw [Array.length_toList, ← h.cleared] at hsum
  simp only [Bool.not_eq_true, Bool.decide_eq_false] at hsum
  omega

/-- A cleared entry is counted. -/
theorem cleared_pos (h : t.Sound) (hi : t.index[k]? = some i) (hnil : (t.find k).isNil) :
    0 < t.cleared := by
  obtain ⟨v, he⟩ := h.exists_entry hi
  rw [h.find_of_getElem? he] at hnil
  rw [h.cleared, List.countP_pos_iff]
  exact ⟨(k, v), List.mem_of_getElem? (by rwa [Array.getElem?_toList]), hnil⟩

end Sound

theorem find_empty (k : Key) : empty.find k = .nil := sound_empty.find_of_not_mem List.not_mem_nil

theorem get_empty (v : Value) : empty.get v = .nil := by
  unfold get
  split
  · exact find_empty _
  · rfl

theorem length_empty : empty.length = 0 := by
  change (if (empty.find _).isNil = true then 0 else _) = 0
  rw [find_empty]
  rfl

/-! ## The index of a list of entries -/

/-- One more entry is indexed. -/
def indexNext (m : Std.HashMap Key Nat × Nat) (e : Key × Value) : Std.HashMap Key Nat × Nat :=
  (m.1.insert e.1 m.2, m.2 + 1)

theorem getElem?_foldl_indexNext (es : List (Key × Value)) (m : Std.HashMap Key Nat) (n : Nat)
    (hes : (es.map (·.1)).Nodup) (hm : ∀ k ∈ es.map (·.1), m[k]? = none) (k : Key) (i : Nat) :
    (es.foldl indexNext (m, n)).1[k]? = some i ↔
      m[k]? = some i ∨ n ≤ i ∧ (es.map (·.1))[i - n]? = some k := by
  induction es generalizing m n with
  | nil => simp
  | cons e rest ih =>
    rw [List.map_cons, List.nodup_cons] at hes
    have hrest : ∀ k ∈ rest.map (·.1), (m.insert e.1 n)[k]? = none := by
      intro k hk
      have hne : ¬e.1 = k := fun heq => hes.1 (heq ▸ hk)
      rw [Std.HashMap.getElem?_insert, if_neg (by simpa using hne)]
      exact hm k (List.mem_cons_of_mem _ hk)
    rw [List.foldl_cons]
    change ((rest.foldl indexNext (m.insert e.1 n, n + 1)).1)[k]? = some i ↔ _
    rw [ih _ _ hes.2 hrest, Std.HashMap.getElem?_insert, List.map_cons]
    by_cases hk : e.1 = k
    · subst hk
      have hnone := hm e.1 List.mem_cons_self
      have hlater : ∀ j, (rest.map (·.1))[j]? ≠ some e.1 :=
        fun j hj => hes.1 (List.mem_of_getElem? hj)
      simp only [BEq.rfl, if_true, Option.some.injEq, hnone, hlater, and_false, or_false]
      constructor
      · rintro rfl
        simp
      · rintro (h | ⟨hle, h⟩)
        · cases h
        · cases hj : i - n with
          | zero => omega
          | succ j =>
            rw [hj, List.getElem?_cons_succ] at h
            exact absurd h (hlater j)
    · rw [if_neg (by simpa using hk)]
      refine or_congr_right ?_
      constructor
      · rintro ⟨hle, h⟩
        refine ⟨by omega, ?_⟩
        obtain ⟨j, hj⟩ : ∃ j, i - n = j + 1 := ⟨i - (n + 1), by omega⟩
        rw [hj, List.getElem?_cons_succ]
        rwa [show i - (n + 1) = j by omega] at h
      · rintro ⟨hle, h⟩
        cases hj : i - n with
        | zero =>
          rw [hj, List.getElem?_cons_zero, Option.some.injEq] at h
          exact absurd h hk
        | succ j =>
          rw [hj, List.getElem?_cons_succ] at h
          exact ⟨by omega, by rwa [show i - (n + 1) = j by omega]⟩

/-- The index of entries with different keys has their positions. -/
theorem getElem?_indexOf {es : Array (Key × Value)} (hes : (es.toList.map (·.1)).Nodup) (k : Key)
    (i : Nat) : (indexOf es)[k]? = some i ↔ (es.toList.map (·.1))[i]? = some k := by
  have heq : indexOf es = (es.toList.foldl indexNext
      ((Std.HashMap.emptyWithCapacity es.size : Std.HashMap Key Nat), 0)).1 := by
    unfold indexOf
    rw [← Array.foldl_toList]
    rfl
  rw [heq, getElem?_foldl_indexNext _ _ _ hes (by simp)]
  simp

/-! ## Dropping cleared entries -/

/-- Cleared entries may be dropped. -/
theorem toList_compact (t : Table) : t.compact.entries.toList = t.entries.toList ∨
    t.compact.entries.toList = t.entries.toList.filter fun e => !e.2.isNil := by
  unfold compact
  split
  · exact .inr (Array.toList_filter ..)
  · exact .inl rfl

theorem Sound.compact (h : t.Sound) : t.compact.Sound := by
  unfold Table.compact
  split
  · have hkeys : ((t.entries.filter fun e => !e.2.isNil).toList.map (·.1)).Nodup := by
      rw [Array.toList_filter]
      exact h.nodup_liveKeys
    refine ⟨fun k i => getElem?_indexOf hkeys k i, ?_, fun e he => ?_⟩
    · dsimp only
      rw [Array.toList_filter, eq_comm, List.countP_eq_zero]
      intro e he
      simpa using List.of_mem_filter he
    · dsimp only at he
      rw [Array.toList_filter] at he
      exact h.scalars e (List.mem_of_mem_filter he)
  · exact h

/-- Dropping cleared entries changes no values. -/
theorem Sound.find_compact (h : t.Sound) (k : Key) : t.compact.find k = t.find k := by
  have hfound : ∀ {v}, (k, v) ∈ t.compact.entries.toList → (k, v) ∈ t.entries.toList := by
    intro v hv
    rcases t.toList_compact with heq | heq
    · exact heq ▸ hv
    · exact List.mem_of_mem_filter (heq ▸ hv)
  by_cases hk : k ∈ t.compact.keys
  · obtain ⟨⟨k', v⟩, he, rfl⟩ := List.mem_map.1 hk
    rw [h.compact.find_of_mem he, h.find_of_mem (hfound he)]
  · rw [h.compact.find_of_not_mem hk]
    by_cases hk' : k ∈ t.keys
    · obtain ⟨⟨k', v⟩, he, rfl⟩ := List.mem_map.1 hk'
      rw [h.find_of_mem he]
      -- an entry that was dropped was cleared
      rcases t.toList_compact with heq | heq
      · exact absurd (List.mem_map_of_mem (heq ▸ he)) hk
      · cases hv : v.isNil with
        | true => exact (Value.eq_nil_of_isNil hv (h.scalars _ he)).symm
        | false => exact absurd (List.mem_map_of_mem (heq ▸ List.mem_filter.2 ⟨he, by simp [hv]⟩)) hk
    · rw [h.find_of_not_mem hk']

/-! ## Assignment -/

/-- A table whose entry at a position has another value. -/
def overwrite (t : Table) (i : Nat) (v : Value) (cleared : Nat) : Table :=
  { t with entries := t.entries.modify i fun e => (e.1, v), cleared }

theorem keys_overwrite (t : Table) (i : Nat) (v : Value) (cleared : Nat) :
    (t.overwrite i v cleared).keys = t.keys := by
  refine List.ext_getElem? fun j => ?_
  rw [getElem?_keys, getElem?_keys]
  unfold overwrite
  dsimp only
  rw [Array.getElem?_modify]
  split
  · rw [Option.map_map]
    rfl
  · rfl

theorem getElem?_overwrite (hi : t.entries[i]? = some (k, v)) (v' : Value) (cleared : Nat) :
    (t.overwrite i v' cleared).entries[i]? = some (k, v') := by
  unfold overwrite
  dsimp only
  rw [Array.getElem?_modify, if_pos rfl, hi]
  rfl

theorem mem_overwrite {v' : Value} {cleared : Nat} {e : Key × Value}
    (he : e ∈ (t.overwrite i v' cleared).entries.toList) : e.2 = v' ∨ e ∈ t.entries.toList := by
  obtain ⟨j, hj⟩ := List.mem_iff_getElem?.1 he
  unfold overwrite at hj
  dsimp only at hj
  rw [Array.getElem?_toList, Array.getElem?_modify] at hj
  split at hj
  · obtain ⟨e', -, rfl⟩ := Option.map_eq_some_iff.1 hj
    exact .inl rfl
  · exact .inr (List.mem_of_getElem? ((Array.getElem?_toList ..).trans hj))

/-- One entry changes, and with it the number of those that are cleared. -/
theorem countP_overwrite (hi : t.entries[i]? = some (k, v)) (v' : Value) (cleared : Nat) :
    (t.overwrite i v' cleared).entries.toList.countP (·.2.isNil) + (if v.isNil then 1 else 0) =
      t.entries.toList.countP (·.2.isNil) + if v'.isNil then 1 else 0 := by
  obtain ⟨hlt, hget⟩ := Array.getElem?_eq_some_iff.1 hi
  have hsplit : t.entries.toList =
      t.entries.toList.take i ++ (k, v) :: t.entries.toList.drop (i + 1) := by
    have hdrop := List.drop_eq_getElem_cons (l := t.entries.toList) (i := i) (by simpa using hlt)
    rw [Array.getElem_toList, hget] at hdrop
    rw [← hdrop, List.take_append_drop]
  have hmodify : (t.overwrite i v' cleared).entries.toList =
      t.entries.toList.take i ++ (k, v') :: t.entries.toList.drop (i + 1) := by
    unfold overwrite
    dsimp only
    rw [Array.toList_modify, List.modify_eq_take_cons_drop (by simpa using hlt),
      Array.getElem_toList, hget]
  rw [hmodify]
  conv_rhs => rw [hsplit]
  simp only [List.countP_append, List.countP_cons]
  omega

theorem Sound.overwrite (h : t.Sound) (hi : t.entries[i]? = some (k, v)) {v' : Value}
    (hv' : v'.isTuple = false) {cleared : Nat}
    (hcleared : cleared + (if v.isNil then 1 else 0) = t.cleared + if v'.isNil then 1 else 0) :
    (t.overwrite i v' cleared).Sound := by
  refine ⟨fun k j => ?_, ?_, fun e he => ?_⟩
  · rw [keys_overwrite]
    exact h.index k j
  · have hcount := countP_overwrite hi v' cleared
    have hbefore := h.cleared
    change cleared = _
    omega
  · rcases mem_overwrite he with heq | he
    · rw [heq, hv']
    · exact h.scalars e he

/-- Only the key of the entry has another value. -/
theorem Sound.find_overwrite (h : t.Sound) (hi : t.entries[i]? = some (k, v)) {v' : Value}
    {cleared : Nat} (h' : (t.overwrite i v' cleared).Sound) (k' : Key) :
    (t.overwrite i v' cleared).find k' = if k' = k then v' else t.find k' := by
  split
  · next heq =>
    subst heq
    exact h'.find_of_getElem? (getElem?_overwrite hi v' cleared)
  · next hne =>
    by_cases hk' : k' ∈ t.keys
    · obtain ⟨j, hj⟩ := List.mem_iff_getElem?.1 hk'
      rw [getElem?_keys, Option.map_eq_some_iff] at hj
      obtain ⟨⟨k', w⟩, hj, rfl⟩ := hj
      have hij : i ≠ j := by
        rintro rfl
        rw [hi] at hj
        cases hj
        exact hne rfl
      rw [h.find_of_getElem? hj]
      refine h'.find_of_getElem? (i := j) ?_
      unfold Table.overwrite
      dsimp only
      rw [Array.getElem?_modify, if_neg hij, hj]
    · rw [h.find_of_not_mem hk', h'.find_of_not_mem (by rwa [keys_overwrite])]

theorem keys_insertNew (t : Table) (k : Key) (v : Value) :
    (t.insertNew k v).keys = t.compact.keys ++ [k] := by
  unfold insertNew keys
  simp

theorem Sound.insertNew (h : t.Sound) (hk : k ∉ t.keys) (hv : v.isTuple = false)
    (hnil : v.isNil = false) : (t.insertNew k v).Sound := by
  have hc := h.compact
  have hk' : k ∉ t.compact.keys := by
    rcases t.toList_compact with heq | heq
    · unfold keys
      rwa [heq]
    · unfold keys
      rw [heq]
      exact fun hmem => hk (List.map_subset _ (List.filter_subset_self _) hmem)
  refine ⟨fun k' i => ?_, ?_, fun e he => ?_⟩
  · rw [keys_insertNew]
    change (t.compact.index.insert k t.compact.entries.size)[k']? = some i ↔ _
    rw [Std.HashMap.getElem?_insert, ← length_keys]
    rcases Nat.lt_trichotomy i t.compact.keys.length with hlt | rfl | hgt
    · rw [List.getElem?_append_left hlt]
      split
      · next heq =>
        obtain rfl : k = k' := by simpa using heq
        refine iff_of_false (fun hi => ?_) fun hi => hk' (List.mem_of_getElem? hi)
        exact absurd (Option.some.inj hi) (Nat.ne_of_gt hlt)
      · exact hc.index k' i
    · rw [List.getElem?_append_right (Nat.le_refl _), Nat.sub_self, List.getElem?_cons_zero]
      split
      · next heq =>
        obtain rfl : k = k' := by simpa using heq
        exact iff_of_true rfl rfl
      · next hne =>
        refine iff_of_false (fun hi => ?_) fun hi => hne (by simpa using hi)
        rw [hc.index, List.getElem?_eq_none (Nat.le_refl _)] at hi
        cases hi
    · rw [List.getElem?_eq_none (by simpa using Nat.succ_le_of_lt hgt)]
      split
      · refine iff_of_false (fun hi => ?_) (by simp)
        exact absurd (Option.some.inj hi) (Nat.ne_of_lt hgt)
      · rw [hc.index, List.getElem?_eq_none (Nat.le_of_lt hgt)]
  · change t.compact.cleared = (t.compact.entries.push (k, v)).toList.countP _
    rw [Array.toList_push, List.countP_append, ← hc.cleared]
    simp [hnil]
  · change e ∈ (t.compact.entries.push (k, v)).toList at he
    rw [Array.toList_push, List.mem_append, List.mem_singleton] at he
    rcases he with he | rfl
    · exact hc.scalars e he
    · exact hv

theorem Sound.find_insertNew (h : t.Sound) (hk : k ∉ t.keys)
    (h' : (t.insertNew k v).Sound) (k' : Key) :
    (t.insertNew k v).find k' = if k' = k then v else t.find k' := by
  have hlist : (t.insertNew k v).entries.toList = t.compact.entries.toList ++ [(k, v)] := by
    unfold Table.insertNew
    simp
  split
  · next heq =>
    subst heq
    exact h'.find_of_mem (by rw [hlist]; simp)
  · next hne =>
    rw [← h.find_compact k']
    by_cases hk' : k' ∈ t.compact.keys
    · obtain ⟨⟨k', w⟩, he, rfl⟩ := List.mem_map.1 hk'
      rw [h.compact.find_of_mem he]
      exact h'.find_of_mem (by rw [hlist]; exact List.mem_append_left _ he)
    · rw [h.compact.find_of_not_mem hk', h'.find_of_not_mem ?_]
      rw [keys_insertNew, List.mem_append, List.mem_singleton]
      exact not_or.2 ⟨hk', hne⟩

/-- The ways in which a value that is no tuple is assigned: nothing is left to do, an entry gets
another value, or there is a new one. -/
theorem Sound.put_cases (h : t.Sound) (hv : v.isTuple = false) :
    (t.put k v = t ∧ t.find k = v) ∨
      (∃ i old cleared, t.entries[i]? = some (k, old) ∧ t.put k v = t.overwrite i v cleared ∧
        cleared + (if old.isNil then 1 else 0) = t.cleared + if v.isNil then 1 else 0) ∨
      k ∉ t.keys ∧ v.isNil = false ∧ t.put k v = t.insertNew k v := by
  unfold put
  cases hi : t.index[k]? with
  | none =>
    have hk := h.index_eq_none.1 hi
    dsimp only
    split
    · next hnil => exact .inl ⟨rfl, by rw [h.find_of_not_mem hk, Value.eq_nil_of_isNil hnil hv]⟩
    · next hnil => exact .inr (.inr ⟨hk, by simpa using hnil, rfl⟩)
  | some i =>
    obtain ⟨old, he⟩ := h.exists_entry hi
    have hold := h.scalars _ (List.mem_of_getElem? ((Array.getElem?_toList ..).trans he))
    dsimp only
    rw [he]
    dsimp only
    by_cases hnil : v.isNil = true
    · obtain rfl := Value.eq_nil_of_isNil hnil hv
      by_cases hdead : old.isNil = true
      · refine .inl ⟨by simp [hdead, hnil], ?_⟩
        rw [h.find_of_getElem? he, Value.eq_nil_of_isNil hdead hold]
      · exact .inr (.inl ⟨i, old, t.cleared + 1, he, by simp [Table.overwrite, hdead, hnil],
          by simp [hdead, hnil]⟩)
    · by_cases hdead : old.isNil = true
      · have hpos := h.cleared_pos hi (by rwa [h.find_of_getElem? he])
        refine .inr (.inl ⟨i, old, t.cleared - 1, he, by simp [Table.overwrite, hnil, hdead], ?_⟩)
        rw [if_pos hdead, if_neg hnil]
        omega
      · exact .inr (.inl ⟨i, old, t.cleared, he, by simp [Table.overwrite, hnil, hdead],
          by simp [hdead, hnil]⟩)

theorem Sound.put (h : t.Sound) (hv : v.isTuple = false) : (t.put k v).Sound := by
  rcases h.put_cases hv with ⟨heq, -⟩ | ⟨i, old, cleared, hi, heq, hcleared⟩ | ⟨hk, hnil, heq⟩
  · rwa [heq]
  · rw [heq]
    exact h.overwrite hi hv hcleared
  · rw [heq]
    exact h.insertNew hk hv hnil

/-- Assignment changes the value of one key. -/
theorem Sound.find_put (h : t.Sound) (hv : v.isTuple = false) (k' : Key) :
    (t.put k v).find k' = if k' = k then v else t.find k' := by
  have h' := h.put (k := k) hv
  rcases h.put_cases (k := k) hv with ⟨heq, hfind⟩ | ⟨i, old, cleared, hi, heq, -⟩ | ⟨hk, -, heq⟩
  · rw [heq]
    split
    · next hk => rw [hk, hfind]
    · rfl
  · rw [heq] at h' ⊢
    exact h.find_overwrite hi h' k'
  · rw [heq] at h' ⊢
    exact h.find_insertNew hk h' k'

/-- Assignment leaves keys where they are, or adds one behind what a table keeps. -/
theorem Sound.keys_put (h : t.Sound) (hv : v.isTuple = false) :
    (t.put k v).keys = t.keys ∨ k ∉ t.keys ∧ (t.put k v).keys = t.compact.keys ++ [k] := by
  rcases h.put_cases (k := k) hv with ⟨heq, -⟩ | ⟨i, old, cleared, hi, heq, -⟩ | ⟨hk, -, heq⟩
  · exact .inl (congrArg keys heq)
  · exact .inl (heq ▸ keys_overwrite t i v cleared)
  · exact .inr ⟨hk, heq ▸ keys_insertNew t k v⟩

end Table

end LuaMachine
