import LuaMachine.Machine.World
import LuaMachine.Proofs.Table.Entries

/-!
# Tables over time

`Table.after` is a table after some changes. It is a finite map: a key has the value that was assigned
to it last (`Table.written`), whatever was set, cleared, revived and dropped in between. It is
traversed in an order in which two keys never change places while both have values.

Main statement: `Table.map_in_stable_order`.
-/

namespace LuaMachine

namespace Table

/-- What changes a table; reading one does not. -/
inductive Change where
  | set (key value : Value)
  | append (value : Value)

namespace Change

/-- The key and the value that a change assigns in a table; none if it is refused. -/
def assigns? (t : Table) : Change → Option (Key × Value)
  | set key value => match Key.ofValue key with
    | .ok k => some (k, value.scalar)
    | .error _ => none
  | append value => some (.ofNat (t.length + 1), value.scalar)

/-- The table after a change. One that is refused leaves it as it is. -/
def apply (t : Table) : Change → Table
  | set key value => match t.set key value with
    | .ok t' => t'
    | .error _ => t
  | append value => t.append value

end Change

/-- A table after some changes. -/
def after (t : Table) (cs : List Change) : Table := cs.foldl Change.apply t

/-- The value that was assigned to a key last. -/
def written (t : Table) : List Change → Key → Option Value
  | [], _ => none
  | c :: cs, k =>
    match written (c.apply t) cs k with
    | some v => some v
    | none => match c.assigns? t with
      | some (k', v) => if k' = k then some v else none
      | none => none

/-- Two keys are both live, and the first one comes before the second in a traversal. -/
def Precedes (t : Table) (k k' : Key) : Prop := [k, k'].Sublist t.liveKeys

variable {t : Table} {k k' : Key} {v : Value} {c : Change} {cs : List Change}

theorem after_cons (t : Table) (c : Change) (cs : List Change) :
    t.after (c :: cs) = (c.apply t).after cs := rfl

/-! ## Changes -/

namespace Change

/-- A change assigns a scalar to one key, or it is refused. -/
theorem apply_cases (t : Table) (c : Change) :
    (c.assigns? t = none ∧ c.apply t = t) ∨
      ∃ k v, c.assigns? t = some (k, v) ∧ v.isTuple = false ∧ c.apply t = t.put k v := by
  cases c with
  | set key value =>
    cases hkey : Key.ofValue key with
    | ok k =>
      refine .inr ⟨k, value.scalar, ?_, Value.isTuple_scalar value, ?_⟩
      · simp only [assigns?, hkey]
      · simp only [apply, Table.set, hkey]
    | error e => exact .inl ⟨by simp only [assigns?, hkey], by simp only [apply, Table.set, hkey]⟩
  | append value => exact .inr ⟨_, value.scalar, rfl, Value.isTuple_scalar value, rfl⟩

end Change

theorem Sound.apply (h : t.Sound) (c : Change) : (c.apply t).Sound := by
  rcases c.apply_cases t with ⟨-, heq⟩ | ⟨k, v, -, hv, heq⟩
  · rwa [heq]
  · rw [heq]
    exact h.put hv

theorem Sound.after (h : t.Sound) (cs : List Change) : (t.after cs).Sound := by
  induction cs generalizing t with
  | nil => exact h
  | cons c cs ih => exact ih (h.apply c)

/-- A key has the value that was assigned to it last, or else the one it had before. -/
theorem Sound.find_after (h : t.Sound) (cs : List Change) (k : Key) :
    (t.after cs).find k = (written t cs k).getD (t.find k) := by
  induction cs generalizing t with
  | nil => rfl
  | cons c cs ih =>
    rw [after_cons, ih (h.apply c), written]
    cases written (c.apply t) cs k with
    | some v => rfl
    | none =>
      dsimp only [Option.getD_none]
      rcases c.apply_cases t with ⟨hnone, heq⟩ | ⟨k', v, hsome, hv, heq⟩
      · rw [hnone, heq]
        rfl
      · rw [hsome, heq, h.find_put hv]
        dsimp only
        by_cases hk : k = k'
        · rw [if_pos hk, if_pos hk.symm]
          rfl
        · rw [if_neg hk, if_neg (Ne.symm hk)]
          rfl

/-! ## The order of a traversal -/

/-- Two items of a list that is filtered keep their order. -/
theorem pair_sublist_filter {α : Type} {p : α → Bool} {l : List α} {a b : α} (ha : p a) (hb : p b) :
    [a, b].Sublist (l.filter p) ↔ [a, b].Sublist l := by
  constructor
  · exact fun h => h.trans List.filter_sublist
  · intro h
    have hfiltered := h.filter p
    rwa [List.filter_cons_of_pos ha, List.filter_cons_of_pos hb] at hfiltered

/-- What comes last is behind no other item. -/
theorem pair_sublist_concat {α : Type} {l : List α} {a b c : α} (hb : b ≠ c) :
    [a, b].Sublist (l ++ [c]) ↔ [a, b].Sublist l := by
  constructor
  · intro h
    obtain ⟨l₁, l₂, heq, h₁, h₂⟩ := List.sublist_append_iff.1 h
    rcases List.sublist_singleton.1 h₂ with rfl | rfl
    · rwa [heq, List.append_nil]
    · have hlast := congrArg List.getLast? heq
      simp at hlast
      exact absurd hlast hb
  · exact fun h => h.trans (List.sublist_append_left _ _)

theorem Sound.precedes_iff (h : t.Sound) (hk : (t.find k).isNil = false)
    (hk' : (t.find k').isNil = false) : t.Precedes k k' ↔ [k, k'].Sublist t.keys := by
  unfold Precedes
  rw [h.liveKeys_eq]
  exact pair_sublist_filter (by simp [hk]) (by simp [hk'])

/-- Dropping cleared entries does not change the order. -/
theorem Sound.pair_sublist_compact (h : t.Sound) (hk : (t.find k).isNil = false)
    (hk' : (t.find k').isNil = false) : [k, k'].Sublist t.compact.keys ↔ [k, k'].Sublist t.keys := by
  rcases t.toList_compact with heq | heq
  · unfold keys
    rw [heq]
  · have hlive : t.compact.keys = t.liveKeys := by
      unfold keys liveKeys
      rw [heq]
    rw [hlive]
    exact h.precedes_iff hk hk'

/-- An assignment does not change the order of two keys that are live before and after it. -/
theorem Sound.precedes_put {k₁ k₂ : Key} (h : t.Sound) (hv : v.isTuple = false)
    (h₁ : (t.find k₁).isNil = false) (h₂ : (t.find k₂).isNil = false)
    (h₁' : ((t.put k v).find k₁).isNil = false) (h₂' : ((t.put k v).find k₂).isNil = false) :
    (t.put k v).Precedes k₁ k₂ ↔ t.Precedes k₁ k₂ := by
  rw [h.precedes_iff h₁ h₂, (h.put hv).precedes_iff h₁' h₂']
  rcases h.keys_put (k := k) hv with heq | ⟨hk, heq⟩
  · rw [heq]
  · have hne : k₂ ≠ k := by
      rintro rfl
      rw [h.find_of_not_mem hk] at h₂
      cases h₂
    rw [heq, pair_sublist_concat hne]
    exact h.pair_sublist_compact h₁ h₂

/-- Two keys keep their order while both are live. -/
theorem Sound.precedes_after {k₁ k₂ : Key} (h : t.Sound)
    (hlive : ∀ n ≤ cs.length, ((t.after (cs.take n)).find k₁).isNil = false ∧
      ((t.after (cs.take n)).find k₂).isNil = false) :
    (t.after cs).Precedes k₁ k₂ ↔ t.Precedes k₁ k₂ := by
  induction cs generalizing t with
  | nil => exact Iff.rfl
  | cons c cs ih =>
    have hrest : ∀ n ≤ cs.length, (((c.apply t).after (cs.take n)).find k₁).isNil = false ∧
        (((c.apply t).after (cs.take n)).find k₂).isNil = false :=
      fun n hn => hlive (n + 1) (Nat.succ_le_succ hn)
    rw [after_cons, ih (h.apply c) hrest]
    obtain ⟨h₁, h₂⟩ := hlive 0 (Nat.zero_le _)
    obtain ⟨h₁', h₂'⟩ := hrest 0 (Nat.zero_le _)
    rcases c.apply_cases t with ⟨-, heq⟩ | ⟨k, v, -, hv, heq⟩
    · rw [heq]
    · have h₁' : ((c.apply t).find k₁).isNil = false := h₁'
      have h₂' : ((c.apply t).find k₂).isNil = false := h₂'
      rw [heq] at h₁' h₂' ⊢
      exact h.precedes_put hv h₁ h₂ h₁' h₂'

/-! ## Traversal by steps -/

theorem liveFrom_eq (t : Table) (fuel i : Nat) (hfuel : t.entries.size ≤ fuel + i) :
    t.liveFrom fuel i = ((t.entries.toList.drop i).filter fun e => !e.2.isNil).head?.map
      fun e => (e.1.toValue, e.2) := by
  induction fuel generalizing i with
  | zero =>
    rw [List.drop_eq_nil_of_le (by rw [Array.length_toList]; omega)]
    rfl
  | succ fuel ih =>
    unfold liveFrom
    cases he : t.entries[i]? with
    | none =>
      have hle := Array.getElem?_eq_none_iff.1 he
      rw [List.drop_eq_nil_of_le (by rwa [Array.length_toList])]
      rfl
    | some e =>
      obtain ⟨hlt, hget⟩ := Array.getElem?_eq_some_iff.1 he
      have hdrop := List.drop_eq_getElem_cons (l := t.entries.toList) (i := i) (by simpa using hlt)
      rw [Array.getElem_toList, hget] at hdrop
      rw [hdrop]
      dsimp only
      split
      · next hnil =>
        rw [List.filter_cons_of_neg (by simp [hnil])]
        exact ih _ (by omega)
      · next hnil =>
        rw [List.filter_cons_of_pos (by simpa using hnil)]
        rfl

/-- The first live key in a part of the entries, with its value. -/
theorem Sound.head?_filter (h : t.Sound) {es : List (Key × Value)} (hes : es ⊆ t.entries.toList) :
    ((es.filter fun e => !e.2.isNil).head?.map fun e => (e.1.toValue, e.2)) =
      ((es.map (·.1)).filter fun k => !(t.find k).isNil).head?.map
        fun k => (k.toValue, t.find k) := by
  have hfilter : (es.map (·.1)).filter (fun k => !(t.find k).isNil) =
      (es.filter fun e => !e.2.isNil).map (·.1) := by
    rw [List.filter_map]
    refine congrArg _ (List.filter_congr fun e he => ?_)
    rw [Function.comp_apply, h.find_of_mem (hes he)]
  rw [hfilter, List.head?_map, Option.map_map]
  cases hhead : (es.filter fun e => !e.2.isNil).head? with
  | none => rfl
  | some e =>
    have he := hes (List.mem_of_mem_filter (List.mem_of_mem_head? hhead))
    rw [Option.map_some, Option.map_some, Function.comp_apply, h.find_of_mem he]

/-- The first step of a traversal gives the first live key. -/
theorem Sound.next_nil (h : t.Sound) : t.next .nil =
    .ok (t.liveKeys.head?.map fun k => (k.toValue, t.find k)) := by
  have hfirst := t.liveFrom_eq t.entries.size 0 (Nat.le_refl _)
  unfold next
  rw [if_pos (by rfl), hfirst, List.drop_zero, h.head?_filter (List.Subset.refl _), h.liveKeys_eq]
  rfl

/-- From a key, be it cleared, a traversal goes on with the first live key behind it. -/
theorem Sound.next_eq (h : t.Sound) {key : Value} {before behind : List Key}
    (hkey : Key.ofValue key = .ok k) (hk : t.keys = before ++ k :: behind) :
    t.next key = .ok ((behind.filter fun k => !(t.find k).isNil).head?.map
      fun k => (k.toValue, t.find k)) := by
  have hindex : t.index[k]? = some before.length := (h.index _ _).2 (by rw [hk]; simp)
  have hnil : key.isNil = false := by
    cases hnil : key.isNil with
    | false => rfl
    | true =>
      unfold Key.ofValue at hkey
      rw [Value.isNil_iff.1 hnil] at hkey
      cases hkey
  have hbehind : (t.entries.toList.drop (before.length + 1)).map (·.1) = behind := by
    rw [List.map_drop]
    change t.keys.drop (before.length + 1) = behind
    rw [hk, List.drop_append, List.drop_eq_nil_of_le (Nat.le_succ _)]
    simp
  have hrest := t.liveFrom_eq (t.entries.size - before.length) (before.length + 1) (by omega)
  rw [h.head?_filter (List.drop_subset _ _), hbehind] at hrest
  unfold next
  rw [hnil, if_neg (by simp), hkey]
  dsimp only
  rw [hindex]
  dsimp only
  rw [hrest]

/-- From a live key a traversal goes on with the next one. -/
theorem Sound.next_of_live (h : t.Sound) {key : Value} {before behind : List Key}
    (hkey : Key.ofValue key = .ok k) (hk : t.liveKeys = before ++ k :: behind) :
    t.next key = .ok (behind.head?.map fun k => (k.toValue, t.find k)) := by
  have hlive : k ∈ t.liveKeys := by
    rw [hk]
    exact List.mem_append_right _ List.mem_cons_self
  have hmem : k ∈ t.keys := by
    rw [h.liveKeys_eq] at hlive
    exact List.mem_of_mem_filter hlive
  obtain ⟨front, rest, hkeys⟩ := List.append_of_mem hmem
  -- the live keys before and behind it are those before and behind it among all keys
  have hsame := h.liveKeys_eq
  rw [hkeys, List.filter_append, List.filter_cons_of_pos (by simp [h.mem_liveKeys.1 hlive])] at hsame
  have hnodup := h.nodup_liveKeys
  rw [hk, List.nodup_append, List.nodup_cons] at hnodup
  have hbefore : k ∉ before := fun hmem => hnodup.2.2 _ hmem _ List.mem_cons_self rfl
  rw [hk, List.append_cons_inj_of_notMem hbefore hnodup.2.1.1] at hsame
  rw [h.next_eq hkey hkeys, hsame.2.2]

/-! ## The table as a finite map -/

/-- Two live keys are in different pairs. -/
theorem Sound.nodup_pairs (h : t.Sound) : (t.pairs.map (·.1)).Nodup := by
  rw [h.pairs_eq, List.map_map]
  exact h.nodup_liveKeys.map Key.toValue_injective

theorem Sound.mem_pairs (h : t.Sound) {key : Value} :
    (key, v) ∈ t.pairs ↔ ∃ k, key = k.toValue ∧ t.find k = v ∧ v.isNil = false := by
  rw [h.pairs_eq, List.mem_map]
  constructor
  · rintro ⟨k, hk, heq⟩
    obtain ⟨rfl, rfl⟩ := Prod.mk.inj heq
    exact ⟨k, rfl, rfl, h.mem_liveKeys.1 hk⟩
  · rintro ⟨k, rfl, rfl, hlive⟩
    exact ⟨k, h.mem_liveKeys.2 hlive, rfl⟩

/-- Going on from the key of a pair gives the pair behind it. -/
theorem Sound.next_of_pairs (h : t.Sound) {key : Value} {before behind : List (Value × Value)}
    (hkey : Key.ofValue key = .ok k) (hpairs : t.pairs = before ++ (k.toValue, v) :: behind) :
    t.next key = .ok behind.head? := by
  rw [h.pairs_eq] at hpairs
  obtain ⟨front, rest, hlive, -, hrest⟩ := List.map_eq_append_iff.1 hpairs
  obtain ⟨k', tail, rfl, hk', rfl⟩ := List.map_eq_cons_iff.1 hrest
  obtain rfl := Key.toValue_injective (Prod.mk.inj hk').1
  rw [h.next_of_live hkey hlive, List.head?_map]

/-- A table is a finite map from keys to values: what it reads, refuses, counts and lists. -/
structure Holds (t : Table) (held : Key → Value) : Prop where
  get : ∀ key, t.get key = match Key.ofValue key with
    | .ok k => held k
    | .error _ => .nil
  /-- only `nil` and an undefined number are refused as a key -/
  set_error : ∀ key value e, t.set key value = .error e ↔
    (key.scalar = .nil ∧ e = .nilKey) ∨ ∃ n, key.scalar = .number n ∧ n.isNaN ∧ e = .nanKey
  /-- the counter is right, and so it is neither lowered below zero when a cleared entry gets a value
  nor ever above the number of entries -/
  cleared : t.cleared = t.entries.toList.countP (·.2.isNil)
  cleared_pos : ∀ k i, t.index[k]? = some i → (t.find k).isNil → 0 < t.cleared
  cleared_le : t.cleared ≤ t.entries.size
  nodup_pairs : (t.pairs.map (·.1)).Nodup
  mem_pairs : ∀ key v, (key, v) ∈ t.pairs ↔ ∃ k, key = k.toValue ∧ held k = v ∧ v.isNil = false
  count : t.count = t.pairs.length
  next_nil : t.next .nil = .ok t.pairs.head?
  next : ∀ key k v before behind, Key.ofValue key = .ok k →
    t.pairs = before ++ (k.toValue, v) :: behind → t.next key = .ok behind.head?

theorem Sound.holds (h : t.Sound) : t.Holds t.find where
  get _ := rfl
  set_error key value e := by
    rw [← Key.ofValue_eq_error_iff]
    unfold Table.set
    cases Key.ofValue key <;> simp
  cleared := h.cleared
  cleared_pos _ _ := h.cleared_pos
  cleared_le := h.cleared_le
  nodup_pairs := h.nodup_pairs
  mem_pairs _ _ := h.mem_pairs
  count := by rw [h.count_eq, h.pairs_eq, List.length_map]
  next_nil := by rw [h.next_nil, h.pairs_eq, List.head?_map]
  next _ _ _ _ _ := h.next_of_pairs

/-- Whatever is done to a new table, a key has the value that was assigned to it last, the two zeros
being one key and a refused assignment leaving all as it was; and two keys keep their order in a
traversal for as long as both have values. -/
theorem map_in_stable_order (cs : List Change) :
    let t := empty.after cs
    t.Holds (fun k => (written empty cs k).getD .nil) ∧
      (∀ m n : Number, m.isNaN = false → n.isNaN = false →
        (Key.ofNumber m = Key.ofNumber n ↔ m.equals n)) ∧
      (∀ key value e, t.set key value = .error e → (Change.set key value).apply t = t ∧
        ∀ id w, Exec.setIndex id key value w = .error (.error (.ofFault (.table e))) w) ∧
      ∀ (later : List Change) (k k' : Key),
        (∀ n ≤ later.length, k ∈ (t.after (later.take n)).liveKeys ∧
          k' ∈ (t.after (later.take n)).liveKeys) →
        ((t.after later).Precedes k k' ↔ t.Precedes k k') := by
  intro t
  have h : t.Sound := sound_empty.after cs
  have hheld : (fun k => (written empty cs k).getD .nil) = t.find := by
    funext k
    rw [sound_empty.find_after, sound_empty.find_of_not_mem (by simp [keys, empty])]
  refine ⟨hheld ▸ h.holds, fun m n => Key.ofNumber_eq_iff, fun key value e he => ⟨?_, ?_⟩, ?_⟩
  · unfold Change.apply
    simp only [he]
  · intro id w
    have hkey : Key.ofValue key = .error e := by
      rwa [Key.ofValue_eq_error_iff, ← h.holds.set_error key value]
    unfold Exec.setIndex
    rw [hkey]
  · intro later k k' hlive
    exact h.precedes_after fun n hn =>
      ⟨(h.after _).mem_liveKeys.1 (hlive n hn).1, (h.after _).mem_liveKeys.1 (hlive n hn).2⟩

end Table

end LuaMachine
