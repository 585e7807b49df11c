import LuaMachine.Proofs.Number.Order
import LuaMachine.Proofs.Table.History
import Mathlib.Data.List.Induction
import Mathlib.Data.List.Perm.Subperm

/-!
# Traversals

A traversal asks a table for the entry after the key that it was given last. Between two of its steps
fields may be assigned, as long as no key comes in that was not there (`Permitted`). Then no position
changes: a traversal is at a place that splits the keys into those that it has passed and the rest,
and it can only go on (`Underway`).

Main statement: `Table.traversal_survives`.
-/

namespace LuaMachine

namespace Key

theorem ofValue_number {n : Number} (hn : n.isNaN = false) :
    ofValue (.number n) = .ok (ofNumber n) := by
  unfold ofValue
  simp [Value.scalar, hn]

/-- The key of a number is the key of the number that stands for it. -/
theorem ofValue_ofNumber {n : Number} (hn : n.isNaN = false) :
    ofValue (ofNumber n).toValue = .ok (ofNumber n) := by
  have hzero : Number.zero.isNaN = false := by decide
  by_cases h : n.isZero = true
  · rw [ofNumber_eq_of_isZero h]
    exact ofValue_number hzero
  · have hkey : ofNumber n = number n := by
      unfold ofNumber
      rw [if_neg h]
    rw [hkey]
    exact (ofValue_number hn).trans (congrArg Except.ok hkey)

/-- What was read as a key is read as the same key when a table gives it out. -/
theorem ofValue_toValue {v : Value} {k : Key} (h : ofValue v = .ok k) :
    ofValue k.toValue = .ok k := by
  unfold ofValue at h
  cases hv : v.scalar with
  | number n =>
    rw [hv] at h
    cases hn : n.isNaN with
    | true => simp [hn] at h
    | false =>
      obtain rfl : ofNumber n = k := by simpa [hn] using h
      exact ofValue_ofNumber hn
  | _ =>
    rw [hv] at h
    cases h
    try rfl

end Key

namespace Table

variable {t : Table} {k : Key} {v : Value}

/-! ## Keys that can be asked for -/

/-- Every key can be asked for by the value that it is given out as. -/
def Addressable (t : Table) : Prop := ∀ k ∈ t.keys, Key.ofValue k.toValue = .ok k

theorem keys_compact_subset (t : Table) : t.compact.keys ⊆ t.keys := by
  unfold keys
  rcases t.toList_compact with heq | heq
  · rw [heq]
    exact List.Subset.refl _
  · rw [heq]
    exact List.map_subset _ (List.filter_subset_self _)

theorem Addressable.put (ha : t.Addressable) (h : t.Sound) (hv : v.isTuple = false)
    (hk : Key.ofValue k.toValue = .ok k) : (t.put k v).Addressable := by
  intro k' hk'
  rcases h.keys_put (k := k) hv with heq | ⟨-, heq⟩
  · exact ha k' (heq ▸ hk')
  · rw [heq, List.mem_append, List.mem_singleton] at hk'
    rcases hk' with hk' | rfl
    · exact ha k' (keys_compact_subset t hk')
    · exact hk

/-- Every change adds one entry at most. -/
theorem Sound.size_after_le (h : t.Sound) (cs : List Change) :
    (t.after cs).entries.size ≤ t.entries.size + cs.length := by
  induction cs generalizing t with
  | nil => exact Nat.le_refl _
  | cons c cs ih =>
    have hone : (c.apply t).entries.size ≤ t.entries.size + 1 := by
      rw [← length_keys, ← length_keys]
      rcases c.apply_cases t with ⟨-, heq⟩ | ⟨k, v, -, hv, heq⟩
      · rw [heq]
        exact Nat.le_succ _
      · rw [heq]
        rcases h.keys_put (k := k) hv with heq | ⟨-, heq⟩
        · rw [heq]
          exact Nat.le_succ _
        · rw [heq, List.length_append]
          exact Nat.succ_le_succ (List.subperm_of_subset h.compact.nodup t.keys_compact_subset).length_le
    have hrest := ih (h.apply c)
    rw [after_cons, List.length_cons]
    omega

theorem Change.addressable_of_assigns {c : Change} (h : c.assigns? t = some (k, v)) :
    Key.ofValue k.toValue = .ok k := by
  cases c with
  | set key value =>
    cases hkey : Key.ofValue key with
    | ok k' =>
      simp only [assigns?, hkey] at h
      obtain ⟨rfl, -⟩ := Prod.mk.inj (Option.some.inj h)
      exact Key.ofValue_toValue hkey
    | error e =>
      simp only [assigns?, hkey] at h
      cases h
  | append value =>
    obtain ⟨rfl, -⟩ := Prod.mk.inj (Option.some.inj h)
    exact Key.ofValue_ofNumber (Number.isNaN_ofNat _)

theorem Addressable.after (ha : t.Addressable) (h : t.Sound) (cs : List Change) :
    (t.after cs).Addressable := by
  induction cs generalizing t with
  | nil => exact ha
  | cons c cs ih =>
    refine ih ?_ (h.apply c)
    rcases c.apply_cases t with ⟨-, heq⟩ | ⟨k, v, hsome, hv, heq⟩
    · rwa [heq]
    · rw [heq]
      exact ha.put h hv (Change.addressable_of_assigns hsome)

/-! ## Steps and assignments -/

/-- What happens while a table is traversed. -/
inductive Event where
  | assign (key value : Value)
  /-- the traversal asks for the entry after the key that it was given last -/
  | step

def Event.isStep : Event → Bool
  | step => true
  | assign .. => false

/-- A traversal: the table as it is, and where the traversal has got to. -/
structure Traversal where
  table : Table
  /-- the key that was given last; `nil` at the start -/
  cursor : Value := .nil
  /-- the keys that were given, in their order -/
  visited : List Value := []
  /-- a step found no more entries -/
  isOver : Bool := false

namespace Traversal

/-- What the next step gives. -/
def next (r : Traversal) : Except TableFault (Option (Value × Value)) := r.table.next r.cursor

def after (r : Traversal) : Event → Traversal
  | .assign key value => { r with table := (Change.set key value).apply r.table }
  | .step => match r.next with
    | .ok (some (key, _)) => { r with cursor := key, visited := r.visited ++ [key] }
    | .ok none => { r with isOver := true }
    | .error _ => r

end Traversal

/-- The traversal of a table after some events. -/
def traverse (t : Table) (es : List Event) : Traversal := es.foldl Traversal.after { table := t }

/-- A value is assigned only to keys that are live or have been since the traversal began; `nil` is
assigned to any key. -/
def Permitted (t : Table) (es : List Event) : Prop :=
  ∀ n key value, es[n]? = some (.assign key value) → value.isNil ∨
    ∃ k m, Key.ofValue key = .ok k ∧ m ≤ n ∧ k ∈ (t.traverse (es.take m)).table.liveKeys

theorem traverse_concat (t : Table) (es : List Event) (e : Event) :
    t.traverse (es ++ [e]) = (t.traverse es).after e := by
  unfold traverse
  rw [List.foldl_append]
  rfl

theorem Permitted.of_concat {es : List Event} {e : Event} (h : t.Permitted (es ++ [e])) :
    t.Permitted es := by
  intro n key value hn
  have hlt : n < es.length := (List.getElem?_eq_some_iff.1 hn).1
  rcases h n key value (by rwa [List.getElem?_append_left hlt]) with hnil | ⟨k, m, hkey, hm, hlive⟩
  · exact .inl hnil
  · rw [List.take_append_of_le_length (by omega)] at hlive
    exact .inr ⟨k, m, hkey, hm, hlive⟩

/-! ## Where a traversal is -/

/-- A traversal that has passed some keys: the last of them is the one that was given last, and all
that were given are among them, in the order of the table. -/
structure Underway (keys : List Key) (r : Traversal) (passed rest : List Key) : Prop where
  sound : r.table.Sound
  addressable : r.table.Addressable
  keys_eq : r.table.keys = keys
  split : keys = passed ++ rest
  cursor : passed = [] ∧ r.cursor = .nil ∨
    ∃ before k, passed = before ++ [k] ∧ r.cursor = k.toValue
  visited : ∃ given : List Key, given.Sublist passed ∧ r.visited = given.map Key.toValue

namespace Underway

variable {keys passed rest : List Key} {r : Traversal}

/-- A step gives the first live key behind the passed ones. -/
theorem next_eq (h : Underway keys r passed rest) : r.next =
    .ok ((rest.filter fun k => !(r.table.find k).isNil).head?.map
      fun k => (k.toValue, r.table.find k)) := by
  unfold Traversal.next
  have hkeys := h.keys_eq.trans h.split
  rcases h.cursor with ⟨rfl, hcursor⟩ | ⟨before, k, rfl, hcursor⟩
  · rw [List.nil_append] at hkeys
    rw [hcursor, h.sound.next_nil, h.sound.liveKeys_eq, hkeys]
  · rw [hcursor]
    have hsplit : r.table.keys = before ++ k :: rest := by
      rw [hkeys, List.append_assoc]
      rfl
    refine h.sound.next_eq (h.addressable k ?_) hsplit
    rw [hkeys]
    simp

/-- What a step gives was not given before, and is in the table. -/
theorem fresh (h : Underway keys r passed rest) {key v : Value}
    (hgiven : (rest.filter fun k => !(r.table.find k).isNil).head?.map
      (fun k => (k.toValue, r.table.find k)) = some (key, v)) :
    key ∉ r.visited ∧ v.isNil = false ∧ r.table.get key = v := by
  obtain ⟨k, hhead, heq⟩ := Option.map_eq_some_iff.1 hgiven
  obtain ⟨rfl, rfl⟩ := Prod.mk.inj heq
  have hlive := List.mem_filter.1 (List.mem_of_mem_head? hhead)
  have hmem : k ∈ r.table.keys := by
    rw [h.keys_eq, h.split]
    exact List.mem_append_right _ hlive.1
  refine ⟨?_, by simpa using hlive.2, ?_⟩
  · intro hbefore
    obtain ⟨given, hpassed, hvisited⟩ := h.visited
    rw [hvisited, List.mem_map] at hbefore
    obtain ⟨k', hk', heq⟩ := hbefore
    obtain rfl := Key.toValue_injective heq
    -- a key is not both among those passed and among the rest
    have hnodup := h.sound.nodup
    rw [h.keys_eq, h.split, List.nodup_append] at hnodup
    exact hnodup.2.2 k' (hpassed.subset hk') k' hlive.1 rfl
  · unfold Table.get
    rw [h.addressable k hmem]

/-- The ways in which a step goes: there is no live key left, or it passes to the first one. -/
theorem next_cases (h : Underway keys r passed rest) :
    (r.next = .ok none ∧ ∀ k ∈ rest, (r.table.find k).isNil) ∨
      ∃ dead k behind, rest = dead ++ k :: behind ∧ (∀ k ∈ dead, (r.table.find k).isNil) ∧
        (r.table.find k).isNil = false ∧ r.next = .ok (some (k.toValue, r.table.find k)) := by
  rw [h.next_eq]
  cases hlive : rest.filter fun k => !(r.table.find k).isNil with
  | nil =>
    refine .inl ⟨rfl, ?_⟩
    simpa [List.filter_eq_nil_iff] using hlive
  | cons k more =>
    obtain ⟨dead, behind, rfl, hdead, hk, -⟩ := List.filter_eq_cons_iff.1 hlive
    refine .inr ⟨dead, k, behind, rfl, ?_, by simpa using hk, rfl⟩
    simpa using hdead

theorem start (hs : t.Sound) (ha : t.Addressable) : Underway t.keys { table := t } [] t.keys where
  sound := hs
  addressable := ha
  keys_eq := rfl
  split := rfl
  cursor := .inl ⟨rfl, rfl⟩
  visited := ⟨[], List.Sublist.refl _, rfl⟩

/-- An assignment that brings in no new key leaves the traversal where it is. -/
theorem assign (h : Underway keys r passed rest) {key value : Value}
    (hkey : value.isNil ∨ ∃ k, Key.ofValue key = .ok k ∧ k ∈ keys) :
    Underway keys (r.after (.assign key value)) passed rest := by
  have hsound := h.sound.apply (Change.set key value)
  have haddressable := h.addressable.after h.sound [Change.set key value]
  refine ⟨hsound, haddressable, ?_, h.split, h.cursor, h.visited⟩
  change ((Change.set key value).apply r.table).keys = keys
  cases hk : Key.ofValue key with
  | error e =>
    simp only [Change.apply, Table.set, hk]
    exact h.keys_eq
  | ok k =>
    simp only [Change.apply, Table.set, hk]
    have hscalar := Value.isTuple_scalar value
    rcases h.sound.put_cases (k := k) hscalar with ⟨heq, -⟩ | ⟨i, old, cleared, -, heq, -⟩ |
      ⟨hnew, hnil, -⟩
    · exact (congrArg Table.keys heq).trans h.keys_eq
    · exact ((congrArg Table.keys heq).trans (keys_overwrite ..)).trans h.keys_eq
    · -- neither `nil` nor a value for a key of the table makes a new entry
      rcases hkey with hvalue | ⟨k', hk', hmem⟩
      · rw [Value.isNil_iff.1 hvalue] at hnil
        cases hnil
      · rw [hk] at hk'
        cases hk'
        exact absurd (h.keys_eq ▸ hmem) hnew

/-- A step stays in the table, or passes to the first live key that is left. -/
theorem step (h : Underway keys r passed rest) :
    (r.after .step = { r with isOver := true } ∧ (∀ k ∈ rest, (r.table.find k).isNil) ∧
      Underway keys (r.after .step) passed rest) ∨
    ∃ dead k behind, rest = dead ++ k :: behind ∧ (∀ k ∈ dead, (r.table.find k).isNil) ∧
      r.after .step = { r with cursor := k.toValue, visited := r.visited ++ [k.toValue] } ∧
      Underway keys (r.after .step) (passed ++ dead ++ [k]) behind := by
  rcases h.next_cases with ⟨hnext, hdead⟩ | ⟨dead, k, behind, rfl, hdead, -, hnext⟩
  · have hafter : r.after .step = { r with isOver := true } := by
      simp only [Traversal.after, hnext]
    refine .inl ⟨hafter, hdead, ?_⟩
    rw [hafter]
    exact ⟨h.sound, h.addressable, h.keys_eq, h.split, h.cursor, h.visited⟩
  · have hafter : r.after .step =
        { r with cursor := k.toValue, visited := r.visited ++ [k.toValue] } := by
      simp only [Traversal.after, hnext]
    refine .inr ⟨dead, k, behind, rfl, hdead, hafter, ?_⟩
    rw [hafter]
    obtain ⟨given, hgiven, hvisited⟩ := h.visited
    refine ⟨h.sound, h.addressable, h.keys_eq, ?_, .inr ⟨passed ++ dead, k, rfl, rfl⟩, ?_⟩
    · rw [h.split]
      simp
    · refine ⟨given ++ [k], ?_, ?_⟩
      · rw [List.append_assoc]
        exact hgiven.append (List.sublist_append_right dead [k])
      · rw [List.map_append, ← hvisited]
        rfl

end Underway

/-! ## Whole traversals -/

/-- A key has had a value from the beginning of a traversal to its last event. -/
def LiveThroughout (t : Table) (es : List Event) (k : Key) : Prop :=
  ∀ m ≤ es.length, k ∈ (t.traverse (es.take m)).table.liveKeys

/-- What holds of a traversal at any time: it has a place, it has been given every key that it passed
and that has had a value throughout, once it is over there is no such key left, and until then each
of its steps has given a key. -/
structure Orderly (t : Table) (es : List Event) (passed rest : List Key) : Prop where
  underway : Underway t.keys (t.traverse es) passed rest
  visited : ∀ k ∈ passed, t.LiveThroughout es k → k.toValue ∈ (t.traverse es).visited
  exhausted : (t.traverse es).isOver → ∀ k ∈ rest, ¬t.LiveThroughout es k
  steps : (t.traverse es).isOver ∨ es.countP Event.isStep = (t.traverse es).visited.length

theorem LiveThroughout.of_concat {es : List Event} {e : Event}
    (h : t.LiveThroughout (es ++ [e]) k) : t.LiveThroughout es k := by
  intro m hm
  have hlive := h m (by rw [List.length_append]; omega)
  rwa [List.take_append_of_le_length hm] at hlive

/-- A key that is cleared now has not had a value throughout. -/
theorem not_liveThroughout {es : List Event} (h : (t.traverse es).table.Sound)
    (hk : ((t.traverse es).table.find k).isNil) : ¬t.LiveThroughout es k := by
  intro hlive
  have hnow := hlive es.length (Nat.le_refl _)
  rw [List.take_length, h.mem_liveKeys, hk] at hnow
  cases hnow

theorem Orderly.start (h : t.Sound) (ha : t.Addressable) : t.Orderly [] [] t.keys where
  underway := Underway.start h ha
  visited := by simp
  exhausted := by simp [traverse]
  steps := .inr rfl

namespace Orderly

variable {es : List Event} {passed rest : List Key}

theorem assign (h : t.Orderly es passed rest) {key value : Value}
    (hkey : value.isNil ∨ ∃ k, Key.ofValue key = .ok k ∧ k ∈ t.keys) :
    t.Orderly (es ++ [.assign key value]) passed rest where
  underway := by
    rw [traverse_concat]
    exact h.underway.assign hkey
  visited k hk hlive := by
    rw [traverse_concat]
    exact h.visited k hk hlive.of_concat
  exhausted hover k hk hlive := by
    rw [traverse_concat] at hover
    exact h.exhausted hover k hk hlive.of_concat
  steps := by
    rw [traverse_concat, List.countP_append]
    exact h.steps

theorem step (h : t.Orderly es passed rest) :
    ∃ passed' rest', t.Orderly (es ++ [.step]) passed' rest' := by
  have hsound := h.underway.sound
  have hafter := t.traverse_concat es .step
  rcases h.underway.step with ⟨heq, hdead, hunderway⟩ |
    ⟨dead, k, behind, rfl, hdead, heq, hunderway⟩
  · refine ⟨passed, rest, by rwa [hafter], ?_, ?_, ?_⟩
    · intro k hk hlive
      rw [hafter, heq]
      exact h.visited k hk hlive.of_concat
    · intro _ k hk hlive
      exact not_liveThroughout hsound (hdead k hk) hlive.of_concat
    · rw [hafter, heq]
      exact .inl rfl
  · refine ⟨passed ++ dead ++ [k], behind, by rwa [hafter], ?_, ?_, ?_⟩
    · intro k' hk' hlive
      rw [hafter, heq]
      rw [List.mem_append, List.mem_append, List.mem_singleton] at hk'
      rcases hk' with (hk' | hk') | rfl
      · exact List.mem_append_left _ (h.visited k' hk' hlive.of_concat)
      · -- a key that was passed over had been cleared
        exact absurd hlive.of_concat (not_liveThroughout hsound (hdead k' hk'))
      · exact List.mem_append_right _ List.mem_cons_self
    · intro hover k' hk' hlive
      rw [hafter, heq] at hover
      refine h.exhausted hover k' ?_ hlive.of_concat
      exact List.mem_append_right _ (List.mem_cons_of_mem _ hk')
    · rw [hafter, heq, List.countP_append]
      rcases h.steps with hover | hcount
      · exact .inl hover
      · refine .inr ?_
        rw [hcount, List.length_append]
        rfl

/-- The keys that were given are different. -/
theorem nodup_visited (h : t.Orderly es passed rest) : (t.traverse es).visited.Nodup := by
  obtain ⟨given, hgiven, hvisited⟩ := h.underway.visited
  have hkeys := h.underway.sound.nodup
  rw [h.underway.keys_eq, h.underway.split] at hkeys
  rw [hvisited]
  exact ((hkeys.sublist (List.sublist_append_left _ _)).sublist hgiven).map Key.toValue_injective

theorem length_visited (h : t.Orderly es passed rest) :
    (t.traverse es).visited.length ≤ t.entries.size := by
  obtain ⟨given, hgiven, hvisited⟩ := h.underway.visited
  have hsplit := congrArg List.length h.underway.split
  rw [length_keys, List.length_append] at hsplit
  have hlength := hgiven.length_le
  rw [hvisited, List.length_map]
  omega

end Orderly

/-- Permitted events keep a traversal orderly, at any time. -/
theorem Permitted.orderly (h : t.Sound) (ha : t.Addressable) {es : List Event}
    (hp : t.Permitted es) (n : Nat) : ∃ passed rest, t.Orderly (es.take n) passed rest := by
  induction es using List.reverseRecOn generalizing n with
  | nil => exact ⟨[], t.keys, by simpa using Orderly.start h ha⟩
  | append_singleton es e ih =>
    have ih := ih hp.of_concat
    rcases Nat.lt_or_ge es.length n with hlt | hle
    · obtain ⟨passed, rest, hes⟩ := ih es.length
      rw [List.take_length] at hes
      rw [List.take_of_length_le (by rw [List.length_append]; exact hlt)]
      cases e with
      | step => exact hes.step
      | assign key value =>
        refine ⟨passed, rest, hes.assign ?_⟩
        rcases hp es.length key value (by simp) with hnil | ⟨k, m, hkey, hm, hlive⟩
        · exact .inl hnil
        · -- a key that was live then has its entry since the start
          obtain ⟨passed', rest', hthen⟩ := ih m
          rw [List.take_append_of_le_length hm, hthen.underway.sound.liveKeys_eq,
            hthen.underway.keys_eq] at hlive
          exact .inr ⟨k, hkey, List.mem_of_mem_filter hlive⟩
    · rw [List.take_append_of_le_length hle]
      exact ih n

/-- A traversal of any table, during which values are assigned only to keys that are live or have
been since it began, and `nil` to any key: at any time the next step is not refused, and gives a key
that was not given before with the value that it has now; once a step finds no more entries, every
key that has had a value throughout has been given; and that happens within one step more than there
are entries. -/
theorem traversal_survives (cs : List Change) (metatable : Option TableId) (es : List Event)
    (hp : Permitted { empty.after cs with metatable } es) :
    let t : Table := { empty.after cs with metatable }
    (∀ n, let r := t.traverse (es.take n)
      r.visited.Nodup ∧
      (∃ given, r.next = .ok given ∧ ∀ key v, given = some (key, v) →
        key ∉ r.visited ∧ v.isNil = false ∧ r.table.get key = v) ∧
      (r.isOver → ∀ k, t.LiveThroughout (es.take n) k → k.toValue ∈ r.visited)) ∧
    (t.entries.size < es.countP Event.isStep → (t.traverse es).isOver) := by
  intro t
  have hafter := sound_empty.after cs
  have h : t.Sound := ⟨hafter.index, hafter.cleared, hafter.scalars⟩
  have ha : t.Addressable := Addressable.after (t := empty) (by simp [Addressable, keys, empty])
    sound_empty cs
  refine ⟨fun n => ?_, fun hsteps => ?_⟩
  · intro r
    obtain ⟨passed, rest, hn⟩ := hp.orderly h ha n
    refine ⟨hn.nodup_visited, ?_, ?_⟩
    · exact ⟨_, hn.underway.next_eq, fun key v hgiven => hn.underway.fresh hgiven⟩
    · intro hover k hlive
      have hk : k ∈ passed ++ rest := by
        have hfirst := hlive 0 (Nat.zero_le _)
        rw [List.take_zero] at hfirst
        change k ∈ t.liveKeys at hfirst
        rw [h.liveKeys_eq] at hfirst
        rw [← hn.underway.split]
        exact List.mem_of_mem_filter hfirst
      rcases List.mem_append.1 hk with hk | hk
      · exact hn.visited k hk hlive
      · exact absurd hlive (hn.exhausted hover k hk)
  · obtain ⟨passed, rest, hall⟩ := hp.orderly h ha es.length
    rw [List.take_length] at hall
    rcases hall.steps with hover | hcount
    · exact hover
    · have hlength := hall.length_visited
      omega

/-- Two fields are traversed; the first one is cleared while the traversal is there, and gets another
value later. -/
theorem traversal_survives_revival :
    let t : Table :=
      { empty.after [.set (.string "a") (.boolean true), .set (.string "b") (.boolean true)] with
        metatable := none }
    let es : List Event := [.step, .assign (.string "a") .nil, .step,
      .assign (.string "a") (.boolean false), .step]
    t.Permitted es ∧ t.entries.size < es.countP Event.isStep ∧ (t.traverse es).isOver := by
  intro t es
  have hsound : (empty.after _).Sound := sound_empty.after
    [.set (.string "a") (.boolean true), .set (.string "b") (.boolean true)]
  have hlive : Key.string "a" ∈ t.liveKeys := by
    change Key.string "a" ∈ (empty.after _).liveKeys
    rw [hsound.mem_liveKeys, sound_empty.find_after]
    rfl
  have hp : t.Permitted es := by
    intro n key value hn
    rcases n with _ | _ | _ | _ | _ | n
    · cases hn
    · cases hn
      exact .inl rfl
    · cases hn
    · cases hn
      exact .inr ⟨.string "a", 0, rfl, by omega, hlive⟩
    · cases hn
    · cases hn
  have hsize : t.entries.size < es.countP Event.isStep :=
    Nat.lt_succ_of_le (sound_empty.size_after_le _)
  exact ⟨hp, hsize, (traversal_survives _ none es hp).2 hsize⟩

end Table

end LuaMachine
