import Mathlib.Data.List.AList
import Mathlib.Algebra.BigOperators.Fin
import Mathlib.Algebra.Order.BigOperators.Group.List
import Mathlib.Algebra.Order.Group.Nat

/-!
# Finite maps, finite sets and multimaps

A hash map is an association list without duplicate keys (`AList`), a hash set is a hash map to
`Unit`, and a multimap is a hash map to hash sets. The order of the association list is not the
iteration order of the map: whatever iterates takes an `IterOrder`, an arbitrary rearrangement.

The multimap operations are the two updates of an inverted index: `MultiMap.add` creates the set
of a key on demand, `MultiMap.discard` drops a set that becomes empty. `MultiMap.Holds` is the
relation the index stands for, and `MultiMap.NoEmpty` says that no empty set is kept.
-/

abbrev HashMap (κ ν : Type*) := AList fun _ : κ => ν

abbrev HashSet (α : Type) := HashMap α Unit

abbrev MultiMap (κ α : Type) := HashMap κ (HashSet α)

/-- One iteration order: a rearrangement of every list it is asked to walk. -/
structure IterOrder where
  order : ∀ {α : Type}, List α → List α
  perm : ∀ {α : Type} (l : List α), (order l).Perm l

/-- The order in which the lists are kept. -/
def IterOrder.asStored : IterOrder := ⟨fun l => l, fun _ => .rfl⟩

namespace IterOrder
variable {α : Type} (o : IterOrder)

@[simp] theorem mem_order {l : List α} {a : α} : a ∈ o.order l ↔ a ∈ l := (o.perm l).mem_iff

theorem nodup_order {l : List α} : (o.order l).Nodup ↔ l.Nodup := (o.perm l).nodup_iff

@[simp] theorem order_eq_nil {l : List α} : o.order l = [] ↔ l = [] := by
  rw [← List.length_eq_zero_iff, ← List.length_eq_zero_iff, (o.perm l).length_eq]

end IterOrder

namespace HashMap
variable {κ ν : Type*}

/-- The sum of a weight over the entries of a map. -/
def sumBy (f : κ → ν → Nat) (m : HashMap κ ν) : Nat := (m.entries.map fun p => f p.1 p.2).sum

theorem sumBy_one (m : HashMap κ ν) : sumBy (fun _ _ => 1) m = m.entries.length := by
  simp [sumBy]

variable [DecidableEq κ]

theorem lookup_eq_some_iff_mem {m : HashMap κ ν} {k : κ} {v : ν} :
    m.lookup k = some v ↔ (⟨k, v⟩ : Sigma fun _ : κ => ν) ∈ m.entries :=
  AList.mem_lookup_iff

theorem lookup_erase' (m : HashMap κ ν) (k k' : κ) :
    (m.erase k).lookup k' = if k' = k then none else m.lookup k' := by
  split
  · next h => rw [h, AList.lookup_erase]
  · next h => rw [AList.lookup_erase_ne h]

theorem lookup_insert' (m : HashMap κ ν) (k k' : κ) (v : ν) :
    (m.insert k v).lookup k' = if k' = k then some v else m.lookup k' := by
  split
  · next h => rw [h, AList.lookup_insert]
  · next h => rw [AList.lookup_insert_ne h]

theorem erase_of_lookup_none {m : HashMap κ ν} {k : κ} (h : m.lookup k = none) : m.erase k = m :=
  AList.ext (List.kerase_of_notMem_keys (AList.lookup_eq_none.mp h))

/-- Erasing a present key takes exactly its pair out of the list of entries. -/
theorem entries_perm_erase {m : HashMap κ ν} {k : κ} {v : ν} (h : m.lookup k = some v) :
    m.entries.Perm (⟨k, v⟩ :: (m.erase k).entries) := by
  have hk : k ∈ m.entries.keys := AList.lookup_isSome.mp (by simp [h])
  obtain ⟨v', l₁, l₂, -, heq, herase⟩ := List.exists_of_kerase hk
  have hv : v' = v := by
    have hmem : m.lookup k = some v' := lookup_eq_some_iff_mem.mpr (by rw [heq]; simp)
    exact Option.some.inj (hmem.symm.trans h)
  subst hv
  have hentries : (m.erase k).entries = l₁ ++ l₂ := herase
  rw [hentries, heq]
  exact List.perm_middle

theorem length_erase_lt {m : HashMap κ ν} {k : κ} {v : ν} (h : m.lookup k = some v) :
    (m.erase k).entries.length < m.entries.length := by
  rw [(entries_perm_erase h).length_eq]
  exact Nat.lt_succ_self _

theorem entries_erase (m : HashMap κ ν) (k : κ) : (m.erase k).entries = m.entries.kerase k := rfl

theorem length_insert (m : HashMap κ ν) (k : κ) (v : ν) :
    (m.insert k v).entries.length = (m.erase k).entries.length + 1 := by
  simp [AList.entries_insert, entries_erase]

theorem length_erase_le (m : HashMap κ ν) (k : κ) :
    (m.erase k).entries.length ≤ m.entries.length := by
  cases h : m.lookup k with
  | none => rw [erase_of_lookup_none h]
  | some v => exact (length_erase_lt h).le

/-! ## Sums over the entries -/

theorem sumBy_of_lookup {f : κ → ν → Nat} {m : HashMap κ ν} {k : κ} {v : ν}
    (h : m.lookup k = some v) : sumBy f m = f k v + sumBy f (m.erase k) := by
  simp only [sumBy]
  rw [((entries_perm_erase h).map fun p => f p.1 p.2).sum_eq]
  simp

theorem sumBy_insert (f : κ → ν → Nat) (m : HashMap κ ν) (k : κ) (v : ν) :
    sumBy f (m.insert k v) = f k v + sumBy f (m.erase k) := by
  simp [sumBy, AList.entries_insert, entries_erase]

/-- Entries of at least a given weight bound their number. -/
theorem length_mul_le_sumBy {f : κ → ν → Nat} {m : HashMap κ ν} {c : Nat}
    (h : ∀ k v, m.lookup k = some v → c ≤ f k v) : m.entries.length * c ≤ sumBy f m := by
  have hle := List.card_nsmul_le_sum (m.entries.map fun p => f p.1 p.2) c ?_
  · rwa [List.length_map, smul_eq_mul] at hle
  · intro w hw
    obtain ⟨p, hp, rfl⟩ := List.mem_map.mp hw
    exact h p.1 p.2 (lookup_eq_some_iff_mem.mpr hp)

theorem sumBy_eq_sum (f : κ → ν → Nat) (m : HashMap κ ν) :
    sumBy f m = ∑ k ∈ m.keys.toFinset, (m.lookup k).elim 0 (f k) := by
  rw [List.sum_toFinset _ m.keys_nodup, sumBy, AList.keys, List.keys, List.map_map]
  refine congrArg List.sum (List.map_congr_left fun p hp => ?_)
  have hl : m.lookup p.1 = some p.2 := lookup_eq_some_iff_mem.mpr hp
  simp [hl]

/-- The sum over a map from which some keys have been taken away. -/
theorem sumBy_of_lookup_eq {P : κ → Prop} [DecidablePred P] {m m' : HashMap κ ν} (f : κ → ν → Nat)
    (h : ∀ k, m'.lookup k = if P k then none else m.lookup k) :
    sumBy f m' = sumBy (fun k v => if P k then 0 else f k v) m := by
  have hkeys : m'.keys.toFinset ⊆ m.keys.toFinset := by
    intro k hk
    rw [List.mem_toFinset, ← AList.mem_keys, ← AList.lookup_isSome] at hk ⊢
    rw [h] at hk
    split at hk
    · cases hk
    · exact hk
  rw [sumBy_eq_sum, sumBy_eq_sum, Finset.sum_subset hkeys fun k _ hk => ?_]
  · refine Finset.sum_congr rfl fun k _ => ?_
    rw [h]
    split
    · cases m.lookup k <;> rfl
    · rfl
  · rw [List.mem_toFinset, ← AList.mem_keys] at hk
    rw [AList.lookup_eq_none.mpr hk]
    rfl

/-- A map whose keys are spread over several maps, with values that have the same view, has the same
sum as the maps together. -/
theorem sumBy_spread {ι ω : Type*} [Fintype ι] [DecidableEq ι] {home : κ → ι} {view : ν → ω}
    {m : HashMap κ ν} {ms : ι → HashMap κ ν} (f : κ → ν → Nat)
    (hf : ∀ k v v', view v' = view v → f k v' = f k v)
    (hhome : ∀ k, ((ms (home k)).lookup k).map view = (m.lookup k).map view)
    (hother : ∀ i k, i ≠ home k → (ms i).lookup k = none) :
    sumBy f m = ∑ i, sumBy f (ms i) := by
  have hkeys : ∀ i, (ms i).keys.toFinset = m.keys.toFinset.filter (home · = i) := by
    intro i
    ext k
    rw [Finset.mem_filter, List.mem_toFinset, List.mem_toFinset, ← AList.mem_keys,
      ← AList.mem_keys, ← AList.lookup_isSome, ← AList.lookup_isSome]
    constructor
    · intro h
      by_cases hi : home k = i
      · refine ⟨?_, hi⟩
        have hmap := congrArg Option.isSome (hhome k)
        rw [hi, Option.isSome_map, Option.isSome_map, h] at hmap
        exact hmap.symm
      · rw [hother i k (Ne.symm hi)] at h
        cases h
    · rintro ⟨h, rfl⟩
      have hmap := congrArg Option.isSome (hhome k)
      rwa [Option.isSome_map, Option.isSome_map, h] at hmap
  have hvalue : ∀ k, ((ms (home k)).lookup k).elim 0 (f k) = (m.lookup k).elim 0 (f k) := by
    intro k
    have hmap := hhome k
    cases hl : (ms (home k)).lookup k <;> cases hl' : m.lookup k <;> simp_all
    exact hf _ _ _ hmap
  simp only [sumBy_eq_sum, hkeys]
  rw [← Finset.sum_fiberwise m.keys.toFinset home]
  refine Finset.sum_congr rfl fun i _ => Finset.sum_congr rfl fun k hk => ?_
  rw [← (Finset.mem_filter.mp hk).2, hvalue]

end HashMap

namespace MultiMap
variable {κ α : Type} [DecidableEq κ]

/-- `a` is filed under `k`. -/
def Holds (m : MultiMap κ α) (k : κ) (a : α) : Prop := ∃ s, m.lookup k = some s ∧ a ∈ s

instance (m : MultiMap κ α) (k : κ) (a : α) [DecidableEq α] : Decidable (m.Holds k a) :=
  match h : m.lookup k with
  | none => isFalse fun ⟨_, hs, _⟩ => nomatch h.symm.trans hs
  | some s =>
    decidable_of_iff (a ∈ s)
      ⟨fun ha => ⟨s, h, ha⟩, fun ⟨_, hs, ha⟩ => Option.some.inj (h.symm.trans hs) ▸ ha⟩

/-- No key is kept with an empty set. -/
def NoEmpty (m : MultiMap κ α) : Prop := ∀ k s, m.lookup k = some s → s ≠ ∅

theorem holds_empty {k : κ} {a : α} : ¬ Holds (∅ : MultiMap κ α) k a := by
  rintro ⟨s, hs, -⟩
  simp at hs

theorem noEmpty_empty : NoEmpty (∅ : MultiMap κ α) := by
  intro k s hs
  simp at hs

theorem holds_erase {m : MultiMap κ α} {k k' : κ} {a : α} :
    Holds (m.erase k) k' a ↔ m.Holds k' a ∧ k' ≠ k := by
  by_cases hk : k' = k
  · subst hk
    simp [Holds]
  · simp [Holds, AList.lookup_erase_ne hk, hk]

theorem NoEmpty.erase {m : MultiMap κ α} (h : m.NoEmpty) (k : κ) : NoEmpty (m.erase k) := by
  intro k' s' hs
  rw [HashMap.lookup_erase'] at hs
  split at hs
  · cases hs
  · exact h k' s' hs

/-- Under `NoEmpty` a key is present exactly when something is filed under it. -/
theorem NoEmpty.exists_holds_iff {m : MultiMap κ α} (h : m.NoEmpty) {k : κ} :
    (∃ a, m.Holds k a) ↔ (m.lookup k).isSome := by
  constructor
  · rintro ⟨a, s, hs, -⟩
    simp [hs]
  · intro hsome
    obtain ⟨s, hs⟩ := Option.isSome_iff_exists.mp hsome
    cases hl : s.entries with
    | nil => exact absurd (AList.ext hl) (h k s hs)
    | cons p ps =>
      refine ⟨p.1, s, hs, ?_⟩
      exact AList.mem_keys.mpr (by simp [AList.keys, hl])

theorem notMem_of_isEmpty {s : HashSet α} {a : α} (h : s.entries.isEmpty) : a ∉ s := by
  have hs : s = ∅ := AList.ext (List.isEmpty_iff.mp h)
  rw [hs]
  exact AList.notMem_empty a

variable [DecidableEq α]

/-- File `a` under `k`, creating the set of `k` on demand. -/
def add (m : MultiMap κ α) (k : κ) (a : α) : MultiMap κ α :=
  AList.insert k (AList.insert a () ((m.lookup k).getD ∅)) m

/-- Take `a` out of the set of `k`, and drop the set when it becomes empty. -/
def discard (m : MultiMap κ α) (k : κ) (a : α) : MultiMap κ α :=
  match m.lookup k with
  | none => m
  | some s =>
    if (s.erase a).entries.isEmpty then m.erase k else AList.insert k (s.erase a) m

@[simp] theorem holds_add {m : MultiMap κ α} {k k' : κ} {a a' : α} :
    (m.add k a).Holds k' a' ↔ (k' = k ∧ a' = a) ∨ m.Holds k' a' := by
  by_cases hk : k' = k
  · subst hk
    simp only [Holds, add, AList.lookup_insert, Option.some.injEq, exists_eq_left', true_and,
      AList.mem_insert]
    cases h : AList.lookup k' m <;> simp
  · simp only [Holds, add, AList.lookup_insert_ne hk, hk, false_and, false_or]

@[simp] theorem holds_discard {m : MultiMap κ α} {k k' : κ} {a a' : α} :
    (m.discard k a).Holds k' a' ↔ m.Holds k' a' ∧ ¬ (k' = k ∧ a' = a) := by
  unfold discard
  cases h : m.lookup k with
  | none =>
    refine ⟨fun hm => ⟨hm, ?_⟩, And.left⟩
    rintro ⟨rfl, rfl⟩
    obtain ⟨s, hs, -⟩ := hm
    exact absurd hs (by simp [h])
  | some s =>
    by_cases hk : k' = k
    · subst hk
      dsimp only
      split
      · next hempty =>
        have hnone : ∀ a', a' ∈ s → a' = a := by
          intro b hb
          by_contra hne
          exact notMem_of_isEmpty hempty (AList.mem_erase.mpr ⟨hne, hb⟩)
        rw [holds_erase]
        refine ⟨fun ⟨_, hne⟩ => absurd rfl hne, ?_⟩
        rintro ⟨⟨s', hs', hmem⟩, hne⟩
        cases h.symm.trans hs'
        exact absurd ⟨rfl, hnone _ hmem⟩ hne
      · simp only [Holds, AList.lookup_insert, h, Option.some.injEq, exists_eq_left',
          AList.mem_erase]
        tauto
    · dsimp only
      split <;> simp [Holds, AList.lookup_erase_ne hk, AList.lookup_insert_ne hk, hk]

theorem NoEmpty.add {m : MultiMap κ α} (h : m.NoEmpty) (k : κ) (a : α) : (m.add k a).NoEmpty := by
  intro k' s hs
  rw [MultiMap.add, HashMap.lookup_insert'] at hs
  split at hs
  · cases hs
    intro hempty
    have : a ∈ (∅ : HashSet α) := by rw [← hempty]; simp
    exact AList.notMem_empty a this
  · exact h k' s hs

theorem NoEmpty.discard {m : MultiMap κ α} (h : m.NoEmpty) (k : κ) (a : α) :
    (m.discard k a).NoEmpty := by
  unfold MultiMap.discard
  cases hl : m.lookup k with
  | none => exact h
  | some s =>
    dsimp only
    split
    · intro k' s' hs
      rw [HashMap.lookup_erase'] at hs
      split at hs
      · cases hs
      · exact h k' s' hs
    · next hempty =>
      intro k' s' hs
      rw [HashMap.lookup_insert'] at hs
      split at hs
      · cases hs
        intro he
        simp [he] at hempty
      · exact h k' s' hs

/-! ## Updates at a list of keys -/

theorem holds_foldl_add {m : MultiMap κ α} {ks : List κ} {k : κ} {a a' : α} :
    (ks.foldl (fun m k => m.add k a) m).Holds k a' ↔ (k ∈ ks ∧ a' = a) ∨ m.Holds k a' := by
  induction ks generalizing m with
  | nil => simp
  | cons k₀ ks ih =>
    rw [List.foldl_cons, ih, holds_add, List.mem_cons]
    tauto

theorem holds_foldl_discard {m : MultiMap κ α} {ks : List κ} {k : κ} {a a' : α} :
    (ks.foldl (fun m k => m.discard k a) m).Holds k a' ↔
      m.Holds k a' ∧ ¬ (k ∈ ks ∧ a' = a) := by
  induction ks generalizing m with
  | nil => simp
  | cons k₀ ks ih =>
    rw [List.foldl_cons, ih, holds_discard, List.mem_cons]
    tauto

theorem NoEmpty.foldl_add {m : MultiMap κ α} (h : m.NoEmpty) (ks : List κ) (a : α) :
    (ks.foldl (fun m k => m.add k a) m).NoEmpty := by
  induction ks generalizing m with
  | nil => exact h
  | cons k₀ ks ih => exact ih (h.add k₀ a)

theorem NoEmpty.foldl_discard {m : MultiMap κ α} (h : m.NoEmpty) (ks : List κ) (a : α) :
    (ks.foldl (fun m k => m.discard k a) m).NoEmpty := by
  induction ks generalizing m with
  | nil => exact h
  | cons k₀ ks ih => exact ih (h.discard k₀ a)

end MultiMap
