import Mathlib.Data.List.MinMax
import Mathlib.Data.List.Nodup

/-!
# Recency by stamps

A store stamps a key with the value of a counter whenever the key is accessed, and forgets keys at
any time. `Stamped log stamp next` says that the stamps rank the stored keys as the log of the
accesses does, which lists the latest access first. It is kept by an access (`Stamped.access`), by
forgetting keys and by a counter that runs ahead (`Stamped.forget`).

The least stamp in a sample of the keys belongs to a key that is older than the rest of the sample
(`le_countP_of_argmin_take`).
-/

namespace Recency
variable {κ : Type*} [DecidableEq κ] {log : List κ} {stamp stamp' : κ → Option Nat}
variable {next next' : Nat} {k k' : κ} {t t' : Nat}

/-- The last access to `k` comes after the last access to `k'`. -/
def Later (log : List κ) (k k' : κ) : Prop := log.idxOf k < log.idxOf k'

instance (log : List κ) (k k' : κ) : Decidable (Later log k k') :=
  inferInstanceAs (Decidable (_ < _))

structure Stamped (log : List κ) (stamp : κ → Option Nat) (next : Nat) : Prop where
  logged : ∀ {k t}, stamp k = some t → k ∈ log
  below : ∀ {k t}, stamp k = some t → t < next
  later_iff : ∀ {k k' t t'}, stamp k = some t → stamp k' = some t' → (t' < t ↔ Later log k k')

theorem stamped_empty (next : Nat) : Stamped ([] : List κ) (fun _ => none) next :=
  ⟨nofun, nofun, nofun⟩

/-- Different keys have different stamps. -/
theorem Stamped.inj (h : Stamped log stamp next) (hk : stamp k = some t)
    (hk' : stamp k' = some t) : k = k' := by
  have hle : ¬ Later log k k' := (h.later_iff hk hk').not.mp (Nat.lt_irrefl t)
  have hge : ¬ Later log k' k := (h.later_iff hk' hk).not.mp (Nat.lt_irrefl t)
  exact (List.idxOf_inj (h.logged hk)).mp
    (Nat.le_antisymm (Nat.not_lt.mp hge) (Nat.not_lt.mp hle))

theorem Stamped.forget (h : Stamped log stamp next)
    (hsub : ∀ k t, stamp' k = some t → stamp k = some t) (hle : next ≤ next') :
    Stamped log stamp' next' where
  logged hk := h.logged (hsub _ _ hk)
  below hk := Nat.lt_of_lt_of_le (h.below (hsub _ _ hk)) hle
  later_iff hk hk' := h.later_iff (hsub _ _ hk) (hsub _ _ hk')

/-- An accessed key gets the next stamp and comes first in the log. -/
theorem Stamped.access (h : Stamped log stamp next) (hself : stamp' k = some next)
    (hothers : ∀ k', k' ≠ k → stamp' k' = stamp k') (hlt : next < next') :
    Stamped (k :: log) stamp' next' := by
  have hold : ∀ {k' t}, k' ≠ k → stamp' k' = some t → stamp k' = some t :=
    fun hne hk' => (hothers _ hne).symm.trans hk'
  have hnew : ∀ {t}, stamp' k = some t → t = next :=
    fun hk => Option.some.inj (hk.symm.trans hself)
  refine ⟨fun {k' t} hk' => ?_, fun {k' t} hk' => ?_, fun {k₁ k₂ t₁ t₂} hk₁ hk₂ => ?_⟩
  · by_cases hne : k' = k
    · exact hne ▸ List.mem_cons_self
    · exact List.mem_cons_of_mem _ (h.logged (hold hne hk'))
  · by_cases hne : k' = k
    · subst hne
      exact hnew hk' ▸ hlt
    · exact Nat.lt_trans (h.below (hold hne hk')) hlt
  · by_cases hne₁ : k₁ = k <;> by_cases hne₂ : k₂ = k
    · subst hne₁
      subst hne₂
      rw [hnew hk₁, hnew hk₂]
      exact iff_of_false (Nat.lt_irrefl _) (Nat.lt_irrefl _)
    · subst hne₁
      refine iff_of_true (hnew hk₁ ▸ h.below (hold hne₂ hk₂)) ?_
      rw [Later, List.idxOf_cons_self, List.idxOf_cons_ne _ (Ne.symm hne₂)]
      exact Nat.succ_pos _
    · subst hne₂
      refine iff_of_false (Nat.not_lt.mpr ?_) ?_
      · rw [hnew hk₂]
        exact (h.below (hold hne₁ hk₁)).le
      · rw [Later, List.idxOf_cons_self]
        exact Nat.not_lt_zero _
    · rw [h.later_iff (hold hne₁ hk₁) (hold hne₂ hk₂), Later, Later,
        List.idxOf_cons_ne _ (Ne.symm hne₁), List.idxOf_cons_ne _ (Ne.symm hne₂),
        Nat.succ_lt_succ_iff]

/-! ## Sampling -/

/-- The least element of a sample of `m` elements is below all the others of the sample. -/
theorem le_countP_of_argmin_take {α : Type*} {f : α → Nat} {l : List α} (hinj : (l.map f).Nodup)
    {m : Nat} {v : α} (h : (l.take m).argmin f = some v) :
    min l.length m - 1 ≤ l.countP fun a => f v < f a := by
  have hsample : ((l.take m).map f).Nodup := hinj.sublist ((List.take_sublist m l).map f)
  have hmin : ∀ a ∈ l.take m, f v ≤ f a := fun a ha => List.le_of_mem_argmin ha h
  obtain ⟨before, after, hsplit⟩ := List.append_of_mem (List.argmin_mem h)
  have hrest : ∀ a ∈ before ++ after, f v < f a := by
    intro a ha
    rw [hsplit, List.map_append, List.map_cons, List.nodup_middle, List.nodup_cons,
      ← List.map_append] at hsample
    have hmem : a ∈ l.take m := by
      rw [hsplit]
      exact List.perm_middle.mem_iff.mpr (List.mem_cons_of_mem v ha)
    refine Nat.lt_of_le_of_ne (hmin a hmem) fun heq => hsample.1 ?_
    rw [heq]
    exact List.mem_map_of_mem ha
  calc min l.length m - 1 = (before ++ after).length := by
        rw [Nat.min_comm, ← List.length_take, hsplit, List.perm_middle.length_eq,
          List.length_cons, Nat.add_sub_cancel]
    _ = (before ++ after).countP fun a => f v < f a :=
        (List.countP_eq_length.mpr fun a ha => decide_eq_true (hrest a ha)).symm
    _ ≤ (l.take m).countP fun a => f v < f a := by
        rw [hsplit, List.perm_middle.countP_eq, List.countP_cons]
        exact Nat.le_add_right _ _
    _ ≤ l.countP fun a => f v < f a := (List.take_sublist m l).countP_le

/-- If all elements but one are counted and `v` is not, then `v` is the one. -/
theorem of_le_countP {l : List κ} {p : κ → Bool} {v : κ} (hv : v ∈ l) (hp : p v = false)
    (h : l.length - 1 ≤ l.countP p) {a : κ} (ha : a ∈ l) (hne : a ≠ v) : p a = true := by
  have hperm := List.perm_cons_erase hv
  rw [hperm.length_eq, hperm.countP_eq, List.length_cons, Nat.add_sub_cancel,
    List.countP_cons_of_neg (by simp [hp])] at h
  exact List.countP_eq_length.mp (Nat.le_antisymm List.countP_le_length h) a
    ((List.mem_erase_of_ne hne).mpr ha)

end Recency
