import Mathlib.Data.List.Nodup
import Mathlib.Data.List.Perm.Subperm

/-!
# Lists whose elements have distinct keys
-/

namespace Keyed
variable {α κ ν : Type*} {key : α → κ} {l : List α}

/-- The element that is found by a key is the only one with it. -/
theorem find?_eq_some [DecidableEq κ] (h : (l.map key).Nodup) {a : α} (ha : a ∈ l) :
    l.find? (fun b => key b = key a) = some a := by
  cases hfind : l.find? (fun b => key b = key a) with
  | none => exact absurd (decide_eq_true rfl) (List.find?_eq_none.mp hfind a ha)
  | some b =>
    have hkey : key b = key a := of_decide_eq_true (List.find?_some hfind :)
    rw [List.inj_on_of_nodup_map h (List.mem_of_find?_eq_some hfind) ha hkey]

/-- Writing at the position of an element changes the value of its key. -/
theorem set_map [DecidableEq κ] (f : α → ν) (h : (l.map key).Nodup) {i : Nat} {a : α}
    (hi : l[i]? = some a) (v : ν) :
    (l.map f).set i v = l.map fun b => if key b = key a then v else f b := by
  induction l generalizing i with
  | nil => cases hi
  | cons b l ih =>
    obtain ⟨hb, h⟩ := List.nodup_cons.mp h
    cases i with
    | zero =>
      cases hi
      rw [List.map_cons, List.map_cons, if_pos rfl, List.set_cons_zero]
      congr 1
      refine List.map_congr_left fun c hc => (if_neg fun hkey => hb ?_).symm
      exact hkey ▸ List.mem_map_of_mem hc
    | succ i =>
      have hne : key b ≠ key a := fun hkey =>
        hb (hkey ▸ List.mem_map_of_mem (List.mem_of_getElem? hi))
      rw [List.map_cons, List.map_cons, if_neg hne, List.set_cons_succ, ih h hi]

/-- As many elements with distinct keys as there are make a permutation. -/
theorem perm_iff {l' : List α} (h : (l.map key).Nodup) (hlen : l'.length = l.length) :
    l'.Perm l ↔ (l'.map key).Nodup ∧ l' ⊆ l := by
  constructor
  · intro hperm
    exact ⟨(hperm.map key).nodup_iff.mpr h, hperm.subset⟩
  · rintro ⟨hnodup, hsub⟩
    exact (hnodup.of_map.subperm hsub).perm_of_length_le (Nat.le_of_eq hlen.symm)

end Keyed
