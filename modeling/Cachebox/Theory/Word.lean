import Mathlib.Algebra.BigOperators.Group.List.Basic
import Mathlib.Algebra.GroupWithZero.Nat
import Mathlib.Order.Basic

/-!
# Saturating and checked arithmetic on 64-bit words
-/

namespace UInt64

/-- The largest 64-bit word, as a number. -/
def maxNat : Nat := 2 ^ 64 - 1

/-- The sum, or the largest word where the sum does not fit. -/
def saturatingAdd (a b : UInt64) : UInt64 := .ofNat (min (a.toNat + b.toNat) maxNat)

/-- The difference, or zero where it would be negative. -/
def saturatingSub (a b : UInt64) : UInt64 := .ofNat (a.toNat - b.toNat)

theorem toNat_le_maxNat (a : UInt64) : a.toNat ≤ maxNat := by
  have := a.toNat_lt
  simp only [maxNat]
  omega

@[simp] theorem toNat_saturatingAdd (a b : UInt64) :
    (a.saturatingAdd b).toNat = min (a.toNat + b.toNat) maxNat := by
  simp only [saturatingAdd, toNat_ofNat', maxNat]
  omega

/-- A sum that saturates on the way is the sum, or the largest word. -/
theorem toNat_foldl_saturatingAdd (a : UInt64) (l : List UInt64) :
    (l.foldl saturatingAdd a).toNat = min (a.toNat + (l.map toNat).sum) maxNat := by
  induction l generalizing a with
  | nil =>
    have := a.toNat_le_maxNat
    simp only [List.foldl_nil, List.map_nil, List.sum_nil]
    omega
  | cons b l ih =>
    rw [List.foldl_cons, ih, toNat_saturatingAdd, List.map_cons, List.sum_cons]
    omega

theorem le_saturatingAdd (a b : UInt64) : a ≤ a.saturatingAdd b := by
  rw [le_iff_toNat_le, toNat_saturatingAdd]
  have := a.toNat_le_maxNat
  omega

theorem saturatingAdd_one_le {a b : UInt64} (h : a ≤ b) :
    a.saturatingAdd 1 ≤ b.saturatingAdd 1 := by
  rw [le_iff_toNat_le] at h ⊢
  simp only [toNat_saturatingAdd]
  omega

/-- A counter moves as long as it is not saturated. -/
theorem lt_saturatingAdd_one {a : UInt64} (h : (a.saturatingAdd 1).toNat < maxNat) :
    a < a.saturatingAdd 1 := by
  rw [lt_iff_toNat_lt]
  simp only [toNat_saturatingAdd, toNat_one] at h ⊢
  omega

@[simp] theorem toNat_saturatingSub (a b : UInt64) :
    (a.saturatingSub b).toNat = a.toNat - b.toNat := by
  have := a.toNat_lt
  simp only [saturatingSub, toNat_ofNat']
  omega

/-- The sum, unless it does not fit. -/
def checkedAdd (a b : UInt64) : Option UInt64 :=
  if a.toNat + b.toNat ≤ maxNat then some (.ofNat (a.toNat + b.toNat)) else none

/-- The words added up one by one, unless one of the sums does not fit. -/
def checkedSum (l : List UInt64) : Option UInt64 := l.foldlM checkedAdd 0

theorem toNat_ofNat_of_le {k : Nat} (h : k ≤ maxNat) : (UInt64.ofNat k).toNat = k := by
  simp only [toNat_ofNat', maxNat] at h ⊢
  omega

/-- Adding one by one overflows exactly if the whole sum does. -/
theorem foldlM_checkedAdd (a : UInt64) (l : List UInt64) :
    l.foldlM checkedAdd a =
      if a.toNat + (l.map toNat).sum ≤ maxNat then some (.ofNat (a.toNat + (l.map toNat).sum))
      else none := by
  induction l generalizing a with
  | nil =>
    rw [List.map_nil, List.sum_nil, Nat.add_zero, if_pos a.toNat_le_maxNat, UInt64.ofNat_toNat]
    rfl
  | cons b l ih =>
    rw [List.foldlM_cons, List.map_cons, List.sum_cons, ← Nat.add_assoc]
    by_cases h : a.toNat + b.toNat ≤ maxNat
    · simp only [checkedAdd, if_pos h, Option.bind_eq_bind, Option.bind_some]
      rw [ih, toNat_ofNat_of_le h]
    · simp only [checkedAdd, if_neg h, Option.bind_eq_bind, Option.bind_none]
      rw [if_neg (by omega)]

theorem checkedSum_eq (l : List UInt64) :
    checkedSum l =
      if (l.map toNat).sum ≤ maxNat then some (.ofNat (l.map toNat).sum) else none := by
  rw [checkedSum, foldlM_checkedAdd, UInt64.toNat_zero, Nat.zero_add]

end UInt64
