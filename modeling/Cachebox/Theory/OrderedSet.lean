import Mathlib.Data.Finset.Max

/-!
# The first element of an ordered set
-/

namespace Finset
variable {α : Type} [LinearOrder α] {s : Finset α} {a : α}

/-- The least element of the set, if there is one. -/
def first (s : Finset α) : Option α := if h : s.Nonempty then some (s.min' h) else none

theorem first_eq_some_iff : s.first = some a ↔ a ∈ s ∧ ∀ b ∈ s, a ≤ b := by
  unfold first
  split
  · next hs =>
    rw [Option.some.injEq]
    constructor
    · rintro rfl
      exact ⟨s.min'_mem hs, fun b hb => s.min'_le b hb⟩
    · rintro ⟨ha, hle⟩
      exact le_antisymm (s.min'_le a ha) (hle _ (s.min'_mem hs))
  · next hs => simp [not_nonempty_iff_eq_empty.mp hs]

theorem first_eq_none_iff : s.first = none ↔ s = ∅ := by
  unfold first
  split
  · next hs => simpa using hs.ne_empty
  · next hs => simpa using not_nonempty_iff_eq_empty.mp hs

theorem mem_of_first (h : s.first = some a) : a ∈ s := (first_eq_some_iff.mp h).1

theorem card_erase_first_lt (h : s.first = some a) : (s.erase a).card < s.card :=
  card_erase_lt_of_mem (mem_of_first h)

end Finset
