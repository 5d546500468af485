import Mathlib.Order.Monotone.Basic
import Cachebox.Theory.Run

/-!
# Endless fair runs

`Machine.orbit` is the sequence of the states of an endless run. A machine with several parts comes
to rest in every run in which each part gets its turn again and again, if it has a `Ranking`: a rank
that no step increases, such that outside of rest some part is enabled, stays so as long as the rank
does not fall, and makes it fall with its turn. All this need only hold of the states that satisfy
an invariant.
-/

namespace Machine
variable {S A O ι : Type*}

/-- The states of an endless run. -/
def orbit (step : S → A → O × S) (s : S) (schedule : Nat → A) : Nat → S
  | 0 => s
  | t + 1 => (step (orbit step s schedule t) (schedule t)).2

/-- Why a machine comes to rest from the states in `Inv`. `turn i` are the actions of the part
`i`. -/
structure Ranking (step : S → A → O × S) (turn : ι → A → Prop) (Inv Rest : S → Prop) where
  rank : S → Nat
  Enabled : ι → S → Prop
  keeps : ∀ s a, Inv s → Inv (step s a).2
  stays : ∀ s a, Inv s → rank (step s a).2 < rank s ∨
    rank (step s a).2 = rank s ∧ ∀ i, Enabled i s → Enabled i (step s a).2
  enabled : ∀ s, Inv s → ¬ Rest s → ∃ i, Enabled i s
  fires : ∀ s a i, Inv s → Enabled i s → turn i a → rank (step s a).2 < rank s

/-- Each part gets its turn again and again. -/
def Fair (turn : ι → A → Prop) (schedule : Nat → A) : Prop :=
  ∀ i t, ∃ t' ≥ t, turn i (schedule t')

variable {step : S → A → O × S} {turn : ι → A → Prop} {Inv Rest : S → Prop} {s : S}
  {schedule : Nat → A}

/-- The beginning of an endless run is a run. -/
theorem orbit_eq_run (step : S → A → O × S) (s : S) (schedule : Nat → A) (t : Nat) :
    orbit step s schedule t = run step s ((List.range t).map schedule) := by
  induction t with
  | zero => rfl
  | succ t ih => rw [List.range_succ, List.map_append, List.map_singleton, run_concat, orbit, ih]

theorem exists_of_mem_history {t : Nat} {ev : Event S A O}
    (hev : ev ∈ history step s ((List.range t).map schedule)) :
    ∃ t', ev.before = orbit step s schedule t' ∧ ev.action = schedule t' := by
  induction t with
  | zero => cases hev
  | succ t ih =>
    rw [List.range_succ, List.map_append, List.map_singleton, history_concat] at hev
    rcases List.mem_cons.mp hev with rfl | hmem
    · exact ⟨t, (orbit_eq_run step s schedule t).symm, rfl⟩
    · exact ih hmem

namespace Ranking

theorem inv_orbit (R : Ranking step turn Inv Rest) (hs : Inv s) (t : Nat) :
    Inv (orbit step s schedule t) := by
  rw [orbit_eq_run]
  exact run_invariant R.keeps hs _

/-- An enabled part stays enabled, unless the rank falls. -/
theorem enabled_or_lt (R : Ranking step turn Inv Rest) (hs : Inv s) {i : ι} {t : Nat}
    (h : R.Enabled i (orbit step s schedule t)) (k : Nat) :
    R.rank (orbit step s schedule (t + k)) < R.rank (orbit step s schedule t) ∨
      R.rank (orbit step s schedule (t + k)) = R.rank (orbit step s schedule t) ∧
        R.Enabled i (orbit step s schedule (t + k)) := by
  induction k with
  | zero => exact .inr ⟨rfl, h⟩
  | succ k ih =>
    rcases R.stays (orbit step s schedule (t + k)) (schedule (t + k)) (R.inv_orbit hs _) with
      hlt | ⟨heq, hkeeps⟩
    · rcases ih with hfell | ⟨hrank, -⟩
      · exact .inl (hlt.trans hfell)
      · exact .inl (hlt.trans_eq hrank)
    · rcases ih with hfell | ⟨hrank, henabled⟩
      · exact .inl (heq.trans_lt hfell)
      · exact .inr ⟨heq.trans hrank, hkeeps i henabled⟩

theorem antitone_rank (R : Ranking step turn Inv Rest) (hs : Inv s) (schedule : Nat → A) :
    Antitone fun t => R.rank (orbit step s schedule t) := by
  refine antitone_nat_of_succ_le fun t => ?_
  rcases R.stays (orbit step s schedule t) (schedule t) (R.inv_orbit hs t) with hlt | ⟨heq, -⟩
  · exact hlt.le
  · exact heq.le

/-- Outside of rest the rank falls some time. -/
theorem exists_lt (R : Ranking step turn Inv Rest) (hs : Inv s) (hfair : Fair turn schedule)
    {t : Nat} (h : ¬ Rest (orbit step s schedule t)) :
    ∃ t' ≥ t, R.rank (orbit step s schedule t') < R.rank (orbit step s schedule t) := by
  obtain ⟨i, hi⟩ := R.enabled _ (R.inv_orbit hs t) h
  obtain ⟨t', ht', hturn⟩ := hfair i t
  obtain ⟨k, rfl⟩ := Nat.exists_eq_add_of_le ht'
  rcases R.enabled_or_lt hs hi k with hlt | ⟨hrank, henabled⟩
  · exact ⟨t + k, ht', hlt⟩
  · exact ⟨t + k + 1, by omega, (R.fires _ _ i (R.inv_orbit hs _) henabled hturn).trans_eq hrank⟩

/-- **Fair runs come to rest.** -/
theorem eventually_rest (R : Ranking step turn Inv Rest) (hfair : Fair turn schedule)
    (hs : Inv s) :
    ∃ T, ∀ t ≥ T, Rest (orbit step s schedule t) := by
  suffices h : ∀ rank t, R.rank (orbit step s schedule t) = rank →
      ∃ T, ∀ t ≥ T, Rest (orbit step s schedule t) from h _ 0 rfl
  intro rank
  induction rank using Nat.strongRecOn with
  | ind rank ih =>
    intro t hrank
    by_cases hrest : ∀ t' ≥ t, Rest (orbit step s schedule t')
    · exact ⟨t, hrest⟩
    · push Not at hrest
      obtain ⟨t₁, ht₁, hnot⟩ := hrest
      obtain ⟨t₂, ht₂, hlt⟩ := R.exists_lt hs hfair hnot
      exact ih _ (hrank ▸ hlt.trans_le (R.antitone_rank hs schedule ht₁)) t₂ rfl

end Ranking
end Machine
