import Mathlib.Data.Option.Basic

/-!
# Stores that may lose values

A store keeps at most one value per key. An event of a run writes a value to a key or clears it,
and the *reference* of a key is the last value written and not cleared, together with the events
since (`Spec.reference`). A lossy store may drop a value on its own account, but only in an event
that gives a reason for it. `Effect` says what one event may do to a lossy store, and `Tracks` what
follows for a whole run: a stored value is the reference value, and a reference value that is not
stored has been lost for a reason.
-/

namespace LossyMap

/-- What the events of a run say about the values: `writes ev k` is the value an event writes to
`k`, and `clears ev k v` tells whether it clears the value `v` of `k`. -/
structure Spec (K V Ev : Type*) where
  writes : Ev → K → Option V
  clears : Ev → K → V → Prop

variable {K V Ev : Type*} {M : Spec K V Ev} {lost : Ev → K → V → Prop}

open Classical in
/-- The last value of `k` that was written and not cleared, with the events since the write. Both
the history and the events since are listed latest first. -/
noncomputable def Spec.reference (M : Spec K V Ev) : List Ev → K → Option (V × List Ev)
  | [], _ => none
  | ev :: history, k =>
    match M.writes ev k with
    | some v => some (v, [])
    | none =>
      match M.reference history k with
      | some (v, since) => if M.clears ev k v then none else some (v, ev :: since)
      | none => none

/-- The reference value has been written by the event right before those since then, none of which
writes the key again or clears the value. -/
theorem Spec.reference_eq_some {history since : List Ev} {k : K} {v : V}
    (h : M.reference history k = some (v, since)) :
    ∃ ev older, history = since ++ ev :: older ∧ M.writes ev k = some v ∧
      ∀ ev' ∈ since, M.writes ev' k = none ∧ ¬ M.clears ev' k v := by
  induction history generalizing since with
  | nil => cases h
  | cons ev history ih =>
    simp only [Spec.reference] at h
    split at h
    · next w hw =>
      cases h
      exact ⟨ev, history, rfl, hw, nofun⟩
    · next hw =>
      split at h
      · next w since' href =>
        split at h
        · cases h
        · next hc =>
          cases h
          obtain ⟨ev', older, rfl, hw', hsince⟩ := ih href
          exact ⟨ev', older, rfl, hw', List.forall_mem_cons.mpr ⟨⟨hw, hc⟩, hsince⟩⟩
      · cases h

/-- What an event may do to a lossy store: carry out its writes and clears, and lose values for a
reason. -/
structure Effect (M : Spec K V Ev) (lost : Ev → K → V → Prop) (ev : Ev)
    (before after : K → Option V) : Prop where
  written : ∀ k v, M.writes ev k = some v → after k = some v
  absent : ∀ k, M.writes ev k = none → before k = none → after k = none
  cleared : ∀ k v, M.writes ev k = none → before k = some v → M.clears ev k v → after k = none
  kept : ∀ k v, M.writes ev k = none → before k = some v → ¬ M.clears ev k v →
    after k = some v ∨ after k = none ∧ lost ev k v

/-- A value in the store has just been written or was there before. -/
theorem Effect.origin {ev : Ev} {before after : K → Option V} (h : Effect M lost ev before after)
    {k : K} {v : V} (hk : after k = some v) : M.writes ev k = some v ∨ before k = some v := by
  cases hw : M.writes ev k with
  | some w =>
    cases (h.written k w hw).symm.trans hk
    exact .inl rfl
  | none =>
    cases hb : before k with
    | none => rw [h.absent k hw hb] at hk; cases hk
    | some w =>
      by_cases hc : M.clears ev k w
      · rw [h.cleared k w hw hb hc] at hk; cases hk
      · rcases h.kept k w hw hb hc with ha | ⟨ha, -⟩
        · cases ha.symm.trans hk
          exact .inr rfl
        · rw [ha] at hk; cases hk

/-- The store holds reference values only, and has a reason for each one it does not hold. -/
structure Tracks (M : Spec K V Ev) (lost : Ev → K → V → Prop) (history : List Ev)
    (state : K → Option V) : Prop where
  stored : ∀ k v, state k = some v → ∃ since, M.reference history k = some (v, since)
  missing : ∀ k v since, state k = none → M.reference history k = some (v, since) →
    ∃ ev ∈ since, lost ev k v

theorem tracks_nil : Tracks M lost [] fun _ => none := ⟨nofun, nofun⟩

theorem Tracks.cons {history : List Ev} {ev : Ev} {before after : K → Option V}
    (H : Tracks M lost history before) (hev : Effect M lost ev before after) :
    Tracks M lost (ev :: history) after := by
  refine ⟨fun k v hk => ?_, fun k v since hk href => ?_⟩
  · cases hw : M.writes ev k with
    | some w =>
      cases (hev.written k w hw).symm.trans hk
      exact ⟨[], by simp [Spec.reference, hw]⟩
    | none =>
      cases hb : before k with
      | none => rw [hev.absent k hw hb] at hk; cases hk
      | some w =>
        obtain ⟨since, href⟩ := H.stored k w hb
        by_cases hc : M.clears ev k w
        · rw [hev.cleared k w hw hb hc] at hk; cases hk
        · rcases hev.kept k w hw hb hc with ha | ⟨ha, -⟩
          · cases ha.symm.trans hk
            exact ⟨ev :: since, by simp [Spec.reference, hw, href, hc]⟩
          · rw [ha] at hk; cases hk
  · cases hw : M.writes ev k with
    | some w => rw [hev.written k w hw] at hk; cases hk
    | none =>
      cases hr : M.reference history k with
      | none => simp [Spec.reference, hw, hr] at href
      | some p =>
        obtain ⟨w, since'⟩ := p
        by_cases hc : M.clears ev k w
        · simp [Spec.reference, hw, hr, hc] at href
        · simp only [Spec.reference, hw, hr, hc, if_false, Option.some.injEq, Prod.mk.injEq] at href
          obtain ⟨rfl, rfl⟩ := href
          cases hb : before k with
          | none =>
            obtain ⟨ev', hmem, hlost⟩ := H.missing k w since' hb hr
            exact ⟨ev', List.mem_cons_of_mem _ hmem, hlost⟩
          | some w' =>
            obtain ⟨since'', hr'⟩ := H.stored k w' hb
            cases hr.symm.trans hr'
            rcases hev.kept k w hw hb hc with ha | ⟨-, hlost⟩
            · rw [ha] at hk; cases hk
            · exact ⟨ev, List.mem_cons_self, hlost⟩

end LossyMap
