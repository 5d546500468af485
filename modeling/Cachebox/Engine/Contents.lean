import Cachebox.Engine.TimedMap

/-!
# What a namespace contains

If whatever is written to a namespace has a property, then so has whatever is stored in it, and
whatever a read of it reports.
-/

namespace Cachebox

/-- The key and the value that an operation stores in the namespace, if it is carried out. -/
def Op.stores (ns : String) : Op → Option (Bytes × Bytes)
  | .put _ command => if command.ns = ns then some (command.key, command.value) else none
  | .completeLease _ command => if command.ns = ns then some (command.key, command.value) else none
  | _ => none

namespace Engine
variable {e : Engine} {ns : String} {P P' : Bytes → Bytes → Prop}

/-- The values stored in the namespace have the property, along with their keys. -/
def Contains (P : Bytes → Bytes → Prop) (ns : String) (e : Engine) : Prop :=
  ∀ key r, e.record ⟨ns, key⟩ = some r → P key r.value

theorem contains_withClockAndLimits (P : Bytes → Bytes → Prop) (ns : String) (clock : Clock)
    (limits : EngineLimits) : (withClockAndLimits clock limits).Contains P ns := by
  intro key r hr
  simp [record, withClockAndLimits] at hr

theorem Contains.mono (h : e.Contains P ns) (himp : ∀ key value, P key value → P' key value) :
    e.Contains P' ns :=
  fun key r hr => himp key r.value (h key r hr)

theorem stores_of_written {op : Op} {key : Bytes} {r : Record}
    (h : EngineEvent.written (Machine.event exec e op) = some (⟨ns, key⟩, r)) :
    op.stores ns = some (key, r.value) := by
  simp only [EngineEvent.written, Machine.event] at h
  split at h
  next haction _ =>
    cases haction
    cases h
    exact if_pos rfl
  next haction _ =>
    cases haction
    cases h
    exact if_pos rfl
  next => cases h

theorem Contains.exec (H : e.Inv) (h : e.Contains P ns) (op : Op)
    (hop : ∀ key value, op.stores ns = some (key, value) → P key value) :
    (e.exec op).2.Contains P ns := by
  intro key r hr
  obtain hbefore | hwritten := record_exec H op hr
  · exact h key r hbefore
  · exact hop key r.value (stores_of_written hwritten)

/-- What a read reports is what is stored. -/
theorem Contains.of_sound (h : e.Contains P ns) {e' : Engine} {key : Bytes} {nowMs : UInt64}
    {stale : Bool} {value : Bytes}
    (hsound : Read.Sound ⟨⟨ns, key⟩, nowMs, .value stale value⟩ e e') : P key value := by
  obtain ⟨r, hr, hvalue, -⟩ := hsound
  rw [hvalue]
  exact h key r hr

end Engine
end Cachebox
