import Cachebox.Theory.MultiMap
import Cachebox.Theory.Run

/-!
# Calls that run in atomic sections on a shared state

Threads call operations `ω` on a shared state `σ`. What is left to do of a call is a value of `κ`,
`start` gives it for a new call, and `advance` runs its next section atomically: the call needs
further sections or returns a result. An action starts a call on an idle thread or advances a
thread; a list of actions is an interleaving, and every interleaving is such a list.

An invariant of the shared state may depend on the calls in progress, as a set: an action of one
thread replaces its own call in that set and leaves the others (`Pool.run_invariant`).
-/

namespace Pool

/-- What a section leaves to do. -/
inductive Progress (κ ρ : Type*) where
  | more (call : κ)
  | done (result : ρ)

structure State (σ κ : Type*) where
  shared : σ
  calls : HashMap Nat κ

inductive Action (ω : Type*) where
  | call (thread : Nat) (op : ω)
  | advance (thread : Nat)

variable {σ κ ρ ω : Type*} (start : ω → κ) (advance : σ → κ → Progress κ ρ × σ)

/-- The calls after thread `t` has run a section. -/
def Progress.update (calls : HashMap Nat κ) (t : Nat) : Progress κ ρ → HashMap Nat κ
  | .more call => calls.insert t call
  | .done _ => calls.erase t

def Progress.result : Progress κ ρ → Option ρ
  | .more _ => none
  | .done result => some result

/-- Calls are started on idle threads only, and an idle thread does not advance. -/
def step (c : State σ κ) : Action ω → Option ρ × State σ κ
  | .call t op =>
    match c.calls.lookup t with
    | some _ => (none, c)
    | none => (none, { c with calls := c.calls.insert t (start op) })
  | .advance t =>
    match c.calls.lookup t with
    | none => (none, c)
    | some call =>
      let (progress, shared) := advance c.shared call
      (progress.result, ⟨shared, progress.update c.calls t⟩)

def Action.thread : Action ω → Nat
  | .call t _ | .advance t => t

/-- No call is in progress. -/
def State.Quiescent (c : State σ κ) : Prop := c.calls = ∅

/-- A thread has `call` in progress. -/
def State.Pending (c : State σ κ) (call : κ) : Prop := ∃ t, c.calls.lookup t = some call

/-- A thread other than `t` has `call` in progress. -/
def State.Others (c : State σ κ) (t : Nat) (call : κ) : Prop :=
  ∃ t', t' ≠ t ∧ c.calls.lookup t' = some call

/-- The calls in progress when the section has been run. -/
def Progress.With (others : κ → Prop) : Progress κ ρ → κ → Prop
  | .more call => fun k => k = call ∨ others k
  | .done _ => others

/-- The call a thread is about to advance, with the calls of the other threads, meets `ok`. -/
def Allowed (ok : σ → κ → (κ → Prop) → Prop) (c : State σ κ) : Action ω → Prop
  | .call _ _ => True
  | .advance t => ∀ call, c.calls.lookup t = some call → ok c.shared call (c.Others t)

variable {start} {advance} {I : σ → (κ → Prop) → Prop} {ok : σ → κ → (κ → Prop) → Prop}
variable {c : State σ κ}

theorem pending_iff_of_lookup {t : Nat} {call : κ} (h : c.calls.lookup t = some call) (k : κ) :
    c.Pending k ↔ k = call ∨ c.Others t k := by
  constructor
  · rintro ⟨t', ht'⟩
    by_cases ht : t' = t
    · subst ht
      exact .inl (Option.some.inj (ht'.symm.trans h))
    · exact .inr ⟨t', ht, ht'⟩
  · rintro (rfl | ⟨t', -, ht'⟩)
    · exact ⟨t, h⟩
    · exact ⟨t', ht'⟩

theorem pending_update (shared : σ) (t : Nat) (progress : Progress κ ρ) (k : κ) :
    State.Pending ⟨shared, progress.update c.calls t⟩ k ↔ progress.With (c.Others t) k := by
  cases progress with
  | more call =>
    simp only [State.Pending, Progress.update, Progress.With, HashMap.lookup_insert']
    constructor
    · rintro ⟨t', ht'⟩
      split at ht'
      · exact .inl (Option.some.inj ht').symm
      · next ht => exact .inr ⟨t', ht, ht'⟩
    · rintro (rfl | ⟨t', ht, ht'⟩)
      · exact ⟨t, if_pos rfl⟩
      · exact ⟨t', (if_neg ht).trans ht'⟩
  | done result =>
    simp only [State.Pending, Progress.update, Progress.With, HashMap.lookup_erase']
    constructor
    · rintro ⟨t', ht'⟩
      split at ht'
      · cases ht'
      · next ht => exact ⟨t', ht, ht'⟩
    · intro h
      obtain ⟨t', ht, ht'⟩ := h
      exact ⟨t', (if_neg ht).trans ht'⟩

theorem step_call_of_none {t : Nat} (h : c.calls.lookup t = none) (op : ω) :
    step start advance c (.call t op) =
      (none, { c with calls := c.calls.insert t (start op) }) := by
  simp only [step, h]

theorem step_advance_of_some {t : Nat} {call : κ} (h : c.calls.lookup t = some call) :
    step start advance c (.advance t) = ((advance c.shared call).1.result,
      ⟨(advance c.shared call).2, (advance c.shared call).1.update c.calls t⟩) := by
  simp only [step, h]

/-- An action leaves the calls of the other threads. -/
theorem lookup_step_of_ne {action : Action ω} {t : Nat} (ht : action.thread ≠ t) :
    (step start advance c action).2.calls.lookup t = c.calls.lookup t := by
  cases action with
  | call t' op =>
    cases hl : c.calls.lookup t' with
    | some _ => simp only [step, hl]
    | none =>
      rw [step_call_of_none hl]
      exact (HashMap.lookup_insert' ..).trans (if_neg (Ne.symm ht))
  | advance t' =>
    cases hl : c.calls.lookup t' with
    | none => simp only [step, hl]
    | some call =>
      rw [step_advance_of_some hl]
      cases (advance c.shared call).1 with
      | more call' => exact (HashMap.lookup_insert' ..).trans (if_neg (Ne.symm ht))
      | done r => exact (HashMap.lookup_erase' ..).trans (if_neg (Ne.symm ht))

/-- One action keeps an invariant that its new call or its section keeps. -/
theorem step_invariant {action : Action ω}
    (hcall : ∀ t op, action = .call t op → I c.shared fun k => k = start op ∨ c.Pending k)
    (hadvance : ∀ t call, action = .advance t → c.calls.lookup t = some call →
      I (advance c.shared call).2 ((advance c.shared call).1.With (c.Others t)))
    (h : I c.shared c.Pending) :
    I (step start advance c action).2.shared (step start advance c action).2.Pending := by
  cases action with
  | call t op =>
    cases hl : c.calls.lookup t with
    | some _ =>
      simp only [step, hl]
      exact h
    | none =>
      -- the thread was idle, so the calls of the others are all the calls
      have hpending : State.Pending ⟨c.shared, c.calls.insert t (start op)⟩ =
          fun k => k = start op ∨ c.Pending k := by
        funext k
        refine propext ((pending_update (ρ := Unit) c.shared t (.more (start op)) k).trans ?_)
        refine or_congr_right ⟨fun ⟨t', _, ht'⟩ => ⟨t', ht'⟩, fun ⟨t', ht'⟩ => ⟨t', ?_, ht'⟩⟩
        rintro rfl
        rw [hl] at ht'
        cases ht'
      simp only [step, hl]
      rw [hpending]
      exact hcall t op rfl
  | advance t =>
    cases hl : c.calls.lookup t with
    | none =>
      simp only [step, hl]
      exact h
    | some call =>
      have hpending := funext fun k => propext (pending_update (c := c) (advance c.shared call).2 t
        (advance c.shared call).1 k)
      simp only [step, hl]
      rw [hpending]
      exact hadvance t call rfl hl

/-- What the allowed sections keep, and more calls do not hurt, holds after every interleaving of
allowed actions. -/
theorem run_invariant (hmono : ∀ {s P Q}, (∀ k, P k → Q k) → I s P → I s Q)
    (hadvance : ∀ s call others, ok s call others → I s (fun k => k = call ∨ others k) →
      I (advance s call).2 ((advance s call).1.With others))
    {c₀ : State σ κ} (h₀ : I c₀.shared c₀.Pending) {actions : List (Action ω)}
    (hok : ∀ ev ∈ Machine.history (step start advance) c₀ actions,
      Allowed ok ev.before ev.action) :
    I (Machine.run (step start advance) c₀ actions).shared
      (Machine.run (step start advance) c₀ actions).Pending := by
  refine Machine.run_invariant_allowed (I := fun c : State σ κ => I c.shared c.Pending)
    (fun c action hok h => step_invariant (I := I) (fun t op _ => ?_) (fun t call ht hl => ?_) h)
    h₀ hok
  · exact hmono (fun _ => .inr) h
  · subst ht
    exact hadvance _ _ _ (hok call hl) (hmono (fun k => (pending_iff_of_lookup hl k).mp) h)

/-- The sections of a call, run in a row, lead from `s` to the result `r` and the state `s'`. -/
inductive Finishes (advance : σ → κ → Progress κ ρ × σ) : σ → κ → ρ → σ → Prop
  | done {s s' : σ} {call : κ} {r : ρ} :
    advance s call = (.done r, s') → Finishes advance s call r s'
  | more {s s' s'' : σ} {call call' : κ} {r : ρ} :
    advance s call = (.more call', s') → Finishes advance s' call' r s'' →
      Finishes advance s call r s''

end Pool
