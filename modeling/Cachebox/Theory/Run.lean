import Mathlib.Data.List.Induction

/-!
# Runs of a deterministic machine

A machine is a step function `step : S → A → O × S`: an action on a state gives an outcome and the
next state. `Machine.run` is the state after a list of actions and `Machine.history` what happened
on the way, the latest event first. An invariant of the step is an invariant of the run
(`Machine.run_invariant`), and a relation between the history so far and the state is proved one
event at a time (`Machine.history_induction`).
-/

/-- One step of a run: the state before it, the action, the outcome and the state after it. -/
structure Machine.Event (S A O : Type*) where
  before : S
  action : A
  outcome : O
  after : S

namespace Machine
variable {S A O : Type*} (step : S → A → O × S)

def run (s : S) (as : List A) : S := as.foldl (fun s a => (step s a).2) s

/-- The event of taking action `a` in state `s`. -/
def event (s : S) (a : A) : Event S A O := ⟨s, a, (step s a).1, (step s a).2⟩

/-- The events of a run, latest first. -/
def history (s : S) (as : List A) : List (Event S A O) :=
  (as.foldl (fun (p : List (Event S A O) × S) a => (event step p.2 a :: p.1, (step p.2 a).2))
    ([], s)).1

@[simp] theorem run_concat (s : S) (as : List A) (a : A) :
    run step s (as ++ [a]) = (step (run step s as) a).2 := by
  simp [run]

theorem run_append (s : S) (as bs : List A) :
    run step s (as ++ bs) = run step (run step s as) bs := by
  simp [run]

theorem foldl_history_snd (s : S) (h : List (Event S A O)) (as : List A) :
    (as.foldl (fun (p : List (Event S A O) × S) a => (event step p.2 a :: p.1, (step p.2 a).2))
      (h, s)).2 = run step s as := by
  induction as generalizing s h with
  | nil => rfl
  | cons a as ih => exact ih ..

@[simp] theorem history_concat (s : S) (as : List A) (a : A) :
    history step s (as ++ [a]) = event step (run step s as) a :: history step s as := by
  simp only [history, List.foldl_append, List.foldl_cons, List.foldl_nil, foldl_history_snd]

theorem history_append (s : S) (as bs : List A) :
    history step s (as ++ bs) = history step (run step s as) bs ++ history step s as := by
  induction bs using List.reverseRecOn with
  | nil => simp [history]
  | append_singleton bs b ih =>
    rw [← List.append_assoc, history_concat, ih, history_concat, run_append, List.cons_append]

theorem history_append_cons (s : S) (as : List A) (a : A) (bs : List A) :
    history step s (as ++ a :: bs) =
      history step (step (run step s as) a).2 bs ++ event step (run step s as) a ::
        history step s as := by
  rw [List.append_cons, history_append, history_concat, run_concat]

theorem action_mem {s : S} {as : List A} {ev : Event S A O} (h : ev ∈ history step s as) :
    ev.action ∈ as := by
  induction as using List.reverseRecOn with
  | nil => cases h
  | append_singleton as a ih =>
    rw [history_concat] at h
    rcases List.mem_cons.mp h with rfl | hmem
    · exact List.mem_append_right _ (List.mem_singleton_self a)
    · exact List.mem_append_left _ (ih hmem)

/-- Every event of a run is an action taken after the actions before it. -/
theorem history_split {s : S} {as : List A} {newer older : List (Event S A O)}
    {ev : Event S A O} (h : history step s as = newer ++ ev :: older) :
    ∃ pre a post, as = pre ++ a :: post ∧ older = history step s pre ∧
      ev = event step (run step s pre) a := by
  induction as using List.reverseRecOn generalizing newer with
  | nil => simp [history] at h
  | append_singleton as a ih =>
    rw [history_concat] at h
    cases newer with
    | nil =>
      obtain ⟨rfl, rfl⟩ := List.cons.inj h
      exact ⟨as, a, [], rfl, rfl, rfl⟩
    | cons ev' newer =>
      obtain ⟨pre, b, post, rfl, holder, hev⟩ := ih (List.cons.inj h).2
      exact ⟨pre, b, post ++ [a], by simp, holder, hev⟩

variable {step}

/-- What every step preserves holds after every run. -/
theorem run_invariant {I : S → Prop} (hstep : ∀ s a, I s → I (step s a).2) {s : S} (hs : I s)
    (as : List A) : I (run step s as) := by
  induction as generalizing s with
  | nil => exact hs
  | cons a as ih => exact ih (hstep s a hs)

/-- What the allowed steps preserve holds after every run of allowed actions. -/
theorem run_invariant_of {I : S → Prop} {P : A → Prop}
    (hstep : ∀ s a, P a → I s → I (step s a).2) {s : S} (hs : I s) {as : List A}
    (has : ∀ a ∈ as, P a) : I (run step s as) := by
  induction as generalizing s with
  | nil => exact hs
  | cons a as ih =>
    rw [List.forall_mem_cons] at has
    exact ih (hstep s a has.1 hs) has.2

/-- What steps that meet `ok` preserve holds after every run whose steps all meet it. -/
theorem run_invariant_allowed {I : S → Prop} {ok : S → A → Prop}
    (hstep : ∀ s a, ok s a → I s → I (step s a).2) {s : S} (hs : I s) {as : List A}
    (hok : ∀ ev ∈ history step s as, ok ev.before ev.action) : I (run step s as) := by
  induction as using List.reverseRecOn with
  | nil => exact hs
  | append_singleton as a ih =>
    rw [history_concat, List.forall_mem_cons] at hok
    rw [run_concat]
    exact hstep _ a hok.1 (ih hok.2)

/-- What an allowed action leads to from every state of an invariant holds of every event of a run
of allowed actions. -/
theorem forall_mem_history {I : S → Prop} {ok : S → A → Prop} {P : Event S A O → Prop}
    (hstep : ∀ s a, ok s a → I s → I (step s a).2)
    (hevent : ∀ s a, ok s a → I s → P (event step s a)) {s : S} (hs : I s) {as : List A}
    (hok : ∀ ev ∈ history step s as, ok ev.before ev.action) :
    ∀ ev ∈ history step s as, P ev := by
  induction as using List.reverseRecOn with
  | nil => exact List.forall_mem_nil P
  | append_singleton as a ih =>
    rw [history_concat, List.forall_mem_cons] at hok ⊢
    exact ⟨hevent _ a hok.1 (run_invariant_allowed hstep hs hok.2), ih hok.2⟩

/-- Once an event that establishes `Q` has happened, `Q` holds from then on, if the allowed steps
keep it along with an invariant. -/
theorem holds_since {I Q : S → Prop} {ok : S → A → Prop} {E : Event S A O → Prop}
    (hI : ∀ s a, ok s a → I s → I (step s a).2)
    (hest : ∀ s a, ok s a → I s → E (event step s a) → Q (step s a).2)
    (hkeep : ∀ s a, ok s a → I s → Q s → Q (step s a).2) {s : S} (hs : I s) {as : List A}
    (hok : ∀ ev ∈ history step s as, ok ev.before ev.action)
    (hev : ∃ ev ∈ history step s as, E ev) : Q (run step s as) := by
  induction as using List.reverseRecOn with
  | nil =>
    obtain ⟨ev, hmem, -⟩ := hev
    cases hmem
  | append_singleton as a ih =>
    rw [history_concat, List.forall_mem_cons] at hok
    have hbefore : I (run step s as) := run_invariant_allowed hI hs hok.2
    obtain ⟨ev, hmem, hE⟩ := hev
    rw [run_concat]
    rw [history_concat, List.mem_cons] at hmem
    rcases hmem with rfl | hmem
    · exact hest _ a hok.1 hbefore hE
    · exact hkeep _ a hok.1 hbefore (ih hok.2 ⟨ev, hmem, hE⟩)

/-- A relation between history and state that holds at the start and is kept by every event that
extends the history holds after every run. -/
theorem history_induction {R : List (Event S A O) → S → Prop} {s₀ : S} (h₀ : R [] s₀)
    (hstep : ∀ h s a, R h s → R (event step s a :: h) (step s a).2) (as : List A) :
    R (history step s₀ as) (run step s₀ as) := by
  induction as using List.reverseRecOn with
  | nil => exact h₀
  | append_singleton as a ih =>
    rw [history_concat, run_concat]
    exact hstep _ _ a ih

end Machine
