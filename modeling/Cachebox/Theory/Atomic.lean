import Cachebox.Theory.Pool

/-!
# Logs of atomic effects

An object is a state `τ` that atoms act on, `exec : τ → α → β × τ`. Threads that call operations `ω`
on it leave a log: a thread calls an operation, the operation has effects on the object, one atom at
a time, and the thread returns a result that its effects allow (`Returns`). All effects of a log, in
its order, are a run of the object, and those of a call stand between the call and its return, so
that a call that returns before another one starts has its effects first.

A pool of calls implements the object if each section of a call has at most one effect, on a view of
the shared state. Then whatever is seen of an interleaving, which is its calls and their results, is
also seen of a log (`Implementation.Explains.run`). Where an operation has a single effect this is
linearizability.
-/

namespace Machine
variable {S A O : Type*} (step : S → A → O × S)

/-- The actions of a run with their outcomes, earliest first. -/
def trace (s : S) (as : List A) : List (A × O) :=
  ((history step s as).map fun ev => (ev.action, ev.outcome)).reverse

theorem trace_append (s : S) (as bs : List A) :
    trace step s (as ++ bs) = trace step s as ++ trace step (run step s as) bs := by
  rw [trace, history_append, List.map_append, List.reverse_append]
  rfl

theorem trace_cons (s : S) (a : A) (as : List A) :
    trace step s (a :: as) = (a, (step s a).1) :: trace step (step s a).2 as :=
  trace_append step s [a] as

theorem length_trace (s : S) (as : List A) : (trace step s as).length = as.length := by
  induction as generalizing s with
  | nil => rfl
  | cons a as ih => rw [trace_cons, List.length_cons, List.length_cons, ih]

/-- A trace up to one of its actions is the trace of the actions before, and the outcome is that of
the action in the state they lead to. -/
theorem trace_split {s : S} {older newer : List (A × O)} {a : A} {o : O}
    (h : trace step s ((older ++ (a, o) :: newer).map Prod.fst) = older ++ (a, o) :: newer) :
    trace step s (older.map Prod.fst) = older ∧
      (step (run step s (older.map Prod.fst)) a).1 = o := by
  rw [List.map_append, List.map_cons, trace_append, trace_cons] at h
  obtain ⟨holder, hnewer⟩ := List.append_inj h (by rw [length_trace, List.length_map])
  exact ⟨holder, (Prod.mk.inj (List.cons.inj hnewer).1).2⟩

end Machine

namespace Atomic

/-- What is logged of a thread. -/
inductive Mark (ω α β ρ : Type*) where
  | call (thread : Nat) (op : ω)
  | effect (thread : Nat) (atom : α) (result : β)
  | returned (thread : Nat) (result : ρ)

/-- What a thread is doing. -/
inductive Status (ω α β : Type*) where
  | idle
  | running (op : ω) (effects : List (α × β))

variable {σ κ τ ω α β ρ : Type*}

/-- Calls and returns are visible, effects are not. -/
def Mark.visible : Mark ω α β ρ → Bool
  | .call .. | .returned .. => true
  | .effect .. => false

def Mark.effect? : Mark ω α β ρ → Option (α × β)
  | .call .. | .returned .. => none
  | .effect _ atom result => some (atom, result)

/-- The effects in a log. -/
def effects (log : List (Mark ω α β ρ)) : List (α × β) := log.filterMap Mark.effect?

theorem effects_append (log log' : List (Mark ω α β ρ)) :
    effects (log ++ log') = effects log ++ effects log' :=
  List.filterMap_append

theorem effects_concat (log : List (Mark ω α β ρ)) (m : Mark ω α β ρ) :
    effects (log ++ [m]) = effects log ++ m.effect?.toList := by
  rw [effects_append]
  cases m <;> rfl

/-- The logs of threads that call operations on an object in state `v₀`, with the state of the
object and of the threads that they lead to. A thread only has effects that may be completed to
those of a call that returns. -/
inductive Log (exec : τ → α → β × τ) (Returns : ω → List (α × β) → ρ → Prop) (v₀ : τ) :
    List (Mark ω α β ρ) → τ → (Nat → Status ω α β) → Prop
  | nil : Log exec Returns v₀ [] v₀ fun _ => .idle
  | call {log : List (Mark ω α β ρ)} {v : τ} {threads : Nat → Status ω α β} {t : Nat} (op : ω) :
    Log exec Returns v₀ log v threads → threads t = .idle →
    Log exec Returns v₀ (log ++ [.call t op]) v (Function.update threads t (.running op []))
  | effect {log : List (Mark ω α β ρ)} {v : τ} {threads : Nat → Status ω α β} {t : Nat} {op : ω}
    {done : List (α × β)} (a : α) :
    Log exec Returns v₀ log v threads → threads t = .running op done →
    (∃ rest r, Returns op (done ++ [(a, (exec v a).1)] ++ rest) r) →
    Log exec Returns v₀ (log ++ [.effect t a (exec v a).1]) (exec v a).2
      (Function.update threads t (.running op (done ++ [(a, (exec v a).1)])))
  | returned {log : List (Mark ω α β ρ)} {v : τ} {threads : Nat → Status ω α β} {t : Nat} {op : ω}
    {done : List (α × β)} {r : ρ} :
    Log exec Returns v₀ log v threads → threads t = .running op done → Returns op done r →
    Log exec Returns v₀ (log ++ [.returned t r]) v (Function.update threads t .idle)

namespace Log
variable {exec : τ → α → β × τ} {Returns : ω → List (α × β) → ρ → Prop} {v₀ v : τ}
variable {log : List (Mark ω α β ρ)} {threads : Nat → Status ω α β}

/-- The effects of a log are a run of the object. -/
theorem run_effects (h : Log exec Returns v₀ log v threads) :
    Machine.run exec v₀ ((effects log).map Prod.fst) = v ∧
      Machine.trace exec v₀ ((effects log).map Prod.fst) = effects log := by
  induction h with
  | nil => exact ⟨rfl, rfl⟩
  | call | returned =>
    rw [effects_concat, Mark.effect?, Option.toList_none, List.append_nil]
    assumption
  | effect a _ _ _ ih =>
    rw [effects_concat, List.map_append]
    obtain ⟨hrun, htrace⟩ := ih
    constructor
    · exact (Machine.run_append ..).trans (by rw [hrun]; rfl)
    · exact (Machine.trace_append ..).trans (by rw [hrun, htrace]; rfl)

/-- What holds of the effects of every call that returns holds of all effects in a log. -/
theorem forall_effects (h : Log exec Returns v₀ log v threads) {P : α × β → Prop}
    (hP : ∀ op done r, Returns op done r → ∀ x ∈ done, P x) : ∀ x ∈ effects log, P x := by
  induction h with
  | nil => exact List.forall_mem_nil _
  | call | returned =>
    rw [effects_concat, Mark.effect?, Option.toList_none, List.append_nil]
    assumption
  | @effect log v threads t op done a _ _ hmay ih =>
    obtain ⟨rest, r, hreturns⟩ := hmay
    rw [effects_concat]
    refine List.forall_mem_append.mpr ⟨ih, fun x hx => hP _ _ _ hreturns x ?_⟩
    exact List.mem_append_left _ (List.mem_append_right _ hx)

/-- An invariant of the object that the atoms in question keep holds throughout a log, and every
effect has the result that its atom has in such a state. -/
theorem real_effects (h : Log exec Returns v₀ log v threads) {I : τ → Prop} {Q : α → Prop}
    (hv₀ : I v₀) (hQ : ∀ op done r, Returns op done r → ∀ x ∈ done, Q x.1)
    (hkeeps : ∀ v a, Q a → I v → I (exec v a).2) :
    I v ∧ ∀ x ∈ effects log, ∃ v, I v ∧ (exec v x.1).1 = x.2 := by
  induction h with
  | nil => exact ⟨hv₀, List.forall_mem_nil _⟩
  | call | returned =>
    rw [effects_concat, Mark.effect?, Option.toList_none, List.append_nil]
    assumption
  | @effect log v threads t op done a _ _ hmay ih =>
    obtain ⟨rest, r, hreturns⟩ := hmay
    obtain ⟨hv, heffects⟩ := ih
    have ha : Q a := hQ _ _ _ hreturns (a, (exec v a).1) (by simp)
    rw [effects_concat]
    refine ⟨hkeeps v a ha hv, List.forall_mem_append.mpr ⟨heffects, fun x hx => ?_⟩⟩
    cases List.mem_singleton.mp hx
    exact ⟨v, hv, rfl⟩

end Log

/-! ## The marks of one thread -/

def Mark.thread : Mark ω α β ρ → Nat
  | .call t _ | .effect t _ _ | .returned t _ => t

def ofThread (t : Nat) (log : List (Mark ω α β ρ)) : List (Mark ω α β ρ) :=
  log.filter fun m => m.thread == t

/-- A call that has had some effects. -/
def begun (t : Nat) (op : ω) (done : List (α × β)) : List (Mark ω α β ρ) :=
  .call t op :: done.map fun x => .effect t x.1 x.2

/-- A call that has returned. -/
def completed (t : Nat) (op : ω) (done : List (α × β)) (r : ρ) : List (Mark ω α β ρ) :=
  begun t op done ++ [.returned t r]

/-- The marks of the call that a thread is running. -/
def Status.marks (t : Nat) : Status ω α β → List (Mark ω α β ρ)
  | .idle => []
  | .running op done => begun t op done

theorem ofThread_append (t : Nat) (log log' : List (Mark ω α β ρ)) :
    ofThread t (log ++ log') = ofThread t log ++ ofThread t log' :=
  List.filter_append ..

theorem ofThread_eq_nil {t : Nat} {log : List (Mark ω α β ρ)} (h : ∀ m ∈ log, m.thread ≠ t) :
    ofThread t log = [] := by
  rw [ofThread, List.filter_eq_nil_iff]
  intro m hm
  simpa using h m hm

theorem ofThread_visible (t : Nat) (log : List (Mark ω α β ρ)) :
    (ofThread t log).filter Mark.visible = ofThread t (log.filter Mark.visible) := by
  rw [ofThread, ofThread, List.filter_filter, List.filter_filter]
  refine List.filter_congr fun m _ => ?_
  rw [Bool.and_comm]

theorem visible_begun (t : Nat) (op : ω) (done : List (α × β)) :
    (begun t op done : List (Mark ω α β ρ)).filter Mark.visible = [.call t op] := by
  rw [begun, List.filter_cons_of_pos rfl, List.filter_eq_nil_iff.mpr]
  intro m hm
  obtain ⟨x, -, rfl⟩ := List.mem_map.mp hm
  exact Bool.false_ne_true

theorem visible_completed (t : Nat) (op : ω) (done : List (α × β)) (r : ρ) :
    (completed t op done r).filter Mark.visible =
      ([.call t op, .returned t r] : List (Mark ω α β ρ)) := by
  rw [completed, List.filter_append, visible_begun]
  rfl

/-- The effects of a completed call are effects of the log. -/
theorem mem_effects_of_completed {t : Nat} {log : List (Mark ω α β ρ)} {op : ω}
    {done : List (α × β)} {r : ρ} (h : ofThread t log = completed t op done r) :
    ∀ x ∈ done, x ∈ effects log := by
  intro x hx
  have hmark : (.effect t x.1 x.2 : Mark ω α β ρ) ∈ ofThread t log := by
    rw [h, completed, begun]
    exact List.mem_append_left _ (List.mem_cons_of_mem _ (List.mem_map_of_mem hx))
  exact List.mem_filterMap.mpr ⟨_, List.mem_of_mem_filter hmark, rfl⟩

namespace Log
variable {exec : τ → α → β × τ} {Returns : ω → List (α × β) → ρ → Prop} {v₀ v : τ}
variable {log : List (Mark ω α β ρ)} {threads : Nat → Status ω α β}

/-- A thread completes calls, one after the other, and may be running one more. -/
theorem ofThread_eq (h : Log exec Returns v₀ log v threads) (t : Nat) :
    ∃ calls : List (ω × List (α × β) × ρ), (∀ call ∈ calls, Returns call.1 call.2.1 call.2.2) ∧
      ofThread t log = (calls.flatMap fun call => completed t call.1 call.2.1 call.2.2) ++
        (threads t).marks t := by
  induction h with
  | nil => exact ⟨[], List.forall_mem_nil _, rfl⟩
  | @call log v threads t' op _ hidle ih =>
    obtain ⟨calls, hcalls, heq⟩ := ih
    refine ⟨calls, hcalls, ?_⟩
    rw [ofThread_append, heq, Function.update_apply]
    split
    next ht =>
      subst ht
      rw [hidle]
      simp [ofThread, Mark.thread, Status.marks, begun]
    next ht => simp [ofThread, Mark.thread, Ne.symm ht]
  | @effect log v threads t' op done a _ hrunning _ ih =>
    obtain ⟨calls, hcalls, heq⟩ := ih
    refine ⟨calls, hcalls, ?_⟩
    rw [ofThread_append, heq, Function.update_apply]
    split
    next ht =>
      subst ht
      rw [hrunning]
      simp [ofThread, Mark.thread, Status.marks, begun]
    next ht => simp [ofThread, Mark.thread, Ne.symm ht]
  | @returned log v threads t' op done r _ hrunning hreturns ih =>
    obtain ⟨calls, hcalls, heq⟩ := ih
    rw [ofThread_append, heq, Function.update_apply]
    split
    next ht =>
      subst ht
      refine ⟨calls ++ [(op, done, r)], ?_, ?_⟩
      · exact List.forall_mem_append.mpr ⟨hcalls, List.forall_mem_singleton.mpr hreturns⟩
      · rw [hrunning]
        simp [ofThread, Mark.thread, Status.marks, completed]
    next ht => exact ⟨calls, hcalls, by simp [ofThread, Mark.thread, Ne.symm ht]⟩

/-- A thread whose last visible mark is not a call is idle. -/
theorem idle_of_visible (h : Log exec Returns v₀ log v threads) {t : Nat}
    (hvisible : ∀ op, (ofThread t (log.filter Mark.visible)).getLast? ≠ some (.call t op)) :
    threads t = .idle := by
  obtain ⟨calls, -, heq⟩ := h.ofThread_eq t
  cases hstatus : threads t with
  | idle => rfl
  | running op done =>
    refine absurd ?_ (hvisible op)
    rw [← ofThread_visible, heq, hstatus, List.filter_append, Status.marks, visible_begun,
      List.getLast?_concat]

/-- The marks of an idle thread end with a return. -/
theorem ofThread_of_idle (h : Log exec Returns v₀ log v threads) {t : Nat}
    (hidle : threads t = .idle) :
    ofThread t log = [] ∨ ∃ marks r, ofThread t log = marks ++ [.returned t r] := by
  obtain ⟨calls, -, heq⟩ := h.ofThread_eq t
  rw [hidle, Status.marks, List.append_nil] at heq
  rw [heq]
  rcases List.eq_nil_or_concat' calls with rfl | ⟨calls, ⟨op, done, r⟩, rfl⟩
  · exact .inl rfl
  · rw [List.flatMap_append, List.flatMap_singleton, completed, ← List.append_assoc]
    exact .inr ⟨_, r, rfl⟩

/-- An idle thread that is not seen has no effects. -/
theorem ofThread_eq_nil_of_idle (h : Log exec Returns v₀ log v threads)
    {log' : List (Mark ω α β ρ)} {v' : τ} {threads' : Nat → Status ω α β}
    (h' : Log exec Returns v₀ (log ++ log') v' threads') {t : Nat} (hidle : threads t = .idle)
    (hvisible : ofThread t (log'.filter Mark.visible) = []) : ofThread t log' = [] := by
  have hidle' : threads' t = .idle := by
    refine h'.idle_of_visible fun op => ?_
    rw [List.filter_append, ofThread_append, hvisible, List.append_nil, ← ofThread_visible]
    rcases h.ofThread_of_idle hidle with hnil | ⟨marks, r, hmarks⟩
    · rw [hnil]
      simp
    · rw [hmarks, List.filter_append, List.filter_cons_of_pos rfl, List.filter_nil,
        List.getLast?_concat]
      simp
  rcases List.eq_nil_or_concat' (ofThread t log') with hnil | ⟨marks, m, hm⟩
  · exact hnil
  -- the last mark is a return, which is visible
  rw [← ofThread_visible, List.filter_eq_nil_iff] at hvisible
  have hlast := hvisible m (by rw [hm]; simp)
  rcases h'.ofThread_of_idle hidle' with hnil | ⟨marks', r, hmarks'⟩
  · rw [ofThread_append, hm] at hnil
    simp at hnil
  · rw [ofThread_append, hm, ← List.append_assoc] at hmarks'
    obtain rfl : m = .returned t r := by simpa using (List.append_inj' hmarks' rfl).2
    exact absurd rfl hlast

/-- A thread that is seen to make one call is running it. -/
theorem running_of_visible (h : Log exec Returns v₀ log v threads) {t : Nat} {op : ω}
    (hvisible : ofThread t (log.filter Mark.visible) = [.call t op]) :
    ∃ done, threads t = .running op done ∧ ofThread t log = begun t op done := by
  obtain ⟨calls, -, heq⟩ := h.ofThread_eq t
  rw [← ofThread_visible, heq, List.filter_append] at hvisible
  cases calls with
  | nil =>
    cases hstatus : threads t with
    | idle =>
      rw [hstatus] at hvisible
      cases hvisible
    | running op' done =>
      rw [hstatus, Status.marks, visible_begun] at hvisible
      cases hvisible
      rw [hstatus] at heq
      exact ⟨done, rfl, heq⟩
  | cons call calls =>
    rw [List.flatMap_cons, List.filter_append, visible_completed] at hvisible
    cases hvisible

/-- A thread that is seen to make one call and to return from it has had effects in between that
allow the result. -/
theorem exists_completed (h : Log exec Returns v₀ log v threads) {t : Nat} {op : ω} {r : ρ}
    (hvisible : ofThread t (log.filter Mark.visible) = [.call t op, .returned t r]) :
    ∃ done, ofThread t log = completed t op done r ∧ Returns op done r := by
  obtain ⟨calls, hcalls, heq⟩ := h.ofThread_eq t
  rw [← ofThread_visible, heq, List.filter_append] at hvisible
  cases calls with
  | nil =>
    cases hstatus : threads t with
    | idle =>
      rw [hstatus] at hvisible
      cases hvisible
    | running op' done =>
      rw [hstatus, Status.marks, visible_begun] at hvisible
      cases hvisible
  | cons call calls =>
    obtain ⟨op', done, r'⟩ := call
    rw [List.flatMap_cons, List.filter_append, visible_completed] at hvisible
    cases calls with
    | nil =>
      cases hstatus : threads t with
      | running op' done =>
        rw [hstatus, Status.marks, visible_begun] at hvisible
        cases hvisible
      | idle =>
        rw [hstatus] at hvisible heq
        cases hvisible
        refine ⟨done, ?_, hcalls _ List.mem_cons_self⟩
        rw [heq, List.flatMap_cons, List.flatMap_nil, List.append_nil]
        exact List.append_nil _
    | cons call calls =>
      rw [List.flatMap_cons, List.filter_append, visible_completed] at hvisible
      cases hvisible

end Log

/-! ## Pools of calls -/

/-- A call that has had the effects `done` goes on, or returns a result that they allow. -/
def Continues (Does : κ → ω → List (α × β) → Prop) (Returns : ω → List (α × β) → ρ → Prop)
    (op : ω) (done : List (α × β)) : Pool.Progress κ ρ → Prop
  | .more call => Does call op done
  | .done r => Returns op done r

/-- Every section of a call has at most one effect, on a view of the shared state. -/
structure Implementation (start : ω → κ) (advance : σ → κ → Pool.Progress κ ρ × σ)
    (exec : τ → α → β × τ) (Returns : ω → List (α × β) → ρ → Prop) where
  view : σ → τ
  /-- `call` can be what is left to do of `op` after the effects `done`. -/
  Does : (call : κ) → (op : ω) → (done : List (α × β)) → Prop
  start : ∀ op, Does (start op) op []
  completes : ∀ {call op done}, Does call op done → ∃ rest r, Returns op (done ++ rest) r
  advance : ∀ (s : σ) {call op done}, Does call op done →
    (view (advance s call).2 = view s ∧ Continues Does Returns op done (advance s call).1) ∨
    ∃ a, view (advance s call).2 = (exec (view s) a).2 ∧
      Continues Does Returns op (done ++ [(a, (exec (view s) a).1)]) (advance s call).1

/-- What is seen of a step of a pool: a call that starts on an idle thread, and a return. -/
def marks (ev : Machine.Event (Pool.State σ κ) (Pool.Action ω) (Option ρ)) :
    List (Mark ω α β ρ) :=
  match ev.action with
  | .call t op => if (ev.before.calls.lookup t).isNone then [.call t op] else []
  | .advance t => (ev.outcome.map (Mark.returned t)).toList

theorem thread_of_mem_marks {ev : Machine.Event (Pool.State σ κ) (Pool.Action ω) (Option ρ)}
    {m : Mark ω α β ρ} (hm : m ∈ marks ev) : m.thread = ev.action.thread := by
  obtain ⟨before, action, outcome, after⟩ := ev
  cases action with
  | call t op =>
    simp only [marks] at hm
    split at hm
    · cases List.mem_singleton.mp hm
      rfl
    · cases hm
  | advance t =>
    simp only [marks, Option.mem_toList, Option.map_eq_some_iff] at hm
    obtain ⟨r, -, rfl⟩ := hm
    rfl

/-- What is seen of an interleaving. -/
def observed (start : ω → κ) (advance : σ → κ → Pool.Progress κ ρ × σ) (c : Pool.State σ κ)
    (actions : List (Pool.Action ω)) : List (Mark ω α β ρ) :=
  (Machine.history (Pool.step start advance) c actions).reverse.flatMap marks

theorem observed_concat (start : ω → κ) (advance : σ → κ → Pool.Progress κ ρ × σ)
    (c : Pool.State σ κ) (actions : List (Pool.Action ω)) (action : Pool.Action ω) :
    observed (α := α) (β := β) start advance c (actions ++ [action]) =
      observed start advance c actions ++ marks (Machine.event (Pool.step start advance)
        (Machine.run (Pool.step start advance) c actions) action) := by
  simp [observed]

theorem observed_append (start : ω → κ) (advance : σ → κ → Pool.Progress κ ρ × σ)
    (c : Pool.State σ κ) (actions actions' : List (Pool.Action ω)) :
    observed (α := α) (β := β) start advance c (actions ++ actions') =
      observed start advance c actions ++
        observed start advance (Machine.run (Pool.step start advance) c actions) actions' := by
  rw [observed, Machine.history_append, List.reverse_append, List.flatMap_append]
  rfl

/-- What is seen of one thread in an interleaving from the state `s`. -/
def seen (start : ω → κ) (advance : σ → κ → Pool.Progress κ ρ × σ) (s : σ)
    (actions : List (Pool.Action ω)) (t : Nat) : List (Mark ω α β ρ) :=
  ofThread t (observed start advance ⟨s, ∅⟩ actions)

section
variable {start : ω → κ} {advance : σ → κ → Pool.Progress κ ρ × σ} {s : σ}
variable {actions : List (Pool.Action ω)} {t : Nat}

theorem seen_concat_of_ne {action : Pool.Action ω} (h : action.thread ≠ t) :
    (seen start advance s (actions ++ [action]) t : List (Mark ω α β ρ)) =
      seen start advance s actions t := by
  rw [seen, observed_concat, ofThread_append, seen, List.append_right_eq_self]
  refine ofThread_eq_nil fun m hm => ?_
  rw [thread_of_mem_marks hm]
  exact h

theorem seen_call {op : ω}
    (hidle : (Machine.run (Pool.step start advance) ⟨s, ∅⟩ actions).calls.lookup t = none) :
    (seen start advance s (actions ++ [.call t op]) t : List (Mark ω α β ρ)) =
      seen start advance s actions t ++ [.call t op] := by
  rw [seen, observed_concat, ofThread_append, seen]
  simp [marks, Machine.event, hidle, ofThread, Mark.thread]

theorem seen_advance :
    (seen start advance s (actions ++ [.advance t]) t : List (Mark ω α β ρ)) =
      seen start advance s actions t ++ ((Pool.step start advance
        (Machine.run (Pool.step start advance) ⟨s, ∅⟩ actions) (.advance t)).1.map
          (Mark.returned t)).toList := by
  rw [seen, observed_concat, ofThread_append, seen]
  generalize hresult : Pool.step start advance
    (Machine.run (Pool.step start advance) ⟨s, ∅⟩ actions) (.advance t) = result
  obtain ⟨result, c⟩ := result
  simp only [marks, Machine.event, hresult]
  cases result with
  | none => rfl
  | some r => simp [ofThread, Mark.thread]

end

namespace Implementation
variable {start : ω → κ} {advance : σ → κ → Pool.Progress κ ρ × σ} {exec : τ → α → β × τ}
variable {Returns : ω → List (α × β) → ρ → Prop}

/-- What a pool has left to do of the call of a thread agrees with what the thread is doing. -/
inductive Agrees (I : Implementation start advance exec Returns) :
    Option κ → Status ω α β → Prop
  | idle : Agrees I none .idle
  | running {call : κ} {op : ω} {done : List (α × β)} :
    I.Does call op done → Agrees I (some call) (.running op done)

variable {I : Implementation start advance exec Returns} {v₀ v : τ}
variable {log : List (Mark ω α β ρ)} {calls : HashMap Nat κ} {threads : Nat → Status ω α β}

theorem agrees_insert {t : Nat} {call : κ} {op : ω} {done : List (α × β)}
    (h : ∀ t' ≠ t, I.Agrees (calls.lookup t') (threads t')) (hdoes : I.Does call op done)
    (t' : Nat) :
    I.Agrees ((calls.insert t call).lookup t')
      (Function.update threads t (.running op done) t') := by
  rw [HashMap.lookup_insert', Function.update_apply]
  split
  · exact .running hdoes
  · next ht => exact h t' ht

theorem agrees_erase {t : Nat} (h : ∀ t' ≠ t, I.Agrees (calls.lookup t') (threads t'))
    (t' : Nat) : I.Agrees ((calls.erase t).lookup t') (Function.update threads t .idle t') := by
  rw [HashMap.lookup_erase', Function.update_apply]
  split
  · exact .idle
  · next ht => exact h t' ht

theorem exists_returns {op : ω} {done : List (α × β)} {progress : Pool.Progress κ ρ}
    (h : Continues I.Does Returns op done progress) : ∃ rest r, Returns op (done ++ rest) r := by
  cases progress with
  | more call => exact I.completes h
  | done r => exact ⟨[], r, (List.append_nil done).symm ▸ h⟩

/-- The end of a section of thread `t`, when its effect is in the log. -/
theorem exists_log_of_continues (hlog : Log exec Returns v₀ log v threads) {t : Nat} {op : ω}
    {done : List (α × β)} (ht : threads t = .running op done)
    (h : ∀ t' ≠ t, I.Agrees (calls.lookup t') (threads t')) {progress : Pool.Progress κ ρ}
    (hnext : Continues I.Does Returns op done progress) :
    ∃ threads', Log exec Returns v₀ (log ++ (progress.result.map (Mark.returned t)).toList) v
        threads' ∧ ∀ t', I.Agrees ((progress.update calls t).lookup t') (threads' t') := by
  cases progress with
  | more call =>
    refine ⟨threads, ?_, fun t' => ?_⟩
    · rw [Pool.Progress.result, Option.map_none, Option.toList_none, List.append_nil]
      exact hlog
    · have hagrees := agrees_insert h hnext t'
      rwa [← ht, Function.update_eq_self] at hagrees
  | done r => exact ⟨_, hlog.returned ht hnext, agrees_erase h⟩

/-- A section of thread `t`. -/
theorem exists_log_of_advance {s : σ} (hlog : Log exec Returns v₀ log (I.view s) threads)
    (h : ∀ t, I.Agrees (calls.lookup t) (threads t)) {t : Nat} {call : κ}
    (ht : calls.lookup t = some call) :
    ∃ log' threads', Log exec Returns v₀ (log ++ log') (I.view (advance s call).2) threads' ∧
      log'.filter Mark.visible = ((advance s call).1.result.map (Mark.returned t)).toList ∧
      ∀ t', I.Agrees (((advance s call).1.update calls t).lookup t') (threads' t') := by
  have hvisible : ∀ r : Option ρ, (r.map (Mark.returned t)).toList.filter
      (Mark.visible (ω := ω) (α := α) (β := β)) = (r.map (Mark.returned t)).toList := by
    intro r
    cases r <;> rfl
  obtain ⟨op, done, hrunning, hdoes⟩ : ∃ op done, threads t = .running op done ∧
      I.Does call op done := by
    have hagrees := h t
    rw [ht] at hagrees
    generalize threads t = status at hagrees
    cases hagrees with
    | running hdoes => exact ⟨_, _, rfl, hdoes⟩
  rcases I.advance s hdoes with ⟨hview, hnext⟩ | ⟨a, hview, hnext⟩
  · obtain ⟨threads', hlog', hagrees⟩ :=
      exists_log_of_continues hlog hrunning (fun t' _ => h t') hnext
    exact ⟨_, threads', hview ▸ hlog', hvisible _, hagrees⟩
  · obtain ⟨threads', hlog', hagrees⟩ := exists_log_of_continues
      (hlog.effect a hrunning (exists_returns hnext)) (Function.update_self ..) (fun t' ht' => by
        rw [Function.update_of_ne ht']
        exact h t') hnext
    rw [List.append_assoc, ← hview] at hlog'
    exact ⟨_, threads', hlog', hvisible _, hagrees⟩

/-- One action of a pool. -/
theorem exists_log_of_step {c : Pool.State σ κ}
    (hlog : Log exec Returns v₀ log (I.view c.shared) threads)
    (h : ∀ t, I.Agrees (c.calls.lookup t) (threads t)) (action : Pool.Action ω) :
    ∃ log' threads', Log exec Returns v₀ (log ++ log')
        (I.view (Pool.step start advance c action).2.shared) threads' ∧
      log'.filter Mark.visible = marks (Machine.event (Pool.step start advance) c action) ∧
      ∀ t, I.Agrees ((Pool.step start advance c action).2.calls.lookup t) (threads' t) := by
  cases action with
  | call t op =>
    cases ht : c.calls.lookup t with
    | some call =>
      refine ⟨[], threads, ?_, ?_, ?_⟩
      · simpa only [Pool.step, ht, List.append_nil] using hlog
      · simp [marks, Machine.event, ht]
      · simpa only [Pool.step, ht] using h
    | none =>
      have hidle : threads t = .idle := by
        have hagrees := h t
        rw [ht] at hagrees
        generalize threads t = status at hagrees
        cases hagrees
        rfl
      refine ⟨[.call t op], Function.update threads t (.running op []), ?_, ?_, ?_⟩
      · simpa only [Pool.step, ht] using hlog.call op hidle
      · simp [marks, Machine.event, ht, Mark.visible]
      · simpa only [Pool.step, ht] using agrees_insert (fun t' _ => h t') (I.start op)
  | advance t =>
    cases ht : c.calls.lookup t with
    | none =>
      refine ⟨[], threads, ?_, ?_, ?_⟩
      · simpa only [Pool.step, ht, List.append_nil] using hlog
      · simp [marks, Machine.event, Pool.step, ht]
      · simpa only [Pool.step, ht] using h
    | some call =>
      obtain ⟨log', threads', hlog', hvisible, hagrees⟩ := exists_log_of_advance hlog h ht
      refine ⟨log', threads', ?_, ?_, ?_⟩
      · simpa only [Pool.step, ht] using hlog'
      · simpa only [marks, Machine.event, Pool.step, ht] using hvisible
      · simpa only [Pool.step, ht] using hagrees

/-- The log leads to the state of a pool, and says what its threads are doing. -/
def Explains (I : Implementation start advance exec Returns) (v₀ : τ) (log : List (Mark ω α β ρ))
    (c : Pool.State σ κ) : Prop :=
  ∃ threads, Log exec Returns v₀ log (I.view c.shared) threads ∧
    ∀ t, I.Agrees (c.calls.lookup t) (threads t)

theorem explains_start (I : Implementation start advance exec Returns) (s : σ) :
    I.Explains (I.view s) [] ⟨s, ∅⟩ :=
  ⟨_, .nil, fun _ => .idle⟩

namespace Explains
variable {c : Pool.State σ κ}

theorem step (h : I.Explains v₀ log c) (action : Pool.Action ω) :
    ∃ log', I.Explains v₀ (log ++ log') (Pool.step start advance c action).2 ∧
      log'.filter Mark.visible = marks (Machine.event (Pool.step start advance) c action) := by
  obtain ⟨threads, hlog, hagrees⟩ := h
  obtain ⟨log', threads', hlog', hvisible, hagrees'⟩ := exists_log_of_step hlog hagrees action
  exact ⟨log', ⟨threads', hlog', hagrees'⟩, hvisible⟩

/-- **Every interleaving is seen as a log of atomic effects.** -/
theorem run (h : I.Explains v₀ log c) (actions : List (Pool.Action ω)) :
    ∃ log', I.Explains v₀ (log ++ log') (Machine.run (Pool.step start advance) c actions) ∧
      log'.filter Mark.visible = observed start advance c actions := by
  induction actions using List.reverseRecOn with
  | nil => exact ⟨[], (List.append_nil log).symm ▸ h, rfl⟩
  | append_singleton actions action ih =>
    obtain ⟨log', h', hvisible⟩ := ih
    obtain ⟨log'', h'', hvisible'⟩ := h'.step action
    rw [Machine.run_concat]
    refine ⟨log' ++ log'', List.append_assoc log log' log'' ▸ h'', ?_⟩
    rw [List.filter_append, hvisible, hvisible', observed_concat]

theorem lookup_eq_none (h : I.Explains v₀ log c) {t : Nat}
    (hvisible : ∀ op, (ofThread t (log.filter Mark.visible)).getLast? ≠ some (.call t op)) :
    c.calls.lookup t = none := by
  obtain ⟨threads, hlog, hagrees⟩ := h
  have ht := hagrees t
  rw [hlog.idle_of_visible hvisible] at ht
  generalize c.calls.lookup t = call at ht
  cases ht
  rfl

/-- A thread that has no call in progress and is not seen has no effects. -/
theorem ofThread_eq_nil (h : I.Explains v₀ log c) {log' : List (Mark ω α β ρ)}
    {c' : Pool.State σ κ} (h' : I.Explains v₀ (log ++ log') c') {t : Nat}
    (hlookup : c.calls.lookup t = none)
    (hvisible : ofThread t (log'.filter Mark.visible) = []) : ofThread t log' = [] := by
  obtain ⟨threads, hlog, hagrees⟩ := h
  obtain ⟨threads', hlog', -⟩ := h'
  refine hlog.ofThread_eq_nil_of_idle hlog' ?_ hvisible
  have ht := hagrees t
  rw [hlookup] at ht
  generalize threads t = status at ht
  cases ht
  rfl

theorem exists_call (h : I.Explains v₀ log c) {t : Nat} {op : ω}
    (hvisible : ofThread t (log.filter Mark.visible) = [.call t op]) :
    ∃ call done, c.calls.lookup t = some call ∧ I.Does call op done := by
  obtain ⟨threads, hlog, hagrees⟩ := h
  obtain ⟨done, hrunning, -⟩ := hlog.running_of_visible hvisible
  have ht := hagrees t
  rw [hrunning] at ht
  generalize c.calls.lookup t = call at ht
  cases ht with
  | running hdoes => exact ⟨_, done, rfl, hdoes⟩

theorem exists_completed (h : I.Explains v₀ log c) {t : Nat} {op : ω} {r : ρ}
    (hvisible : ofThread t (log.filter Mark.visible) = [.call t op, .returned t r]) :
    ∃ done, ofThread t log = completed t op done r ∧ Returns op done r := by
  obtain ⟨threads, hlog, -⟩ := h
  exact hlog.exists_completed hvisible

end Explains

end Implementation
end Atomic
