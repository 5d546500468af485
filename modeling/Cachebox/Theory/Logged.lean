import Cachebox.Theory.Parser

/-!
# Parsers that keep a log

A `Logged` computation returns or fails, and leaves a log either way. A parser over it takes the
steps of an ordinary parser, which `Parser.Erases` names, and records entries on the way.
`Parser.Records rest p L` says which: started with the input `xs`, the parser `p` records exactly
the entries in `L xs`. There is one rule for each way to build such a parser.
-/

structure Logged (ω ε α : Type) where
  result : Except ε α
  log : List ω

namespace Logged
variable {ω ε α β : Type} {w : ω}

instance : Monad (Logged ω ε) where
  pure a := ⟨.ok a, []⟩
  bind x f := match x.result with
    | .ok a => ⟨(f a).result, x.log ++ (f a).log⟩
    | .error e => ⟨.error e, x.log⟩

instance : MonadLift (Except ε) (Logged ω ε) where
  monadLift x := ⟨x, []⟩

@[simp] theorem result_lift (x : Except ε α) : (liftM x : Logged ω ε α).result = x := rfl

@[simp] theorem log_lift (x : Except ε α) : (liftM x : Logged ω ε α).log = [] := rfl

@[simp] theorem result_pure (a : α) : (pure a : Logged ω ε α).result = pure a := rfl

@[simp] theorem log_pure (a : α) : (pure a : Logged ω ε α).log = [] := rfl

@[simp] theorem result_bind (x : Logged ω ε α) (f : α → Logged ω ε β) :
    (x >>= f).result = x.result >>= fun a => (f a).result := by
  obtain ⟨_ | _, log⟩ := x <;> rfl

/-- An entry is recorded before the value is there or after. -/
theorem mem_log_bind {x : Logged ω ε α} {f : α → Logged ω ε β} :
    w ∈ (x >>= f).log ↔ w ∈ x.log ∨ ∃ a, x.result = .ok a ∧ w ∈ (f a).log := by
  obtain ⟨e | a, log⟩ := x
  · change w ∈ log ↔ _
    simp
  · change w ∈ log ++ (f a).log ↔ _
    simp

end Logged

namespace Parser
variable {σ τ ω ε α β : Type}

instance : MonadLift (StateT σ (Except ε)) (StateT σ (Logged ω ε)) where
  monadLift p := fun s => ⟨p s, []⟩

/-- The parser `p` without its log is `q`. -/
def Erases (p : StateT σ (Logged ω ε) α) (q : StateT σ (Except ε) α) : Prop :=
  ∀ s, (p s).result = q s

/-- Records one entry, which is a function of the input that is left. -/
def record (rest : σ → List τ) (entry : List τ → ω) : StateT σ (Logged ω ε) Unit :=
  fun s => ⟨.ok ((), s), [entry (rest s)]⟩

section Erases
variable {p : StateT σ (Logged ω ε) α} {q : StateT σ (Except ε) α}
variable {f : α → StateT σ (Logged ω ε) β} {g : α → StateT σ (Except ε) β}

protected theorem Erases.lift (q : StateT σ (Except ε) α) :
    Erases (liftM q : StateT σ (Logged ω ε) α) q :=
  fun _ => rfl

protected theorem Erases.pure (a : α) : Erases (pure a : StateT σ (Logged ω ε) α) (pure a) :=
  fun _ => rfl

protected theorem Erases.bind (hp : Erases p q) (hf : ∀ a, Erases (f a) (g a)) :
    Erases (p >>= f) (q >>= g) := by
  intro s
  change (p s >>= fun r => f r.1 r.2).result = q s >>= fun r => g r.1 r.2
  rw [Logged.result_bind, hp s]
  exact congrArg (q s >>= ·) (funext fun r => hf r.1 r.2)

/-- Recording an entry is no step of the parser. -/
protected theorem Erases.record (rest : σ → List τ) (entry : List τ → ω)
    {p : StateT σ (Logged ω ε) α} (hp : Erases p q) :
    Erases (do Parser.record rest entry; p) q := by
  intro s
  change (Parser.record rest entry s >>= fun r => p r.2).result = q s
  rw [Logged.result_bind]
  exact hp s

end Erases

/-- Started with the input `xs`, the parser records exactly the entries in `L xs`. -/
def Records (rest : σ → List τ) (p : StateT σ (Logged ω ε) α) (L : List τ → ω → Prop) : Prop :=
  ∀ s w, w ∈ (p s).log ↔ L (rest s) w

section Records
variable {rest : σ → List τ} {p : StateT σ (Logged ω ε) α} {L : List τ → ω → Prop}
variable {f : α → StateT σ (Logged ω ε) β}

protected theorem Records.congr {L' : List τ → ω → Prop} (hp : Records rest p L)
    (h : ∀ xs w, L xs w ↔ L' xs w) : Records rest p L' :=
  fun s w => (hp s w).trans (h (rest s) w)

/-- An ordinary parser records nothing. -/
protected theorem Records.lift (q : StateT σ (Except ε) α) :
    Records rest (liftM q : StateT σ (Logged ω ε) α) fun _ _ => False :=
  fun _ _ => iff_of_false List.not_mem_nil id

protected theorem Records.pure (a : α) :
    Records rest (pure a : StateT σ (Logged ω ε) α) fun _ _ => False :=
  fun _ _ => iff_of_false List.not_mem_nil id

theorem mem_log_bind {s : σ} {w : ω} :
    w ∈ ((p >>= f) s).log ↔
      w ∈ (p s).log ∨ ∃ a t, (p s).result = .ok (a, t) ∧ w ∈ (f a t).log := by
  change w ∈ (p s >>= fun r => f r.1 r.2).log ↔ _
  rw [Logged.mem_log_bind, Prod.exists]

/-- After an ordinary parser, what is recorded depends on what it has read. -/
protected theorem Records.read {q : StateT σ (Except ε) α} {G : α → List τ → Prop}
    {K : α → List τ → ω → Prop} (hq : Parses rest q G) (hf : ∀ a, Records rest (f a) (K a)) :
    Records rest (liftM q >>= f) fun xs w => ∃ a ys zs, xs = ys ++ zs ∧ G a ys ∧ K a zs w := by
  intro s w
  rw [mem_log_bind]
  constructor
  · rintro (h | ⟨a, t, hqa, hw⟩)
    · exact absurd h List.not_mem_nil
    · obtain ⟨ys, hys, hG⟩ := hq.sound hqa
      exact ⟨a, ys, rest t, hys, hG, (hf a t w).mp hw⟩
  · rintro ⟨a, ys, zs, hs, hG, hK⟩
    obtain ⟨t, hqa, rfl⟩ := hq.complete hs hG
    exact .inr ⟨a, t, hqa, (hf a t w).mpr hK⟩

/-- What follows a parser and records nothing adds nothing. -/
protected theorem Records.silent (hp : Records rest p L)
    (hf : ∀ a, Records rest (f a) fun _ _ => False) : Records rest (p >>= f) L := by
  intro s w
  rw [mem_log_bind, ← hp s w]
  constructor
  · rintro (h | ⟨a, t, -, hw⟩)
    · exact h
    · exact ((hf a t w).mp hw).elim
  · exact .inl

protected theorem Records.record (rest : σ → List τ) (entry : List τ → ω) :
    Records rest (Parser.record rest entry : StateT σ (Logged ω ε) Unit)
      fun xs w => w = entry xs :=
  fun _ _ => List.mem_singleton

end Records

end Parser
