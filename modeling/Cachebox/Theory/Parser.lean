import Mathlib.Data.List.Basic

/-!
# Parsers and the grammars they decide

A parser runs on a state of type `σ` of which `rest s : List τ` is the input not yet consumed, and
either fails or gives a value and the next state. `Parses rest p G` says that `p` decides the
grammar `G : α → List τ → Prop`: what `p` returns derives the tokens it consumed (`sound`), and a
derivation of a leading part of the input is found and consumes exactly that part (`complete`).
There is one rule for each way to build a parser. `Parser.FailsWith Q` says which errors a
computation can end with. `Parser.Simulates` relates two parsers of one language that have different
states, values and errors.
-/

namespace Parser

/-- Fails with `e` unless `c` holds. -/
def ensure {m : Type → Type} {ε : Type} [Monad m] [MonadExcept ε m] (c : Bool) (e : ε) :
    m Unit :=
  if c then pure () else throw e

/-- Runs `p` the given number of times and collects the results. -/
def times {m : Type → Type} {α : Type} [Monad m] (p : m α) : Nat → m (List α)
  | 0 => pure []
  | n + 1 => do
    let a ← p
    let as ← times p n
    return a :: as

theorem ensure_eq_ok_iff {ε : Type} {c : Bool} {e : ε} {u : Unit} :
    (ensure c e : Except ε Unit) = .ok u ↔ c = true := by
  cases c with
  | true => simp [ensure, pure, Except.pure]
  | false => simp [ensure, throw, throwThe, MonadExceptOf.throw]

theorem pure_eq_ok_iff {ε α : Type} {a b : α} : (pure a : Except ε α) = .ok b ↔ b = a :=
  ⟨fun h => (Except.ok.inj h).symm, fun h => h ▸ rfl⟩

theorem bind_eq_ok_iff {ε α β : Type} {x : Except ε α} {f : α → Except ε β} {b : β} :
    x >>= f = .ok b ↔ ∃ a, x = .ok a ∧ f a = .ok b := by
  cases x with
  | error e => simp [bind, Except.bind]
  | ok a => simp [bind, Except.bind]

theorem bind_eq_error_iff {ε α β : Type} {x : Except ε α} {f : α → Except ε β} {e : ε} :
    x >>= f = .error e ↔ x = .error e ∨ ∃ a, x = .ok a ∧ f a = .error e := by
  cases x with
  | error e => simp [bind, Except.bind]
  | ok a => simp [bind, Except.bind]

/-- The computation fails only with errors in `Q`. -/
def FailsWith {ε α : Type} (Q : ε → Prop) (x : Except ε α) : Prop := ∀ e, x = .error e → Q e

section
variable {σ ε α β : Type} {Q : ε → Prop}

theorem FailsWith.ok (a : α) : FailsWith Q (.ok a) := nofun

theorem FailsWith.error {e : ε} (h : Q e) : FailsWith Q (.error e : Except ε α) := by
  intro e' he
  cases he
  exact h

theorem FailsWith.ensure_of_false {c : Bool} {e : ε} (h : c = false → Q e) :
    FailsWith Q (Parser.ensure c e : Except ε Unit) := by
  cases c with
  | true => exact .ok ()
  | false => exact .error (h rfl)

theorem FailsWith.ensure (c : Bool) {e : ε} (h : Q e) :
    FailsWith Q (Parser.ensure c e : Except ε Unit) :=
  .ensure_of_false fun _ => h

theorem FailsWith.bind {x : Except ε α} {f : α → Except ε β} (hx : FailsWith Q x)
    (hf : ∀ a, FailsWith Q (f a)) : FailsWith Q (x >>= f) := by
  intro e he
  obtain h | ⟨a, -, h⟩ := bind_eq_error_iff.mp he
  · exact hx e h
  · exact hf a e h

/-- Whatever state the parser starts in, it fails only with errors in `Q`. -/
def ThrowsOnly (Q : ε → Prop) (p : StateT σ (Except ε) α) : Prop := ∀ s, FailsWith Q (p s)

protected theorem ThrowsOnly.pure (a : α) : ThrowsOnly Q (pure a : StateT σ (Except ε) α) :=
  fun s => .ok (a, s)

protected theorem ThrowsOnly.throw {e : ε} (h : Q e) :
    ThrowsOnly Q (throw e : StateT σ (Except ε) α) :=
  fun _ => .error h

protected theorem ThrowsOnly.ensure (c : Bool) {e : ε} (h : Q e) :
    ThrowsOnly Q (ensure c e : StateT σ (Except ε) Unit) := by
  cases c with
  | true => exact .pure ()
  | false => exact .throw h

protected theorem ThrowsOnly.bind {p : StateT σ (Except ε) α} {f : α → StateT σ (Except ε) β}
    (hp : ThrowsOnly Q p) (hf : ∀ a, ThrowsOnly Q (f a)) : ThrowsOnly Q (p >>= f) :=
  fun s => (hp s).bind fun r => hf r.1 r.2

protected theorem ThrowsOnly.times {p : StateT σ (Except ε) α} (hp : ThrowsOnly Q p) (n : Nat) :
    ThrowsOnly Q (times p n) := by
  induction n with
  | zero => exact .pure []
  | succ n ih => exact hp.bind fun a => ih.bind fun as => .pure (a :: as)

end

end Parser

/-- The parser `p` decides the grammar `G`. -/
structure Parses {σ ε α τ : Type} (rest : σ → List τ) (p : StateT σ (Except ε) α)
    (G : α → List τ → Prop) : Prop where
  sound {s a s'} (h : p s = .ok (a, s')) : ∃ xs, rest s = xs ++ rest s' ∧ G a xs
  complete {s a xs ys} (hs : rest s = xs ++ ys) (h : G a xs) :
    ∃ s', p s = .ok (a, s') ∧ rest s' = ys

namespace Parses
open Parser
variable {σ ε α β τ : Type} {rest : σ → List τ} {p : StateT σ (Except ε) α}
variable {G H : α → List τ → Prop}

theorem bind_eq_ok {f : α → StateT σ (Except ε) β} {s s' : σ} {b : β} :
    (p >>= f) s = .ok (b, s') ↔ ∃ a t, p s = .ok (a, t) ∧ f a t = .ok (b, s') := by
  change p s >>= (fun r => f r.1 r.2) = _ ↔ _
  rw [bind_eq_ok_iff, Prod.exists]

theorem bind_eq_error {f : α → StateT σ (Except ε) β} {s : σ} {e : ε} :
    (p >>= f) s = .error e ↔ p s = .error e ∨ ∃ a t, p s = .ok (a, t) ∧ f a t = .error e := by
  change p s >>= (fun r => f r.1 r.2) = _ ↔ _
  rw [bind_eq_error_iff, Prod.exists]

protected theorem pure (a : α) :
    Parses rest (pure a : StateT σ (Except ε) α) (fun b xs => b = a ∧ xs = []) where
  sound h := by
    cases h
    exact ⟨[], rfl, rfl, rfl⟩
  complete hs h := by
    obtain ⟨rfl, rfl⟩ := h
    exact ⟨_, rfl, hs⟩

protected theorem throw (e : ε) :
    Parses rest (throw e : StateT σ (Except ε) α) (fun _ _ => False) where
  sound h := nomatch h
  complete _ h := h.elim

protected theorem bind {f : α → StateT σ (Except ε) β} {K : α → β → List τ → Prop}
    (hp : Parses rest p G) (hf : ∀ a, Parses rest (f a) (K a)) :
    Parses rest (p >>= f) (fun b xs => ∃ a ys zs, G a ys ∧ K a b zs ∧ xs = ys ++ zs) where
  sound h := by
    obtain ⟨a, t, hpa, hfa⟩ := bind_eq_ok.mp h
    obtain ⟨ys, hys, hG⟩ := hp.sound hpa
    obtain ⟨zs, hzs, hK⟩ := (hf a).sound hfa
    refine ⟨ys ++ zs, ?_, a, ys, zs, hG, hK, rfl⟩
    rw [hys, hzs, List.append_assoc]
  complete hs h := by
    obtain ⟨a, ys, zs, hG, hK, rfl⟩ := h
    rw [List.append_assoc] at hs
    obtain ⟨t, hpa, ht⟩ := hp.complete hs hG
    obtain ⟨s', hfa, hs'⟩ := (hf a).complete ht hK
    exact ⟨s', bind_eq_ok.mpr ⟨a, t, hpa, hfa⟩, hs'⟩

/-- Grammars that agree on every possible input are decided by the same parsers; `N` bounds the
input. -/
theorem congr_of_length {N : Nat} (hN : ∀ s, (rest s).length < N) (hp : Parses rest p G)
    (h : ∀ a xs, xs.length < N → (G a xs ↔ H a xs)) : Parses rest p H where
  sound {s a s'} hok := by
    obtain ⟨xs, hxs, hG⟩ := hp.sound hok
    have hlen := hN s
    rw [hxs, List.length_append] at hlen
    exact ⟨xs, hxs, (h a xs (by omega)).mp hG⟩
  complete {s a xs ys} hs hH := by
    have hlen := hN s
    rw [hs, List.length_append] at hlen
    exact hp.complete hs ((h a xs (by omega)).mpr hH)

protected theorem congr (hp : Parses rest p G) (h : ∀ a xs, G a xs ↔ H a xs) :
    Parses rest p H where
  sound hok := by
    obtain ⟨xs, hxs, hG⟩ := hp.sound hok
    exact ⟨xs, hxs, (h _ _).mp hG⟩
  complete hs hH := hp.complete hs ((h _ _).mpr hH)

protected theorem ensure (c : Bool) (e : ε) :
    Parses rest (ensure c e : StateT σ (Except ε) Unit) (fun _ xs => c ∧ xs = []) := by
  cases c with
  | true => exact (Parses.pure ()).congr fun _ _ => by simp
  | false => exact (Parses.throw e).congr fun _ _ => by simp

/-- When every value has one encoding, repeating the parser reads the concatenated encodings. -/
protected theorem times {P : α → Prop} {enc : α → List τ}
    (hp : Parses rest p (fun a xs => P a ∧ xs = enc a)) (n : Nat) :
    Parses rest (times p n)
      (fun as xs => as.length = n ∧ (∀ a ∈ as, P a) ∧ xs = as.flatMap enc) := by
  induction n with
  | zero =>
    refine (Parses.pure []).congr fun as xs => ?_
    constructor
    · rintro ⟨rfl, rfl⟩
      exact ⟨rfl, nofun, rfl⟩
    · intro h
      obtain ⟨hlen, -, rfl⟩ := h
      obtain rfl := List.length_eq_zero_iff.mp hlen
      exact ⟨rfl, rfl⟩
  | succ n ih =>
    refine (hp.bind fun a => ih.bind fun as => Parses.pure (a :: as)).congr fun as xs => ?_
    constructor
    · intro h
      obtain ⟨a, -, -, ⟨hP, rfl⟩, ⟨as, -, -, ⟨hlen, hall, rfl⟩, ⟨rfl, rfl⟩, rfl⟩, rfl⟩ := h
      refine ⟨congrArg Nat.succ hlen, List.forall_mem_cons.mpr ⟨hP, hall⟩, ?_⟩
      rw [List.flatMap_cons, List.append_nil]
    · intro h
      obtain ⟨hlen, hall, rfl⟩ := h
      obtain ⟨a, as, rfl⟩ := List.exists_cons_of_length_eq_add_one hlen
      obtain ⟨hP, hall⟩ := List.forall_mem_cons.mp hall
      refine ⟨a, _, _, ⟨hP, rfl⟩, ⟨as, _, _, ⟨Nat.succ.inj hlen, hall, rfl⟩, ⟨rfl, rfl⟩, rfl⟩, ?_⟩
      rw [List.flatMap_cons, List.append_nil]

protected theorem times_total {enc : α → List τ} (hp : Parses rest p (fun a xs => xs = enc a))
    (n : Nat) :
    Parses rest (times p n) (fun as xs => as.length = n ∧ xs = as.flatMap enc) := by
  have hp' : Parses rest p (fun a xs => True ∧ xs = enc a) := hp.congr fun a xs => by simp
  exact (hp'.times n).congr fun as xs => by simp

end Parses

/-! ## Parsers that run alike -/

namespace Parser

/-- Both computations succeed, with related values, or both fail, with related errors. -/
inductive Agree {ε ε' α α' : Type} (E : ε → ε' → Prop) (V : α → α' → Prop) :
    Except ε α → Except ε' α' → Prop
  | ok {a : α} {a' : α'} : V a a' → Agree E V (.ok a) (.ok a')
  | error {e : ε} {e' : ε'} : E e e' → Agree E V (.error e) (.error e')

section
variable {σ σ' ε ε' α α' β β' : Type} {E : ε → ε' → Prop} {R : σ → σ' → Prop}
variable {V : α → α' → Prop} {W : β → β' → Prop}

theorem Agree.bind {x : Except ε α} {y : Except ε' α'} {f : α → Except ε β} {g : α' → Except ε' β'}
    (h : Agree E V x y) (hf : ∀ a a', V a a' → Agree E W (f a) (g a')) :
    Agree E W (x >>= f) (y >>= g) := by
  cases h with
  | ok hv => exact hf _ _ hv
  | error he => exact .error he

/-- Both make the same check and go on alike. -/
theorem Agree.check {x : Except ε α} {y : Except ε' α'} {c c' : Bool} {e : ε} {e' : ε'}
    (hc : c' = c) (he : E e e') (h : Agree E V x y) :
    Agree E V (do Parser.ensure c e; x) (do Parser.ensure c' e'; y) := by
  subst hc
  cases c' with
  | true => exact h
  | false => exact .error he

/-- What is known of the first value can be used in relating what follows. -/
theorem Agree.and_of_ok {x : Except ε α} {y : Except ε' α'} {P : α → Prop} (h : Agree E V x y)
    (hP : ∀ a, x = .ok a → P a) : Agree E (fun a a' => V a a' ∧ P a) x y := by
  cases h with
  | ok hv => exact .ok ⟨hv, hP _ rfl⟩
  | error he => exact .error he

theorem Agree.toOption_eq {f : α → α'} {x : Except ε α} {y : Except ε' α'}
    (h : Agree E (fun a a' => a' = f a) x y) : y.toOption = x.toOption.map f := by
  cases h with
  | ok h => exact congrArg some h
  | error => rfl

/-- From related states both parsers fail, with related errors, or the second gives the value `f a`
where the first gives `a`, and they leave related states. -/
def Simulates (R : σ → σ' → Prop) (E : ε → ε' → Prop) (f : α → α')
    (p : StateT σ (Except ε) α) (q : StateT σ' (Except ε') α') : Prop :=
  ∀ s s', R s s' → Agree E (fun r r' => r'.1 = f r.1 ∧ R r.2 r'.2) (p s) (q s')

variable {f : α → α'} {g : β → β'}

protected theorem Simulates.pure {a : α} {a' : α'} (h : a' = f a) :
    Simulates R E f (pure a) (pure a') :=
  fun _ _ hs => .ok ⟨h, hs⟩

protected theorem Simulates.throw {e : ε} {e' : ε'} (h : E e e') :
    Simulates R E f (throw e) (throw e') :=
  fun _ _ _ => .error h

protected theorem Simulates.bind {p : StateT σ (Except ε) α} {q : StateT σ' (Except ε') α'}
    {k : α → StateT σ (Except ε) β} {k' : α' → StateT σ' (Except ε') β'}
    (hp : Simulates R E f p q) (hk : ∀ a, Simulates R E g (k a) (k' (f a))) :
    Simulates R E g (p >>= k) (q >>= k') := by
  intro s s' hs
  refine (hp s s' hs).bind fun ⟨a, t⟩ ⟨a', t'⟩ hr => ?_
  obtain ⟨rfl, ht⟩ := hr
  exact hk a t t' ht

protected theorem Simulates.check {p : StateT σ (Except ε) α} {q : StateT σ' (Except ε') α'}
    {c c' : Bool} {e : ε} {e' : ε'} (hc : c' = c) (he : E e e') (h : Simulates R E f p q) :
    Simulates R E f (do Parser.ensure c e; p) (do Parser.ensure c' e'; q) := by
  subst hc
  cases c' with
  | true => exact h
  | false => exact fun _ _ _ => .error he

protected theorem Simulates.times {p : StateT σ (Except ε) α} {q : StateT σ' (Except ε') α'}
    (hp : Simulates R E f p q) (n : Nat) : Simulates R E (List.map f) (times p n) (times q n) := by
  induction n with
  | zero => exact .pure rfl
  | succ n ih => exact hp.bind fun a => ih.bind fun as => .pure rfl

end

end Parser
