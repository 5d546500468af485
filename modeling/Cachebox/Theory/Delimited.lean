import Mathlib.Data.List.Forall2

/-!
# Texts that end at a delimiter

The text of a number does not say where it ends: what follows it does. `Delimited D text R a` says
that the text of `a` can be told from every other text where each is followed by nothing or by a
token in `D`, up to the relation `R` on the values. A list of such texts with separators, behind
which a bracket closes, is delimited as well. An `Escaped` text between quotes needs no delimiter.
-/

namespace Delimited
variable {τ α : Type} {D : τ → Prop} {xs ys : List τ}

/-- A text ends here: nothing follows, or a delimiter. -/
def Ends (D : τ → Prop) (xs : List τ) : Prop := ∀ t ∈ xs.head?, D t

theorem ends_nil : Ends D [] := nofun

theorem ends_cons {t : τ} (h : D t) (xs : List τ) : Ends D (t :: xs) := by
  rintro _ ⟨⟩
  exact h

/-- Texts without delimiters are told apart by the first delimiter. -/
theorem Ends.append_inj {u v : List τ} (hu : ∀ t ∈ u, ¬ D t) (hv : ∀ t ∈ v, ¬ D t)
    (hxs : Ends D xs) (hys : Ends D ys) (h : u ++ xs = v ++ ys) : u = v ∧ xs = ys := by
  induction u generalizing v with
  | nil =>
    cases v with
    | nil => exact ⟨rfl, h⟩
    | cons t v =>
      rw [List.nil_append] at h
      subst h
      exact absurd (hxs t rfl) (hv t List.mem_cons_self)
  | cons t u ih =>
    cases v with
    | nil =>
      rw [List.nil_append] at h
      subst h
      exact absurd (hys t rfl) (hu t List.mem_cons_self)
    | cons t' v =>
      obtain ⟨rfl, htail⟩ := List.cons.inj h
      obtain ⟨rfl, hrest⟩ := ih (List.forall_mem_cons.mp hu).2 (List.forall_mem_cons.mp hv).2 htail
      exact ⟨rfl, hrest⟩

/-- Parts without the separator are told apart in front of any last one. -/
theorem intercalate_snoc_inj {separator : τ} {us vs : List (List τ)} {x y : List τ}
    (hus : ∀ u ∈ us, separator ∉ u) (hvs : ∀ v ∈ vs, separator ∉ v) (hlen : us.length = vs.length)
    (h : [separator].intercalate (us ++ [x]) = [separator].intercalate (vs ++ [y])) :
    us = vs ∧ x = y := by
  have hcons (u : List τ) (us : List (List τ)) (x : List τ) :
      [separator].intercalate (u :: us ++ [x]) =
        u ++ separator :: [separator].intercalate (us ++ [x]) := by
    rw [List.cons_append, List.intercalate_cons_of_ne_nil (by simp), List.append_assoc,
      List.singleton_append]
  induction us generalizing vs with
  | nil =>
    cases List.length_eq_zero_iff.mp hlen.symm
    simpa using h
  | cons u us ih =>
    cases vs with
    | nil => cases hlen
    | cons v vs =>
      rw [hcons, hcons] at h
      rw [List.forall_mem_cons] at hus hvs
      obtain ⟨rfl, hrest⟩ := Ends.append_inj (D := (· = separator))
        (fun t ht heq => hus.1 (heq ▸ ht)) (fun t ht heq => hvs.1 (heq ▸ ht))
        (ends_cons (D := (· = separator)) rfl _) (ends_cons (D := (· = separator)) rfl _) h
      obtain ⟨rfl, rfl⟩ := ih hus.2 hvs.2 (Nat.succ.inj hlen) (List.cons.inj hrest).2
      exact ⟨rfl, rfl⟩

end Delimited

open Delimited in
/-- Where it is followed by a delimiter, the text of `a` is told from those of other values. -/
def Delimited {τ α : Type} (D : τ → Prop) (text : α → List τ) (R : α → α → Prop) (a : α) : Prop :=
  ∀ ⦃b : α⦄ ⦃xs ys : List τ⦄, Ends D xs → Ends D ys → text a ++ xs = text b ++ ys →
    R a b ∧ xs = ys

namespace Delimited
variable {τ α : Type} {D : τ → Prop} {text : α → List τ} {R : α → α → Prop}
variable {separator close : τ} {as bs : List α} {xs ys : List τ}

theorem exists_of_forall₂ {β : Type} {R : α → β → Prop} {as : List α} {bs : List β}
    (h : List.Forall₂ R as bs) {a : α} (ha : a ∈ as) : ∃ b ∈ bs, R a b := by
  induction h with
  | nil => cases ha
  | cons hR _ ih =>
    obtain rfl | ha := List.mem_cons.mp ha
    · exact ⟨_, List.mem_cons_self, hR⟩
    · obtain ⟨b, hb, hR⟩ := ih ha
      exact ⟨b, List.mem_cons_of_mem _ hb, hR⟩

theorem exists_forall₂ {β : Type} {R : α → β → Prop} {as : List α} (h : ∀ a ∈ as, ∃ b, R a b) :
    ∃ bs, List.Forall₂ R as bs := by
  induction as with
  | nil => exact ⟨[], .nil⟩
  | cons a as ih =>
    obtain ⟨b, hb⟩ := h a List.mem_cons_self
    obtain ⟨bs, hbs⟩ := ih fun a ha => h a (List.mem_cons_of_mem _ ha)
    exact ⟨b :: bs, .cons hb hbs⟩

theorem eq_of_forall₂ {β : Type} {R : α → β → Prop} {as as' : List α} {bs : List β}
    (h : List.Forall₂ R as bs) (h' : List.Forall₂ R as' bs)
    (hunique : ∀ b ∈ bs, ∀ a a', R a b → R a' b → a = a') : as = as' := by
  induction h generalizing as' with
  | nil => cases h'; rfl
  | cons hR _ ih =>
    cases h' with
    | cons hR' h' =>
      rw [hunique _ List.mem_cons_self _ _ hR hR',
        ih h' fun b hb => hunique b (List.mem_cons_of_mem _ hb)]

theorem map_eq_of_forall₂ {β γ : Type} {R : α → β → Prop} {f : α → γ} {g : β → γ} {as : List α}
    {bs : List β} (h : List.Forall₂ R as bs) (hfg : ∀ a ∈ as, ∀ b ∈ bs, R a b → f a = g b) :
    as.map f = bs.map g := by
  induction h with
  | nil => rfl
  | cons hR _ ih =>
    rw [List.map_cons, List.map_cons, hfg _ List.mem_cons_self _ List.mem_cons_self hR,
      ih fun a ha b hb => hfg a (List.mem_cons_of_mem _ ha) b (List.mem_cons_of_mem _ hb)]

theorem forall₂_iff_getElem? {β : Type} {R : α → β → Prop} {as : List α} {bs : List β} :
    List.Forall₂ R as bs ↔ ∀ i : Nat, Option.Rel R as[i]? bs[i]? := by
  induction as generalizing bs with
  | nil =>
    cases bs with
    | nil => exact iff_of_true .nil fun _ => .none
    | cons b bs => exact iff_of_false nofun fun h => nomatch h 0
  | cons a as ih =>
    cases bs with
    | nil => exact iff_of_false nofun fun h => nomatch h 0
    | cons b bs =>
      rw [List.forall₂_cons, ih]
      constructor
      · rintro ⟨hR, h⟩ (_ | i)
        · exact .some hR
        · exact h i
      · intro h
        obtain ⟨hR⟩ : Option.Rel R (some a) (some b) := h 0
        exact ⟨hR, fun i => h (i + 1)⟩

theorem ends_separated (hseparator : D separator) (hclose : D close) (as : List α) (xs : List τ) :
    Ends D (as.flatMap (fun a => separator :: text a) ++ close :: xs) := by
  cases as with
  | nil => exact ends_cons hclose xs
  | cons a as => exact ends_cons hseparator _

/-- Texts behind their separators, up to the closing bracket. -/
theorem separated_inj (hseparator : D separator) (hclose : D close) (hne : separator ≠ close)
    (h : ∀ a ∈ as, Delimited D text R a)
    (heq : as.flatMap (fun a => separator :: text a) ++ close :: xs =
      bs.flatMap (fun b => separator :: text b) ++ close :: ys) :
    List.Forall₂ R as bs ∧ xs = ys := by
  induction as generalizing bs with
  | nil =>
    cases bs with
    | nil => exact ⟨.nil, (List.cons.inj heq).2⟩
    | cons b bs => exact absurd (List.cons.inj heq).1.symm hne
  | cons a as ih =>
    cases bs with
    | nil => exact absurd (List.cons.inj heq).1 hne
    | cons b bs =>
      simp only [List.flatMap_cons, List.cons_append, List.append_assoc, List.cons.injEq,
        true_and] at heq
      obtain ⟨hR, htail⟩ := h a List.mem_cons_self (ends_separated hseparator hclose as xs)
        (ends_separated hseparator hclose bs ys) heq
      obtain ⟨hall, hrest⟩ := ih (List.forall_mem_cons.mp h).2 htail
      exact ⟨.cons hR hall, hrest⟩

theorem intercalate_cons (a : α) (as : List α) :
    [separator].intercalate ((a :: as).map text) =
      text a ++ as.flatMap (fun a => separator :: text a) := by
  induction as generalizing a with
  | nil => simp
  | cons b as ih => simp [List.intercalate_cons_cons, ← ih]

/-- A list of texts with separators between them, up to the closing bracket, which is no first
token of a text. -/
theorem intercalate_inj (hseparator : D separator) (hclose : D close) (hne : separator ≠ close)
    (hfirst : ∀ a, ∃ t rest, text a = t :: rest ∧ t ≠ close)
    (h : ∀ a ∈ as, Delimited D text R a)
    (heq : [separator].intercalate (as.map text) ++ close :: xs =
      [separator].intercalate (bs.map text) ++ close :: ys) :
    List.Forall₂ R as bs ∧ xs = ys := by
  cases as with
  | nil =>
    cases bs with
    | nil => exact ⟨.nil, (List.cons.inj heq).2⟩
    | cons b bs =>
      obtain ⟨t, rest, htext, ht⟩ := hfirst b
      rw [intercalate_cons, htext] at heq
      exact absurd (List.cons.inj heq).1.symm ht
  | cons a as =>
    cases bs with
    | nil =>
      obtain ⟨t, rest, htext, ht⟩ := hfirst a
      rw [intercalate_cons, htext] at heq
      exact absurd (List.cons.inj heq).1 ht
    | cons b bs =>
      rw [intercalate_cons, intercalate_cons, List.append_assoc, List.append_assoc] at heq
      obtain ⟨hR, htail⟩ := h a List.mem_cons_self (ends_separated hseparator hclose as xs)
        (ends_separated hseparator hclose bs ys) heq
      obtain ⟨hall, hrest⟩ :=
        separated_inj hseparator hclose hne (List.forall_mem_cons.mp h).2 htail
      exact ⟨.cons hR hall, hrest⟩

end Delimited

/-- Every quote and every escape in the text stands behind an escape of its own. -/
inductive Escaped {τ : Type} (quote escape : τ) : List τ → Prop where
  | nil : Escaped quote escape []
  | plain {t : τ} {rest : List τ} (hquote : t ≠ quote) (hescape : t ≠ escape)
    (h : Escaped quote escape rest) : Escaped quote escape (t :: rest)
  | escaped (t : τ) {rest : List τ} (h : Escaped quote escape rest) :
    Escaped quote escape (escape :: t :: rest)

/-- An escaped text ends at the first quote that is not escaped. -/
theorem Escaped.append_inj {τ : Type} {quote escape : τ} (hne : quote ≠ escape) {u v xs ys : List τ}
    (hu : Escaped quote escape u) (hv : Escaped quote escape v)
    (h : u ++ quote :: xs = v ++ quote :: ys) : u = v ∧ xs = ys := by
  induction hu generalizing v with
  | nil =>
    cases hv with
    | nil => exact ⟨rfl, (List.cons.inj h).2⟩
    | plain hquote _ _ => exact absurd (List.cons.inj h).1.symm hquote
    | escaped t _ => exact absurd (List.cons.inj h).1 hne
  | plain hquote hescape _ ih =>
    cases hv with
    | nil => exact absurd (List.cons.inj h).1 hquote
    | plain _ _ hv =>
      obtain ⟨rfl, htail⟩ := List.cons.inj h
      obtain ⟨rfl, hrest⟩ := ih hv htail
      exact ⟨rfl, hrest⟩
    | escaped t _ => exact absurd (List.cons.inj h).1 hescape
  | escaped t _ ih =>
    cases hv with
    | nil => exact absurd (List.cons.inj h).1.symm hne
    | plain _ hescape _ => exact absurd (List.cons.inj h).1.symm hescape
    | escaped t' hv =>
      obtain ⟨rfl, htail⟩ := List.cons.inj (List.cons.inj h).2
      obtain ⟨rfl, hrest⟩ := ih hv htail
      exact ⟨rfl, hrest⟩
