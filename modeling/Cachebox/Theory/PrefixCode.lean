import Cachebox.Theory.Bytes

/-!
# Prefix codes

`PrefixCode P enc` says that the encodings of values in `P` can be told apart whatever follows
them: at the front of a list there is at most one of them. Codes of one length are prefix codes if
they are injective; a pair of code words, a counted sequence of them and bytes behind their length
are.
-/

/-- At the front of a list there is the encoding of at most one value in `P`. -/
def PrefixCode {α τ : Type} (P : α → Prop) (enc : α → List τ) : Prop :=
  ∀ ⦃a b : α⦄ ⦃xs ys : List τ⦄, P a → P b → enc a ++ xs = enc b ++ ys → a = b ∧ xs = ys

namespace PrefixCode
open BigEndian
variable {α β τ : Type} {P : α → Prop} {enc : α → List τ}

theorem of_length {width : Nat} (hlen : ∀ a, (enc a).length = width)
    (hinj : ∀ a b, P a → P b → enc a = enc b → a = b) : PrefixCode P enc := by
  intro a b xs ys ha hb h
  obtain ⟨henc, hrest⟩ := List.append_inj h ((hlen a).trans (hlen b).symm)
  exact ⟨hinj a b ha hb henc, hrest⟩

/-- The values can be renamed. -/
theorem comp {Q : β → Prop} (h : PrefixCode P enc) {g : β → α} (hg : Function.Injective g)
    (hQ : ∀ b, Q b → P (g b)) : PrefixCode Q (enc ∘ g) := by
  intro a b xs ys ha hb hab
  obtain ⟨heq, hrest⟩ := h (hQ a ha) (hQ b hb) hab
  exact ⟨hg heq, hrest⟩

theorem inj (h : PrefixCode P enc) {a b : α} (ha : P a) (hb : P b) (heq : enc a = enc b) : a = b :=
  (h ha hb (congrArg (· ++ []) heq)).1

/-- One code word behind another. -/
theorem prod {Q : β → Prop} {enc' : β → List τ} (h : PrefixCode P enc) (h' : PrefixCode Q enc') :
    PrefixCode (fun p : α × β => P p.1 ∧ Q p.2) (fun p => enc p.1 ++ enc' p.2) := by
  rintro ⟨a, b⟩ ⟨c, d⟩ xs ys ⟨ha, hb⟩ ⟨hc, hd⟩ heq
  simp only [List.append_assoc] at heq
  obtain ⟨rfl, htail⟩ := h ha hc heq
  obtain ⟨rfl, hrest⟩ := h' hb hd htail
  exact ⟨rfl, hrest⟩

theorem word {ω : Type} {width : Nat} (W : Word ω width) :
    PrefixCode (fun _ => True) (fun v => toBytes width (W.toNat v)) := by
  refine of_length (fun _ => length_toBytes ..) fun v w _ _ h => ?_
  rw [← W.ofBytes_toBytes v, h, W.ofBytes_toBytes]

/-- As many code words on both sides are the same ones. -/
theorem flatMap (h : PrefixCode P enc) {as bs : List α} {xs ys : List τ}
    (hlen : as.length = bs.length) (has : ∀ a ∈ as, P a) (hbs : ∀ b ∈ bs, P b)
    (heq : as.flatMap enc ++ xs = bs.flatMap enc ++ ys) : as = bs ∧ xs = ys := by
  induction as generalizing bs with
  | nil =>
    obtain rfl := List.length_eq_zero_iff.mp hlen.symm
    exact ⟨rfl, heq⟩
  | cons a as ih =>
    obtain ⟨b, bs, rfl⟩ := List.exists_cons_of_length_eq_add_one hlen.symm
    rw [List.forall_mem_cons] at has hbs
    rw [List.flatMap_cons, List.flatMap_cons, List.append_assoc, List.append_assoc] at heq
    obtain ⟨rfl, htail⟩ := h has.1 hbs.1 heq
    obtain ⟨rfl, hrest⟩ := ih (Nat.succ.inj hlen) has.2 hbs.2 htail
    exact ⟨rfl, hrest⟩

/-- Code words behind their number. -/
theorem counted {ω : Type} {width : Nat} (W : Word ω width) {enc : α → List UInt8}
    (h : PrefixCode P enc) :
    PrefixCode (fun as : List α => as.length < 256 ^ width ∧ ∀ a ∈ as, P a)
      (fun as => toBytes width (W.toNat (W.ofNat as.length)) ++ as.flatMap enc) := by
  rintro as bs xs ys ⟨hlenAs, has⟩ ⟨hlenBs, hbs⟩ heq
  simp only [List.append_assoc] at heq
  obtain ⟨hcount, htail⟩ := word W trivial trivial heq
  have hlen := congrArg W.toNat hcount
  rw [W.toNat_ofNat _ hlenAs, W.toNat_ofNat _ hlenBs] at hlen
  exact h.flatMap hlen has hbs htail

/-- Bytes behind their number. -/
theorem lengthPrefixed {ω : Type} {width : Nat} (W : Word ω width) :
    PrefixCode (fun value : List UInt8 => value.length < 256 ^ width)
      (fun value => toBytes width (W.toNat (W.ofNat value.length)) ++ value) := by
  have hbyte : PrefixCode (fun _ : UInt8 => True) (fun byte => [byte]) :=
    of_length (fun _ => rfl) fun _ _ _ _ h => List.singleton_inj.mp h
  intro a b xs ys ha hb h
  refine counted W hbyte ⟨ha, fun _ _ => trivial⟩ ⟨hb, fun _ _ => trivial⟩ ?_
  simp only [List.flatMap_singleton']
  exact h

end PrefixCode
