import Cachebox.Python.Keys
import Cachebox.Theory.Parser

/-!
# Normal forms of arguments

Bytes and tuples are tagged in the normal form of a value, but a dict is a bare list of pairs,
sorted by name. So values of one normal form have the same type and structure, up to the order of
their dicts, except that a dict has the normal form of the list of its sorted pairs.
-/

namespace Cachebox
namespace Keys
open Parser

variable {φ : Type}

/-- Induction over values of any depth. -/
@[elab_as_elim, induction_eliminator]
theorem Arg.induction {P : Arg φ → Prop} (none : P none) (bool : ∀ b, P (bool b))
    (int : ∀ n, P (int n)) (float : ∀ x, P (float x)) (str : ∀ s, P (str s))
    (bytesLike : ∀ kind b, P (bytesLike kind b))
    (tuple : ∀ items, (∀ item ∈ items, P item) → P (tuple items))
    (list : ∀ items, (∀ item ∈ items, P item) → P (list items))
    (mapping : ∀ items, (∀ item ∈ items, P item.2) → P (mapping items))
    (other : ∀ repr, P (other repr)) (v : Arg φ) : P v :=
  @Arg.rec φ P (fun items => ∀ item ∈ items, P item) (fun items => ∀ item ∈ items, P item.2)
    (fun item => P item.2) none bool int float str bytesLike tuple list mapping other
    (List.forall_mem_nil _) (fun _ _ hhead htail => List.forall_mem_cons.mpr ⟨hhead, htail⟩)
    (List.forall_mem_nil _) (fun _ _ hhead htail => List.forall_mem_cons.mpr ⟨hhead, htail⟩)
    (fun _ _ _ h => h) v

/-! ## Normal forms -/

def Arg.NormalForm (v : Arg φ) (n : Normalized φ) : Prop := normalizeForKey v = .ok n

/-- The normal form of an item of a mapping. -/
def NormalPair (item : Arg φ × Arg φ) (pair : Str × Normalized φ) : Prop :=
  item.1 = .str pair.1 ∧ item.2.NormalForm pair.2

variable {v w : Arg φ} {n m : Normalized φ} {items : List (Arg φ)} {ns : List (Normalized φ)}
  {entries : List (Arg φ × Arg φ)} {pairs : List (Str × Normalized φ)}

theorem Arg.NormalForm.unique (h : v.NormalForm n) (h' : v.NormalForm m) : n = m :=
  Except.ok.inj (h.symm.trans h')

theorem NormalPair.unique {item : Arg φ × Arg φ} {pair pair' : Str × Normalized φ}
    (h : NormalPair item pair) (h' : NormalPair item pair') : pair = pair' :=
  Prod.ext (Arg.str.inj (h.1.symm.trans h'.1)) (h.2.unique h'.2)

theorem normalizeItems_eq_ok_iff :
    normalizeItems items = .ok ns ↔ List.Forall₂ Arg.NormalForm items ns := by
  induction items generalizing ns with
  | nil => simp [normalizeItems, eq_comm]
  | cons item items ih =>
    simp only [normalizeItems, bind_eq_ok_iff, pure_eq_ok_iff, ih, List.forall₂_cons_left_iff,
      Arg.NormalForm, exists_and_left]

theorem normalizePairs_eq_ok_iff :
    normalizePairs entries = .ok pairs ↔ List.Forall₂ NormalPair entries pairs := by
  induction entries generalizing pairs with
  | nil => simp [normalizePairs, eq_comm]
  | cons entry entries ih =>
    obtain ⟨key, item⟩ := entry
    cases key with
    | str key =>
      simp only [normalizePairs, bind_eq_ok_iff, pure_eq_ok_iff, ih, List.forall₂_cons_left_iff,
        NormalPair, Arg.NormalForm]
      constructor
      · rintro ⟨n, hn, pairs, hpairs, rfl⟩
        exact ⟨(key, n), pairs, ⟨rfl, hn⟩, hpairs, rfl⟩
      · rintro ⟨⟨_, n⟩, pairs, ⟨⟨⟩, hn⟩, hpairs, rfl⟩
        exact ⟨n, hn, pairs, hpairs, rfl⟩
    | _ => exact iff_of_false nofun fun h => by cases h with | cons h _ => cases h.1

@[simp] theorem normalForm_none : Arg.none.NormalForm n ↔ n = .none := pure_eq_ok_iff

@[simp] theorem normalForm_bool {b : Bool} : (Arg.bool b).NormalForm n ↔ n = .bool b :=
  pure_eq_ok_iff

@[simp] theorem normalForm_int {i : Int} : (Arg.int i).NormalForm n ↔ n = .int i := pure_eq_ok_iff

@[simp] theorem normalForm_float {x : φ} : (Arg.float x).NormalForm n ↔ n = .float x :=
  pure_eq_ok_iff

@[simp] theorem normalForm_str {s : Str} : (Arg.str s).NormalForm n ↔ n = .str s := pure_eq_ok_iff

@[simp] theorem normalForm_bytesLike {kind : BytesKind} {b : Bytes} :
    (Arg.bytesLike kind b).NormalForm n ↔
      n = tagged "bytes" "base64" (.str (.ofChars (Base64.encode b))) :=
  pure_eq_ok_iff

@[simp] theorem normalForm_tuple :
    (Arg.tuple items).NormalForm n ↔
      ∃ ns, List.Forall₂ Arg.NormalForm items ns ∧ n = tagged "tuple" "items" (.list ns) :=
  bind_eq_ok_iff.trans (exists_congr fun _ => and_congr normalizeItems_eq_ok_iff pure_eq_ok_iff)

@[simp] theorem normalForm_list :
    (Arg.list items).NormalForm n ↔
      ∃ ns, List.Forall₂ Arg.NormalForm items ns ∧ n = .list ns :=
  bind_eq_ok_iff.trans (exists_congr fun _ => and_congr normalizeItems_eq_ok_iff pure_eq_ok_iff)

@[simp] theorem normalForm_mapping :
    (Arg.mapping entries).NormalForm n ↔
      ∃ pairs, List.Forall₂ NormalPair entries pairs ∧
        n = .list ((sortPairs pairs).map pairList) :=
  bind_eq_ok_iff.trans (exists_congr fun _ => and_congr normalizePairs_eq_ok_iff pure_eq_ok_iff)

@[simp] theorem not_normalForm_other {repr : Str} : ¬ (Arg.other repr).NormalForm n := nofun

/-! ## What has a given normal form -/

theorem normalForm_none_iff : w.NormalForm .none ↔ w = .none := by
  cases w <;> simp [tagged]

theorem normalForm_bool_iff {b : Bool} : w.NormalForm (.bool b) ↔ w = .bool b := by
  cases w <;> simp [tagged, eq_comm]

theorem normalForm_int_iff {i : Int} : w.NormalForm (.int i) ↔ w = .int i := by
  cases w <;> simp [tagged, eq_comm]

theorem normalForm_str_iff {s : Str} : w.NormalForm (.str s) ↔ w = .str s := by
  cases w <;> simp [tagged, eq_comm]

theorem tagged_inj {type type' field field' : String} {n m : Normalized φ} :
    tagged type field n = tagged type' field' m ↔ type = type' ∧ field = field' ∧ n = m := by
  simp [tagged, Str.ofString_injective.eq_iff]

theorem normalForm_bytes_iff {b : Bytes} :
    w.NormalForm (tagged "bytes" "base64" (.str (.ofChars (Base64.encode b)))) ↔
      ∃ kind, w = .bytesLike kind b := by
  have hchars : Function.Injective (Str.ofChars ∘ Base64.encode) :=
    (List.map_injective_iff.mpr Str.ofChar_injective).comp Base64.encode_injective
  cases w with
  | bytesLike kind b' =>
    rw [normalForm_bytesLike, tagged_inj]
    simpa using (hchars.eq_iff (a := b) (b := b')).trans eq_comm
  | _ => simp [tagged]

theorem normalForm_tuple_iff :
    w.NormalForm (tagged "tuple" "items" (.list ns)) ↔
      ∃ items, w = .tuple items ∧ List.Forall₂ Arg.NormalForm items ns := by
  cases w with
  | tuple items => simp [tagged_inj]
  | _ => simp [tagged]

theorem normalForm_list_iff :
    w.NormalForm (.list ns) ↔
      (∃ items, w = .list items ∧ List.Forall₂ Arg.NormalForm items ns) ∨
      ∃ entries pairs, w = .mapping entries ∧ List.Forall₂ NormalPair entries pairs ∧
        ns = (sortPairs pairs).map pairList := by
  cases w with
  | list items => simp
  | mapping entries => simp
  | _ => simp [tagged]

/-! ## Values of the same structure -/

namespace Arg

mutual

/-- The values have the same type and structure, with mappings compared regardless of the order of
their items. -/
def Same : Arg φ → Arg φ → Prop
  | none, none => True
  | bool a, bool b => a = b
  | int a, int b => a = b
  | str a, str b => a = b
  | bytesLike kind a, bytesLike kind' b => kind = kind' ∧ a = b
  | tuple as, tuple bs => SameItems as bs
  | list as, list bs => SameItems as bs
  | mapping as, mapping bs => as.length = bs.length ∧ SameEntries as bs
  | _, _ => False

def SameItems : List (Arg φ) → List (Arg φ) → Prop
  | [], [] => True
  | a :: as, b :: bs => Same a b ∧ SameItems as bs
  | _, _ => False

def SameEntries : List (Arg φ × Arg φ) → List (Arg φ × Arg φ) → Prop
  | [], _ => True
  | (key, a) :: as, bs => (∃ b, (key, b) ∈ bs ∧ Same a b) ∧ SameEntries as bs

end

mutual

/-- Nowhere does one of the values have a mapping where the other has a list. -/
def DictsAgree : Arg φ → Arg φ → Prop
  | tuple as, tuple bs => DictsAgreeItems as bs
  | list as, list bs => DictsAgreeItems as bs
  | mapping as, mapping bs => DictsAgreeEntries as bs
  | list _, mapping _ => False
  | mapping _, list _ => False
  | _, _ => True

def DictsAgreeItems : List (Arg φ) → List (Arg φ) → Prop
  | a :: as, b :: bs => DictsAgree a b ∧ DictsAgreeItems as bs
  | _, _ => True

def DictsAgreeEntries : List (Arg φ × Arg φ) → List (Arg φ × Arg φ) → Prop
  | [], _ => True
  | (key, a) :: as, bs => (∀ b, (key, b) ∈ bs → DictsAgree a b) ∧ DictsAgreeEntries as bs

end

mutual

/-- The value and all that is in it, the keys of mappings too, are in `p`. -/
def All (p : Arg φ → Prop) : Arg φ → Prop
  | tuple items => p (tuple items) ∧ AllItems p items
  | list items => p (list items) ∧ AllItems p items
  | mapping items => p (mapping items) ∧ AllEntries p items
  | v => p v

def AllItems (p : Arg φ → Prop) : List (Arg φ) → Prop
  | [] => True
  | item :: items => All p item ∧ AllItems p items

def AllEntries (p : Arg φ → Prop) : List (Arg φ × Arg φ) → Prop
  | [] => True
  | (key, item) :: items => All p key ∧ All p item ∧ AllEntries p items

end

/-- What the values are built from, in which keys can be compared: no floats, bytes of the one type
and dicts with strings as keys, of which no two are equal. -/
def IsBasic : Arg φ → Prop
  | float _ => False
  | other _ => False
  | bytesLike kind _ => kind = .bytes
  | mapping items => (items.map Prod.fst).Nodup ∧ ∀ item ∈ items, ∃ key, item.1 = str key
  | _ => True

def Basic (v : Arg φ) : Prop := v.All IsBasic

/-- Every string in the value can be encoded. -/
def Encodable (v : Arg φ) : Prop :=
  v.All fun
    | str s => s.text?.isSome
    | _ => True

variable {as bs : List (Arg φ)} {es fs : List (Arg φ × Arg φ)} {p : Arg φ → Prop}

theorem sameItems_iff : SameItems as bs ↔ List.Forall₂ Same as bs := by
  induction as generalizing bs with
  | nil =>
    cases bs with
    | nil => exact iff_of_true trivial .nil
    | cons => exact iff_of_false id nofun
  | cons a as ih =>
    cases bs with
    | nil => exact iff_of_false id nofun
    | cons b bs =>
      rw [List.forall₂_cons, ← ih]
      rfl

theorem sameEntries_iff :
    SameEntries es fs ↔ ∀ e ∈ es, ∃ b, (e.1, b) ∈ fs ∧ Same e.2 b := by
  induction es with
  | nil => exact iff_of_true trivial (List.forall_mem_nil _)
  | cons e es ih =>
    rw [List.forall_mem_cons, ← ih]
    rfl

theorem dictsAgreeEntries_iff :
    DictsAgreeEntries es fs ↔ ∀ e ∈ es, ∀ b, (e.1, b) ∈ fs → DictsAgree e.2 b := by
  induction es with
  | nil => exact iff_of_true trivial (List.forall_mem_nil _)
  | cons e es ih =>
    rw [List.forall_mem_cons, ← ih]
    rfl

theorem allItems_iff : AllItems p as ↔ ∀ a ∈ as, All p a := by
  induction as with
  | nil => exact iff_of_true trivial (List.forall_mem_nil _)
  | cons a as ih =>
    rw [List.forall_mem_cons, ← ih]
    rfl

theorem allEntries_iff : AllEntries p es ↔ ∀ e ∈ es, All p e.1 ∧ All p e.2 := by
  induction es with
  | nil => exact iff_of_true trivial (List.forall_mem_nil _)
  | cons e es ih =>
    rw [List.forall_mem_cons, ← ih, and_assoc]
    rfl

theorem basic_tuple_iff : (tuple as).Basic ↔ ∀ a ∈ as, a.Basic :=
  (and_iff_right trivial).trans allItems_iff

theorem basic_list_iff : (list as).Basic ↔ ∀ a ∈ as, a.Basic :=
  (and_iff_right trivial).trans allItems_iff

theorem Basic.value_of_mem (h : (mapping es).Basic) {e : Arg φ × Arg φ} (he : e ∈ es) :
    e.2.Basic :=
  (allEntries_iff.mp h.2 e he).2

theorem encodable_tuple_iff : (tuple as).Encodable ↔ ∀ a ∈ as, a.Encodable :=
  (and_iff_right trivial).trans allItems_iff

theorem encodable_list_iff : (list as).Encodable ↔ ∀ a ∈ as, a.Encodable :=
  (and_iff_right trivial).trans allItems_iff

theorem encodable_mapping_iff :
    (mapping es).Encodable ↔ ∀ e ∈ es, e.1.Encodable ∧ e.2.Encodable :=
  (and_iff_right trivial).trans allEntries_iff

theorem same_none_iff : Same none w ↔ w = none := by
  cases w with
  | none => exact iff_of_true trivial rfl
  | _ => exact iff_of_false id nofun

theorem same_bool_iff {b : Bool} : Same (bool b) w ↔ w = bool b := by
  cases w with
  | bool b' => exact ⟨fun h => congrArg bool h.symm, fun h => (bool.inj h).symm⟩
  | _ => exact iff_of_false id nofun

theorem same_int_iff {i : Int} : Same (int i) w ↔ w = int i := by
  cases w with
  | int i' => exact ⟨fun h => congrArg int h.symm, fun h => (int.inj h).symm⟩
  | _ => exact iff_of_false id nofun

theorem same_str_iff {s : Str} : Same (str s) w ↔ w = str s := by
  cases w with
  | str s' => exact ⟨fun h => congrArg str h.symm, fun h => (str.inj h).symm⟩
  | _ => exact iff_of_false id nofun

theorem same_bytesLike_iff {kind : BytesKind} {b : Bytes} :
    Same (bytesLike kind b) w ↔ w = bytesLike kind b := by
  cases w with
  | bytesLike kind' b' =>
    constructor
    · rintro ⟨rfl, rfl⟩
      rfl
    · intro h
      cases h
      exact ⟨rfl, rfl⟩
  | _ => exact iff_of_false id nofun

theorem same_tuple_iff :
    Same (tuple as) w ↔ ∃ bs, w = tuple bs ∧ List.Forall₂ Same as bs := by
  cases w with
  | tuple bs =>
    simp only [tuple.injEq, exists_eq_left', ← sameItems_iff]
    rfl
  | _ => exact iff_of_false id nofun

theorem same_list_iff : Same (list as) w ↔ ∃ bs, w = list bs ∧ List.Forall₂ Same as bs := by
  cases w with
  | list bs =>
    simp only [list.injEq, exists_eq_left', ← sameItems_iff]
    rfl
  | _ => exact iff_of_false id nofun

theorem same_mapping_iff :
    Same (mapping es) w ↔ ∃ fs, w = mapping fs ∧ es.length = fs.length ∧ SameEntries es fs := by
  cases w with
  | mapping fs =>
    simp only [mapping.injEq, exists_eq_left']
    rfl
  | _ => exact iff_of_false id nofun

end Arg

/-! ## Equal normal forms -/

open Arg (Same DictsAgree DictsAgreeItems)

theorem same_iff_of_eq (hsame : v.Same w ↔ w = v) (hform : w.NormalForm n ↔ w = v)
    (hdicts : v.DictsAgree v) : v.Same w ↔ w.NormalForm n ∧ v.DictsAgree w := by
  rw [hsame, hform]
  exact ⟨fun h => ⟨h, h ▸ hdicts⟩, And.left⟩

theorem forall₂_same_iff {as bs : List (Arg φ)} (hns : List.Forall₂ Arg.NormalForm as ns)
    (h : ∀ a ∈ as, ∀ b ∈ bs, ∀ n, a.NormalForm n →
      (a.Same b ↔ b.NormalForm n ∧ a.DictsAgree b)) :
    List.Forall₂ Same as bs ↔ List.Forall₂ Arg.NormalForm bs ns ∧ DictsAgreeItems as bs := by
  induction hns generalizing bs with
  | nil =>
    cases bs with
    | nil => simp [DictsAgreeItems]
    | cons b bs => simp
  | cons hn hns ih =>
    cases bs with
    | nil => simp
    | cons b bs =>
      rw [List.forall₂_cons, List.forall₂_cons, DictsAgreeItems,
        h _ List.mem_cons_self _ List.mem_cons_self _ hn,
        ih fun a ha b hb => h a (List.mem_cons_of_mem _ ha) b (List.mem_cons_of_mem _ hb)]
      exact and_and_and_comm

theorem pairList_injective : Function.Injective (pairList (φ := φ)) := by
  rintro ⟨key, n⟩ ⟨key', m⟩ h
  simpa [pairList] using h

theorem sortPairs_perm (pairs : List (Str × Normalized φ)) : (sortPairs pairs).Perm pairs :=
  List.perm_insertionSort _ pairs

theorem nodup_of_normalPairs (h : List.Forall₂ NormalPair entries pairs)
    (hkeys : (entries.map Prod.fst).Nodup) : (pairs.map Prod.fst).Nodup := by
  have hmap : entries.map Prod.fst = (pairs.map Prod.fst).map Arg.str := by
    rw [List.map_map]
    exact Delimited.map_eq_of_forall₂ h fun _ _ _ _ hpair => hpair.1
  exact (hmap ▸ hkeys).of_map

/-- Sorting by distinct keys forgets the order of the items and nothing else. -/
theorem sortPairs_eq_iff {ps qs : List (Str × Normalized φ)} (hkeys : (ps.map Prod.fst).Nodup) :
    sortPairs ps = sortPairs qs ↔ ps.Perm qs :=
  ⟨fun h => (sortPairs_perm ps).symm.trans (h ▸ sortPairs_perm qs),
    fun h => Json.insertionSort_eq_of_perm h hkeys⟩

theorem sameEntries_iff_perm {es fs : List (Arg φ × Arg φ)} {ps qs : List (Str × Normalized φ)}
    (hes : List.Forall₂ NormalPair es ps) (hfs : List.Forall₂ NormalPair fs qs)
    (hkeys : (es.map Prod.fst).Nodup) (hkeys' : (fs.map Prod.fst).Nodup)
    (h : ∀ e ∈ es, ∀ f ∈ fs, ∀ n, e.2.NormalForm n →
      (e.2.Same f.2 ↔ f.2.NormalForm n ∧ e.2.DictsAgree f.2)) :
    es.length = fs.length ∧ Arg.SameEntries es fs ↔
      ps.Perm qs ∧ Arg.DictsAgreeEntries es fs := by
  rw [Arg.sameEntries_iff, Arg.dictsAgreeEntries_iff]
  constructor
  · rintro ⟨hlen, hsame⟩
    have hsub : ps ⊆ qs := by
      intro p hp
      obtain ⟨e, he, hpair⟩ := Delimited.exists_of_forall₂ hes.flip hp
      obtain ⟨b, hb, hsame⟩ := hsame e he
      obtain ⟨q, hq, hpair'⟩ := Delimited.exists_of_forall₂ hfs hb
      have hform := ((h e he _ hb _ hpair.2).mp hsame).1
      rwa [← hpair'.unique ⟨hpair.1, hform⟩]
    have hnodup : ps.Nodup := (nodup_of_normalPairs hes hkeys).of_map
    have hlen' : qs.length ≤ ps.length := by rw [← hes.length_eq, ← hfs.length_eq, hlen]
    refine ⟨(List.subperm_of_subset hnodup hsub).perm_of_length_le hlen', ?_⟩
    intro e he b hb
    obtain ⟨b', hb', hsame⟩ := hsame e he
    obtain ⟨p, -, hpair⟩ := Delimited.exists_of_forall₂ hes he
    have heq := List.inj_on_of_nodup_map hkeys' hb hb' rfl
    cases heq
    exact ((h e he _ hb _ hpair.2).mp hsame).2
  · rintro ⟨hperm, hdicts⟩
    refine ⟨hes.length_eq.trans (hperm.length_eq.trans hfs.length_eq.symm), fun e he => ?_⟩
    obtain ⟨p, hp, hpair⟩ := Delimited.exists_of_forall₂ hes he
    obtain ⟨⟨key, b⟩, hb, hpair'⟩ := Delimited.exists_of_forall₂ hfs.flip (hperm.mem_iff.mp hp)
    obtain rfl : e.1 = key := hpair.1.trans hpair'.1.symm
    exact ⟨b, hb, (h e he _ hb _ hpair.2).mpr ⟨hpair'.2, hdicts e he b hb⟩⟩

theorem exists_normalForm (hv : v.Basic) : ∃ n, v.NormalForm n := by
  induction v with
  | none | bool _ | int _ | str _ | bytesLike _ _ => exact ⟨_, rfl⟩
  | float x => exact hv.elim
  | other repr => exact hv.elim
  | tuple items ih =>
    have hitems := Arg.basic_tuple_iff.mp hv
    obtain ⟨ns, hns⟩ := Delimited.exists_forall₂ fun item hmem => ih item hmem (hitems item hmem)
    exact ⟨_, normalForm_tuple.mpr ⟨ns, hns, rfl⟩⟩
  | list items ih =>
    have hitems := Arg.basic_list_iff.mp hv
    obtain ⟨ns, hns⟩ := Delimited.exists_forall₂ fun item hmem => ih item hmem (hitems item hmem)
    exact ⟨_, normalForm_list.mpr ⟨ns, hns, rfl⟩⟩
  | mapping entries ih =>
    have hpairs : ∀ entry ∈ entries, ∃ pair, NormalPair entry pair := by
      intro entry hmem
      obtain ⟨key, hkey⟩ := hv.1.2 entry hmem
      obtain ⟨n, hn⟩ := ih entry hmem (hv.value_of_mem hmem)
      exact ⟨(key, n), hkey, hn⟩
    obtain ⟨pairs, hpairs⟩ := Delimited.exists_forall₂ hpairs
    exact ⟨_, normalForm_mapping.mpr ⟨pairs, hpairs, rfl⟩⟩

section
variable {as : List (Arg φ)} {es : List (Arg φ × Arg φ)}

theorem same_tuple_iff_normalForm (hns : List.Forall₂ Arg.NormalForm as ns) (hw : w.Basic)
    (h : ∀ a ∈ as, ∀ {b n}, b.Basic → a.NormalForm n →
      (a.Same b ↔ b.NormalForm n ∧ a.DictsAgree b)) :
    (Arg.tuple as).Same w ↔
      w.NormalForm (tagged "tuple" "items" (.list ns)) ∧ (Arg.tuple as).DictsAgree w := by
  have hitems {bs : List (Arg φ)} (hbs : (Arg.tuple bs).Basic) :=
    forall₂_same_iff hns fun a ha b hb _ => h a ha (Arg.basic_tuple_iff.mp hbs b hb)
  rw [Arg.same_tuple_iff, normalForm_tuple_iff]
  constructor
  · rintro ⟨bs, rfl, hsame⟩
    obtain ⟨hbs, hdicts⟩ := (hitems hw).mp hsame
    exact ⟨⟨bs, rfl, hbs⟩, hdicts⟩
  · rintro ⟨⟨bs, rfl, hbs⟩, hdicts⟩
    exact ⟨bs, rfl, (hitems hw).mpr ⟨hbs, hdicts⟩⟩

-- The list may have the normal form of a dict: that is where `DictsAgree` is needed.
theorem same_list_iff_normalForm (hns : List.Forall₂ Arg.NormalForm as ns) (hw : w.Basic)
    (h : ∀ a ∈ as, ∀ {b n}, b.Basic → a.NormalForm n →
      (a.Same b ↔ b.NormalForm n ∧ a.DictsAgree b)) :
    (Arg.list as).Same w ↔ w.NormalForm (.list ns) ∧ (Arg.list as).DictsAgree w := by
  have hitems {bs : List (Arg φ)} (hbs : (Arg.list bs).Basic) :=
    forall₂_same_iff hns fun a ha b hb _ => h a ha (Arg.basic_list_iff.mp hbs b hb)
  rw [Arg.same_list_iff, normalForm_list_iff]
  constructor
  · rintro ⟨bs, rfl, hsame⟩
    obtain ⟨hbs, hdicts⟩ := (hitems hw).mp hsame
    exact ⟨.inl ⟨bs, rfl, hbs⟩, hdicts⟩
  · rintro ⟨⟨bs, rfl, hbs⟩ | ⟨_, _, rfl, _⟩, hdicts⟩
    · exact ⟨bs, rfl, (hitems hw).mpr ⟨hbs, hdicts⟩⟩
    · exact hdicts.elim

theorem same_mapping_iff_normalForm (hpairs : List.Forall₂ NormalPair es pairs)
    (hkeys : (es.map Prod.fst).Nodup) (hw : w.Basic)
    (h : ∀ e ∈ es, ∀ {b n}, b.Basic → e.2.NormalForm n →
      (e.2.Same b ↔ b.NormalForm n ∧ e.2.DictsAgree b)) :
    (Arg.mapping es).Same w ↔
      w.NormalForm (.list ((sortPairs pairs).map pairList)) ∧ (Arg.mapping es).DictsAgree w := by
  have hentries {fs : List (Arg φ × Arg φ)} {qs : List (Str × Normalized φ)}
      (hfs : (Arg.mapping fs).Basic) (hqs : List.Forall₂ NormalPair fs qs) :=
    sameEntries_iff_perm hpairs hqs hkeys hfs.1.1 fun e he f hf _ =>
      h e he (hfs.value_of_mem hf)
  have hsort {qs : List (Str × Normalized φ)} :
      (sortPairs pairs).map pairList = (sortPairs qs).map pairList ↔ pairs.Perm qs := by
    rw [(List.map_injective_iff.mpr pairList_injective).eq_iff,
      sortPairs_eq_iff (nodup_of_normalPairs hpairs hkeys)]
  rw [Arg.same_mapping_iff, normalForm_list_iff]
  constructor
  · rintro ⟨fs, rfl, hsame⟩
    obtain ⟨_, hform⟩ := exists_normalForm hw
    obtain ⟨qs, hqs, -⟩ := normalForm_mapping.mp hform
    obtain ⟨hperm, hdicts⟩ := (hentries hw hqs).mp hsame
    exact ⟨.inr ⟨fs, qs, rfl, hqs, hsort.mpr hperm⟩, hdicts⟩
  · rintro ⟨⟨_, rfl, _⟩ | ⟨fs, qs, rfl, hqs, heq⟩, hdicts⟩
    · exact hdicts.elim
    · exact ⟨fs, rfl, (hentries hw hqs).mpr ⟨hsort.mp heq, hdicts⟩⟩

end

/-- Values of the same structure are those of one normal form that have their dicts in the same
places. -/
theorem same_iff_normalForm (hv : v.Basic) (hw : w.Basic) (hn : v.NormalForm n) :
    v.Same w ↔ w.NormalForm n ∧ v.DictsAgree w := by
  induction v generalizing w n with
  | none =>
    cases normalForm_none.mp hn
    exact same_iff_of_eq Arg.same_none_iff normalForm_none_iff trivial
  | bool b =>
    cases normalForm_bool.mp hn
    exact same_iff_of_eq Arg.same_bool_iff normalForm_bool_iff trivial
  | int i =>
    cases normalForm_int.mp hn
    exact same_iff_of_eq Arg.same_int_iff normalForm_int_iff trivial
  | str s =>
    cases normalForm_str.mp hn
    exact same_iff_of_eq Arg.same_str_iff normalForm_str_iff trivial
  | bytesLike kind b =>
    cases normalForm_bytesLike.mp hn
    obtain rfl : kind = .bytes := hv
    refine same_iff_of_eq Arg.same_bytesLike_iff (normalForm_bytes_iff.trans ?_) trivial
    constructor
    · rintro ⟨kind, rfl⟩
      rw [show kind = .bytes from hw]
    · exact fun h => ⟨_, h⟩
  | float x => exact hv.elim
  | other repr => exact hv.elim
  | tuple as ih =>
    obtain ⟨ns, hns, rfl⟩ := normalForm_tuple.mp hn
    exact same_tuple_iff_normalForm hns hw fun a ha => ih a ha (Arg.basic_tuple_iff.mp hv a ha)
  | list as ih =>
    obtain ⟨ns, hns, rfl⟩ := normalForm_list.mp hn
    exact same_list_iff_normalForm hns hw fun a ha => ih a ha (Arg.basic_list_iff.mp hv a ha)
  | mapping es ih =>
    obtain ⟨pairs, hpairs, rfl⟩ := normalForm_mapping.mp hn
    exact same_mapping_iff_normalForm hpairs hv.1.1 hw fun e he => ih e he (hv.value_of_mem he)

end Keys
end Cachebox
