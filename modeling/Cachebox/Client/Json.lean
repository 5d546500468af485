import Mathlib.Data.List.Perm.Subperm
import Mathlib.Data.List.Sort
import Mathlib.Data.String.Basic
import Cachebox.Theory.Delimited

/-!
# Canonical JSON (`canonical_json` of `clients/rust/cachebox-client/src/ai.rs`)

A `Json` is a tree with the fields of an object in the order in which they are stored; a `Value`
has no object with two fields of one name. `canonicalJson` prints it with the fields sorted by name.
How `serde_json` prints numbers and strings is given by a `SerdeJson`, of which only the laws are
known. Two values have one canonical text exactly if they are the same with the objects compared as
maps.
-/

namespace Cachebox

inductive Json (ν : Type) where
  | null
  | bool (b : Bool)
  | number (n : ν)
  | string (s : String)
  | array (items : List (Json ν))
  | object (fields : List (String × Json ν))

/-- The characters of a printed number. -/
def isNumberChar (c : Char) : Bool := c.isDigit || "+-.eE".toList.contains c

/-- How `serde_json` prints numbers and strings: distinct ones differently, a number with digits,
signs, points and exponents, a string between quotes with the quotes and backslashes in it
escaped. -/
structure SerdeJson (ν : Type) where
  numberText : ν → String
  stringText : String → String
  numberText_injective : Function.Injective numberText
  numberText_ne_empty : ∀ n, numberText n ≠ ""
  numberText_chars : ∀ n, ∀ c ∈ (numberText n).toList, isNumberChar c
  stringText_injective : Function.Injective stringText
  stringText_quoted : ∀ s, ∃ body, (stringText s).toList = '"' :: (body ++ ['"']) ∧
    Escaped '"' '\\' body

namespace Json
variable {ν : Type}

/-- Induction over values of any depth. -/
@[elab_as_elim, induction_eliminator]
theorem induction {P : Json ν → Prop} (null : P null) (bool : ∀ b, P (bool b))
    (number : ∀ n, P (number n)) (string : ∀ s, P (string s))
    (array : ∀ items, (∀ item ∈ items, P item) → P (array items))
    (object : ∀ fields, (∀ field ∈ fields, P field.2) → P (object fields)) (j : Json ν) : P j :=
  @Json.rec ν P (fun items => ∀ item ∈ items, P item) (fun fields => ∀ field ∈ fields, P field.2)
    (fun field => P field.2) null bool number string array object (List.forall_mem_nil _)
    (fun _ _ hhead htail => List.forall_mem_cons.mpr ⟨hhead, htail⟩) (List.forall_mem_nil _)
    (fun _ _ hhead htail => List.forall_mem_cons.mpr ⟨hhead, htail⟩) (fun _ _ h => h) j

/-! ## Values -/

mutual

/-- No object has two fields of one name. -/
def DistinctKeys : Json ν → Prop
  | array items => DistinctKeysItems items
  | object fields => (fields.map Prod.fst).Nodup ∧ DistinctKeysFields fields
  | _ => True

def DistinctKeysItems : List (Json ν) → Prop
  | [] => True
  | item :: items => item.DistinctKeys ∧ DistinctKeysItems items

def DistinctKeysFields : List (String × Json ν) → Prop
  | [] => True
  | (_, value) :: fields => value.DistinctKeys ∧ DistinctKeysFields fields

end

theorem distinctKeysItems_iff {items : List (Json ν)} :
    DistinctKeysItems items ↔ ∀ item ∈ items, item.DistinctKeys := by
  induction items with
  | nil => exact iff_of_true trivial (List.forall_mem_nil _)
  | cons item items ih => rw [DistinctKeysItems, List.forall_mem_cons, ih]

theorem distinctKeysFields_iff {fields : List (String × Json ν)} :
    DistinctKeysFields fields ↔ ∀ field ∈ fields, field.2.DistinctKeys := by
  induction fields with
  | nil => exact iff_of_true trivial (List.forall_mem_nil _)
  | cons field fields ih => rw [DistinctKeysFields, List.forall_mem_cons, ih]

mutual

/-- The values are equal, with objects compared as maps: as many fields, and for each one a field of
that name with the same value. -/
def Same : Json ν → Json ν → Prop
  | null, null => True
  | bool a, bool b => a = b
  | number a, number b => a = b
  | string a, string b => a = b
  | array as, array bs => SameItems as bs
  | object as, object bs => as.length = bs.length ∧ SameFields as bs
  | _, _ => False

def SameItems : List (Json ν) → List (Json ν) → Prop
  | [], [] => True
  | a :: as, b :: bs => Same a b ∧ SameItems as bs
  | _, _ => False

def SameFields : List (String × Json ν) → List (String × Json ν) → Prop
  | [], _ => True
  | (key, a) :: as, bs => (∃ b, (key, b) ∈ bs ∧ Same a b) ∧ SameFields as bs

end

theorem sameItems_iff {as bs : List (Json ν)} : SameItems as bs ↔ List.Forall₂ Same as bs := by
  induction as generalizing bs with
  | nil =>
    cases bs with
    | nil => exact iff_of_true trivial .nil
    | cons => exact iff_of_false id nofun
  | cons a as ih =>
    cases bs with
    | nil => exact iff_of_false id nofun
    | cons b bs => rw [SameItems, List.forall₂_cons, ih]

theorem sameFields_iff {as bs : List (String × Json ν)} :
    SameFields as bs ↔ ∀ field ∈ as, ∃ b, (field.1, b) ∈ bs ∧ Same field.2 b := by
  induction as with
  | nil => exact iff_of_true trivial (List.forall_mem_nil _)
  | cons field as ih => rw [SameFields, List.forall_mem_cons, ih]

/-! ## Canonical text -/

mutual

/-- `canonical_json`. The fields are sorted by their names alone, so the values can be printed
first. -/
def canonicalJson (S : SerdeJson ν) : Json ν → String
  | null => "null"
  | bool b => if b then "true" else "false"
  | number n => S.numberText n
  | string s => S.stringText s
  | array values => "[" ++ ",".intercalate (canonicalItems S values) ++ "]"
  | object values =>
    let items := (canonicalFields S values).insertionSort fun x y => x.1 ≤ y.1
    let fields := items.map fun (key, value) => S.stringText key ++ ":" ++ value
    "\x7b" ++ ",".intercalate fields ++ "\x7d"

def canonicalItems (S : SerdeJson ν) : List (Json ν) → List String
  | [] => []
  | value :: values => value.canonicalJson S :: canonicalItems S values

def canonicalFields (S : SerdeJson ν) : List (String × Json ν) → List (String × String)
  | [] => []
  | (key, value) :: values => (key, value.canonicalJson S) :: canonicalFields S values

end

variable (S : SerdeJson ν)

theorem canonicalItems_eq (values : List (Json ν)) :
    canonicalItems S values = values.map (canonicalJson S) := by
  induction values with
  | nil => rfl
  | cons value values ih => rw [canonicalItems, ih, List.map_cons]

theorem canonicalFields_eq (values : List (String × Json ν)) :
    canonicalFields S values = values.map fun field => (field.1, field.2.canonicalJson S) := by
  induction values with
  | nil => rfl
  | cons value values ih => rw [canonicalFields, ih, List.map_cons]

/-- The fields of an object in the order in which they are printed. -/
def sortedFields (fields : List (String × Json ν)) : List (String × Json ν) :=
  fields.insertionSort fun x y => x.1 ≤ y.1

def fieldText (field : String × Json ν) : List Char :=
  (S.stringText field.1).toList ++ ':' :: (field.2.canonicalJson S).toList

theorem toList_canonicalJson_array (values : List (Json ν)) :
    ((array values).canonicalJson S).toList =
      '[' :: ([','].intercalate (values.map fun v => (v.canonicalJson S).toList) ++ [']']) := by
  simp [canonicalJson, canonicalItems_eq, String.toList_intercalate, Function.comp_def]

theorem toList_canonicalJson_object (values : List (String × Json ν)) :
    ((object values).canonicalJson S).toList =
      '\x7b' :: ([','].intercalate ((sortedFields values).map (fieldText S)) ++ ['\x7d']) := by
  have hsort := List.map_insertionSort (fun x y : String × Json ν => x.1 ≤ y.1)
    (fun x y : String × String => x.1 ≤ y.1) (fun field => (field.1, field.2.canonicalJson S))
    values fun _ _ _ _ => Iff.rfl
  simp [canonicalJson, canonicalFields_eq, ← hsort, String.toList_intercalate, sortedFields,
    Function.comp_def]
  rfl

/-! ## The first character -/

inductive Kind where
  | null
  | bool (b : Bool)
  | number | string | array | object

def kind : Json ν → Kind
  | null => .null
  | bool b => .bool b
  | number _ => .number
  | string _ => .string
  | array _ => .array
  | object _ => .object

/-- Induction over two values of one kind. -/
@[elab_as_elim]
theorem induction₂ {P : (a b : Json ν) → a.kind = b.kind → Prop} (null : P null null rfl)
    (bool : ∀ b, P (bool b) (bool b) rfl) (number : ∀ n m, P (number n) (number m) rfl)
    (string : ∀ s t, P (string s) (string t) rfl)
    (array : ∀ as bs, (∀ a ∈ as, ∀ b h, P a b h) → P (array as) (array bs) rfl)
    (object : ∀ as bs, (∀ a ∈ as, ∀ b h, P a.2 b h) → P (object as) (object bs) rfl)
    (a b : Json ν) (h : a.kind = b.kind) : P a b h := by
  induction a generalizing b with
  | null =>
    cases b with
    | null => exact null
    | _ => cases h
  | bool a =>
    cases b with
    | bool b =>
      cases h
      exact bool a
    | _ => cases h
  | number n =>
    cases b with
    | number m => exact number n m
    | _ => cases h
  | string s =>
    cases b with
    | string t => exact string s t
    | _ => cases h
  | array as ih =>
    cases b with
    | array bs => exact array as bs ih
    | _ => cases h
  | object as ih =>
    cases b with
    | object bs => exact object as bs ih
    | _ => cases h

/-- The kind of the value whose text starts with the character. -/
def Kind.ofChar (c : Char) : Option Kind :=
  match c with
  | 'n' => some .null
  | 't' => some (.bool true)
  | 'f' => some (.bool false)
  | '"' => some .string
  | '[' => some .array
  | '\x7b' => some .object
  | c => if isNumberChar c then some .number else none

theorem Kind.ofChar_of_isNumberChar {c : Char} (h : isNumberChar c) :
    Kind.ofChar c = some .number := by
  unfold Kind.ofChar
  split
  case h_7 => exact if_pos h
  all_goals exact absurd h (by decide)

variable {S}

theorem canonicalJson_first (j : Json ν) :
    ∃ c rest, (j.canonicalJson S).toList = c :: rest ∧ Kind.ofChar c = some j.kind := by
  cases j with
  | null => exact ⟨'n', "ull".toList, by rw [canonicalJson]; decide, rfl⟩
  | bool b =>
    cases b with
    | true => exact ⟨'t', "rue".toList, by rw [canonicalJson]; decide, rfl⟩
    | false => exact ⟨'f', "alse".toList, by rw [canonicalJson]; decide, rfl⟩
  | number n =>
    cases htext : (S.numberText n).toList with
    | nil => exact absurd (String.toList_eq_nil_iff.mp htext) (S.numberText_ne_empty n)
    | cons c rest =>
      have hc : isNumberChar c := S.numberText_chars n c (by rw [htext]; exact List.mem_cons_self)
      exact ⟨c, rest, htext, Kind.ofChar_of_isNumberChar hc⟩
  | string s =>
    obtain ⟨body, htext, -⟩ := S.stringText_quoted s
    exact ⟨'"', _, htext, rfl⟩
  | array values => exact ⟨'[', _, toList_canonicalJson_array S values, rfl⟩
  | object values => exact ⟨'\x7b', _, toList_canonicalJson_object S values, rfl⟩

theorem kind_eq_of_text {a b : Json ν} {xs ys : List Char}
    (h : (a.canonicalJson S).toList ++ xs = (b.canonicalJson S).toList ++ ys) :
    a.kind = b.kind := by
  obtain ⟨c, rest, ha, hc⟩ := canonicalJson_first (S := S) a
  obtain ⟨c', rest', hb, hc'⟩ := canonicalJson_first (S := S) b
  rw [ha, hb] at h
  obtain ⟨rfl, -⟩ := List.cons.inj h
  exact Option.some.inj (hc.symm.trans hc')

/-! ## The text determines the value -/

def IsDelimiter (c : Char) : Prop := c = ',' ∨ c = ']' ∨ c = '\x7d'

theorem not_isDelimiter {c : Char} (h : isNumberChar c) : ¬ IsDelimiter c := by
  rintro (rfl | rfl | rfl) <;> exact absurd h (by decide)

/-- A printed string ends at its closing quote. -/
theorem stringText_append_inj {s t : String} {xs ys : List Char}
    (h : (S.stringText s).toList ++ xs = (S.stringText t).toList ++ ys) : s = t ∧ xs = ys := by
  obtain ⟨body, hs, hbody⟩ := S.stringText_quoted s
  obtain ⟨body', ht, hbody'⟩ := S.stringText_quoted t
  rw [hs, ht] at h
  simp only [List.cons_append, List.append_assoc, List.nil_append, List.cons.injEq,
    true_and] at h
  obtain ⟨rfl, hrest⟩ := hbody.append_inj (by decide) hbody' h
  exact ⟨S.stringText_injective (String.toList_inj.mp (hs.trans ht.symm)), hrest⟩

theorem numberText_append_inj {n m : ν} {xs ys : List Char} (hxs : Delimited.Ends IsDelimiter xs)
    (hys : Delimited.Ends IsDelimiter ys)
    (h : (S.numberText n).toList ++ xs = (S.numberText m).toList ++ ys) : n = m ∧ xs = ys := by
  obtain ⟨htext, hrest⟩ := Delimited.Ends.append_inj
    (fun c hc => not_isDelimiter (S.numberText_chars n c hc))
    (fun c hc => not_isDelimiter (S.numberText_chars m c hc)) hxs hys h
  exact ⟨S.numberText_injective (String.toList_inj.mp htext), hrest⟩

/-- Fields that correspond in the printed order are the same map. -/
theorem same_object_of_sortedFields {as bs : List (String × Json ν)}
    (h : List.Forall₂ (fun x y => x.1 = y.1 ∧ Same x.2 y.2) (sortedFields as) (sortedFields bs)) :
    Same (object as) (object bs) := by
  have has := List.perm_insertionSort (fun x y : String × Json ν => x.1 ≤ y.1) as
  have hbs := List.perm_insertionSort (fun x y : String × Json ν => x.1 ≤ y.1) bs
  refine ⟨has.length_eq.symm.trans (h.length_eq.trans hbs.length_eq), sameFields_iff.mpr ?_⟩
  intro field hfield
  obtain ⟨⟨key, value⟩, hmem, hkey, hsame⟩ :=
    Delimited.exists_of_forall₂ h (has.mem_iff.mpr hfield)
  exact ⟨value, hkey ▸ hbs.mem_iff.mp hmem, hsame⟩

theorem canonicalJson_first_ne_close (j : Json ν) :
    ∃ c rest, (j.canonicalJson S).toList = c :: rest ∧ c ≠ ']' := by
  obtain ⟨c, rest, htext, hc⟩ := canonicalJson_first (S := S) j
  refine ⟨c, rest, htext, ?_⟩
  rintro rfl
  cases hc

theorem fieldText_first_ne_close (field : String × Json ν) :
    ∃ c rest, fieldText S field = c :: rest ∧ c ≠ '\x7d' := by
  obtain ⟨body, htext, -⟩ := S.stringText_quoted field.1
  exact ⟨'"', _, by rw [fieldText, htext]; rfl, by decide⟩

/-- A field ends where its value ends. -/
theorem delimited_fieldText {field : String × Json ν}
    (h : Delimited IsDelimiter (fun j => (j.canonicalJson S).toList) Same field.2) :
    Delimited IsDelimiter (fieldText S) (fun x y => x.1 = y.1 ∧ Same x.2 y.2) field := by
  intro other xs ys hxs hys htext
  simp only [fieldText, List.append_assoc, List.cons_append] at htext
  obtain ⟨hkey, htail⟩ := stringText_append_inj htext
  obtain ⟨hsame, hrest⟩ := h hxs hys (List.cons.inj htail).2
  exact ⟨⟨hkey, hsame⟩, hrest⟩

theorem delimited_canonicalJson (a : Json ν) :
    Delimited IsDelimiter (fun j => (j.canonicalJson S).toList) Same a := by
  intro b xs ys hxs hys h
  have hkind := kind_eq_of_text h
  induction a, b, hkind using induction₂ generalizing xs ys with
  | null => exact ⟨trivial, List.append_cancel_left h⟩
  | bool b => exact ⟨rfl, List.append_cancel_left h⟩
  | number n m => exact numberText_append_inj hxs hys h
  | string s t => exact stringText_append_inj h
  | array as bs ih =>
    have hitems : ∀ a ∈ as, Delimited IsDelimiter (fun j => (j.canonicalJson S).toList) Same a :=
      fun a ha b _ _ hxs hys h => ih a ha b (kind_eq_of_text h) hxs hys h
    simp only [toList_canonicalJson_array, List.cons_append, List.append_assoc, List.nil_append,
      List.cons.injEq, true_and] at h
    obtain ⟨hall, hrest⟩ := Delimited.intercalate_inj (.inl rfl) (.inr (.inl rfl)) (by decide)
      canonicalJson_first_ne_close hitems h
    exact ⟨sameItems_iff.mpr hall, hrest⟩
  | object as bs ih =>
    have hfields : ∀ a ∈ sortedFields as, Delimited IsDelimiter (fieldText S)
        (fun x y => x.1 = y.1 ∧ Same x.2 y.2) a := fun a ha =>
      delimited_fieldText fun b _ _ hxs hys h =>
        ih a ((List.perm_insertionSort _ as).mem_iff.mp ha) b (kind_eq_of_text h) hxs hys h
    simp only [toList_canonicalJson_object, List.cons_append, List.append_assoc, List.nil_append,
      List.cons.injEq, true_and] at h
    obtain ⟨hall, hrest⟩ := Delimited.intercalate_inj (.inl rfl) (.inr (.inr rfl)) (by decide)
      fieldText_first_ne_close hfields h
    exact ⟨same_object_of_sortedFields hall, hrest⟩

theorem same_of_canonicalJson_eq {a b : Json ν} (h : a.canonicalJson S = b.canonicalJson S) :
    Same a b :=
  (delimited_canonicalJson (S := S) a Delimited.ends_nil Delimited.ends_nil
    (congrArg (fun text : String => text.toList ++ []) h)).1

/-! ## The value determines the text -/

theorem kind_eq_of_same {a b : Json ν} (h : Same a b) : a.kind = b.kind := by
  cases a <;> cases b <;> simp_all [Same, kind]

/-- Sorting by distinct names forgets the order. -/
theorem insertionSort_eq_of_perm {κ α : Type} [LinearOrder κ] {fields fields' : List (κ × α)}
    (hperm : fields.Perm fields') (hkeys : (fields.map Prod.fst).Nodup) :
    fields.insertionSort (fun x y => x.1 ≤ y.1) = fields'.insertionSort (fun x y => x.1 ≤ y.1) := by
  have htotal : Std.Total fun x y : κ × α => x.1 ≤ y.1 := ⟨fun x y => le_total x.1 y.1⟩
  have htrans : IsTrans (κ × α) fun x y => x.1 ≤ y.1 := ⟨fun _ _ _ => le_trans⟩
  have hsort := List.perm_insertionSort (fun x y : κ × α => x.1 ≤ y.1) fields
  have hsort' := List.perm_insertionSort (fun x y : κ × α => x.1 ≤ y.1) fields'
  refine List.Perm.eq_of_pairwise (fun x y hx hy hle hge => ?_) (List.pairwise_insertionSort _ _)
    (List.pairwise_insertionSort _ _) (hsort.trans (hperm.trans hsort'.symm))
  exact List.inj_on_of_nodup_map hkeys (hsort.mem_iff.mp hx)
    (hperm.mem_iff.mpr (hsort'.mem_iff.mp hy)) (le_antisymm hle hge)

/-- Two objects that are the same map print the same fields, if they print the values of one name
alike. -/
theorem canonicalFields_perm {as bs : List (String × Json ν)} (hlen : as.length = bs.length)
    (hkeys : ((canonicalFields S as).map Prod.fst).Nodup)
    (h : ∀ a ∈ as, ∃ b, (a.1, b) ∈ bs ∧ a.2.canonicalJson S = b.canonicalJson S) :
    (canonicalFields S as).Perm (canonicalFields S bs) := by
  have hsubset : canonicalFields S as ⊆ canonicalFields S bs := by
    simp only [canonicalFields_eq]
    intro text htext
    obtain ⟨a, ha, rfl⟩ := List.mem_map.mp htext
    obtain ⟨b, hb, heq⟩ := h a ha
    exact heq ▸ List.mem_map.mpr ⟨_, hb, rfl⟩
  refine (List.subperm_of_subset hkeys.of_map hsubset).perm_of_length_le ?_
  simp only [canonicalFields_eq, List.length_map]
  exact hlen.ge

theorem canonicalJson_eq_of_same {a b : Json ν} (ha : a.DistinctKeys) (hb : b.DistinctKeys)
    (h : Same a b) : a.canonicalJson S = b.canonicalJson S := by
  have hkind := kind_eq_of_same h
  induction a, b, hkind using induction₂ with
  | null => rfl
  | bool b => rfl
  | number n m => rw [show n = m from h]
  | string s t => rw [show s = t from h]
  | array as bs ih =>
    have has := distinctKeysItems_iff.mp ha
    have hbs := distinctKeysItems_iff.mp hb
    have hitems : as.map (canonicalJson S) = bs.map (canonicalJson S) :=
      Delimited.map_eq_of_forall₂ (sameItems_iff.mp h) fun a ha b hb hsame =>
        ih a ha b (kind_eq_of_same hsame) (has a ha) (hbs b hb) hsame
    rw [canonicalJson, canonicalJson, canonicalItems_eq, canonicalItems_eq, hitems]
  | object as bs ih =>
    obtain ⟨hkeys, has⟩ := ha
    obtain ⟨-, hbs⟩ := hb
    obtain ⟨hlen, hfields⟩ := h
    rw [distinctKeysFields_iff] at has hbs
    rw [sameFields_iff] at hfields
    have hkeys : ((canonicalFields S as).map Prod.fst).Nodup := by
      rw [canonicalFields_eq, List.map_map]
      exact hkeys
    have hperm : (canonicalFields S as).Perm (canonicalFields S bs) := by
      refine canonicalFields_perm hlen hkeys fun a ha => ?_
      obtain ⟨b, hb, hsame⟩ := hfields a ha
      exact ⟨b, hb, ih a ha b (kind_eq_of_same hsame) (has a ha) (hbs _ hb) hsame⟩
    rw [canonicalJson, canonicalJson, insertionSort_eq_of_perm hperm hkeys]

/-! ## Objects in order -/

mutual

/-- The fields of every object are stored in the order of their names. -/
def SortedKeys : Json ν → Prop
  | array items => SortedKeysItems items
  | object fields => (fields.map Prod.fst).Pairwise (· < ·) ∧ SortedKeysFields fields
  | _ => True

def SortedKeysItems : List (Json ν) → Prop
  | [] => True
  | item :: items => item.SortedKeys ∧ SortedKeysItems items

def SortedKeysFields : List (String × Json ν) → Prop
  | [] => True
  | (_, value) :: fields => value.SortedKeys ∧ SortedKeysFields fields

end

theorem sortedKeysItems_iff {items : List (Json ν)} :
    SortedKeysItems items ↔ ∀ item ∈ items, item.SortedKeys := by
  induction items with
  | nil => exact iff_of_true trivial (List.forall_mem_nil _)
  | cons item items ih => rw [SortedKeysItems, List.forall_mem_cons, ih]

theorem sortedKeysFields_iff {fields : List (String × Json ν)} :
    SortedKeysFields fields ↔ ∀ field ∈ fields, field.2.SortedKeys := by
  induction fields with
  | nil => exact iff_of_true trivial (List.forall_mem_nil _)
  | cons field fields ih => rw [SortedKeysFields, List.forall_mem_cons, ih]

/-- Where the fields are in order, there is one way to store a map. -/
theorem eq_of_same {a b : Json ν} (ha : a.SortedKeys) (hb : b.SortedKeys) (h : Same a b) :
    a = b := by
  have hkind := kind_eq_of_same h
  induction a, b, hkind using induction₂ with
  | null => rfl
  | bool b => rfl
  | number n m => rw [show n = m from h]
  | string s t => rw [show s = t from h]
  | array as bs ih =>
    have has := sortedKeysItems_iff.mp ha
    have hbs := sortedKeysItems_iff.mp hb
    have hitems := Delimited.map_eq_of_forall₂ (f := id) (g := id) (sameItems_iff.mp h)
      fun a ha b hb hsame => ih a ha b (kind_eq_of_same hsame) (has a ha) (hbs b hb) hsame
    rw [List.map_id, List.map_id] at hitems
    rw [hitems]
  | object as bs ih =>
    obtain ⟨hlen, hfields⟩ := h
    have has := sortedKeysFields_iff.mp ha.2
    have hbs := sortedKeysFields_iff.mp hb.2
    have hsub : as ⊆ bs := by
      intro a hmem
      obtain ⟨b, hb, hsame⟩ := sameFields_iff.mp hfields a hmem
      rw [← ih a hmem b (kind_eq_of_same hsame) (has a hmem) (hbs _ hb) hsame] at hb
      exact hb
    have hnodup : (as.map Prod.fst).Nodup := ha.1.imp ne_of_lt
    have hperm := (List.subperm_of_subset hnodup.of_map hsub).perm_of_length_le hlen.ge
    have horder := List.Perm.eq_of_pairwise (fun x y _ _ hlt hgt => absurd hgt (lt_asymm hlt))
      (List.pairwise_map.mp ha.1) (List.pairwise_map.mp hb.1) hperm
    rw [horder]

/-! ## What is read along a path -/

/-- A step into an array or into an object. -/
inductive Step where
  | item (i : Nat)
  | field (key : String)

/-- The value at a path. A field is found by its name. -/
def get? : Json ν → List Step → Option (Json ν)
  | j, [] => some j
  | array items, .item i :: path => items[i]?.bind fun item => item.get? path
  | object fields, .field key :: path => (fields.lookup key).bind fun value => value.get? path
  | _, _ :: _ => none

/-- What a value is, without what is in it. -/
inductive Node (ν : Type) where
  | null
  | bool (b : Bool)
  | number (n : ν)
  | string (s : String)
  | array | object

def node : Json ν → Node ν
  | null => .null
  | bool b => .bool b
  | number n => .number n
  | string s => .string s
  | array _ => .array
  | object _ => .object

def read (j : Json ν) (path : List Step) : Option (Node ν) := (j.get? path).map node

theorem kind_eq_of_node {a b : Json ν} (h : a.node = b.node) : a.kind = b.kind := by
  cases a <;> cases b <;> simp_all [node, kind]

/-- Nothing can be told apart by reading. -/
def ReadAlike (a b : Json ν) : Prop := ∀ path, a.read path = b.read path

theorem ReadAlike.kind_eq {a b : Json ν} (h : ReadAlike a b) : a.kind = b.kind :=
  kind_eq_of_node (Option.some.inj (h []))

theorem bind_read_eq_iff {x y : Option (Json ν)} :
    (∀ path, x.bind (·.read path) = y.bind (·.read path)) ↔ Option.Rel ReadAlike x y := by
  constructor
  · intro h
    cases x with
    | none =>
      cases y with
      | none => exact .none
      | some b => cases h []
    | some a =>
      cases y with
      | none => cases h []
      | some b => exact .some h
  · rintro (h | _) path
    · exact h path
    · rfl

theorem readAlike_array_iff {as bs : List (Json ν)} :
    ReadAlike (array as) (array bs) ↔ ∀ i : Nat, Option.Rel ReadAlike as[i]? bs[i]? := by
  simp only [← bind_read_eq_iff]
  have hitem : ∀ (items : List (Json ν)) (i : Nat) (path : List Step),
      (array items).read (.item i :: path) = items[i]?.bind (·.read path) :=
    fun _ _ _ => Option.map_bind
  constructor
  · intro h i path
    rw [← hitem, ← hitem]
    exact h _
  · rintro h (_ | ⟨i | key, path⟩)
    · rfl
    · rw [hitem, hitem]
      exact h i path
    · rfl

theorem readAlike_object_iff {as bs : List (String × Json ν)} :
    ReadAlike (object as) (object bs) ↔
      ∀ key, Option.Rel ReadAlike (as.lookup key) (bs.lookup key) := by
  simp only [← bind_read_eq_iff]
  have hfield : ∀ (fields : List (String × Json ν)) (key : String) (path : List Step),
      (object fields).read (.field key :: path) = (fields.lookup key).bind (·.read path) :=
    fun _ _ _ => Option.map_bind
  constructor
  · intro h key path
    rw [← hfield, ← hfield]
    exact h _
  · rintro h (_ | ⟨i | key, path⟩)
    · rfl
    · rfl
    · rw [hfield, hfield]
      exact h key path

theorem same_array_iff {as bs : List (Json ν)} :
    Same (array as) (array bs) ↔ ∀ i : Nat, Option.Rel Same as[i]? bs[i]? :=
  sameItems_iff.trans Delimited.forall₂_iff_getElem?

theorem lookup_eq_some_iff {α : Type} {fields : List (String × α)}
    (hkeys : (fields.map Prod.fst).Nodup) {key : String} {value : α} :
    fields.lookup key = some value ↔ (key, value) ∈ fields := by
  induction fields with
  | nil => exact iff_of_false nofun nofun
  | cons field fields ih =>
    obtain ⟨hnew, hkeys⟩ := List.nodup_cons.mp hkeys
    rw [List.lookup_cons, List.mem_cons]
    by_cases hkey : key = field.1
    · subst hkey
      have hrest : (field.1, value) ∉ fields := fun h => hnew (List.mem_map.mpr ⟨_, h, rfl⟩)
      simp [hrest, Prod.ext_iff, eq_comm]
    · have hne : (key, value) ≠ field := fun h => hkey (congrArg Prod.fst h)
      rw [beq_false_of_ne hkey, or_iff_right hne]
      exact ih hkeys

theorem lookup_isSome_iff {α : Type} {fields : List (String × α)}
    (hkeys : (fields.map Prod.fst).Nodup) {key : String} :
    (fields.lookup key).isSome ↔ key ∈ fields.map Prod.fst := by
  simp only [Option.isSome_iff_exists, lookup_eq_some_iff hkeys, List.mem_map, Prod.exists,
    exists_and_right, exists_eq_right]

theorem isSome_eq_of_rel {α : Type} {R : α → α → Prop} {x y : Option α} (h : Option.Rel R x y) :
    x.isSome = y.isSome := by
  cases h <;> rfl

/-- Objects are compared as maps. -/
theorem same_object_iff {as bs : List (String × Json ν)} (has : (as.map Prod.fst).Nodup)
    (hbs : (bs.map Prod.fst).Nodup) :
    Same (object as) (object bs) ↔ ∀ key, Option.Rel Same (as.lookup key) (bs.lookup key) := by
  constructor
  · rintro ⟨hlen, hfields⟩ key
    rw [sameFields_iff] at hfields
    cases ha : as.lookup key with
    | some a =>
      obtain ⟨b, hb, hsame⟩ := hfields (key, a) ((lookup_eq_some_iff has).mp ha)
      rw [(lookup_eq_some_iff hbs).mpr hb]
      exact .some hsame
    | none =>
      have hsubset : as.map Prod.fst ⊆ bs.map Prod.fst := by
        intro k hk
        obtain ⟨field, hfield, rfl⟩ := List.mem_map.mp hk
        obtain ⟨b, hb, -⟩ := hfields field hfield
        exact List.mem_map.mpr ⟨_, hb, rfl⟩
      have hperm : (as.map Prod.fst).Perm (bs.map Prod.fst) :=
        (List.subperm_of_subset has hsubset).perm_of_length_le (by simp [hlen])
      have hb : ¬ (bs.lookup key).isSome := by
        rw [lookup_isSome_iff hbs, ← hperm.mem_iff, ← lookup_isSome_iff has, ha]
        nofun
      rw [Option.not_isSome_iff_eq_none.mp hb]
      exact .none
  · intro h
    have hkeys : ∀ key, key ∈ as.map Prod.fst ↔ key ∈ bs.map Prod.fst := by
      intro key
      rw [← lookup_isSome_iff has, ← lookup_isSome_iff hbs, isSome_eq_of_rel (h key)]
    have hlen := ((List.perm_ext_iff_of_nodup has hbs).mpr hkeys).length_eq
    rw [List.length_map, List.length_map] at hlen
    refine ⟨hlen, sameFields_iff.mpr fun field hfield => ?_⟩
    have hrel := h field.1
    rw [(lookup_eq_some_iff has).mpr hfield] at hrel
    cases hb : bs.lookup field.1 with
    | none =>
      rw [hb] at hrel
      cases hrel
    | some b =>
      rw [hb] at hrel
      obtain ⟨hsame⟩ := hrel
      exact ⟨b, (lookup_eq_some_iff hbs).mp hb, hsame⟩

theorem rel_congr {α : Type} {R R' : α → α → Prop} {x y : Option α}
    (h : ∀ a, x = some a → ∀ b, y = some b → (R a b ↔ R' a b)) :
    Option.Rel R x y ↔ Option.Rel R' x y := by
  constructor
  · rintro (hR | _)
    · exact .some ((h _ rfl _ rfl).mp hR)
    · exact .none
  · rintro (hR | _)
    · exact .some ((h _ rfl _ rfl).mpr hR)
    · exact .none

/-- Values of two kinds are neither the same nor read alike. -/
theorem same_iff_readAlike_of_kind {a b : Json ν}
    (h : a.kind = b.kind → (Same a b ↔ ReadAlike a b)) : Same a b ↔ ReadAlike a b := by
  by_cases hkind : a.kind = b.kind
  · exact h hkind
  · exact iff_of_false (fun h => hkind (kind_eq_of_same h)) fun h => hkind h.kind_eq

/-- Values are the same if reading along no path tells them apart. -/
theorem same_iff_readAlike {a b : Json ν} (ha : a.DistinctKeys) (hb : b.DistinctKeys) :
    Same a b ↔ ReadAlike a b := by
  refine same_iff_readAlike_of_kind fun hkind => ?_
  induction a, b, hkind using induction₂ with
  | null => exact iff_of_true trivial fun _ => rfl
  | bool b => exact iff_of_true rfl fun _ => rfl
  | number n m =>
    constructor
    · rintro rfl path
      rfl
    · intro h
      cases h []
      rfl
  | string s t =>
    constructor
    · rintro rfl path
      rfl
    · intro h
      cases h []
      rfl
  | array as bs ih =>
    have has := distinctKeysItems_iff.mp ha
    have hbs := distinctKeysItems_iff.mp hb
    rw [same_array_iff, readAlike_array_iff]
    refine forall_congr' fun i => rel_congr fun a hi b hi' => ?_
    have hmem := List.mem_of_getElem? hi
    have hmem' := List.mem_of_getElem? hi'
    exact same_iff_readAlike_of_kind fun hkind => ih a hmem b hkind (has a hmem) (hbs b hmem')
  | object as bs ih =>
    obtain ⟨haskeys, has⟩ := ha
    obtain ⟨hbskeys, hbs⟩ := hb
    rw [distinctKeysFields_iff] at has hbs
    rw [same_object_iff haskeys hbskeys, readAlike_object_iff]
    refine forall_congr' fun key => rel_congr fun a hkey b hkey' => ?_
    have hmem := (lookup_eq_some_iff haskeys).mp hkey
    have hmem' := (lookup_eq_some_iff hbskeys).mp hkey'
    exact same_iff_readAlike_of_kind fun hkind => ih _ hmem b hkind (has _ hmem) (hbs _ hmem')

end Json

/-- `serde_json::Value`. -/
structure Value (ν : Type) where
  json : Json ν
  distinctKeys : json.DistinctKeys

namespace Value
variable {ν : Type} {S : SerdeJson ν}

def Same (a b : Value ν) : Prop := a.json.Same b.json

def canonicalJson (S : SerdeJson ν) (value : Value ν) : String := value.json.canonicalJson S

/-- The canonical text is one for all orders of the fields, and for nothing else. -/
theorem canonicalJson_eq_iff {a b : Value ν} :
    a.canonicalJson S = b.canonicalJson S ↔ a.Same b :=
  ⟨Json.same_of_canonicalJson_eq,
    Json.canonicalJson_eq_of_same a.distinctKeys b.distinctKeys⟩

/-- **Canonical JSON is a canonical form.** Two values of any depth have one canonical text exactly
if they are equal with the objects compared as maps, that is, if reading along no path of items and
fields tells them apart. -/
theorem canonicalJson_canonical (S : SerdeJson ν) (a b : Value ν) :
    (a.canonicalJson S = b.canonicalJson S ↔ a.Same b) ∧
    (a.Same b ↔ ∀ path, a.json.read path = b.json.read path) :=
  ⟨canonicalJson_eq_iff, Json.same_iff_readAlike a.distinctKeys b.distinctKeys⟩

/-- A value is not printed as the mark of an absent one. -/
theorem canonicalJson_ne_none (value : Value ν) : value.canonicalJson S ≠ "<none>" := by
  intro h
  obtain ⟨c, rest, htext, hc⟩ := Json.canonicalJson_first (S := S) value.json
  have hnone : "<none>".toList = c :: rest := h ▸ htext
  have hfirst : "<none>".toList = '<' :: "none>".toList := by decide
  cases (List.cons.inj (hfirst.symm.trans hnone)).1
  cases hc

end Value

/-! ## The laws can be met -/

/-- A backslash before each quote and each backslash. -/
def escapeChars : List Char → List Char
  | [] => []
  | c :: cs => if c = '"' ∨ c = '\\' then '\\' :: c :: escapeChars cs else c :: escapeChars cs

theorem escaped_escapeChars (cs : List Char) : Escaped '"' '\\' (escapeChars cs) := by
  induction cs with
  | nil => exact .nil
  | cons c cs ih =>
    unfold escapeChars
    split
    · exact .escaped c ih
    · next hc => exact .plain (fun h => hc (.inl h)) (fun h => hc (.inr h)) ih

theorem escapeChars_injective : Function.Injective escapeChars := by
  intro cs
  induction cs with
  | nil =>
    intro ds h
    cases ds with
    | nil => rfl
    | cons d ds =>
      unfold escapeChars at h
      split at h <;> cases h
  | cons c cs ih =>
    intro ds h
    cases ds with
    | nil =>
      unfold escapeChars at h
      split at h <;> cases h
    | cons d ds =>
      simp only [escapeChars] at h
      split at h
      · split at h
        · obtain ⟨rfl, htail⟩ := List.cons.inj (List.cons.inj h).2
          rw [ih htail]
        · next hd => exact absurd (.inr (List.cons.inj h).1.symm) hd
      · next hc =>
        split at h
        · exact absurd (.inr (List.cons.inj h).1) hc
        · obtain ⟨rfl, htail⟩ := List.cons.inj h
          rw [ih htail]

/-- One digit for a number. -/
def digitText (n : Fin 10) : String := String.singleton (Char.ofNat (48 + n))

/-- Numbers of one digit, and strings in which only quotes and backslashes are escaped. -/
def digitJson : SerdeJson (Fin 10) where
  numberText := digitText
  stringText s := String.ofList ('"' :: (escapeChars s.toList ++ ['"']))
  numberText_injective := by
    intro n m
    revert n m
    decide
  numberText_ne_empty := by decide
  numberText_chars := by
    intro n c hc
    rw [digitText, String.toList_singleton, List.mem_singleton] at hc
    subst hc
    revert n
    decide
  stringText_injective := by
    intro s t h
    have hbody := List.append_cancel_right (List.cons.inj (String.ofList_injective h)).2
    exact String.toList_inj.mp (escapeChars_injective hbody)
  stringText_quoted s :=
    ⟨escapeChars s.toList, String.toList_ofList, escaped_escapeChars s.toList⟩

namespace Value

/-- An object with two fields, in one order or in the other. -/
def twoFields (swapped : Bool) : Value (Fin 10) where
  json :=
    if swapped then .object [("type", .string "object"), ("limit", .number 3)]
    else .object [("limit", .number 3), ("type", .string "object")]
  distinctKeys := by
    cases swapped <;>
      simp [Json.DistinctKeys, Json.DistinctKeysFields]

theorem canonicalJson_canonical_twoFields :
    (twoFields true).canonicalJson digitJson = "\x7b\"limit\":3,\"type\":\"object\"\x7d" ∧
      (twoFields false).canonicalJson digitJson = "\x7b\"limit\":3,\"type\":\"object\"\x7d" ∧
      ∀ path, (twoFields true).json.read path = (twoFields false).json.read path := by
  have htexts : (twoFields true).canonicalJson digitJson =
      (twoFields false).canonicalJson digitJson := by decide +kernel
  obtain ⟨htext, hread⟩ := canonicalJson_canonical digitJson (twoFields true) (twoFields false)
  exact ⟨by decide +kernel, by decide +kernel, hread.mp (htext.mp htexts)⟩

end Value
end Cachebox
