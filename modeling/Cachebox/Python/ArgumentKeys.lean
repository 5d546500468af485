import Cachebox.Python.Labels
import Cachebox.Python.NormalForm

/-!
# Keys of arguments

The key of an argument is the JSON text of its normal form, and equal keys come from equal normal
forms: a JSON value is printed of one normal form, and its objects are stored in order, so that the
text determines it. The key of a call is the text of the list of its arguments, with their names.
-/

namespace Cachebox
namespace Keys
open Parser

variable {φ : Type} {v w : Arg φ} {n m : Normalized φ} {items : List (Arg φ)}
  {ns : List (Normalized φ)} {entries : List (Arg φ × Arg φ)} {pairs : List (Str × Normalized φ)}

/-! ## The text of a normal form -/

variable {J : JsonDumps φ} {j : Json J.Number} {js : List (Json J.Number)}
  {fields : List (Str × Normalized φ)} {gs : List (String × Json J.Number)}

def Prints (J : JsonDumps φ) (n : Normalized φ) (j : Json J.Number) : Prop := toJson J n = some j

theorem toJsonItems_eq_some_iff :
    toJsonItems J ns = some js ↔ List.Forall₂ (Prints J) ns js := by
  induction ns generalizing js with
  | nil => simp [toJsonItems, eq_comm]
  | cons n ns ih =>
    simp only [toJsonItems, Option.bind_eq_bind, Option.bind_eq_some_iff, ih, Option.pure_def,
      Option.some.injEq, List.forall₂_cons_left_iff, exists_and_left, Prints, eq_comm (b := js)]

theorem toJsonFields_eq_some_iff :
    toJsonFields J fields = some gs ↔
      List.Forall₂ (fun f g => f.1 = .ofString g.1 ∧ Prints J f.2 g.2) fields gs := by
  induction fields generalizing gs with
  | nil => simp [toJsonFields, eq_comm]
  | cons field fields ih =>
    simp only [toJsonFields, Option.bind_eq_bind, Option.bind_eq_some_iff, Str.text?_eq_some_iff,
      ih, List.forall₂_cons_left_iff, Prints, Option.pure_def, Option.some.injEq]
    constructor
    · rintro ⟨key, hkey, value, hvalue, gs, hgs, rfl⟩
      exact ⟨(key, value), gs, ⟨hkey, hvalue⟩, hgs, rfl⟩
    · rintro ⟨⟨key, value⟩, gs, ⟨hkey, hvalue⟩, hgs, rfl⟩
      exact ⟨key, hkey, value, hvalue, gs, hgs, rfl⟩

@[simp] theorem prints_none : Prints J .none j ↔ j = .null := Option.some_inj.trans eq_comm

@[simp] theorem prints_bool {b : Bool} : Prints J (.bool b) j ↔ j = .bool b :=
  Option.some_inj.trans eq_comm

@[simp] theorem prints_int {i : Int} : Prints J (.int i) j ↔ j = .number (.inl i) :=
  Option.some_inj.trans eq_comm

@[simp] theorem prints_float {x : φ} :
    Prints J (.float x) j ↔ ∃ h : J.isFinite x, j = .number (.inr ⟨x, h⟩) :=
  (Option.dite_none_right_eq_some.trans (exists_congr fun _ => Option.some_inj)).trans
    (exists_congr fun _ => eq_comm)

@[simp] theorem prints_str {s : Str} :
    Prints J (.str s) j ↔ ∃ t, s = .ofString t ∧ j = .string t :=
  Option.map_eq_some_iff.trans (exists_congr fun _ => and_congr Str.text?_eq_some_iff eq_comm)

@[simp] theorem prints_list :
    Prints J (.list ns) j ↔ ∃ js, List.Forall₂ (Prints J) ns js ∧ j = .array js :=
  Option.map_eq_some_iff.trans (exists_congr fun _ => and_congr toJsonItems_eq_some_iff eq_comm)

@[simp] theorem prints_dict :
    Prints J (.dict fields) j ↔ ∃ gs,
      List.Forall₂ (fun f g => f.1 = .ofString g.1 ∧ Prints J f.2 g.2) fields gs ∧
        j = .object gs :=
  Option.map_eq_some_iff.trans (exists_congr fun _ => and_congr toJsonFields_eq_some_iff eq_comm)

theorem prints_pair {a b : String} :
    Prints J (.dict [(.ofString a, n), (.ofString b, m)]) j ↔ ∃ k l, Prints J n k ∧ Prints J m l ∧
      j = .object [(a, k), (b, l)] := by
  rw [prints_dict]
  constructor
  · rintro ⟨_, hgs, rfl⟩
    obtain ⟨⟨_, k⟩, _, ⟨ha, hk⟩, hrest, rfl⟩ := List.forall₂_cons_left_iff.mp hgs
    obtain ⟨⟨_, l⟩, _, ⟨hb, hl⟩, hnil, rfl⟩ := List.forall₂_cons_left_iff.mp hrest
    cases hnil
    cases Str.ofString_injective ha
    cases Str.ofString_injective hb
    exact ⟨k, l, hk, hl, rfl⟩
  · rintro ⟨k, l, hk, hl, rfl⟩
    exact ⟨[(a, k), (b, l)], .cons ⟨rfl, hk⟩ (.cons ⟨rfl, hl⟩ .nil), rfl⟩

theorem prints_tagged {type field : String} :
    Prints J (tagged type field n) j ↔ ∃ k, Prints J n k ∧
      j = .object [("__cachebox_type__", .string type), (field, k)] := by
  rw [tagged, prints_pair]
  simp [Str.ofString_injective.eq_iff]

theorem prints_pairList {pair : Str × Normalized φ} :
    Prints J (pairList pair) j ↔ ∃ t k, pair.1 = .ofString t ∧ Prints J pair.2 k ∧
      j = .array [.string t, k] := by
  simp only [pairList, prints_list, prints_str, List.forall₂_cons_left_iff,
    List.forall₂_nil_left_iff]
  constructor
  · rintro ⟨_, ⟨_, _, ⟨t, hkey, rfl⟩, ⟨k, _, hk, rfl, rfl⟩, rfl⟩, rfl⟩
    exact ⟨t, k, hkey, hk, rfl⟩
  · rintro ⟨t, k, hkey, hk, rfl⟩
    exact ⟨_, ⟨_, _, ⟨t, hkey, rfl⟩, ⟨k, _, hk, rfl, rfl⟩, rfl⟩, rfl⟩

/-! ## What is printed as a given JSON value -/

theorem prints_null_iff : Prints J n .null ↔ n = .none := by
  cases n <;> simp

theorem prints_bool_iff {b : Bool} : Prints J n (.bool b) ↔ n = .bool b := by
  cases n <;> simp [eq_comm (a := b)]

theorem prints_int_iff {i : Int} : Prints J n (.number (.inl i)) ↔ n = .int i := by
  cases n <;> simp [eq_comm (a := i)]

theorem prints_float_iff {x : φ} {h : J.isFinite x} :
    Prints J n (.number (.inr ⟨x, h⟩)) ↔ n = .float x := by
  cases n with
  | float y =>
    simp only [prints_float, Json.number.injEq, Sum.inr.injEq, Subtype.mk.injEq, exists_prop,
      Normalized.float.injEq, eq_comm (a := x)]
    exact and_iff_right_of_imp fun hxy => hxy ▸ h
  | _ => simp

theorem prints_string_iff {t : String} : Prints J n (.string t) ↔ n = .str (.ofString t) := by
  cases n <;> simp

theorem prints_array_iff :
    Prints J n (.array js) ↔ ∃ ns, n = .list ns ∧ List.Forall₂ (Prints J) ns js := by
  cases n <;> simp

theorem prints_object_iff :
    Prints J n (.object gs) ↔ ∃ fields, n = .dict fields ∧
      List.Forall₂ (fun f g => f.1 = .ofString g.1 ∧ Prints J f.2 g.2) fields gs := by
  cases n <;> simp

/-- A JSON value is printed of one normal form. -/
theorem Prints.unique (h : Prints J n j) (h' : Prints J m j) : n = m := by
  induction j generalizing n m with
  | null => rw [prints_null_iff.mp h, prints_null_iff.mp h']
  | bool b => rw [prints_bool_iff.mp h, prints_bool_iff.mp h']
  | number x =>
    cases x with
    | inl i => rw [prints_int_iff.mp h, prints_int_iff.mp h']
    | inr x => rw [prints_float_iff.mp h, prints_float_iff.mp h']
  | string t => rw [prints_string_iff.mp h, prints_string_iff.mp h']
  | array js ih =>
    obtain ⟨ns, rfl, hns⟩ := prints_array_iff.mp h
    obtain ⟨ms, rfl, hms⟩ := prints_array_iff.mp h'
    rw [Delimited.eq_of_forall₂ hns hms fun j hj _ _ => ih j hj]
  | object gs ih =>
    obtain ⟨fs, rfl, hfs⟩ := prints_object_iff.mp h
    obtain ⟨fs', rfl, hfs'⟩ := prints_object_iff.mp h'
    rw [Delimited.eq_of_forall₂ hfs hfs' fun g hg _ _ hf hf' =>
      Prod.ext (hf.1.trans hf'.1.symm) (ih g hg hf.2 hf'.2)]

/-! ## Objects in order -/

theorem sortedKeys_tagged {type field : String} (hfield : "__cachebox_type__" < field)
    (h : j.SortedKeys) :
    (Json.object [("__cachebox_type__", .string type), (field, j)]).SortedKeys :=
  ⟨List.pairwise_pair.mpr hfield, trivial, h, trivial⟩

theorem sortedKeys_items (hns : List.Forall₂ Arg.NormalForm items ns)
    (hjs : List.Forall₂ (Prints J) ns js)
    (h : ∀ item ∈ items, ∀ {n j}, item.NormalForm n → Prints J n j → j.SortedKeys) :
    (Json.array js).SortedKeys := by
  refine Json.sortedKeysItems_iff.mpr fun j hj => ?_
  obtain ⟨n, hn, hprints⟩ := Delimited.exists_of_forall₂ hjs.flip hj
  obtain ⟨item, hitem, hform⟩ := Delimited.exists_of_forall₂ hns.flip hn
  exact h item hitem hform hprints

/-- The fields of the objects in the text of a normal form are in order. -/
theorem sortedKeys_of_prints (hn : v.NormalForm n) (hj : Prints J n j) : j.SortedKeys := by
  induction v generalizing n j with
  | none | bool _ | int _ =>
    cases hn
    cases hj
    trivial
  | float x =>
    cases hn
    simp only [Prints, toJson] at hj
    split at hj <;> cases hj
    trivial
  | str s =>
    cases hn
    obtain ⟨t, -, rfl⟩ := prints_str.mp hj
    trivial
  | bytesLike kind b =>
    cases hn
    obtain ⟨k, hk, rfl⟩ := prints_tagged.mp hj
    obtain ⟨t, -, rfl⟩ := prints_str.mp hk
    exact sortedKeys_tagged (by decide) trivial
  | tuple items ih =>
    obtain ⟨ns, hns, rfl⟩ := normalForm_tuple.mp hn
    obtain ⟨k, hk, rfl⟩ := prints_tagged.mp hj
    obtain ⟨js, hjs, rfl⟩ := prints_list.mp hk
    exact sortedKeys_tagged (by decide) (sortedKeys_items hns hjs ih)
  | list items ih =>
    obtain ⟨ns, hns, rfl⟩ := normalForm_list.mp hn
    obtain ⟨js, hjs, rfl⟩ := prints_list.mp hj
    exact sortedKeys_items hns hjs ih
  | mapping entries ih =>
    obtain ⟨pairs, hpairs, rfl⟩ := normalForm_mapping.mp hn
    obtain ⟨js, hjs, rfl⟩ := prints_list.mp hj
    refine Json.sortedKeysItems_iff.mpr fun j hj => ?_
    obtain ⟨_, hmem, hprints⟩ := Delimited.exists_of_forall₂ hjs.flip hj
    obtain ⟨pair, hpair, rfl⟩ := List.mem_map.mp hmem
    obtain ⟨t, k, -, hk, rfl⟩ := prints_pairList.mp hprints
    obtain ⟨entry, hentry, hform⟩ :=
      Delimited.exists_of_forall₂ hpairs.flip ((sortPairs_perm pairs).mem_iff.mp hpair)
    exact ⟨trivial, ih entry hentry hform.2 hk, trivial⟩
  | other repr => cases hn

/-! ## Keys -/

/-- The key of a value: `_json_bytes(_normalize_for_key(value))`. -/
def argumentKey (J : JsonDumps φ) (value : Arg φ) : Except KeyError Bytes := do
  let value ← normalizeForKey value
  jsonBytes J value

variable {key : Bytes}

theorem jsonBytes_eq_ok_iff :
    jsonBytes J n = .ok key ↔
      ∃ j, Prints J n j ∧ key = Utf8.encode (j.canonicalJson J.text) := by
  unfold jsonBytes Prints
  cases toJson J n with
  | none => simp
  | some j => simp [eq_comm]

/-- Equal texts are those of equal normal forms. -/
theorem eq_of_jsonBytes (hn : v.NormalForm n) (hm : w.NormalForm m) (h : jsonBytes J n = .ok key)
    (h' : jsonBytes J m = .ok key) : n = m := by
  obtain ⟨j, hj, rfl⟩ := jsonBytes_eq_ok_iff.mp h
  obtain ⟨k, hk, htext⟩ := jsonBytes_eq_ok_iff.mp h'
  have hsame := Json.same_of_canonicalJson_eq (Utf8.encode_injective htext)
  cases Json.eq_of_same (sortedKeys_of_prints hn hj) (sortedKeys_of_prints hm hk) hsame
  exact hj.unique hk

theorem argumentKey_eq_ok_iff :
    argumentKey J v = .ok key ↔ ∃ n, v.NormalForm n ∧ jsonBytes J n = .ok key :=
  bind_eq_ok_iff

theorem argumentKey_eq_ok_iff_normalForm (hn : v.NormalForm n) (h : argumentKey J v = .ok key) :
    argumentKey J w = .ok key ↔ w.NormalForm n := by
  obtain ⟨m, hm, hkey⟩ := argumentKey_eq_ok_iff.mp h
  cases hn.unique hm
  rw [argumentKey_eq_ok_iff]
  constructor
  · rintro ⟨m, hm, hkey'⟩
    rwa [eq_of_jsonBytes hn hm hkey hkey']
  · exact fun hm => ⟨n, hm, hkey⟩

/-! ## Values that have a key -/

theorem exists_argumentKey_iff (hn : v.NormalForm n) :
    (∃ key, argumentKey J v = .ok key) ↔ ∃ j, Prints J n j := by
  simp only [argumentKey_eq_ok_iff, jsonBytes_eq_ok_iff]
  constructor
  · rintro ⟨_, m, hm, j, hj, -⟩
    exact ⟨j, hn.unique hm ▸ hj⟩
  · rintro ⟨j, hj⟩
    exact ⟨_, n, hn, j, hj, rfl⟩

theorem exists_prints_list :
    (∃ j, Prints J (.list ns) j) ↔ ∀ n ∈ ns, ∃ j, Prints J n j := by
  constructor
  · rintro ⟨j, hj⟩ n hn
    obtain ⟨js, hjs, -⟩ := prints_list.mp hj
    obtain ⟨k, -, hk⟩ := Delimited.exists_of_forall₂ hjs hn
    exact ⟨k, hk⟩
  · intro h
    obtain ⟨js, hjs⟩ := Delimited.exists_forall₂ h
    exact ⟨_, prints_list.mpr ⟨js, hjs, rfl⟩⟩

theorem exists_prints_tagged {type field : String} :
    (∃ j, Prints J (tagged type field n) j) ↔ ∃ j, Prints J n j := by
  simp only [prints_tagged]
  exact ⟨fun ⟨_, k, hk, _⟩ => ⟨k, hk⟩, fun ⟨k, hk⟩ => ⟨_, k, hk, rfl⟩⟩

theorem exists_prints_pairList {pair : Str × Normalized φ} :
    (∃ j, Prints J (pairList pair) j) ↔ pair.1.text?.isSome ∧ ∃ j, Prints J pair.2 j := by
  simp only [prints_pairList, Option.isSome_iff_exists, Str.text?_eq_some_iff]
  exact ⟨fun ⟨_, t, k, ht, hk, _⟩ => ⟨⟨t, ht⟩, k, hk⟩,
    fun ⟨⟨t, ht⟩, k, hk⟩ => ⟨_, t, k, ht, hk, rfl⟩⟩

theorem exists_prints_items (hns : List.Forall₂ Arg.NormalForm items ns)
    (h : ∀ item ∈ items, ∀ {n}, item.NormalForm n → ((∃ j, Prints J n j) ↔ item.Encodable)) :
    (∃ j, Prints J (.list ns) j) ↔ ∀ item ∈ items, item.Encodable := by
  rw [exists_prints_list]
  constructor
  · intro hj item hitem
    obtain ⟨n, hn, hform⟩ := Delimited.exists_of_forall₂ hns hitem
    exact (h item hitem hform).mp (hj n hn)
  · intro hitems n hn
    obtain ⟨item, hitem, hform⟩ := Delimited.exists_of_forall₂ hns.flip hn
    exact (h item hitem hform).mpr (hitems item hitem)

theorem exists_prints_pairs (hpairs : List.Forall₂ NormalPair entries pairs)
    (h : ∀ entry ∈ entries, ∀ {n}, entry.2.NormalForm n →
      ((∃ j, Prints J n j) ↔ entry.2.Encodable)) :
    (∃ j, Prints J (.list ((sortPairs pairs).map pairList)) j) ↔
      ∀ entry ∈ entries, entry.1.Encodable ∧ entry.2.Encodable := by
  rw [exists_prints_list, List.forall_mem_map]
  simp only [exists_prints_pairList, (sortPairs_perm pairs).mem_iff]
  constructor
  · intro hj entry hentry
    obtain ⟨pair, hpair, hkey, hform⟩ := Delimited.exists_of_forall₂ hpairs hentry
    rw [hkey]
    exact ⟨(hj pair hpair).1, (h entry hentry hform).mp (hj pair hpair).2⟩
  · intro hentries pair hpair
    obtain ⟨entry, hentry, hkey, hform⟩ := Delimited.exists_of_forall₂ hpairs.flip hpair
    have hencodable := hentries entry hentry
    rw [hkey] at hencodable
    exact ⟨hencodable.1, (h entry hentry hform).mpr hencodable.2⟩

/-- The normal form of a value without floats is printed exactly if its strings can be encoded. -/
theorem exists_prints_iff (hv : v.Basic) (hn : v.NormalForm n) :
    (∃ j, Prints J n j) ↔ v.Encodable := by
  induction v generalizing n with
  | none | bool _ | int _ =>
    cases hn
    exact iff_of_true ⟨_, rfl⟩ trivial
  | float x => exact hv.elim
  | other repr => exact hv.elim
  | str s =>
    cases hn
    have hstr : (Arg.str s : Arg φ).Encodable ↔ ∃ t, s = .ofString t := by
      simp only [Arg.Encodable, Arg.All, Option.isSome_iff_exists, Str.text?_eq_some_iff]
    rw [hstr]
    simp only [prints_str]
    exact ⟨fun ⟨_, t, ht, _⟩ => ⟨t, ht⟩, fun ⟨t, ht⟩ => ⟨_, t, ht, rfl⟩⟩
  | bytesLike kind b =>
    cases hn
    refine iff_of_true (exists_prints_tagged.mpr ?_) trivial
    exact ⟨_, prints_str.mpr ⟨String.ofList (Base64.encode b), by
      rw [Str.ofString, String.toList_ofList], rfl⟩⟩
  | tuple items ih =>
    obtain ⟨ns, hns, rfl⟩ := normalForm_tuple.mp hn
    rw [Arg.encodable_tuple_iff, exists_prints_tagged, exists_prints_items hns fun item hitem =>
      ih item hitem (Arg.basic_tuple_iff.mp hv item hitem)]
  | list items ih =>
    obtain ⟨ns, hns, rfl⟩ := normalForm_list.mp hn
    rw [Arg.encodable_list_iff, exists_prints_items hns fun item hitem =>
      ih item hitem (Arg.basic_list_iff.mp hv item hitem)]
  | mapping entries ih =>
    obtain ⟨pairs, hpairs, rfl⟩ := normalForm_mapping.mp hn
    rw [Arg.encodable_mapping_iff, exists_prints_pairs hpairs fun entry hentry =>
      ih entry hentry (hv.value_of_mem hentry)]

/-! ## Keys of calls -/

/-- The arguments of a call as one value: the list of the names with their values. -/
def argumentList (arguments : List (Str × Arg φ)) : Arg φ :=
  .list (arguments.map fun argument => .list [.str argument.1, argument.2])

/-- What the key of a call is the text of. -/
def payload (function : Function) (arguments : Normalized φ) : Normalized φ :=
  .dict [(.ofString "function", .str (function.module ++ .ofString "." ++ function.qualname)),
    (.ofString "arguments", arguments)]

variable {function : Function} {keyPrefix : Option Str} {version : Option Version}
  {as bs : List (Str × Arg φ)}

theorem normalForm_argument {name : Str} :
    (Arg.list [.str name, v]).NormalForm m ↔ ∃ n, v.NormalForm n ∧ m = pairList (name, n) := by
  simp only [normalForm_list, List.forall₂_cons_left_iff, List.forall₂_nil_left_iff, normalForm_str]
  constructor
  · rintro ⟨_, ⟨_, _, rfl, ⟨n, _, hn, rfl, rfl⟩, rfl⟩, rfl⟩
    exact ⟨n, hn, rfl⟩
  · rintro ⟨n, hn, rfl⟩
    exact ⟨_, ⟨_, _, rfl, ⟨n, _, hn, rfl, rfl⟩, rfl⟩, rfl⟩

theorem normalForm_argumentList :
    (argumentList as).NormalForm n ↔
      ∃ pairs, normalizePairs (as.map fun (name, value) => (.str name, value)) = .ok pairs ∧
        n = .list (pairs.map pairList) := by
  rw [argumentList, normalForm_list]
  simp only [normalizePairs_eq_ok_iff, List.forall₂_map_left_iff]
  constructor
  · rintro ⟨ns, hns, rfl⟩
    induction hns with
    | nil => exact ⟨[], .nil, rfl⟩
    | cons hn _ ih =>
      obtain ⟨pairs, hpairs, heq⟩ := ih
      obtain ⟨n, hvalue, rfl⟩ := normalForm_argument.mp hn
      cases heq
      exact ⟨_ :: pairs, .cons ⟨rfl, hvalue⟩ hpairs, rfl⟩
  · rintro ⟨pairs, hpairs, rfl⟩
    refine ⟨_, List.forall₂_map_right_iff.mpr (hpairs.imp ?_), rfl⟩
    rintro ⟨name, v⟩ ⟨_, n⟩ ⟨⟨⟩, hn⟩
    exact normalForm_argument.mpr ⟨n, hn, rfl⟩

theorem buildFunctionKey_eq_ok_iff {bytes : Bytes} :
    buildFunctionKey J function keyPrefix version none (.ok as) = .ok bytes ↔
      ∃ n key, (argumentList as).NormalForm n ∧ jsonBytes J (payload function n) = .ok key ∧
        joinKeyParts keyPrefix version key = .ok bytes := by
  simp only [buildFunctionKey, bind_eq_ok_iff, normalForm_argumentList, payload]
  constructor
  · rintro ⟨pairs, hpairs, key, hkey, hjoin⟩
    exact ⟨_, key, ⟨pairs, hpairs, rfl⟩, hkey, hjoin⟩
  · rintro ⟨_, key, ⟨pairs, hpairs, rfl⟩, hkey, hjoin⟩
    exact ⟨pairs, hpairs, key, hkey, hjoin⟩

theorem prints_payload :
    Prints J (payload function n) j ↔ ∃ t k,
      function.module ++ .ofString "." ++ function.qualname = .ofString t ∧ Prints J n k ∧
        j = .object [("function", .string t), ("arguments", k)] := by
  rw [payload, prints_pair]
  simp only [prints_str]
  constructor
  · rintro ⟨_, k, ⟨t, ht, rfl⟩, hk, rfl⟩
    exact ⟨t, k, ht, hk, rfl⟩
  · rintro ⟨t, k, ht, hk, rfl⟩
    exact ⟨_, k, ⟨t, ht, rfl⟩, hk, rfl⟩

/-- The name under which a function is known in keys. -/
def Function.name (function : Function) : Str :=
  function.module ++ .ofString "." ++ function.qualname

theorem payload_inj {function function' : Function} (hn : v.NormalForm n) (hm : w.NormalForm m)
    (h : jsonBytes J (payload function n) = .ok key)
    (h' : jsonBytes J (payload function' m) = .ok key) :
    function.name = function'.name ∧ n = m := by
  obtain ⟨_, hprints, rfl⟩ := jsonBytes_eq_ok_iff.mp h
  obtain ⟨_, hprints', htext⟩ := jsonBytes_eq_ok_iff.mp h'
  obtain ⟨t, j, ht, hj, rfl⟩ := prints_payload.mp hprints
  obtain ⟨t', k, ht', hk, rfl⟩ := prints_payload.mp hprints'
  obtain ⟨-, ⟨k₀, hmem₀, hsame₀⟩, ⟨k', hmem, hsame⟩, -⟩ :=
    Json.same_of_canonicalJson_eq (Utf8.encode_injective htext)
  obtain rfl : k' = k := by simpa using hmem
  obtain rfl : k₀ = .string t' := by simpa using hmem₀
  cases Json.eq_of_same (sortedKeys_of_prints hn hj) (sortedKeys_of_prints hm hk) hsame
  obtain rfl : t = t' := by simpa [Json.Same] using hsame₀
  exact ⟨ht.trans ht'.symm, hj.unique hk⟩

theorem buildFunctionKey_eq_ok_iff_normalForm {bytes : Bytes} (hn : (argumentList as).NormalForm n)
    (h : buildFunctionKey J function keyPrefix version none (.ok as) = .ok bytes) :
    buildFunctionKey J function keyPrefix version none (.ok bs) = .ok bytes ↔
      (argumentList bs).NormalForm n := by
  obtain ⟨m, key, hm, hkey, hjoin⟩ := buildFunctionKey_eq_ok_iff.mp h
  cases hn.unique hm
  rw [buildFunctionKey_eq_ok_iff]
  constructor
  · rintro ⟨m, key', hm, hkey', hjoin'⟩
    obtain ⟨-, -, rfl⟩ := joinKeyParts_inj hjoin hjoin' rfl rfl
    rwa [(payload_inj hn hm hkey hkey').2]
  · exact fun hm => ⟨n, key, hm, hkey, hjoin⟩

theorem basic_argumentList (h : ∀ a ∈ as, a.2.Basic) : (argumentList as).Basic := by
  refine Arg.basic_list_iff.mpr (List.forall_mem_map.mpr fun a ha => ?_)
  exact ⟨trivial, trivial, h a ha, trivial⟩

theorem same_argumentList_iff (hnames : List.Forall₂ (fun a b => a.1 = b.1) as bs) :
    (argumentList as).Same (argumentList bs) ↔ List.Forall₂ (fun a b => a.2.Same b.2) as bs := by
  unfold argumentList
  induction hnames with
  | nil => simp [Arg.Same, Arg.SameItems]
  | cons hname _ ih =>
    simp only [Arg.Same] at ih
    simp [Arg.Same, Arg.SameItems, hname, ih]

theorem dictsAgree_argumentList_iff (hnames : List.Forall₂ (fun a b => a.1 = b.1) as bs) :
    (argumentList as).DictsAgree (argumentList bs) ↔
      List.Forall₂ (fun a b => a.2.DictsAgree b.2) as bs := by
  unfold argumentList
  induction hnames with
  | nil => simp [Arg.DictsAgree, Arg.DictsAgreeItems]
  | cons _ _ ih =>
    simp only [Arg.DictsAgree] at ih
    simp [Arg.DictsAgree, Arg.DictsAgreeItems, ih]

/-- **What the keys of arguments tell apart.** A value built from `None`, bools, integers, strings,
bytes, tuples, lists and dicts with strings as keys has a key if its strings can be encoded. Another
one has that key and its dicts in the same places exactly if it has the same type and structure,
with dicts compared regardless of their order; and so for two calls of one function. -/
theorem argumentKey_eq_iff_same (J : JsonDumps φ) :
    (∀ v : Arg φ, v.Basic → ((∃ key, argumentKey J v = .ok key) ↔ v.Encodable)) ∧
    (∀ (v w : Arg φ) key, v.Basic → w.Basic → argumentKey J v = .ok key →
      (v.Same w ↔ argumentKey J w = .ok key ∧ v.DictsAgree w)) ∧
    ∀ function keyPrefix version (as bs : List (Str × Arg φ)) key,
      as.map Prod.fst = bs.map Prod.fst → (∀ a ∈ as, a.2.Basic) → (∀ b ∈ bs, b.2.Basic) →
      buildFunctionKey J function keyPrefix version none (.ok as) = .ok key →
      (List.Forall₂ (fun a b => a.2.Same b.2) as bs ↔
        buildFunctionKey J function keyPrefix version none (.ok bs) = .ok key ∧
          List.Forall₂ (fun a b => a.2.DictsAgree b.2) as bs) := by
  refine ⟨fun v hv => ?_, fun v w key hv hw hkey => ?_, ?_⟩
  · obtain ⟨n, hn⟩ := exists_normalForm hv
    rw [exists_argumentKey_iff hn, exists_prints_iff hv hn]
  · obtain ⟨n, hn⟩ := exists_normalForm hv
    rw [argumentKey_eq_ok_iff_normalForm hn hkey, same_iff_normalForm hv hw hn]
  · intro function keyPrefix version as bs key hnames has hbs hkey
    obtain ⟨n, hn⟩ := exists_normalForm (basic_argumentList has)
    rw [← List.forall₂_eq_eq_eq, List.forall₂_map_left_iff, List.forall₂_map_right_iff] at hnames
    rw [← same_argumentList_iff hnames, ← dictsAgree_argumentList_iff hnames,
      buildFunctionKey_eq_ok_iff_normalForm hn hkey,
      same_iff_normalForm (basic_argumentList has) (basic_argumentList hbs) hn]

/-- A dict with two items, in either order. -/
def twoItems : Bool → Arg Empty
  | false => .mapping [(.str (.ofString "a"), .int 1), (.str (.ofString "b"), .none)]
  | true => .mapping [(.str (.ofString "b"), .none), (.str (.ofString "a"), .int 1)]

theorem basic_twoItems (swapped : Bool) : (twoItems swapped).Basic := by
  have hkeys : Str.ofString "a" ≠ Str.ofString "b" := by decide
  cases swapped <;>
    simp [twoItems, Arg.Basic, Arg.All, Arg.AllEntries, Arg.IsBasic, hkeys, hkeys.symm]

theorem encodable_twoItems : (twoItems false).Encodable := by
  simp [twoItems, Arg.Encodable, Arg.All, Arg.AllEntries]

theorem same_twoItems : (twoItems false).Same (twoItems true) := by
  refine Arg.same_mapping_iff.mpr ⟨_, rfl, Eq.refl 2, Arg.sameEntries_iff.mpr ?_⟩
  simp [Arg.same_int_iff, Arg.same_none_iff]

theorem argumentKey_eq_iff_same_twoItems :
    (∃ key, argumentKey decimalJson (twoItems false) = .ok key ∧
      argumentKey decimalJson (twoItems true) = .ok key) ∧
    ∃ key, buildFunctionKey decimalJson ⟨.ofString "m", .ofString "f"⟩ none none none
        (.ok [(.ofString "x", twoItems false)]) = .ok key ∧
      buildFunctionKey decimalJson ⟨.ofString "m", .ofString "f"⟩ none none none
        (.ok [(.ofString "x", twoItems true)]) = .ok key := by
  obtain ⟨hencodable, hvalues, hcalls⟩ := argumentKey_eq_iff_same decimalJson
  have hbasic := basic_twoItems false
  have hbasic' := basic_twoItems true
  constructor
  · obtain ⟨key, hkey⟩ := (hencodable _ hbasic).mpr encodable_twoItems
    exact ⟨key, hkey, ((hvalues _ _ key hbasic hbasic' hkey).mp same_twoItems).1⟩
  · obtain ⟨key, hkey⟩ : ∃ key, buildFunctionKey decimalJson ⟨.ofString "m", .ofString "f"⟩ none
        none none (.ok [(.ofString "x", twoItems false)]) = .ok key := ⟨_, rfl⟩
    refine ⟨key, hkey, ((hcalls _ none none [(_, twoItems false)] [(_, twoItems true)] key rfl ?_ ?_
      hkey).mp (.cons same_twoItems .nil)).1⟩
    · exact List.forall_mem_singleton.mpr hbasic
    · exact List.forall_mem_singleton.mpr hbasic'

/-- A dict is not tagged: the empty one has the key of the empty list, `[]`, and others have that of
the list of their pairs, in calls as well. -/
theorem argumentKey_dict_eq_list :
    (Arg.mapping [] : Arg Empty).Basic ∧ (Arg.list [] : Arg Empty).Basic ∧
    ¬ (Arg.mapping [] : Arg Empty).Same (.list []) ∧
    argumentKey decimalJson (.mapping []) = .ok [91, 93] ∧
    argumentKey decimalJson (.list []) = .ok [91, 93] ∧
    argumentKey decimalJson (.mapping [(.str (.ofString "a"), .int 1)]) =
      argumentKey decimalJson (.list [.list [.str (.ofString "a"), .int 1]]) ∧
    ∃ key, buildFunctionKey decimalJson ⟨.ofString "m", .ofString "f"⟩ none none none
        (.ok [(.ofString "x", .mapping [])]) = .ok key ∧
      buildFunctionKey decimalJson ⟨.ofString "m", .ofString "f"⟩ none none none
        (.ok [(.ofString "x", .list [])]) = .ok key := by
  refine ⟨⟨⟨.nil, List.forall_mem_nil _⟩, trivial⟩, ⟨trivial, trivial⟩, id, ?_, ?_, rfl, _, rfl,
    rfl⟩
  · decide
  · decide

end Keys
end Cachebox
