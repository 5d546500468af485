import Mathlib.Data.List.Lex
import Mathlib.Data.List.Sort
import Mathlib.Order.Fin.Basic
import Cachebox.Client.Json
import Cachebox.Engine.Basic
import Cachebox.Theory.Base64
import Cachebox.Theory.Bytes

/-!
# Keys of the high-level Python API (`clients/python/python/cachebox/keys.py`)

The key of a call is the JSON text of the normalised arguments, behind an optional prefix and an
optional version. A `str` is a list of code points, among which there may be surrogates: these are
what `encode` refuses. `json.dumps`, with sorted keys and without blanks, prints the canonical text
of `Cachebox.Json`; of how it prints numbers and strings only the laws are known.
-/

namespace Cachebox
namespace Keys

/-! ## Strings -/

abbrev CodePoint := Fin 0x110000

abbrev Str := List CodePoint

namespace Str

theorem toNat_lt (c : Char) : c.toNat < 0x110000 := by
  have hvalid : c.toNat.isValidChar := c.valid
  simp only [Nat.isValidChar] at hvalid
  omega

def ofChar (c : Char) : CodePoint := ⟨c.toNat, toNat_lt c⟩

def ofChars (cs : List Char) : Str := cs.map ofChar

def ofString (s : String) : Str := ofChars s.toList

theorem ofChar_injective : Function.Injective ofChar := by
  intro c d h
  exact Char.toNat_inj.mp (Fin.mk.inj h)

theorem ofString_injective : Function.Injective ofString := by
  intro s t h
  exact String.toList_inj.mp (List.map_injective_iff.mpr ofChar_injective h)

def isSurrogate (c : CodePoint) : Bool := 0xd800 ≤ c.val ∧ c.val ≤ 0xdfff

/-- The text of a string without surrogates. -/
def text? (s : Str) : Option String :=
  if s.any isSurrogate then none else some (String.ofList (s.map fun c => Char.ofNat c.val))

theorem isSurrogate_ofChar (c : Char) : isSurrogate (ofChar c) = false := by
  have hvalid : c.toNat.isValidChar := c.valid
  simp only [Nat.isValidChar] at hvalid
  have hrange : ¬(0xd800 ≤ c.toNat ∧ c.toNat ≤ 0xdfff) := by omega
  exact decide_eq_false hrange

theorem ofChar_ofNat {c : CodePoint} (h : isSurrogate c = false) :
    ofChar (Char.ofNat c.val) = c := by
  have hlt := c.isLt
  simp only [isSurrogate, decide_eq_false_iff_not] at h
  have hvalid : c.val.isValidChar := by
    simp only [Nat.isValidChar]
    omega
  apply Fin.ext
  rw [Char.ofNat, dif_pos hvalid]
  rfl

/-- A string has a text exactly if it is that of the text. -/
theorem text?_eq_some_iff {s : Str} {t : String} : s.text? = some t ↔ s = ofString t := by
  unfold text?
  constructor
  · intro h
    split at h
    · cases h
    · next hany =>
      cases h
      rw [Bool.not_eq_true, List.any_eq_false] at hany
      rw [ofString, ofChars, String.toList_ofList, List.map_map]
      have hback : s.map (ofChar ∘ fun c => Char.ofNat c.val) = s.map id :=
        List.map_congr_left fun c hc => ofChar_ofNat (Bool.eq_false_of_not_eq_true (hany c hc))
      rw [hback, List.map_id]
  · rintro rfl
    have hany : (ofString t).any isSurrogate = false := by
      simp [ofString, ofChars, isSurrogate_ofChar]
    have hback : (ofString t).map (fun c => Char.ofNat c.val) = t.toList := by
      rw [ofString, ofChars, List.map_map]
      refine (List.map_congr_left fun c _ => ?_).trans (List.map_id _)
      exact Char.ofNat_toNat c
    rw [hany, if_neg Bool.false_ne_true, hback, String.ofList_toList]

@[simp] theorem text?_ofString (t : String) : (ofString t).text? = some t :=
  text?_eq_some_iff.mpr rfl

/-- `s.encode("utf-8")`. -/
def encodeUtf8 (s : Str) : Option Bytes := s.text?.map Utf8.encode

/-- `s.encode("ascii")`. -/
def encodeAscii (s : Str) : Option Bytes :=
  if s.all (·.val < 128) then some (s.map fun c => UInt8.ofNat c.val) else none

def ofByte (b : UInt8) : CodePoint := ⟨b.toNat, b.toNat_lt.trans (by decide)⟩

theorem eq_of_encodeAscii {s : Str} {bytes : Bytes} (h : s.encodeAscii = some bytes) :
    s = bytes.map ofByte := by
  unfold encodeAscii at h
  split at h
  · next hall =>
    cases h
    rw [List.all_eq_true] at hall
    rw [List.map_map]
    have hback : s.map (ofByte ∘ fun c => UInt8.ofNat c.val) = s.map id := by
      refine List.map_congr_left fun c hc => Fin.ext ?_
      have hlt := of_decide_eq_true (hall c hc)
      exact UInt8.toNat_ofNat_of_lt (hlt.trans (by decide))
    rw [hback, List.map_id]
  · cases h

end Str

inductive KeyError where
  | keyBuildError (message : Str)
  | unicodeEncodeError
  deriving DecidableEq

def keyBuildError (message : String) : KeyError := .keyBuildError (.ofString message)

/-! ## Values -/

inductive BytesKind where
  | bytes | bytearray | memoryview
  deriving DecidableEq

/-- The Python objects that `_normalize_for_key` tells apart, with any type of floats. The items of
a mapping are in the order of its iteration, and of any other object only its `repr` is known. -/
inductive Arg (φ : Type) where
  | none
  | bool (b : Bool)
  | int (n : Int)
  | float (x : φ)
  | str (s : Str)
  | bytesLike (kind : BytesKind) (b : Bytes)
  | tuple (items : List (Arg φ))
  | list (items : List (Arg φ))
  | mapping (items : List (Arg φ × Arg φ))
  | other (repr : Str)

/-- The Python objects that `_normalize_for_key` returns. -/
inductive Normalized (φ : Type) where
  | none
  | bool (b : Bool)
  | int (n : Int)
  | float (x : φ)
  | str (s : Str)
  | list (items : List (Normalized φ))
  | dict (fields : List (Str × Normalized φ))

variable {φ : Type}

/-- An object that carries the type of what it stands for. -/
def tagged (type field : String) (value : Normalized φ) : Normalized φ :=
  .dict [(.ofString "__cachebox_type__", .str (.ofString type)), (.ofString field, value)]

/-- `normalized.sort(key=lambda pair: pair[0])`. -/
def sortPairs (pairs : List (Str × Normalized φ)) : List (Str × Normalized φ) :=
  pairs.insertionSort fun x y => x.1 ≤ y.1

/-- A pair is a list of two. -/
def pairList (pair : Str × Normalized φ) : Normalized φ := .list [.str pair.1, pair.2]

mutual

/-- `_normalize_for_key`. -/
def normalizeForKey : Arg φ → Except KeyError (Normalized φ)
  | .none => .ok .none
  | .bool b => .ok (.bool b)
  | .int n => .ok (.int n)
  | .float x => .ok (.float x)
  | .str s => .ok (.str s)
  | .bytesLike _ b => .ok (tagged "bytes" "base64" (.str (.ofChars (Base64.encode b))))
  | .tuple items => do
    let items ← normalizeItems items
    return tagged "tuple" "items" (.list items)
  | .list items => do
    let items ← normalizeItems items
    return .list items
  | .mapping items => do
    let normalized ← normalizePairs items
    return .list ((sortPairs normalized).map pairList)
  | .other repr => .error (.keyBuildError
      (.ofString "unsupported key value " ++ repr ++
        .ofString "; pass key_func or explicit key template"))

def normalizeItems : List (Arg φ) → Except KeyError (List (Normalized φ))
  | [] => .ok []
  | item :: items => do
    let value ← normalizeForKey item
    let values ← normalizeItems items
    return value :: values

/-- The loop of `_normalize_mapping`. -/
def normalizePairs : List (Arg φ × Arg φ) → Except KeyError (List (Str × Normalized φ))
  | [] => .ok []
  | (.str key, item) :: items => do
    let value ← normalizeForKey item
    let pairs ← normalizePairs items
    return (key, value) :: pairs
  | _ :: _ => .error (keyBuildError "mapping keys used in cache keys must be strings")

end

/-! ## JSON -/

/-- How `json.dumps` prints the numbers that it accepts, and strings. The interpreter also refuses
integers of more than 4300 digits and values that are nested too deeply; keys of those are left
out. -/
structure JsonDumps (φ : Type) where
  isFinite : φ → Bool
  text : SerdeJson (Int ⊕ {x : φ // isFinite x})

variable (J : JsonDumps φ)

/-- The numbers that `json.dumps` prints. -/
abbrev JsonDumps.Number := Int ⊕ {x : φ // J.isFinite x}

mutual

/-- What `json.dumps` prints and `encode` encodes. Floats that are not finite and strings with
surrogates are refused. -/
def toJson : Normalized φ → Option (Json J.Number)
  | .none => some .null
  | .bool b => some (.bool b)
  | .int n => some (.number (.inl n))
  | .float x => if h : J.isFinite x then some (.number (.inr ⟨x, h⟩)) else Option.none
  | .str s => s.text?.map .string
  | .list items => (toJsonItems items).map .array
  | .dict fields => (toJsonFields fields).map .object

def toJsonItems : List (Normalized φ) → Option (List (Json J.Number))
  | [] => some []
  | item :: items => do
    let value ← toJson item
    let values ← toJsonItems items
    return value :: values

def toJsonFields : List (Str × Normalized φ) → Option (List (String × Json J.Number))
  | [] => some []
  | (key, item) :: fields => do
    let key ← key.text?
    let value ← toJson item
    let values ← toJsonFields fields
    return (key, value) :: values

end

/-- `_json_bytes`. -/
def jsonBytes (value : Normalized φ) : Except KeyError Bytes :=
  match toJson J value with
  | some json => .ok (Utf8.encode (json.canonicalJson J.text))
  | none => .error (keyBuildError "key contains values that cannot be JSON encoded")

theorem toDigits_injective : Function.Injective (Nat.toDigits 10) := by
  intro n m h
  rw [← Nat.ofDigitChars_toDigits (b := 10) (n := n) (by decide) (by decide), h,
    Nat.ofDigitChars_toDigits (by decide) (by decide)]

/-- The characters of an integer: digits, behind a sign where it is negative. -/
theorem toList_repr (n : Int) :
    n.repr.toList =
      if 0 ≤ n then Nat.toDigits 10 n.toNat else '-' :: Nat.toDigits 10 (-n).toNat := by
  rw [Int.repr_eq_if]
  split <;> simp [Nat.repr_eq_ofList_toDigits]

theorem isDigit_of_mem_toDigits {n : Nat} {c : Char} (h : c ∈ Nat.toDigits 10 n) : c.isDigit :=
  Nat.isDigit_of_mem_toDigits (by decide) (by decide) h

theorem notMem_toDigits (n : Nat) : '-' ∉ Nat.toDigits 10 n := fun h =>
  absurd (isDigit_of_mem_toDigits h) (by decide)

theorem repr_injective : Function.Injective Int.repr := by
  intro n m h
  have hlist := congrArg String.toList h
  rw [toList_repr, toList_repr] at hlist
  split at hlist <;> split at hlist
  · have := toDigits_injective hlist
    omega
  · exact absurd (hlist ▸ List.mem_cons_self) (notMem_toDigits n.toNat)
  · exact absurd (hlist ▸ List.mem_cons_self) (notMem_toDigits m.toNat)
  · have := toDigits_injective (List.cons.inj hlist).2
    omega

/-- Integers in decimal, no floats, and strings in which only quotes and backslashes are escaped. -/
def decimalJson : JsonDumps Empty where
  isFinite := nofun
  text :=
    { numberText := fun
        | .inl n => n.repr
        | .inr x => x.1.elim
      stringText := digitJson.stringText
      numberText_injective := by
        rintro (n | x) (m | y) h
        · exact congrArg Sum.inl (repr_injective h)
        · exact y.1.elim
        · exact x.1.elim
        · exact x.1.elim
      numberText_ne_empty := by
        rintro (n | x) h
        · have hnil := congrArg String.toList h
          rw [toList_repr] at hnil
          split at hnil
          · exact absurd hnil Nat.toDigits_ne_nil
          · cases hnil
        · exact x.1.elim
      numberText_chars := by
        rintro (n | x) c hc
        · rw [toList_repr] at hc
          rw [isNumberChar, Bool.or_eq_true]
          split at hc
          · exact .inl (isDigit_of_mem_toDigits hc)
          · obtain rfl | hc := List.mem_cons.mp hc
            · exact .inr (by decide)
            · exact .inl (isDigit_of_mem_toDigits hc)
        · exact x.1.elim
      stringText_injective := digitJson.stringText_injective
      stringText_quoted := digitJson.stringText_quoted }

/-! ## Prefix and version -/

inductive Version where
  | str (s : Str)
  | int (n : Int)

/-- `str(version)`. -/
def Version.toStr : Version → Str
  | .str s => s
  | .int n => .ofString n.repr

/-- `_safe_label`. -/
def safeLabel (value : Str) (label : String) : Except KeyError Bytes :=
  if value = [] then .error (keyBuildError (label ++ " cannot be empty"))
  else
    match value.encodeAscii with
    | none => .error (keyBuildError (label ++ " must be ASCII"))
    | some encoded =>
      if 58 ∈ encoded then .error (keyBuildError (label ++ " cannot contain ':'"))
      else .ok encoded

/-- Append a label to the parts of a key, if there is one. -/
def appendLabel (parts : List Bytes) (value : Option Str) (label : String) :
    Except KeyError (List Bytes) :=
  match value with
  | none => .ok parts
  | some value => do
    let encoded ← safeLabel value label
    return parts ++ [encoded]

/-- `_join_key_parts`. -/
def joinKeyParts (keyPrefix : Option Str) (version : Option Version) (key : Bytes) :
    Except KeyError Bytes := do
  let parts ← appendLabel [] keyPrefix "prefix"
  let parts ← appendLabel parts (version.map Version.toStr) "version"
  return [58].intercalate (parts ++ [key])

/-! ## Keys of calls -/

/-- The key that `build_custom_key` makes of a value, before prefix and version. -/
def customKey : Arg φ → Except KeyError Bytes
  | .bytesLike .bytes b => .ok b
  | .str s =>
    match s.encodeUtf8 with
    | some key => .ok key
    | none => .error .unicodeEncodeError
  | value => do
    let value ← normalizeForKey value
    jsonBytes J value

/-- `build_custom_key`. -/
def buildCustomKey (value : Arg φ) (keyPrefix : Option Str) (version : Option Version) :
    Except KeyError Bytes := do
  let key ← customKey J value
  joinKeyParts keyPrefix version key

structure Function where
  module : Str
  qualname : Str

/-- `build_function_key`. What `key_func` returns and what `Signature.bind` makes of the arguments,
with the defaults applied, are inputs: the latter is the text of an error, or the names of the
parameters with their values, in the order of the signature. -/
def buildFunctionKey (function : Function) (keyPrefix : Option Str) (version : Option Version)
    (keyFunc : Option (Arg φ)) (bound : Except Str (List (Str × Arg φ))) :
    Except KeyError Bytes :=
  match keyFunc with
  | some value => buildCustomKey J value keyPrefix version
  | none =>
    match bound with
    | .error error => .error (.keyBuildError error)
    | .ok arguments => do
      let pairs ← normalizePairs (arguments.map fun (name, value) => (.str name, value))
      let payload := .dict
        [(.ofString "function", .str (function.module ++ .ofString "." ++ function.qualname)),
          (.ofString "arguments", .list (pairs.map pairList))]
      let key ← jsonBytes J payload
      joinKeyParts keyPrefix version key

end Keys
end Cachebox
