import Mathlib.Data.List.Induction
import Mathlib.Data.Nat.Digits.Defs
import Mathlib.Data.String.Basic
import Mathlib.Order.Interval.Set.Basic
import Mathlib.Order.Nat

/-!
# Big-endian integers, UTF-8 and don't-care bytes

`BigEndian.toBytes w` writes a number in `w` bytes, the most significant first, and
`BigEndian.ofBytes` reads it back. `Utf8.encode` and `Utf8.decode` are the bytes of a string and
the string of valid bytes. `List.AgreeOutside I` compares two lists at the positions not in `I`.
-/

/-- A loop of writes appends the encodings one after the other. -/
theorem foldl_write {α τ : Type} {write : List τ → α → List τ} {enc : α → List τ}
    (h : ∀ out a, write out a = out ++ enc a) (out : List τ) (as : List α) :
    as.foldl write out = out ++ as.flatMap enc := by
  induction as generalizing out with
  | nil => simp
  | cons a as ih => rw [List.foldl_cons, h, ih, List.flatMap_cons, List.append_assoc]

namespace BigEndian

def toBytes : Nat → Nat → List UInt8
  | 0, _ => []
  | width + 1, value => toBytes width (value / 256) ++ [UInt8.ofNat value]

def ofBytes (bytes : List UInt8) : Nat := bytes.foldl (fun acc byte => acc * 256 + byte.toNat) 0

@[simp] theorem length_toBytes (width value : Nat) : (toBytes width value).length = width := by
  induction width generalizing value with
  | zero => rfl
  | succ width ih => simp [toBytes, ih]

@[simp] theorem ofBytes_concat (bytes : List UInt8) (byte : UInt8) :
    ofBytes (bytes ++ [byte]) = ofBytes bytes * 256 + byte.toNat := by
  simp [ofBytes]

theorem ofBytes_toBytes {width value : Nat} (h : value < 256 ^ width) :
    ofBytes (toBytes width value) = value := by
  induction width generalizing value with
  | zero =>
    rw [Nat.pow_zero] at h
    have hzero : value = 0 := by omega
    rw [hzero]
    rfl
  | succ width ih =>
    have hdiv : value / 256 < 256 ^ width := by
      rw [Nat.pow_succ] at h
      exact Nat.div_lt_of_lt_mul (by omega)
    have hbyte : (UInt8.ofNat value).toNat = value % 256 := UInt8.toNat_ofNat'
    rw [toBytes, ofBytes_concat, ih hdiv, hbyte]
    omega

theorem ofBytes_lt (bytes : List UInt8) : ofBytes bytes < 256 ^ bytes.length := by
  induction bytes using List.reverseRecOn with
  | nil => simp [ofBytes]
  | append_singleton bytes byte ih =>
    have hbyte := byte.toNat_lt
    rw [ofBytes_concat, List.length_append, List.length_singleton, Nat.pow_succ]
    omega

theorem toBytes_ofBytes (bytes : List UInt8) : toBytes bytes.length (ofBytes bytes) = bytes := by
  induction bytes using List.reverseRecOn with
  | nil => rfl
  | append_singleton bytes byte ih =>
    have hbyte := byte.toNat_lt
    have hdiv : (ofBytes bytes * 256 + byte.toNat) / 256 = ofBytes bytes := by omega
    have hmod : UInt8.ofNat (ofBytes bytes * 256 + byte.toNat) = byte := by
      apply UInt8.toNat_inj.mp
      rw [UInt8.toNat_ofNat']
      omega
    rw [List.length_append, List.length_singleton, toBytes, ofBytes_concat, hdiv, ih, hmod]

/-- A type of integers that fit in `width` bytes, seen as natural numbers. -/
structure Word (ω : Type) (width : Nat) where
  ofNat : Nat → ω
  toNat : ω → Nat
  ofNat_toNat : ∀ v, ofNat (toNat v) = v
  toNat_lt : ∀ v, toNat v < 256 ^ width
  toNat_ofNat : ∀ n < 256 ^ width, toNat (ofNat n) = n

def word16 : Word UInt16 2 where
  ofNat := UInt16.ofNat
  toNat := UInt16.toNat
  ofNat_toNat _ := UInt16.ofNat_toNat
  toNat_lt := UInt16.toNat_lt
  toNat_ofNat _ h := UInt16.toNat_ofNat_of_lt h

def word32 : Word UInt32 4 where
  ofNat := UInt32.ofNat
  toNat := UInt32.toNat
  ofNat_toNat _ := UInt32.ofNat_toNat
  toNat_lt := UInt32.toNat_lt
  toNat_ofNat _ h := UInt32.toNat_ofNat_of_lt h

def word64 : Word UInt64 8 where
  ofNat := UInt64.ofNat
  toNat := UInt64.toNat
  ofNat_toNat _ := UInt64.ofNat_toNat
  toNat_lt := UInt64.toNat_lt
  toNat_ofNat _ h := UInt64.toNat_ofNat_of_lt h

variable {ω : Type} {width : Nat} (W : Word ω width)

theorem Word.ofBytes_toBytes (v : ω) : W.ofNat (ofBytes (toBytes width (W.toNat v))) = v := by
  rw [BigEndian.ofBytes_toBytes (W.toNat_lt v), W.ofNat_toNat]

theorem Word.toBytes_ofBytes {bytes : List UInt8} (h : bytes.length = width) :
    toBytes width (W.toNat (W.ofNat (ofBytes bytes))) = bytes := by
  have hlt := ofBytes_lt bytes
  rw [h] at hlt
  rw [W.toNat_ofNat _ hlt, ← h, BigEndian.toBytes_ofBytes]

end BigEndian

namespace Utf8

def encode (s : String) : List UInt8 := s.toByteArray.data.toList

def decode (bytes : List UInt8) : Option String := String.fromUTF8? ⟨bytes.toArray⟩

theorem encode_injective : Function.Injective encode := by
  intro s t h
  apply String.toByteArray_inj.mp
  exact ByteArray.ext (Array.toList_inj.mp h)

theorem decode_eq_some_iff {bytes : List UInt8} {s : String} :
    decode bytes = some s ↔ encode s = bytes := by
  have hstring : ∀ h, encode (String.fromUTF8 ⟨bytes.toArray⟩ h) = bytes := by
    intro h
    simp [encode, String.fromUTF8]
  unfold decode String.fromUTF8?
  constructor
  · intro h
    split at h
    · cases h
      exact hstring _
    · cases h
  · rintro rfl
    have hvalid : (ByteArray.mk (encode s).toArray).IsValidUTF8 := by
      simpa [encode] using s.isValidUTF8
    rw [dif_pos hvalid]
    exact congrArg some (encode_injective (hstring hvalid))

/-- A string is encoded character by character. -/
theorem encode_ofList (cs : List Char) :
    encode (String.ofList cs) = cs.flatMap String.utf8EncodeChar := by
  simp [encode, List.utf8Encode]

theorem encode_eq_flatMap (s : String) : encode s = s.toList.flatMap String.utf8EncodeChar := by
  rw [← encode_ofList, String.ofList_toList]

section
variable {P : UInt8 → Bool} {Q : Char → Bool}

/-- The first byte of a character that is not ASCII is not one either. -/
theorem all_utf8EncodeChar (hhigh : ∀ n, 128 ≤ n → n < 256 → P (UInt8.ofNat n) = false)
    (hlow : ∀ n < 128, P (UInt8.ofNat n) = Q (Char.ofNat n)) (c : Char) :
    (String.utf8EncodeChar c).all P = (decide (c.toNat < 128) && Q c) := by
  have hc := hlow c.toNat
  rw [Char.ofNat_toNat] at hc
  simp only [String.utf8EncodeChar, Char.toNat_val]
  split
  · simp [hc (by omega), show c.toNat < 128 by omega]
  have hlarge : decide (c.toNat < 128) = false := decide_eq_false (by omega)
  rw [hlarge, Bool.false_and]
  split
  · rw [List.all_cons, hhigh _ (by omega) (by omega), Bool.false_and]
  split
  · rw [List.all_cons, hhigh _ (by omega) (by omega), Bool.false_and]
  · rw [List.all_cons, hhigh _ (by omega) (by omega), Bool.false_and]

/-- A test of bytes that only ASCII bytes pass is a test of characters. -/
theorem all_encode (hhigh : ∀ n, 128 ≤ n → n < 256 → P (UInt8.ofNat n) = false)
    (hlow : ∀ n < 128, P (UInt8.ofNat n) = Q (Char.ofNat n)) (s : String) :
    (encode s).all P = s.toList.all fun c => decide (c.toNat < 128) && Q c := by
  rw [encode_eq_flatMap, List.all_flatMap]
  simp only [all_utf8EncodeChar hhigh hlow]

end

theorem length_encode (s : String) : (encode s).length = s.utf8ByteSize := by
  rw [encode, Array.length_toList, ← String.size_toByteArray]
  rfl

theorem utf8Len_of_isDigit {cs : List Char} (h : ∀ c ∈ cs, c.isDigit) :
    String.utf8Len cs = cs.length := by
  induction cs with
  | nil => rfl
  | cons c cs ih =>
    rw [List.forall_mem_cons] at h
    have hc : c.utf8Size = 1 := by
      have hdigit := h.1
      simp only [Char.isDigit, ge_iff_le, Bool.and_eq_true, decide_eq_true_eq] at hdigit
      exact Char.utf8Size_eq_one_iff.mpr (UInt32.le_trans hdigit.2 (by decide))
    rw [String.utf8Len, ih h.2, hc]
    rfl

/-- The decimal digits of a number take up one byte each. -/
theorem length_encode_toString {n e : Nat} (he : 0 < e) (h : n < 10 ^ e) :
    (encode (toString n)).length ≤ e := by
  have hdigits : toString n = String.ofList (Nat.toDigits 10 n) := rfl
  rw [length_encode, hdigits, String.utf8ByteSize_ofList,
    utf8Len_of_isDigit fun c hc => Nat.isDigit_of_mem_toDigits (by decide) (by decide) hc]
  exact Nat.toDigits_length 10 n e he h

end Utf8

namespace List
variable {α : Type*} {I : Set Nat} {xs ys zs : List α}

def AgreeOutside (I : Set Nat) (xs ys : List α) : Prop :=
  xs.length = ys.length ∧ ∀ i, i ∉ I → xs[i]? = ys[i]?

theorem AgreeOutside.symm (h : AgreeOutside I xs ys) : AgreeOutside I ys xs :=
  ⟨h.1.symm, fun i hi => (h.2 i hi).symm⟩

theorem AgreeOutside.trans (h : AgreeOutside I xs ys) (h' : AgreeOutside I ys zs) :
    AgreeOutside I xs zs :=
  ⟨h.1.trans h'.1, fun i hi => (h.2 i hi).trans (h'.2 i hi)⟩

theorem agreeOutside_empty_iff : AgreeOutside ∅ xs ys ↔ xs = ys := by
  constructor
  · intro h
    exact List.ext_getElem? fun i => h.2 i (Set.notMem_empty i)
  · rintro rfl
    exact ⟨rfl, fun _ _ => rfl⟩

theorem drop_eq_extract_append (l : List α) {i j : Nat} (hij : i ≤ j) :
    l.drop i = l.extract i j ++ l.drop j := by
  obtain ⟨k, rfl⟩ := Nat.exists_eq_add_of_le hij
  rw [List.extract_eq_take_drop, Nat.add_sub_cancel_left, ← List.drop_drop,
    List.take_append_drop]

/-- Outside the middle one, only the length of the middle list matters. -/
theorem getElem?_append_middle {as bs cs : List α} {i : Nat}
    (hi : i ∉ Set.Ico as.length (as.length + bs.length)) :
    (as ++ bs ++ cs)[i]? =
      if i < as.length then as[i]? else cs[i - (as.length + bs.length)]? := by
  rw [Set.mem_Ico, not_and, not_lt] at hi
  rw [List.append_assoc, List.getElem?_append, List.getElem?_append]
  split
  · rfl
  · rw [if_neg (by omega), Nat.sub_sub]

/-- To agree with `as ++ bs ++ cs` outside `bs` is to have something as long in its place. -/
theorem agreeOutside_middle_iff {as bs cs : List α} :
    AgreeOutside (Set.Ico as.length (as.length + bs.length)) xs (as ++ bs ++ cs) ↔
      ∃ bs', bs'.length = bs.length ∧ xs = as ++ bs' ++ cs := by
  constructor
  · rintro ⟨hlen, hget⟩
    simp only [List.length_append] at hlen
    have hmiddle : ((xs.drop as.length).take bs.length).length = bs.length := by
      rw [List.length_take, List.length_drop]
      omega
    refine ⟨(xs.drop as.length).take bs.length, hmiddle, ?_⟩
    apply List.ext_getElem?
    intro i
    by_cases hi : i ∈ Set.Ico as.length (as.length + bs.length)
    · obtain ⟨hlow, hhigh⟩ := hi
      rw [List.getElem?_append_left (by rw [List.length_append]; omega),
        List.getElem?_append_right hlow, List.getElem?_take_of_lt (by omega), List.getElem?_drop,
        Nat.add_sub_cancel' hlow]
    · rw [hget i hi, getElem?_append_middle hi, getElem?_append_middle (by rwa [hmiddle]), hmiddle]
  · intro h
    obtain ⟨bs', hlen, rfl⟩ := h
    refine ⟨by simp [hlen], fun i hi => ?_⟩
    rw [getElem?_append_middle hi, getElem?_append_middle (by rwa [hlen]), hlen]

end List
