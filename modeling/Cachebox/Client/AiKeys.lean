import Cachebox.Client.Ai

/-!
# Cache keys of prompts and embeddings

The cache key of a request is a fixed text and the digest of its normalised form in hexadecimal
digits. A digest can be that of two requests. But two requests get the same key only that way: the
digits tell all digests apart, the texts tell prompts from embeddings, and normalised forms that
differ in one byte have different digests, because each step of the digest is a bijection.
-/

namespace Cachebox
namespace Ai

def promptKeyPrefix : Bytes := ascii "ai:prompt:v1:"

def embeddingKeyPrefix : Bytes := ascii "ai:embedding:v1:"

def fnvOffsetBasis : BitVec 128 := 0x6c62272e07bb014262b821756295c58d#128

def fnvPrime : BitVec 128 := 0x0000000001000000000000000000013b#128

/-- The body of the fold of `fnv1a_128`. -/
def fnvStep (hash : BitVec 128) (byte : UInt8) : BitVec 128 :=
  (hash ^^^ byte.toBitVec.setWidth 128) * fnvPrime

def fnv1a128 (bytes : Bytes) : BitVec 128 := bytes.foldl fnvStep fnvOffsetBasis

def hexDigits : Bytes := ascii "0123456789abcdef"

/-- The digit of `value` that stands `shift` bits from the right. -/
def hexDigitAt (value : BitVec 128) (shift : Nat) : UInt8 :=
  hexDigits.getD ((value >>> shift) &&& 0xf#128).toNat 0

def writeHexU128 (value : BitVec 128) (out : Bytes) : Bytes :=
  out ++ (List.range 32).reverse.map fun i => hexDigitAt value (4 * i)

def digestKey (keyPrefix : Bytes) (digest : BitVec 128) : Bytes := writeHexU128 digest keyPrefix

section
variable {ν : Type} (S : SerdeJson ν)

def promptCacheKey (input : PromptCacheKeyInput ν) : Bytes :=
  digestKey promptKeyPrefix (fnv1a128 (normalizePromptInput S input))

def embeddingCacheKey (input : EmbeddingCacheKeyInput ν) : Bytes :=
  digestKey embeddingKeyPrefix (fnv1a128 (normalizeEmbeddingInput S input))

end

/-! ## The digits -/

theorem eq_of_hexDigits {d d' : Nat} (hd : d < 16) (hd' : d' < 16)
    (h : hexDigits.getD d 0 = hexDigits.getD d' 0) : d = d' := by
  have hall : ∀ d < 16, ∀ d' < 16, hexDigits.getD d 0 = hexDigits.getD d' 0 → d = d' := by
    decide +kernel
  exact hall d hd d' hd' h

theorem toNat_and_lt (value : BitVec 128) : (value &&& 0xf#128).toNat < 16 := by
  rw [BitVec.toNat_and]
  exact Nat.lt_of_le_of_lt Nat.and_le_right (by decide)

theorem writeHexU128_injective (out : Bytes) :
    Function.Injective fun value => writeHexU128 value out := by
  intro a b h
  have hdigits := List.map_inj_left.mp (List.append_cancel_left h)
  refine BitVec.eq_of_getLsbD_eq fun i hi => ?_
  -- bit `i` is bit `i % 4` of the digit at `4 * (i / 4)`
  have hmem : i / 4 ∈ (List.range 32).reverse := by
    rw [List.mem_reverse, List.mem_range]
    omega
  have hdigit := BitVec.eq_of_toNat_eq
    (eq_of_hexDigits (toNat_and_lt _) (toNat_and_lt _) (hdigits _ hmem))
  have hbit := congrArg (BitVec.getLsbD · (i % 4)) hdigit
  have hmask : (0xf#128).getLsbD (i % 4) = true := by
    have hall : ∀ j < 4, (0xf#128).getLsbD j = true := by decide
    exact hall _ (Nat.mod_lt _ (by decide))
  simpa only [BitVec.getLsbD_and, BitVec.getLsbD_ushiftRight, hmask, Bool.and_true,
    Nat.div_add_mod] using hbit

theorem length_writeHexU128 (value : BitVec 128) (out : Bytes) :
    (writeHexU128 value out).length = out.length + 32 := by
  simp [writeHexU128]

/-! ## The digest -/

def fnvInverse : BitVec 128 := 0xb1041ad2562ff2ff2ff2ff2ff2ff2ff3#128

theorem fnvPrime_mul_fnvInverse : fnvPrime * fnvInverse = 1#128 := by decide

theorem mul_fnvPrime_injective : Function.Injective (· * fnvPrime) := by
  intro a b h
  have hinverse := congrArg (· * fnvInverse) h
  simpa only [BitVec.mul_assoc, fnvPrime_mul_fnvInverse, BitVec.mul_one] using hinverse

theorem fnvStep_injective_hash (byte : UInt8) : Function.Injective (fnvStep · byte) := by
  intro a b h
  exact (BitVec.xor_left_inj _).mp (mul_fnvPrime_injective h)

theorem fnvStep_injective_byte (hash : BitVec 128) : Function.Injective (fnvStep hash) := by
  intro a b h
  have hnat := congrArg BitVec.toNat ((BitVec.xor_right_inj hash).mp (mul_fnvPrime_injective h))
  rw [BitVec.toNat_setWidth_of_le (by decide), BitVec.toNat_setWidth_of_le (by decide)] at hnat
  exact UInt8.toNat_inj.mp hnat

theorem foldl_fnvStep_injective (bytes : Bytes) :
    Function.Injective (bytes.foldl fnvStep) := by
  induction bytes with
  | nil => exact Function.injective_id
  | cons byte bytes ih => exact ih.comp (fnvStep_injective_hash byte)

/-- The texts have the same length and differ in one place. -/
def OneByteApart (x y : Bytes) : Prop :=
  ∃ before a b after, a ≠ b ∧ x = before ++ a :: after ∧ y = before ++ b :: after

theorem fnv1a128_ne_of_oneByteApart {x y : Bytes} (h : OneByteApart x y) :
    fnv1a128 x ≠ fnv1a128 y := by
  obtain ⟨before, a, b, after, hne, rfl, rfl⟩ := h
  intro heq
  rw [fnv1a128, fnv1a128, List.foldl_append, List.foldl_append, List.foldl_cons,
    List.foldl_cons] at heq
  exact hne (fnvStep_injective_byte _ (foldl_fnvStep_injective after heq))

/-- Two texts with one digest, which differ in more than one byte. -/
structure Collision (x y : Bytes) : Prop where
  ne : x ≠ y
  digest : fnv1a128 x = fnv1a128 y
  apart : ¬ OneByteApart x y

theorem eq_or_collision {keyPrefix x y : Bytes}
    (h : digestKey keyPrefix (fnv1a128 x) = digestKey keyPrefix (fnv1a128 y)) :
    x = y ∨ Collision x y := by
  have hdigest := writeHexU128_injective keyPrefix h
  by_cases heq : x = y
  · exact .inl heq
  · exact .inr ⟨heq, hdigest, fun hapart => fnv1a128_ne_of_oneByteApart hapart hdigest⟩

/-- **Two requests share a cache key only through a collision of the digest**, and never if their
normalised forms differ in one byte only. A prompt and an embedding never share a key. -/
theorem cache_keys_shared_only_by_collision {ν : Type} (S : SerdeJson ν) :
    (∀ a b, promptCacheKey S a = promptCacheKey S b →
        normalizePromptInput S a = normalizePromptInput S b ∨
          Collision (normalizePromptInput S a) (normalizePromptInput S b)) ∧
      (∀ a b, embeddingCacheKey S a = embeddingCacheKey S b →
        normalizeEmbeddingInput S a = normalizeEmbeddingInput S b ∨
          Collision (normalizeEmbeddingInput S a) (normalizeEmbeddingInput S b)) ∧
      ∀ a b, promptCacheKey S a ≠ embeddingCacheKey S b := by
  refine ⟨fun a b h => eq_or_collision h, fun a b h => eq_or_collision h, fun a b h => ?_⟩
  have hlength := congrArg List.length h
  simp only [promptCacheKey, embeddingCacheKey, digestKey, length_writeHexU128] at hlength
  revert hlength
  decide

/-- Two applications whose names differ in one letter have different keys for one prompt, and no
prompt has the key of an embedding. -/
theorem cache_keys_shared_only_by_collision_bareInput :
    promptCacheKey digitJson bareInput ≠
        promptCacheKey digitJson { bareInput with applicationNamespace := "workspace-b" } ∧
      promptCacheKey digitJson bareInput ≠ embeddingCacheKey digitJson (bareEmbedding 768) := by
  obtain ⟨hprompts, -, hkinds⟩ := cache_keys_shared_only_by_collision digitJson
  have hapart : OneByteApart (normalizePromptInput digitJson bareInput)
      (normalizePromptInput digitJson { bareInput with applicationNamespace := "workspace-b" }) :=
    ⟨(normalizePromptInput digitJson bareInput).take 381, 97, 98,
      (normalizePromptInput digitJson bareInput).drop 382, by decide, by decide +kernel,
      by decide +kernel⟩
  refine ⟨fun h => ?_, hkinds _ _⟩
  rcases hprompts _ _ h with heq | hcollision
  · exact absurd heq (by decide +kernel)
  · exact hcollision.apart hapart

end Ai
end Cachebox
