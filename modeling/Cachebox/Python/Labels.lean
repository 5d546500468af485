import Cachebox.Python.Keys
import Cachebox.Theory.Parser

/-!
# Prefix and version in a key

A prefix and a version are written before a key, each with a colon behind it. They contain no colon
themselves, so where both of two keys have a prefix or neither has, and likewise a version, equal
keys have equal parts. But nothing in a key says which of its labels are there: a prefix reads as a
version, and a label as the beginning of a key.
-/

namespace Cachebox
namespace Keys
open Parser

/-- The labels that stand for an optional value: none, or one without a colon. -/
inductive Labelled : Option Str → List Bytes → Prop where
  | none : Labelled none []
  | some {value : Str} {encoded : Bytes} (hascii : value.encodeAscii = some encoded)
    (hcolon : 58 ∉ encoded) : Labelled (some value) [encoded]

variable {value value' : Option Str} {labels labels' : List Bytes}

theorem Labelled.length_eq (h : Labelled value labels) : labels.length = value.isSome.toNat := by
  cases h <;> rfl

theorem Labelled.notMem (h : Labelled value labels) : ∀ label ∈ labels, 58 ∉ label := by
  cases h with
  | none => nofun
  | some hascii hcolon => simpa using hcolon

theorem Labelled.inj (h : Labelled value labels) (h' : Labelled value' labels) :
    value = value' := by
  cases h with
  | none =>
    cases h'
    rfl
  | some hascii _ =>
    cases h' with
    | some hascii' _ => rw [Str.eq_of_encodeAscii hascii, Str.eq_of_encodeAscii hascii']

theorem labelled_of_safeLabel {value : Str} {label : String} {encoded : Bytes}
    (h : safeLabel value label = .ok encoded) : Labelled (some value) [encoded] := by
  unfold safeLabel at h
  split at h
  · cases h
  split at h
  · cases h
  · next hascii =>
    split at h
    · cases h
    · next hcolon =>
      cases h
      exact .some hascii hcolon

theorem labelled_of_appendLabel {parts parts' : List Bytes} {label : String}
    (h : appendLabel parts value label = .ok parts') :
    ∃ labels, Labelled value labels ∧ parts' = parts ++ labels := by
  cases value with
  | none =>
    cases h
    exact ⟨[], .none, (List.append_nil parts).symm⟩
  | some value =>
    obtain ⟨encoded, hlabel, hparts⟩ := bind_eq_ok_iff.mp h
    cases hparts
    exact ⟨[encoded], labelled_of_safeLabel hlabel, rfl⟩

variable {keyPrefix keyPrefix' : Option Str} {version version' : Option Version}
  {key key' bytes : Bytes}

theorem labelled_of_joinKeyParts (h : joinKeyParts keyPrefix version key = .ok bytes) :
    ∃ ps vs, Labelled keyPrefix ps ∧ Labelled (version.map Version.toStr) vs ∧
      bytes = [58].intercalate (ps ++ vs ++ [key]) := by
  obtain ⟨ps, happend, h⟩ := bind_eq_ok_iff.mp h
  obtain ⟨parts, happend', h⟩ := bind_eq_ok_iff.mp h
  cases h
  obtain ⟨_, hps, rfl⟩ := labelled_of_appendLabel happend
  obtain ⟨vs, hvs, rfl⟩ := labelled_of_appendLabel happend'
  exact ⟨_, vs, hps, hvs, rfl⟩

/-- Where the same labels are there, equal keys have equal parts. -/
theorem joinKeyParts_inj (h : joinKeyParts keyPrefix version key = .ok bytes)
    (h' : joinKeyParts keyPrefix' version' key' = .ok bytes)
    (hpresent : keyPrefix.isSome = keyPrefix'.isSome)
    (hversion : version.isSome = version'.isSome) :
    keyPrefix = keyPrefix' ∧ version.map Version.toStr = version'.map Version.toStr ∧
      key = key' := by
  obtain ⟨ps, vs, hps, hvs, rfl⟩ := labelled_of_joinKeyParts h
  obtain ⟨ps', vs', hps', hvs', heq⟩ := labelled_of_joinKeyParts h'
  have hlenp : ps.length = ps'.length := by rw [hps.length_eq, hps'.length_eq, hpresent]
  have hlenv : vs.length = vs'.length := by
    rw [hvs.length_eq, hvs'.length_eq, Option.isSome_map, Option.isSome_map, hversion]
  obtain ⟨hlabels, rfl⟩ := Delimited.intercalate_snoc_inj
    (List.forall_mem_append.mpr ⟨hps.notMem, hvs.notMem⟩)
    (List.forall_mem_append.mpr ⟨hps'.notMem, hvs'.notMem⟩)
    (by rw [List.length_append, List.length_append, hlenp, hlenv]) heq
  obtain ⟨rfl, rfl⟩ := List.append_inj hlabels hlenp
  exact ⟨hps.inj hps', hvs.inj hvs', rfl⟩

theorem joinKeyParts_congr (hversion : version.map Version.toStr = version'.map Version.toStr) :
    joinKeyParts keyPrefix version key = joinKeyParts keyPrefix version' key := by
  rw [joinKeyParts, joinKeyParts, hversion]

/-! ## Caches -/

variable {φ : Type} {J : JsonDumps φ}

theorem exists_joinKeyParts_of_buildCustomKey {value : Arg φ}
    (h : buildCustomKey J value keyPrefix version = .ok bytes) :
    ∃ key, joinKeyParts keyPrefix version key = .ok bytes := by
  obtain ⟨key, -, h⟩ := bind_eq_ok_iff.mp h
  exact ⟨key, h⟩

theorem exists_joinKeyParts_of_buildFunctionKey {function : Function} {keyFunc : Option (Arg φ)}
    {bound : Except Str (List (Str × Arg φ))}
    (h : buildFunctionKey J function keyPrefix version keyFunc bound = .ok bytes) :
    ∃ key, joinKeyParts keyPrefix version key = .ok bytes := by
  unfold buildFunctionKey at h
  split at h
  · exact exists_joinKeyParts_of_buildCustomKey h
  split at h
  · cases h
  · obtain ⟨pairs, -, h⟩ := bind_eq_ok_iff.mp h
    obtain ⟨key, -, h⟩ := bind_eq_ok_iff.mp h
    exact ⟨key, h⟩

/-- What a `Cachebox` is configured with for its keys. -/
structure Config where
  keyPrefix : Option Str
  keyVersion : Option Version

/-- The key that the wrapper in `Cachebox.memoize` builds: a prefix or a version that `memoize` is
given goes before that of the cache. -/
def memoizeKey (J : JsonDumps φ) (cache : Config) (keyPrefix : Option Str)
    (version : Option Version) (function : Function) (keyFunc : Option (Arg φ))
    (bound : Except Str (List (Str × Arg φ))) : Except KeyError Bytes :=
  buildFunctionKey J function (keyPrefix.or cache.keyPrefix) (version.or cache.keyVersion) keyFunc
    bound

/-- Keys that are built with the same labels are equal exactly where their parts are, and memoized
functions with the same labels, but other values of them, share no key. -/
theorem joinKeyParts_partition (J : JsonDumps φ) :
    (∀ p p' v v' k k' bytes bytes', joinKeyParts p v k = .ok bytes →
      joinKeyParts p' v' k' = .ok bytes' →
      (p = p' ∧ v.map Version.toStr = v'.map Version.toStr ∧ k = k' ↔
        bytes = bytes' ∧ p.isSome = p'.isSome ∧ v.isSome = v'.isSome)) ∧
    ∀ cache cache' p p' v v' function function' keyFunc keyFunc' bound bound' bytes bytes',
      memoizeKey J cache p v function keyFunc bound = .ok bytes →
      memoizeKey J cache' p' v' function' keyFunc' bound' = .ok bytes' →
      (p.or cache.keyPrefix).isSome = (p'.or cache'.keyPrefix).isSome →
      (v.or cache.keyVersion).isSome = (v'.or cache'.keyVersion).isSome →
      p.or cache.keyPrefix ≠ p'.or cache'.keyPrefix ∨
        (v.or cache.keyVersion).map Version.toStr ≠ (v'.or cache'.keyVersion).map Version.toStr →
      bytes ≠ bytes' := by
  refine ⟨fun p p' v v' k k' bytes bytes' h h' => ⟨?_, ?_⟩, ?_⟩
  · rintro ⟨rfl, hversion, rfl⟩
    rw [joinKeyParts_congr hversion, h'] at h
    have hsome := congrArg Option.isSome hversion
    rw [Option.isSome_map, Option.isSome_map] at hsome
    exact ⟨(Except.ok.inj h).symm, rfl, hsome⟩
  · rintro ⟨rfl, hpresent, hversion⟩
    exact joinKeyParts_inj h h' hpresent hversion
  · rintro cache cache' p p' v v' function function' keyFunc keyFunc' bound bound' bytes _ h h'
      hpresent hversion hne rfl
    obtain ⟨k, h⟩ := exists_joinKeyParts_of_buildFunctionKey h
    obtain ⟨k', h'⟩ := exists_joinKeyParts_of_buildFunctionKey h'
    obtain ⟨hp, hv, -⟩ := joinKeyParts_inj h h' hpresent hversion
    exact hne.elim (absurd hp) (absurd hv)

theorem joinKeyParts_partition_of_prefixes :
    (some (Str.ofString "a") = some (Str.ofString "b") ∧
        (some (Version.int 1)).map Version.toStr = (some (Version.str (.ofString "1"))).map
          Version.toStr ∧ ([107] : Bytes) = [107] ↔
      ([97, 58, 49, 58, 107] : Bytes) = [98, 58, 49, 58, 107] ∧ true = true ∧ true = true) ∧
    ([97, 58, 107] : Bytes) ≠ [98, 58, 107] := by
  have h := joinKeyParts_partition decimalJson
  refine ⟨h.1 (some (.ofString "a")) (some (.ofString "b")) (some (.int 1))
    (some (.str (.ofString "1"))) [107] [107] _ _ (by decide) (by decide), ?_⟩
  exact h.2 ⟨some (.ofString "a"), none⟩ ⟨some (.ofString "b"), none⟩ none none none none ⟨[], []⟩
    ⟨[], []⟩ (some (.bytesLike .bytes [107])) (some (.bytesLike .bytes [107])) (.ok []) (.ok []) _ _
    (by decide) (by decide) rfl rfl (.inl (by decide))

/-- A prefix reads as a version, and the beginning of a key as a prefix: a cache with the prefix
`a` and one with the version `a` share the key of every call. -/
theorem joinKeyParts_ambiguous :
    joinKeyParts (some (.ofString "a")) none [107] = .ok [97, 58, 107] ∧
    joinKeyParts none (some (.str (.ofString "a"))) [107] = .ok [97, 58, 107] ∧
    joinKeyParts none none [97, 58, 107] = .ok [97, 58, 107] ∧
    ∀ function keyFunc bound,
      memoizeKey decimalJson ⟨some (.ofString "a"), none⟩ none none function keyFunc bound =
        memoizeKey decimalJson ⟨none, some (.str (.ofString "a"))⟩ none none function keyFunc
          bound := by
  refine ⟨rfl, rfl, rfl, fun function keyFunc bound => ?_⟩
  rfl

end Keys
end Cachebox
