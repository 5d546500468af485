import Cachebox.Client.Json
import Cachebox.Engine.Basic
import Cachebox.Theory.PrefixCode

/-!
# Keys of prompts and embeddings (`clients/rust/cachebox-client/src/ai.rs`)

A cache key is computed from a normalised form of the request: its fields one after the other, each
with its name and with the lengths of both. An absent string is written as the string `<none>`. So
the normalised form tells two requests apart if the same fields are present in both, and it does not
tell an absent string from the string `<none>`.
-/

namespace Cachebox
namespace Ai
open BigEndian

variable {ν : Type}

structure PromptMessage where
  role : String
  content : String
  name : Option String
  deriving DecidableEq, Repr

/-- A `BTreeMap` with strings as keys, as the list of its entries. -/
structure StringMap (α : Type) where
  entries : List (String × α)
  sorted : entries.Pairwise fun x y => x.1 < y.1

structure PromptCacheKeyInput (ν : Type) where
  provider : String
  model : String
  modelVersion : Option String
  messages : List PromptMessage
  systemPrompt : Option String
  toolSchema : Option (Value ν)
  samplingParameters : StringMap (Value ν)
  outputFormat : Option String
  retrievalContextHash : Option String
  applicationNamespace : String

structure EmbeddingCacheKeyInput (ν : Type) where
  model : String
  modelVersion : Option String
  inputContentHash : String
  normalizationSettings : StringMap (Value ν)
  chunkingStrategy : String
  dimensions : UInt32
  applicationNamespace : String

def PromptMessage.new (role content : String) : PromptMessage := { role, content, name := none }

def StringMap.empty {α : Type} : StringMap α := ⟨[], .nil⟩

def PromptCacheKeyInput.new (provider model applicationNamespace : String) :
    PromptCacheKeyInput ν where
  provider := provider
  model := model
  modelVersion := none
  messages := []
  systemPrompt := none
  toolSchema := none
  samplingParameters := .empty
  outputFormat := none
  retrievalContextHash := none
  applicationNamespace := applicationNamespace

def EmbeddingCacheKeyInput.new (model inputContentHash chunkingStrategy : String)
    (dimensions : UInt32) (applicationNamespace : String) : EmbeddingCacheKeyInput ν where
  model := model
  modelVersion := none
  inputContentHash := inputContentHash
  normalizationSettings := .empty
  chunkingStrategy := chunkingStrategy
  dimensions := dimensions
  applicationNamespace := applicationNamespace

/-- A byte string literal. -/
def ascii (text : String) : Bytes := Utf8.encode text

def promptNormalizationVersion : Bytes := ascii "cachebox.ai.prompt.v1"

def embeddingNormalizationVersion : Bytes := ascii "cachebox.ai.embedding.v1"

def appendU64 (out : Bytes) (value : UInt64) : Bytes := out ++ toBytes 8 value.toNat

def appendBytes (out field value : Bytes) : Bytes :=
  let out := appendU64 out (.ofNat field.length)
  let out := out ++ field
  let out := appendU64 out (.ofNat value.length)
  out ++ value

def appendStr (out field : Bytes) (value : String) : Bytes :=
  appendBytes out field (Utf8.encode value)

def appendOptionalStr (out field : Bytes) : Option String → Bytes
  | some value => appendStr out field value
  | none => appendBytes out field (ascii "<none>")

def appendJson (S : SerdeJson ν) (out field : Bytes) : Option (Value ν) → Bytes
  | some value => appendBytes out field (Utf8.encode (value.canonicalJson S))
  | none => appendBytes out field (ascii "<none>")

/-- The body of the loop over a map. -/
def appendEntry (S : SerdeJson ν) (keyField valueField out : Bytes) (entry : String × Value ν) :
    Bytes :=
  let out := appendStr out keyField entry.1
  appendBytes out valueField (Utf8.encode (entry.2.canonicalJson S))

def appendJsonMap (S : SerdeJson ν) (out field keyField valueField : Bytes)
    (values : StringMap (Value ν)) : Bytes :=
  let out := appendBytes out field (ascii "map")
  let out := appendU64 out (.ofNat values.entries.length)
  values.entries.foldl (appendEntry S keyField valueField) out

/-- The body of the loop over the messages. -/
def appendMessage (out : Bytes) (message : PromptMessage) : Bytes :=
  let out := appendStr out (ascii "message.role") message.role
  let out := appendOptionalStr out (ascii "message.name") message.name
  appendStr out (ascii "message.content") message.content

def normalizePromptInput (S : SerdeJson ν) (input : PromptCacheKeyInput ν) : Bytes :=
  let out := []
  let out := appendBytes out (ascii "version") promptNormalizationVersion
  let out := appendStr out (ascii "provider") input.provider
  let out := appendStr out (ascii "model") input.model
  let out := appendOptionalStr out (ascii "model_version") input.modelVersion
  let out := appendOptionalStr out (ascii "system_prompt") input.systemPrompt
  let out := appendJson S out (ascii "tool_schema") input.toolSchema
  let out := appendJsonMap S out (ascii "sampling_parameters") (ascii "sampling.name")
    (ascii "sampling.value") input.samplingParameters
  let out := appendOptionalStr out (ascii "output_format") input.outputFormat
  let out := appendOptionalStr out (ascii "retrieval_context_hash") input.retrievalContextHash
  let out := appendStr out (ascii "application_namespace") input.applicationNamespace
  let out := appendU64 out (.ofNat input.messages.length)
  input.messages.foldl appendMessage out

def normalizeEmbeddingInput (S : SerdeJson ν) (input : EmbeddingCacheKeyInput ν) : Bytes :=
  let out := []
  let out := appendBytes out (ascii "version") embeddingNormalizationVersion
  let out := appendStr out (ascii "model") input.model
  let out := appendOptionalStr out (ascii "model_version") input.modelVersion
  let out := appendStr out (ascii "input_content_hash") input.inputContentHash
  let out := appendJsonMap S out (ascii "normalization_settings") (ascii "normalization.name")
    (ascii "normalization.value") input.normalizationSettings
  let out := appendStr out (ascii "chunking_strategy") input.chunkingStrategy
  let out := appendU64 out input.dimensions.toUInt64
  appendStr out (ascii "application_namespace") input.applicationNamespace

/-! ## What is written -/

/-- A field with its name, each behind its length. -/
def chunk (field value : Bytes) : Bytes :=
  toBytes 8 (UInt64.ofNat field.length).toNat ++ field ++
    (toBytes 8 (UInt64.ofNat value.length).toNat ++ value)

def strChunk (field value : String) : Bytes := chunk (ascii field) (Utf8.encode value)

def count {α : Type} (as : List α) : Bytes := toBytes 8 (UInt64.ofNat as.length).toNat

/-- The string in the place of an optional one. -/
def optionalText (value : Option String) : String := value.getD "<none>"

def jsonText (S : SerdeJson ν) (value : Option (Value ν)) : String :=
  value.elim "<none>" (·.canonicalJson S)

def mapTexts (S : SerdeJson ν) (values : StringMap (Value ν)) : List (String × String) :=
  values.entries.map fun entry => (entry.1, entry.2.canonicalJson S)

/-- The strings of a message in the order in which they are written. -/
def PromptMessage.text (message : PromptMessage) : String × String × String :=
  (message.role, optionalText message.name, message.content)

/-- What is written of a request for a completion. -/
@[ext] structure PromptText where
  provider : String
  model : String
  modelVersion : String
  systemPrompt : String
  toolSchema : String
  samplingParameters : List (String × String)
  outputFormat : String
  retrievalContextHash : String
  applicationNamespace : String
  messages : List (String × String × String)

/-- What is written of a request for an embedding. -/
@[ext] structure EmbeddingText where
  model : String
  modelVersion : String
  inputContentHash : String
  normalizationSettings : List (String × String)
  chunkingStrategy : String
  dimensions : UInt64
  applicationNamespace : String

def PromptCacheKeyInput.text (S : SerdeJson ν) (input : PromptCacheKeyInput ν) : PromptText where
  provider := input.provider
  model := input.model
  modelVersion := optionalText input.modelVersion
  systemPrompt := optionalText input.systemPrompt
  toolSchema := jsonText S input.toolSchema
  samplingParameters := mapTexts S input.samplingParameters
  outputFormat := optionalText input.outputFormat
  retrievalContextHash := optionalText input.retrievalContextHash
  applicationNamespace := input.applicationNamespace
  messages := input.messages.map PromptMessage.text

def EmbeddingCacheKeyInput.text (S : SerdeJson ν) (input : EmbeddingCacheKeyInput ν) :
    EmbeddingText where
  model := input.model
  modelVersion := optionalText input.modelVersion
  inputContentHash := input.inputContentHash
  normalizationSettings := mapTexts S input.normalizationSettings
  chunkingStrategy := input.chunkingStrategy
  dimensions := input.dimensions.toUInt64
  applicationNamespace := input.applicationNamespace

def entryChunks (keyField valueField : String) (entry : String × String) : Bytes :=
  strChunk keyField entry.1 ++ strChunk valueField entry.2

def messageChunks (message : String × String × String) : Bytes :=
  strChunk "message.role" message.1 ++
    (strChunk "message.name" message.2.1 ++ strChunk "message.content" message.2.2)

def PromptText.bytes (text : PromptText) : Bytes :=
  strChunk "version" "cachebox.ai.prompt.v1" ++
  (strChunk "provider" text.provider ++
  (strChunk "model" text.model ++
  (strChunk "model_version" text.modelVersion ++
  (strChunk "system_prompt" text.systemPrompt ++
  (strChunk "tool_schema" text.toolSchema ++
  (strChunk "sampling_parameters" "map" ++
  (count text.samplingParameters ++
    text.samplingParameters.flatMap (entryChunks "sampling.name" "sampling.value") ++
  (strChunk "output_format" text.outputFormat ++
  (strChunk "retrieval_context_hash" text.retrievalContextHash ++
  (strChunk "application_namespace" text.applicationNamespace ++
  (count text.messages ++ text.messages.flatMap messageChunks)))))))))))

def EmbeddingText.bytes (text : EmbeddingText) : Bytes :=
  strChunk "version" "cachebox.ai.embedding.v1" ++
  (strChunk "model" text.model ++
  (strChunk "model_version" text.modelVersion ++
  (strChunk "input_content_hash" text.inputContentHash ++
  (strChunk "normalization_settings" "map" ++
  (count text.normalizationSettings ++
    text.normalizationSettings.flatMap
      (entryChunks "normalization.name" "normalization.value") ++
  (strChunk "chunking_strategy" text.chunkingStrategy ++
  (toBytes 8 text.dimensions.toNat ++
  strChunk "application_namespace" text.applicationNamespace)))))))

@[simp] theorem appendBytes_eq (out field value : Bytes) :
    appendBytes out field value = out ++ chunk field value := by
  simp [appendBytes, appendU64, chunk]

@[simp] theorem appendStr_eq (out : Bytes) (field value : String) :
    appendStr out (ascii field) value = out ++ strChunk field value :=
  appendBytes_eq ..

@[simp] theorem appendOptionalStr_eq (out : Bytes) (field : String) (value : Option String) :
    appendOptionalStr out (ascii field) value = out ++ strChunk field (optionalText value) := by
  cases value <;> exact appendBytes_eq ..

@[simp] theorem appendJson_eq (S : SerdeJson ν) (out : Bytes) (field : String)
    (value : Option (Value ν)) :
    appendJson S out (ascii field) value = out ++ strChunk field (jsonText S value) := by
  cases value <;> exact appendBytes_eq ..

theorem appendEntry_eq (S : SerdeJson ν) (keyField valueField : String) (out : Bytes)
    (entry : String × Value ν) :
    appendEntry S (ascii keyField) (ascii valueField) out entry =
      out ++ entryChunks keyField valueField (entry.1, entry.2.canonicalJson S) := by
  simp only [appendEntry, appendStr_eq, appendBytes_eq, List.append_assoc]
  rfl

theorem appendMessage_eq (out : Bytes) (message : PromptMessage) :
    appendMessage out message = out ++ messageChunks message.text := by
  simp only [appendMessage, appendStr_eq, appendOptionalStr_eq, List.append_assoc]
  rfl

theorem appendJsonMap_eq (S : SerdeJson ν) (out : Bytes) (field keyField valueField : String)
    (values : StringMap (Value ν)) :
    appendJsonMap S out (ascii field) (ascii keyField) (ascii valueField) values =
      out ++ (strChunk field "map" ++ (count (mapTexts S values) ++
        (mapTexts S values).flatMap (entryChunks keyField valueField))) := by
  simp only [appendJsonMap, foldl_write (appendEntry_eq S keyField valueField), appendBytes_eq,
    appendU64, mapTexts, List.flatMap_map, count, List.length_map, List.append_assoc]
  rfl

theorem normalizePromptInput_eq (S : SerdeJson ν) (input : PromptCacheKeyInput ν) :
    normalizePromptInput S input = (input.text S).bytes := by
  simp only [normalizePromptInput, foldl_write appendMessage_eq, appendBytes_eq, appendStr_eq,
    appendOptionalStr_eq, appendJson_eq, appendJsonMap_eq, appendU64, List.append_assoc,
    List.nil_append, PromptText.bytes, PromptCacheKeyInput.text, count, List.length_map,
    List.flatMap_map]
  rfl

theorem normalizeEmbeddingInput_eq (S : SerdeJson ν) (input : EmbeddingCacheKeyInput ν) :
    normalizeEmbeddingInput S input = (input.text S).bytes := by
  simp only [normalizeEmbeddingInput, appendBytes_eq, appendStr_eq, appendOptionalStr_eq,
    appendJsonMap_eq, appendU64, List.append_assoc, List.nil_append, EmbeddingText.bytes,
    EmbeddingCacheKeyInput.text]
  rfl

/-! ## The written texts are told apart -/

/-- The length of the string fits into its field. -/
def Short (s : String) : Prop := s.utf8ByteSize < 2 ^ 64

instance (s : String) : Decidable (Short s) := inferInstanceAs (Decidable (_ < _))

theorem prefixCode_strChunk (field : String) : PrefixCode Short (strChunk field) := by
  have hvalue : PrefixCode (fun s => (Utf8.encode s).length < 256 ^ 8)
      ((fun value => toBytes 8 (UInt64.ofNat value.length).toNat ++ value) ∘ Utf8.encode) :=
    (PrefixCode.lengthPrefixed word64).comp Utf8.encode_injective fun _ h => h
  have hshort : ∀ s, Short s → (Utf8.encode s).length < 256 ^ 8 := by
    intro s hs
    rw [Utf8.length_encode]
    exact hs
  intro s t xs ys hs ht h
  simp only [strChunk, chunk, List.append_assoc, List.append_right_inj] at h
  refine hvalue (hshort s hs) (hshort t ht) ?_
  simpa using h

/-- Between the same bytes, chunks of one field are equal only if their values are, whatever their
lengths. -/
theorem strChunk_inj {field s t : String} : strChunk field s = strChunk field t ↔ s = t := by
  refine ⟨fun h => ?_, congrArg _⟩
  simp only [strChunk, chunk, List.append_assoc, List.append_right_inj] at h
  exact Utf8.encode_injective (List.append_inj_right h (by simp))

theorem prefixCode_counted {α : Type} {P : α → Prop} {enc : α → Bytes} (h : PrefixCode P enc) :
    PrefixCode (fun as : List α => as.length < 2 ^ 64 ∧ ∀ a ∈ as, P a)
      (fun as => count as ++ as.flatMap enc) :=
  PrefixCode.counted word64 h

theorem prefixCode_entryChunks (keyField valueField : String) :
    PrefixCode (fun entry : String × String => Short entry.1 ∧ Short entry.2)
      (entryChunks keyField valueField) :=
  (prefixCode_strChunk keyField).prod (prefixCode_strChunk valueField)

theorem prefixCode_messageChunks :
    PrefixCode (fun message : String × String × String =>
      Short message.1 ∧ Short message.2.1 ∧ Short message.2.2) messageChunks :=
  (prefixCode_strChunk "message.role").prod
    ((prefixCode_strChunk "message.name").prod (prefixCode_strChunk "message.content"))

/-- All lengths fit into their fields. -/
structure PromptText.Fits (text : PromptText) : Prop where
  fields : ∀ s ∈ [text.provider, text.model, text.modelVersion, text.systemPrompt, text.toolSchema,
    text.outputFormat, text.retrievalContextHash, text.applicationNamespace], Short s
  samplingParameters : text.samplingParameters.length < 2 ^ 64 ∧
    ∀ entry ∈ text.samplingParameters, Short entry.1 ∧ Short entry.2
  messages : text.messages.length < 2 ^ 64 ∧
    ∀ message ∈ text.messages, Short message.1 ∧ Short message.2.1 ∧ Short message.2.2

structure EmbeddingText.Fits (text : EmbeddingText) : Prop where
  fields : ∀ s ∈ [text.model, text.modelVersion, text.inputContentHash, text.chunkingStrategy,
    text.applicationNamespace], Short s
  normalizationSettings : text.normalizationSettings.length < 2 ^ 64 ∧
    ∀ entry ∈ text.normalizationSettings, Short entry.1 ∧ Short entry.2

theorem PromptText.bytes_inj {t u : PromptText} (ht : t.Fits) (hu : u.Fits)
    (h : t.bytes = u.bytes) : t = u := by
  have hstr : ∀ (field : String) {s s' : String} {xs ys : Bytes}, s ∈ _ → s' ∈ _ →
      strChunk field s ++ xs = strChunk field s' ++ ys → s = s' ∧ xs = ys :=
    fun field _ _ _ _ hs hs' => prefixCode_strChunk field (ht.fields _ hs) (hu.fields _ hs')
  replace h := List.append_cancel_left h
  obtain ⟨hprovider, h⟩ := hstr "provider" (by simp) (by simp) h
  obtain ⟨hmodel, h⟩ := hstr "model" (by simp) (by simp) h
  obtain ⟨hmodelVersion, h⟩ := hstr "model_version" (by simp) (by simp) h
  obtain ⟨hsystemPrompt, h⟩ := hstr "system_prompt" (by simp) (by simp) h
  obtain ⟨htoolSchema, h⟩ := hstr "tool_schema" (by simp) (by simp) h
  replace h := List.append_cancel_left h
  obtain ⟨hsamplingParameters, h⟩ := prefixCode_counted (prefixCode_entryChunks _ _)
    ht.samplingParameters hu.samplingParameters h
  obtain ⟨houtputFormat, h⟩ := hstr "output_format" (by simp) (by simp) h
  obtain ⟨hretrieval, h⟩ := hstr "retrieval_context_hash" (by simp) (by simp) h
  obtain ⟨hnamespace, h⟩ := hstr "application_namespace" (by simp) (by simp) h
  have hmessages := (prefixCode_counted prefixCode_messageChunks).inj ht.messages hu.messages h
  exact PromptText.ext hprovider hmodel hmodelVersion hsystemPrompt htoolSchema hsamplingParameters
    houtputFormat hretrieval hnamespace hmessages

theorem EmbeddingText.bytes_inj {t u : EmbeddingText} (ht : t.Fits) (hu : u.Fits)
    (h : t.bytes = u.bytes) : t = u := by
  have hstr : ∀ (field : String) {s s' : String} {xs ys : Bytes}, s ∈ _ → s' ∈ _ →
      strChunk field s ++ xs = strChunk field s' ++ ys → s = s' ∧ xs = ys :=
    fun field _ _ _ _ hs hs' => prefixCode_strChunk field (ht.fields _ hs) (hu.fields _ hs')
  replace h := List.append_cancel_left h
  obtain ⟨hmodel, h⟩ := hstr "model" (by simp) (by simp) h
  obtain ⟨hmodelVersion, h⟩ := hstr "model_version" (by simp) (by simp) h
  obtain ⟨hhash, h⟩ := hstr "input_content_hash" (by simp) (by simp) h
  replace h := List.append_cancel_left h
  obtain ⟨hsettings, h⟩ := prefixCode_counted (prefixCode_entryChunks _ _)
    ht.normalizationSettings hu.normalizationSettings h
  obtain ⟨hstrategy, h⟩ := hstr "chunking_strategy" (by simp) (by simp) h
  obtain ⟨hdimensions, h⟩ := PrefixCode.word word64 trivial trivial h
  have hnamespace := (prefixCode_strChunk "application_namespace").inj
    (ht.fields _ (by simp)) (hu.fields _ (by simp)) h
  exact EmbeddingText.ext hmodel hmodelVersion hhash hsettings hstrategy hdimensions hnamespace

/-! ## Requests are told apart if the same fields are present -/

/-- The maps have the same keys, with the same values up to the order in objects. -/
def StringMap.Same (a b : StringMap (Value ν)) : Prop :=
  List.Forall₂ (fun x y => x.1 = y.1 ∧ x.2.Same y.2) a.entries b.entries

/-- The requests are equal up to the order in objects. -/
structure PromptCacheKeyInput.Same (a b : PromptCacheKeyInput ν) : Prop where
  provider : a.provider = b.provider
  model : a.model = b.model
  modelVersion : a.modelVersion = b.modelVersion
  messages : a.messages = b.messages
  systemPrompt : a.systemPrompt = b.systemPrompt
  toolSchema : Option.Rel Value.Same a.toolSchema b.toolSchema
  samplingParameters : a.samplingParameters.Same b.samplingParameters
  outputFormat : a.outputFormat = b.outputFormat
  retrievalContextHash : a.retrievalContextHash = b.retrievalContextHash
  applicationNamespace : a.applicationNamespace = b.applicationNamespace

structure EmbeddingCacheKeyInput.Same (a b : EmbeddingCacheKeyInput ν) : Prop where
  model : a.model = b.model
  modelVersion : a.modelVersion = b.modelVersion
  inputContentHash : a.inputContentHash = b.inputContentHash
  normalizationSettings : a.normalizationSettings.Same b.normalizationSettings
  chunkingStrategy : a.chunkingStrategy = b.chunkingStrategy
  dimensions : a.dimensions = b.dimensions
  applicationNamespace : a.applicationNamespace = b.applicationNamespace

/-- The same optional fields are present; of the messages, if there are equally many. -/
structure PromptCacheKeyInput.SamePresence (a b : PromptCacheKeyInput ν) : Prop where
  modelVersion : a.modelVersion.isSome = b.modelVersion.isSome
  systemPrompt : a.systemPrompt.isSome = b.systemPrompt.isSome
  toolSchema : a.toolSchema.isSome = b.toolSchema.isSome
  outputFormat : a.outputFormat.isSome = b.outputFormat.isSome
  retrievalContextHash : a.retrievalContextHash.isSome = b.retrievalContextHash.isSome
  messages : a.messages.length = b.messages.length →
    List.Forall₂ (fun m m' => m.name.isSome = m'.name.isSome) a.messages b.messages

theorem optionalText_eq_iff {a b : Option String} (h : a.isSome = b.isSome) :
    optionalText a = optionalText b ↔ a = b := by
  cases a with
  | none =>
    cases b with
    | none => exact iff_of_true rfl rfl
    | some b => cases h
  | some a =>
    cases b with
    | none => cases h
    | some b => exact Option.some_inj.symm

theorem jsonText_eq_iff {S : SerdeJson ν} {a b : Option (Value ν)} :
    jsonText S a = jsonText S b ↔ Option.Rel Value.Same a b := by
  cases a with
  | none =>
    cases b with
    | none => exact iff_of_true rfl .none
    | some b => exact iff_of_false (Value.canonicalJson_ne_none b).symm nofun
  | some a =>
    cases b with
    | none => exact iff_of_false (Value.canonicalJson_ne_none a) nofun
    | some b =>
      rw [Option.rel_some_some]
      exact Value.canonicalJson_eq_iff

theorem map_eq_map_iff {α β : Type} {f : α → β} {as bs : List α} :
    as.map f = bs.map f ↔ List.Forall₂ (fun a b => f a = f b) as bs := by
  rw [← List.forall₂_map_right_iff (f := f), ← List.forall₂_map_left_iff (f := f),
    List.forall₂_eq_eq_eq]

theorem mapTexts_eq_iff {S : SerdeJson ν} {a b : StringMap (Value ν)} :
    mapTexts S a = mapTexts S b ↔ a.Same b := by
  rw [mapTexts, mapTexts, map_eq_map_iff]
  simp only [Prod.mk.injEq, Value.canonicalJson_eq_iff, StringMap.Same]

theorem messages_eq_iff {as bs : List PromptMessage} (h : as.length = bs.length →
      List.Forall₂ (fun m m' => m.name.isSome = m'.name.isSome) as bs) :
    as.map PromptMessage.text = bs.map PromptMessage.text ↔ as = bs := by
  refine ⟨fun heq => ?_, congrArg _⟩
  have hall := map_eq_map_iff.mp heq
  rw [← List.forall₂_eq_eq_eq]
  refine List.Forall₂.mp (fun m m' hpresence htext => ?_) (h hall.length_eq) hall
  obtain ⟨role, content, name⟩ := m
  obtain ⟨role', content', name'⟩ := m'
  simp only [PromptMessage.text, Prod.mk.injEq, optionalText_eq_iff hpresence] at htext
  obtain ⟨rfl, rfl, rfl⟩ := htext
  rfl

theorem PromptCacheKeyInput.text_eq_iff {S : SerdeJson ν} {a b : PromptCacheKeyInput ν}
    (h : a.SamePresence b) : a.text S = b.text S ↔ a.Same b := by
  simp only [PromptText.ext_iff, PromptCacheKeyInput.text, optionalText_eq_iff h.modelVersion,
    optionalText_eq_iff h.systemPrompt, optionalText_eq_iff h.outputFormat,
    optionalText_eq_iff h.retrievalContextHash, jsonText_eq_iff, mapTexts_eq_iff,
    messages_eq_iff h.messages]
  constructor
  · rintro ⟨h1, h2, h3, h4, h5, h6, h7, h8, h9, h10⟩
    exact ⟨h1, h2, h3, h10, h4, h5, h6, h7, h8, h9⟩
  · rintro ⟨h1, h2, h3, h10, h4, h5, h6, h7, h8, h9⟩
    exact ⟨h1, h2, h3, h4, h5, h6, h7, h8, h9, h10⟩

theorem EmbeddingCacheKeyInput.text_eq_iff {S : SerdeJson ν} {a b : EmbeddingCacheKeyInput ν}
    (h : a.modelVersion.isSome = b.modelVersion.isSome) : a.text S = b.text S ↔ a.Same b := by
  have hdimensions : a.dimensions.toUInt64 = b.dimensions.toUInt64 ↔ a.dimensions = b.dimensions :=
    UInt32.toUInt64_inj
  simp only [EmbeddingText.ext_iff, EmbeddingCacheKeyInput.text, optionalText_eq_iff h,
    mapTexts_eq_iff, hdimensions]
  constructor
  · rintro ⟨h1, h2, h3, h4, h5, h6, h7⟩
    exact ⟨h1, h2, h3, h4, h5, h6, h7⟩
  · rintro ⟨h1, h2, h3, h4, h5, h6, h7⟩
    exact ⟨h1, h2, h3, h4, h5, h6, h7⟩

/-- **Normalisation is injective where the same fields are present.** Then two requests have one
normalised form exactly if they are equal up to the order in objects. Requests with different
numbers of messages never have one, and neither have a prompt and an embedding. -/
theorem normalization_injective (S : SerdeJson ν) :
    (∀ a b : PromptCacheKeyInput ν, (a.text S).Fits → (b.text S).Fits → a.SamePresence b →
      (normalizePromptInput S a = normalizePromptInput S b ↔ a.Same b)) ∧
    (∀ a b : EmbeddingCacheKeyInput ν, (a.text S).Fits → (b.text S).Fits →
      a.modelVersion.isSome = b.modelVersion.isSome →
        (normalizeEmbeddingInput S a = normalizeEmbeddingInput S b ↔ a.Same b)) ∧
    (∀ a b : PromptCacheKeyInput ν, (a.text S).Fits → (b.text S).Fits →
      a.messages.length ≠ b.messages.length →
        normalizePromptInput S a ≠ normalizePromptInput S b) ∧
    ∀ (a : PromptCacheKeyInput ν) (b : EmbeddingCacheKeyInput ν),
      normalizePromptInput S a ≠ normalizeEmbeddingInput S b := by
  simp only [normalizePromptInput_eq, normalizeEmbeddingInput_eq]
  refine ⟨fun a b ha hb hpresence => ?_, fun a b ha hb hpresence => ?_, fun a b ha hb hne h => ?_,
    fun a b h => ?_⟩
  · rw [← PromptCacheKeyInput.text_eq_iff (S := S) hpresence]
    exact ⟨PromptText.bytes_inj ha hb, congrArg _⟩
  · rw [← EmbeddingCacheKeyInput.text_eq_iff (S := S) hpresence]
    exact ⟨EmbeddingText.bytes_inj ha hb, congrArg _⟩
  · have htext := congrArg PromptText.messages (PromptText.bytes_inj ha hb h)
    have hlen := congrArg List.length htext
    simp only [PromptCacheKeyInput.text, List.length_map] at hlen
    exact hne hlen
  · have hversion := (prefixCode_strChunk "version" (by decide) (by decide) h).1
    exact absurd hversion (by decide)

def bareInput : PromptCacheKeyInput (Fin 10) := .new "openai" "gpt-example" "workspace-a"

def bareEmbedding (dimensions : UInt32) : EmbeddingCacheKeyInput (Fin 10) :=
  .new "text-embedding-example" "sha256:contentabc" "markdown:v1:512:64" dimensions "workspace-a"

/-- A request with a tool schema and a message. -/
def schemaInput (swapped : Bool) : PromptCacheKeyInput (Fin 10) :=
  { bareInput with
    toolSchema := some (.twoFields swapped), messages := [.new "user" "hello"] }

theorem fits_schemaInput (swapped : Bool) : ((schemaInput swapped).text digitJson).Fits := by
  cases swapped <;> exact ⟨by decide +kernel, by decide +kernel, by decide +kernel⟩

theorem fits_bareEmbedding (dimensions : UInt32) :
    ((bareEmbedding dimensions).text digitJson).Fits where
  fields := show ∀ s ∈ ["text-embedding-example", "<none>", "sha256:contentabc",
    "markdown:v1:512:64", "workspace-a"], Short s by decide +kernel
  normalizationSettings := ⟨Nat.two_pow_pos 64, List.forall_mem_nil _⟩

theorem fits_bareInput : (bareInput.text digitJson).Fits :=
  ⟨by decide +kernel, by decide +kernel, by decide +kernel⟩

/-- The order of the fields does not matter, the number of messages and the dimensions do. -/
theorem normalization_injective_schemaInput :
    normalizePromptInput digitJson (schemaInput true) =
        normalizePromptInput digitJson (schemaInput false) ∧
      normalizePromptInput digitJson (schemaInput true) ≠
        normalizePromptInput digitJson bareInput ∧
      normalizeEmbeddingInput digitJson (bareEmbedding 1536) ≠
        normalizeEmbeddingInput digitJson (bareEmbedding 768) := by
  obtain ⟨hprompt, hembedding, hmessages, -⟩ := normalization_injective digitJson
  refine ⟨(hprompt _ _ (fits_schemaInput true) (fits_schemaInput false) ?_).mpr ?_,
    hmessages _ _ (fits_schemaInput true) fits_bareInput (by decide), fun h => ?_⟩
  · exact ⟨rfl, rfl, rfl, rfl, rfl, fun _ => .cons rfl .nil⟩
  · refine ⟨rfl, rfl, rfl, rfl, rfl, .some ?_, .nil, rfl, rfl, rfl⟩
    refine ⟨rfl, Json.sameFields_iff.mpr ?_⟩
    rw [List.forall_mem_cons, List.forall_mem_cons]
    exact ⟨⟨.string "object", by simp, rfl⟩, ⟨.number 3, by simp, rfl⟩, List.forall_mem_nil _⟩
  · have hsame := (hembedding _ _ (fits_bareEmbedding 1536) (fits_bareEmbedding 768) rfl).mp h
    exact absurd hsame.dimensions (by decide)

/-! ## An absent string and the string `<none>` -/

/-- The bytes with the string `s` differ from those without any exactly if `s` is not the mark that
is written for an absent one. -/
def TellsAbsent (bytes : Option String → Bytes) : Prop :=
  ∀ s, bytes (some s) ≠ bytes none ↔ s ≠ "<none>"

/-- The field is written between the same bytes in both cases. -/
theorem tellsAbsent_of_iff {bytes : Option String → Bytes} (field : String)
    (h : ∀ s, bytes (some s) = bytes none ↔ strChunk field s = strChunk field "<none>") :
    TellsAbsent bytes := by
  intro s
  rw [ne_eq, h, strChunk_inj]

theorem tellsAbsent_name (S : SerdeJson ν) (input : PromptCacheKeyInput ν)
    (before after : List PromptMessage) (message : PromptMessage) :
    TellsAbsent fun value => normalizePromptInput S
      { input with messages := before ++ { message with name := value } :: after } := by
  refine tellsAbsent_of_iff "message.name" fun s => ?_
  simp only [normalizePromptInput_eq, PromptText.bytes, PromptCacheKeyInput.text, count,
    List.map_append, List.map_cons, List.length_append, List.length_cons, List.length_map,
    List.flatMap_append, List.flatMap_cons, messageChunks, PromptMessage.text, List.append_assoc,
    List.append_right_inj, List.append_left_inj]
  rfl

theorem toolSchema_told_apart (S : SerdeJson ν) (input : PromptCacheKeyInput ν) (value : Value ν) :
    normalizePromptInput S { input with toolSchema := some value } ≠
      normalizePromptInput S { input with toolSchema := none } := by
  intro h
  simp only [normalizePromptInput_eq, PromptText.bytes, PromptCacheKeyInput.text,
    List.append_right_inj, List.append_left_inj, strChunk_inj] at h
  exact Value.canonicalJson_ne_none value h

/-- **An absent field is told from every present value but one.** With a string in the place of an
absent one the normalised form changes exactly if the string is not `<none>`, in whichever field or
message. With a JSON value in the place of an absent tool schema it always changes. -/
theorem absent_told_apart_iff (S : SerdeJson ν) :
    (∀ input : PromptCacheKeyInput ν,
      (TellsAbsent fun value => normalizePromptInput S { input with modelVersion := value }) ∧
      (TellsAbsent fun value => normalizePromptInput S { input with systemPrompt := value }) ∧
      (TellsAbsent fun value => normalizePromptInput S { input with outputFormat := value }) ∧
      (TellsAbsent fun value =>
        normalizePromptInput S { input with retrievalContextHash := value }) ∧
      (∀ before (message : PromptMessage) after, TellsAbsent fun value => normalizePromptInput S
        { input with messages := before ++ { message with name := value } :: after }) ∧
      ∀ value, normalizePromptInput S { input with toolSchema := some value } ≠
        normalizePromptInput S { input with toolSchema := none }) ∧
    ∀ input : EmbeddingCacheKeyInput ν,
      TellsAbsent fun value => normalizeEmbeddingInput S { input with modelVersion := value } := by
  refine ⟨fun input => ⟨tellsAbsent_of_iff "model_version" fun s => ?_,
    tellsAbsent_of_iff "system_prompt" fun s => ?_, tellsAbsent_of_iff "output_format" fun s => ?_,
    tellsAbsent_of_iff "retrieval_context_hash" fun s => ?_,
    fun before message after => tellsAbsent_name S input before after message,
    toolSchema_told_apart S input⟩,
    fun input => tellsAbsent_of_iff "model_version" fun s => ?_⟩
  all_goals
    simp only [normalizePromptInput_eq, PromptText.bytes, PromptCacheKeyInput.text,
      normalizeEmbeddingInput_eq, EmbeddingText.bytes, EmbeddingCacheKeyInput.text,
      List.append_right_inj, List.append_left_inj]
    rfl

/-- The string `<none>` is not told from an absent one, in any of the fields. -/
theorem not_absent_told_apart :
    normalizePromptInput digitJson { bareInput with modelVersion := some "<none>" } =
        normalizePromptInput digitJson { bareInput with modelVersion := none } ∧
      normalizePromptInput digitJson { bareInput with systemPrompt := some "<none>" } =
        normalizePromptInput digitJson { bareInput with systemPrompt := none } ∧
      normalizePromptInput digitJson { bareInput with outputFormat := some "<none>" } =
        normalizePromptInput digitJson { bareInput with outputFormat := none } ∧
      normalizePromptInput digitJson { bareInput with retrievalContextHash := some "<none>" } =
        normalizePromptInput digitJson { bareInput with retrievalContextHash := none } ∧
      normalizePromptInput digitJson
          { bareInput with messages := [⟨"user", "hello", some "<none>"⟩] } =
        normalizePromptInput digitJson { bareInput with messages := [.new "user" "hello"] } ∧
      normalizeEmbeddingInput digitJson { bareEmbedding 768 with modelVersion := some "<none>" } =
        normalizeEmbeddingInput digitJson { bareEmbedding 768 with modelVersion := none } :=
  ⟨rfl, rfl, rfl, rfl, rfl, rfl⟩

end Ai
end Cachebox
