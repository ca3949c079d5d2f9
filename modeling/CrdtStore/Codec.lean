import CrdtStore.Library.Json
import CrdtStore.MapRun

/-!
# JSON encodings

The `to_json` members and the constructors from JSON of timestamps, registers, sets and maps. The
encoders fill objects in loops, so an empty map is encoded as null; ids become field names as
decimal text and are read back by `stoull`; numbers are read back as 32-bit integers, which
`Timestamp.truncated` describes.
-/

namespace CrdtStore

open UnorderedMap (Same lookup_mapValues)

/-! ## Timestamps -/

namespace Timestamp

/-- `Timestamp::to_json`. -/
def toJson (t : Timestamp) : Json :=
  let jsonValue : UnorderedMap String Json := ∅
  let jsonValue := jsonValue.insert "sequence_number" (.number t.seqNumber)
  let jsonValue := jsonValue.insert "uid" (.number t.uid)
  let jsonValue := jsonValue.insert "replica_id" (.number t.replicaId)
  .ofMap jsonValue

/-- `Timestamp::Timestamp(const json::value&)`. -/
def ofJson (v : Json) : Except Thrown Timestamp :=
  if !v.hasField "sequence_number" || !v.hasField "uid" || !v.hasField "replica_id" then
    .error (.invalidArgument "Invalid JSON format for Timestamp")
  else do
    let seqNumber ← (← v.atField "sequence_number").asInteger
    let uid ← (← v.atField "uid").asInteger
    let replicaId ← (← v.atField "replica_id").asInteger
    return ⟨toUInt64 seqNumber, toUInt64 uid, toUInt64 replicaId⟩

/-- The timestamp with its members converted to 32-bit integers and back. -/
def truncated (t : Timestamp) : Timestamp :=
  ⟨throughInt32 t.seqNumber, throughInt32 t.uid, throughInt32 t.replicaId⟩

@[simp] theorem seqNumber_truncated (t : Timestamp) :
    t.truncated.seqNumber = throughInt32 t.seqNumber := by
  rw [truncated]

@[simp] theorem uid_truncated (t : Timestamp) : t.truncated.uid = throughInt32 t.uid := by
  rw [truncated]

@[simp] theorem replicaId_truncated (t : Timestamp) :
    t.truncated.replicaId = throughInt32 t.replicaId := by
  rw [truncated]

theorem ofJson_toJson (t : Timestamp) : ofJson t.toJson = .ok t.truncated := rfl

end Timestamp

/-- The loop of `ORSet::to_json` over timestamps by replica id. -/
def timestampsToJson (timestamps : UnorderedMap ℕ Timestamp) : Json :=
  .ofMap (timestamps.foldl (fun jsonValue id t => jsonValue.insert (numberText id) t.toJson) ∅)

/-! ## Registers -/

namespace LWWRegister

/-- `LWWRegister::to_json`. -/
def toJson (reg : LWWRegister String) : Json :=
  let jsonValue : UnorderedMap String Json := ∅
  let jsonValue := jsonValue.insert "timestamp" reg.timestamp.toJson
  let jsonValue := jsonValue.insert "value" (.string reg.value)
  .ofMap jsonValue

/-- `LWWRegister::LWWRegister(const json::value&)`. -/
def ofJson (v : Json) : Except Thrown (LWWRegister String) :=
  if !v.hasField "timestamp" || !v.hasField "value" then
    .error (.invalidArgument "Invalid JSON format for LWWRegister")
  else do
    let timestamp ← Timestamp.ofJson (← v.atField "timestamp")
    let value ← (← v.atField "value").asString
    return ⟨timestamp, value⟩

/-- The register with a truncated timestamp. -/
def truncated (reg : LWWRegister String) : LWWRegister String :=
  ⟨reg.timestamp.truncated, reg.value⟩

theorem ofJson_toJson (reg : LWWRegister String) : ofJson reg.toJson = .ok reg.truncated := rfl

end LWWRegister

/-! ## Sets -/

namespace ORSet

/-- `ORSet::to_json`. -/
def toJson (set : ORSet String) : Json :=
  let elementsJson := Json.ofMap
    (set.elements.foldl (fun jsonValue e adds => jsonValue.insert e (timestampsToJson adds)) ∅)
  let versionsJson := timestampsToJson set.versions
  let jsonValue : UnorderedMap String Json := ∅
  let jsonValue := jsonValue.insert "elements" elementsJson
  let jsonValue := jsonValue.insert "versions" versionsJson
  let jsonValue := jsonValue.insert "replica_id" (.number set.replicaId)
  .ofMap jsonValue

/-- The loop of `ORSet::ORSet(const json::value&)` over the tags of one element. -/
def tagsOfJson (elements : UnorderedMap String Tags) (key : String)
    (timestampMapJson : UnorderedMap String Json) :
    Except Thrown (UnorderedMap String Tags) :=
  timestampMapJson.foldlM
    (fun elements timestampKey timestampJson => do
      -- `_elements[key]` is created by its first tag only
      let timestampKey ← stoull timestampKey
      let timestamp ← Timestamp.ofJson timestampJson
      return elements.modifyAt key (·.insert timestampKey timestamp))
    elements

/-- The loop of `ORSet::ORSet(const json::value&)` over the elements. -/
def elementsOfJson (elementsJson : UnorderedMap String Json) :
    Except Thrown (UnorderedMap String Tags) :=
  elementsJson.foldlM
    (fun elements key timestampMapJson => do
      tagsOfJson elements key (← timestampMapJson.asObject))
    ∅

/-- The loop of `ORSet::ORSet(const json::value&)` over the versions. -/
def versionsOfJson (versionsJson : UnorderedMap String Json) :
    Except Thrown (UnorderedMap ℕ Timestamp) :=
  versionsJson.foldlM
    (fun versions versionKey timestampJson => do
      return versions.insert (← stoull versionKey) (← Timestamp.ofJson timestampJson))
    ∅

/-- `ORSet::ORSet(const json::value&)`. -/
def ofJson (v : Json) : Except Thrown (ORSet String) :=
  if !v.hasField "elements" || !v.hasField "versions" || !v.hasField "replica_id" then
    .error (.invalidArgument "Invalid JSON format for ORSet")
  else do
    let elements ← (← v.atField "elements").overFields elementsOfJson ∅
    let versions ← versionsOfJson (← (← v.atField "versions").asObject)
    let replicaId ← (← v.atField "replica_id").asInteger
    return ⟨elements, versions, toUInt64 replicaId⟩

end ORSet

/-! ## Maps -/

namespace Map

/-- `Map::to_json`. -/
def toJson (m : Map String String) : Json :=
  let registersJson := Json.ofMap
    (m.registers.foldl (fun jsonValue key reg => jsonValue.insert key reg.toJson) ∅)
  let serializedMap : UnorderedMap String Json := ∅
  let serializedMap := serializedMap.insert "_keys" m.keys.toJson
  let serializedMap := serializedMap.insert "_registers" registersJson
  .ofMap serializedMap

/-- The loop of `Map::Map(const json::value&)`. -/
def registersOfJson (registersJson : UnorderedMap String Json) :
    Except Thrown (UnorderedMap String (LWWRegister String)) :=
  registersJson.foldlM
    (fun registers key lwwRegister => do
      return registers.insert key (← LWWRegister.ofJson lwwRegister))
    ∅

/-- `Map::Map(const json::value&)`. -/
def ofJson (v : Json) : Except Thrown (Map String String) :=
  if !v.hasField "_keys" || !v.hasField "_registers" then
    .error (.invalidArgument "Invalid JSON format for Map")
  else do
    let keys ← ORSet.ofJson (← v.atField "_keys")
    let registers ← (← v.atField "_registers").overFields registersOfJson ∅
    return ⟨keys, registers⟩

end Map

/-! ## Reading timestamps by replica id back -/

theorem exists_lookup_timestamps {timestamps : UnorderedMap ℕ Timestamp} {id : ℕ} {t : Timestamp}
    (h : timestamps.lookup id = some t) :
    ∃ name x, (timestamps.foldl
      (fun (jsonValue : UnorderedMap String Json) id t => jsonValue.insert (numberText id) t.toJson)
      ∅).lookup name = some x := by
  refine ⟨numberText id, t.toJson, ?_⟩
  rw [UnorderedMap.lookup_foldl_insert (p := numberText) (w := Timestamp.toJson) timestamps
    fun k _ k' _ heq => numberText_injective heq]
  exact Or.inl ⟨id, t, h, rfl, rfl⟩

/-- Timestamps by replica id, at least one, are read back truncated. -/
theorem read_timestampsToJson {timestamps : UnorderedMap ℕ Timestamp}
    (hne : ∃ id t, timestamps.lookup id = some t)
    (hid : ∀ id t, timestamps.lookup id = some t → id < 2 ^ 64) :
    ∃ object, (timestampsToJson timestamps).asObject = .ok object ∧ (∃ name, name ∈ object) ∧
      ∀ read : UnorderedMap ℕ Timestamp, ∃ read', object.foldlM
          (fun (read : UnorderedMap ℕ Timestamp) name x => do
            return read.insert (← stoull name) (← Timestamp.ofJson x)) read = .ok read' ∧
        ∀ id, read'.lookup id = ((timestamps.lookup id).map Timestamp.truncated).or
          (read.lookup id) := by
  obtain ⟨id, t, ht⟩ := hne
  obtain ⟨name, x, hx⟩ := exists_lookup_timestamps ht
  refine ⟨_, Json.asObject_ofMap hx, ⟨name, UnorderedMap.mem_of_lookup hx⟩, fun read => ?_⟩
  apply UnorderedMap.foldlM_foldl_insert timestamps _ Timestamp.ofJson_toJson
  intro id hmem
  obtain ⟨t, ht⟩ := UnorderedMap.mem_iff_lookup.mp hmem
  exact stoull_numberText (hid id t ht)

/-! ## Reading sets back -/

namespace ORSet

/-- Equality of sets in every field. -/
structure Equal {α : Type*} [DecidableEq α] (A B : ORSet α) : Prop where
  elements : ∀ e, Option.Rel Same (A.elements.lookup e) (B.elements.lookup e)
  versions : Same A.versions B.versions
  replicaId : A.replicaId = B.replicaId

theorem Equal.symm {α : Type*} [DecidableEq α] {A B : ORSet α} (h : A.Equal B) : B.Equal A where
  elements e := by
    have hrel := h.elements e
    revert hrel
    generalize A.elements.lookup e = a, B.elements.lookup e = b
    intro hrel
    cases hrel with
    | some hsame => exact .some hsame.symm
    | none => exact .none
  versions := h.versions.symm
  replicaId := h.replicaId.symm

theorem Equal.trans {α : Type*} [DecidableEq α] {A B C : ORSet α} (h : A.Equal B)
    (h' : B.Equal C) : A.Equal C where
  elements e := by
    have hrel := h.elements e
    have hrel' := h'.elements e
    revert hrel hrel'
    generalize A.elements.lookup e = a, B.elements.lookup e = b, C.elements.lookup e = c
    intro hrel hrel'
    cases hrel with
    | some hsame => cases hrel' with | some hsame' => exact .some (hsame.trans hsame')
    | none => exact hrel'
  versions := h.versions.trans h'.versions
  replicaId := h.replicaId.trans h'.replicaId

/-- The set with all numbers converted to 32-bit integers and back. -/
def truncated (set : ORSet String) : ORSet String where
  elements := set.elements.mapValues (UnorderedMap.mapValues · Timestamp.truncated)
  versions := set.versions.mapValues Timestamp.truncated
  replicaId := throughInt32 set.replicaId

@[simp] theorem replicaId_truncated (set : ORSet String) :
    set.truncated.replicaId = throughInt32 set.replicaId := by
  rw [truncated]

/-- At least one version, at least one tag under each element, and ids that `stoull` can read. -/
structure Encodable (set : ORSet String) : Prop where
  version : ∃ id t, set.versions.lookup id = some t
  tag : ∀ e adds, set.elements.lookup e = some adds → ∃ id t, adds.lookup id = some t
  versionId : ∀ id t, set.versions.lookup id = some t → id < 2 ^ 64
  tagId : ∀ e adds, set.elements.lookup e = some adds →
    ∀ id t, adds.lookup id = some t → id < 2 ^ 64

variable {set : ORSet String}

theorem Encodable.read_versions (h : set.Encodable) :
    ∃ object versions, (timestampsToJson set.versions).asObject = .ok object ∧
      versionsOfJson object = .ok versions ∧ Same versions (truncated set).versions := by
  obtain ⟨object, hobject, -, hread⟩ := read_timestampsToJson h.version h.versionId
  obtain ⟨versions, hversions, hlookup⟩ := hread ∅
  refine ⟨object, versions, hobject, hversions, fun id => ?_⟩
  rw [hlookup, truncated, lookup_mapValues]
  exact Option.or_none

/-- The tags of an element are read into its entry. -/
theorem Encodable.read_tags (h : set.Encodable) {e : String} {adds : Tags}
    (hadds : set.elements.lookup e = some adds) (elements : UnorderedMap String Tags) :
    ∃ adds', (do tagsOfJson elements e (← (timestampsToJson adds).asObject)) =
        .ok (elements.insert e adds') ∧
      ∀ id, adds'.lookup id = ((adds.lookup id).map Timestamp.truncated).or
        (((elements.lookup e).getD ∅).lookup id) := by
  obtain ⟨object, hobject, hne, hread⟩ :=
    read_timestampsToJson (h.tag e adds hadds) (h.tagId e adds hadds)
  obtain ⟨adds', hadds', hlookup⟩ := hread ((elements.lookup e).getD ∅)
  refine ⟨adds', ?_, hlookup⟩
  rw [hobject]
  show tagsOfJson elements e object = _
  rw [tagsOfJson]
  apply UnorderedMap.foldlM_insert_part _ object hne hadds'
  intro d name x
  cases stoull name with
  | error err => rfl
  | ok id => cases Timestamp.ofJson x <;> rfl

/-- The loop over the elements reads the tags of each element. -/
theorem Encodable.read_elements (h : set.Encodable) :
    ∃ elements, elementsOfJson (set.elements.mapValues timestampsToJson) = .ok elements ∧
      ∀ e, Option.Rel Same (elements.lookup e) ((truncated set).elements.lookup e) := by
  obtain ⟨elements, helements, hin, hout⟩ := UnorderedMap.foldlM_spec
    (R := fun e _ before after => ∀ adds, set.elements.lookup e = some adds →
      ∃ adds', after = some adds' ∧ ∀ id, adds'.lookup id =
        ((adds.lookup id).map Timestamp.truncated).or ((before.getD ∅).lookup id))
    (f := fun elements key timestampMapJson => do
      tagsOfJson elements key (← timestampMapJson.asObject))
    (set.elements.mapValues timestampsToJson) (by
      intro elements e json hjson
      rw [lookup_mapValues, Option.map_eq_some_iff] at hjson
      obtain ⟨adds, hadds, rfl⟩ := hjson
      obtain ⟨adds', hread, hlookup⟩ := h.read_tags hadds elements
      refine ⟨elements.insert e adds', hread, fun adds₁ hadds₁ => ?_, fun k hk => ?_⟩
      · rw [hadds] at hadds₁
        cases hadds₁
        exact ⟨adds', AList.lookup_insert _, hlookup⟩
      · exact AList.lookup_insert_ne hk) ∅
  refine ⟨elements, helements, fun e => ?_⟩
  have hjson := lookup_mapValues set.elements timestampsToJson e
  rw [truncated, lookup_mapValues]
  cases hadds : set.elements.lookup e with
  | none =>
    rw [hadds] at hjson
    rw [hout e (UnorderedMap.not_mem_iff_lookup.mpr hjson)]
    exact .none
  | some adds =>
    rw [hadds] at hjson
    obtain ⟨adds', hafter, hlookup⟩ := hin e _ hjson adds hadds
    rw [hafter]
    refine .some fun id => ?_
    rw [hlookup, lookup_mapValues]
    exact Option.or_none

/-- An encoded set can be decoded, and only its numbers may have changed. -/
theorem Encodable.ofJson_toJson (h : set.Encodable) :
    ∃ set', ofJson set.toJson = .ok set' ∧ set'.Equal set.truncated := by
  obtain ⟨elements, helements, hel⟩ := h.read_elements
  obtain ⟨object, versions, hobject, hversions, hver⟩ := h.read_versions
  have hempty : elementsOfJson ∅ = .ok ∅ := rfl
  refine ⟨⟨elements, versions, throughInt32 set.replicaId⟩, ?_, hel, hver, rfl⟩
  show (do
    let elements ← (Json.ofMap (set.elements.mapValues timestampsToJson)).overFields
      elementsOfJson ∅
    let versions ← versionsOfJson (← (timestampsToJson set.versions).asObject)
    return (ORSet.mk elements versions (throughInt32 set.replicaId) : ORSet String)) = _
  rw [Json.overFields_ofMap _ hempty, helements, hobject]
  show (do
    let versions ← versionsOfJson object
    return (ORSet.mk elements versions (throughInt32 set.replicaId) : ORSet String)) = _
  rw [hversions]
  rfl

end ORSet

/-! ## Reading maps back -/

namespace Map

/-- Equality of maps in every field. -/
structure Equal {K V : Type*} [DecidableEq K] (m m' : Map K V) : Prop where
  keys : m.keys.Equal m'.keys
  registers : Same m.registers m'.registers

theorem Equal.symm {K V : Type*} [DecidableEq K] {m m' : Map K V} (h : m.Equal m') : m'.Equal m :=
  ⟨h.keys.symm, h.registers.symm⟩

theorem Equal.trans {K V : Type*} [DecidableEq K] {m m' m'' : Map K V} (h : m.Equal m')
    (h' : m'.Equal m'') : m.Equal m'' :=
  ⟨h.keys.trans h'.keys, h.registers.trans h'.registers⟩

/-- The map with all numbers converted to 32-bit integers and back. -/
def truncated (m : Map String String) : Map String String where
  keys := m.keys.truncated
  registers := m.registers.mapValues LWWRegister.truncated

theorem read_registers (registers : UnorderedMap String (LWWRegister String)) :
    ∃ registers', registersOfJson (registers.mapValues LWWRegister.toJson) = .ok registers' ∧
      Same registers' (registers.mapValues LWWRegister.truncated) := by
  obtain ⟨registers', hread, hlookup⟩ := UnorderedMap.foldlM_foldl_insert (p := id)
    (q := Except.ok) registers (fun _ _ => rfl) LWWRegister.ofJson_toJson ∅
  refine ⟨registers', hread, fun k => ?_⟩
  rw [hlookup, lookup_mapValues]
  exact Option.or_none

/-- An encoded map can be decoded, and only its numbers may have changed. -/
theorem ofJson_toJson {m : Map String String} (h : m.keys.Encodable) :
    ∃ m', ofJson m.toJson = .ok m' ∧ m'.Equal m.truncated := by
  obtain ⟨keys, hkeys, hequal⟩ := h.ofJson_toJson
  obtain ⟨registers, hregisters, hsame⟩ := read_registers m.registers
  have hempty : registersOfJson ∅ = .ok ∅ := rfl
  refine ⟨⟨keys, registers⟩, ?_, hequal, hsame⟩
  show (do
    let keys ← ORSet.ofJson m.keys.toJson
    let registers ← (Json.ofMap (m.registers.mapValues LWWRegister.toJson)).overFields
      registersOfJson ∅
    return (Map.mk keys registers : Map String String)) = _
  rw [hkeys]
  show (do
    let registers ← (Json.ofMap (m.registers.mapValues LWWRegister.toJson)).overFields
      registersOfJson ∅
    return (Map.mk keys registers : Map String String)) = _
  rw [Json.overFields_ofMap _ hempty, hregisters]
  rfl

end Map

end CrdtStore
