import CrdtStore.IterationOrder
import CrdtStore.RoundTrip

/-!
# What the constructors from JSON accept

Any JSON value may be posted. `Tagged` is what every set that the constructor accepts satisfies, and
what a set that is merged has to satisfy for the local set to stay `Encodable`: an element without a
tag would be encoded as null, which the constructor refuses. The numbers are 32-bit integers stored
in 64 bits (`InRange`), and stay so in merges, so that sending such a map on changes none of them.
-/

namespace CrdtStore

open UnorderedMap (Same lookup_insert_eq lookup_mapValues)

namespace Timestamp

variable {t source : Timestamp}

theorem truncated_of_ofJson {v : Json} (h : ofJson v = .ok t) : t.truncated = t := by
  rw [ofJson] at h
  split at h
  · cases h
  obtain ⟨_, -, h⟩ := exists_of_bind_eq_ok h
  obtain ⟨seqNumber, hseqNumber, h⟩ := exists_of_bind_eq_ok h
  obtain ⟨_, -, h⟩ := exists_of_bind_eq_ok h
  obtain ⟨uid, huid, h⟩ := exists_of_bind_eq_ok h
  obtain ⟨_, -, h⟩ := exists_of_bind_eq_ok h
  obtain ⟨replicaId, hreplicaId, h⟩ := exists_of_bind_eq_ok h
  rw [← Except.ok.inj h, truncated, throughInt32_toUInt64 (Json.int32_asInteger hseqNumber),
    throughInt32_toUInt64 (Json.int32_asInteger huid),
    throughInt32_toUInt64 (Json.int32_asInteger hreplicaId)]

/-- A timestamp is left alone when each of its numbers is. -/
theorem truncated_eq_iff : t.truncated = t ↔ throughInt32 t.seqNumber = t.seqNumber ∧
    throughInt32 t.uid = t.uid ∧ throughInt32 t.replicaId = t.replicaId := by
  rw [truncated]
  constructor
  · intro h
    rw [← seqNumber_truncated, ← uid_truncated, ← replicaId_truncated, truncated, h]
    exact ⟨rfl, rfl, rfl⟩
  · rintro ⟨hseq, huid, hid⟩
    rw [hseq, huid, hid]

/-- A copy takes each number from one of the two. -/
theorem truncated_copy (h : t.truncated = t) (hs : source.truncated = source) :
    (t.copy source).truncated = t.copy source := by
  rw [truncated_eq_iff] at h hs ⊢
  exact ⟨hs.1, hs.2.1, h.2.2⟩

end Timestamp

namespace LWWRegister

theorem truncated_of_ofJson {v : Json} {reg : LWWRegister String} (h : ofJson v = .ok reg) :
    reg.timestamp.truncated = reg.timestamp := by
  rw [ofJson] at h
  split at h
  · cases h
  obtain ⟨_, -, h⟩ := exists_of_bind_eq_ok h
  obtain ⟨timestamp, htimestamp, h⟩ := exists_of_bind_eq_ok h
  obtain ⟨_, -, h⟩ := exists_of_bind_eq_ok h
  obtain ⟨value, -, h⟩ := exists_of_bind_eq_ok h
  cases h
  exact Timestamp.truncated_of_ofJson htimestamp

end LWWRegister

namespace ORSet

/-- At least one tag under each element, and ids of 64 bits. -/
structure Tagged (set : ORSet String) : Prop where
  tag : ∀ e adds, set.elements.lookup e = some adds → ∃ id t, adds.lookup id = some t
  versionId : ∀ id t, set.versions.lookup id = some t → id < 2 ^ 64
  tagId : ∀ e adds, set.elements.lookup e = some adds →
    ∀ id t, adds.lookup id = some t → id < 2 ^ 64

theorem Encodable.tagged {set : ORSet String} (h : set.Encodable) : set.Tagged :=
  ⟨h.tag, h.versionId, h.tagId⟩

/-- With a version vector that is not empty, such a set can be sent. -/
theorem Tagged.encodable {set : ORSet String} (h : set.Tagged)
    (hversion : ∃ id t, set.versions.lookup id = some t) : set.Encodable :=
  ⟨hversion, h.tag, h.versionId, h.tagId⟩

/-! ## The loops of the constructor -/

/-- What the name and the value of a field of timestamps are read as. -/
def WasRead (id : ℕ) (t : Timestamp) : Prop := id < 2 ^ 64 ∧ t.truncated = t

/-- Elements that were read: each has a tag, and all tags were read. -/
def ReadElements (elements : UnorderedMap String Tags) : Prop :=
  ∀ e adds, elements.lookup e = some adds →
    (∃ id t, adds.lookup id = some t) ∧ ∀ id t, adds.lookup id = some t → WasRead id t

theorem readElements_empty : ReadElements ∅ := by
  intro e adds hadds
  cases hadds

/-- One more tag that was read. -/
theorem ReadElements.modifyAt {elements : UnorderedMap String Tags} (h : ReadElements elements)
    (key : String) {id : ℕ} {t : Timestamp} (hread : WasRead id t) :
    ReadElements (elements.modifyAt key (·.insert id t)) := by
  intro e adds hadds
  rw [UnorderedMap.lookup_modifyAt] at hadds
  split at hadds
  · cases hadds
    refine ⟨⟨id, t, AList.lookup_insert _⟩, fun id' t' ht' => ?_⟩
    rw [lookup_insert_eq] at ht'
    split at ht'
    · next heq =>
      cases ht'
      rw [heq]
      exact hread
    · cases hkey : elements.lookup key with
      | none =>
        rw [hkey] at ht'
        cases ht'
      | some adds' =>
        rw [hkey] at ht'
        exact (h key adds' hkey).2 id' t' ht'
  · exact h e adds hadds

/-- The loop over the tags of one element. -/
theorem readElements_tagsOfJson {elements elements' : UnorderedMap String Tags} {key : String}
    {timestampMapJson : UnorderedMap String Json} (h : ReadElements elements)
    (hread : tagsOfJson elements key timestampMapJson = .ok elements') :
    ReadElements elements' := by
  refine UnorderedMap.foldlM_invariant timestampMapJson ?_ h hread
  intro elements name json elements' _ h hturn
  obtain ⟨id, hid, hturn⟩ := exists_of_bind_eq_ok hturn
  obtain ⟨t, ht, hturn⟩ := exists_of_bind_eq_ok hturn
  cases hturn
  exact h.modifyAt key ⟨stoull_lt hid, Timestamp.truncated_of_ofJson ht⟩

/-- The loop over the elements. -/
theorem readElements_elementsOfJson {elementsJson : UnorderedMap String Json}
    {elements : UnorderedMap String Tags} (hread : elementsOfJson elementsJson = .ok elements) :
    ReadElements elements := by
  refine UnorderedMap.foldlM_invariant elementsJson ?_ readElements_empty hread
  intro elements key json elements' _ h hturn
  obtain ⟨timestampMapJson, -, hturn⟩ := exists_of_bind_eq_ok hturn
  exact readElements_tagsOfJson h hturn

/-- The loop over the version vector. -/
theorem wasRead_versionsOfJson {versionsJson : UnorderedMap String Json}
    {versions : UnorderedMap ℕ Timestamp} (hread : versionsOfJson versionsJson = .ok versions) :
    ∀ id t, versions.lookup id = some t → WasRead id t := by
  refine UnorderedMap.foldlM_invariant
    (I := fun versions => ∀ id t, versions.lookup id = some t → WasRead id t) versionsJson ?_ ?_
    hread
  · intro versions name json versions' _ h hturn id t ht
    obtain ⟨id', hid', hturn⟩ := exists_of_bind_eq_ok hturn
    obtain ⟨t', ht', hturn⟩ := exists_of_bind_eq_ok hturn
    cases hturn
    rw [lookup_insert_eq] at ht
    split at ht
    · next heq =>
      cases ht
      rw [heq]
      exact ⟨stoull_lt hid', Timestamp.truncated_of_ofJson ht'⟩
    · exact h id t ht
  · intro id t ht
    cases ht

/-- Whatever JSON a set is read from. -/
theorem wasRead_of_ofJson {v : Json} {set : ORSet String} (h : ofJson v = .ok set) :
    ReadElements set.elements ∧ (∀ id t, set.versions.lookup id = some t → WasRead id t) ∧
      throughInt32 set.replicaId = set.replicaId := by
  rw [ofJson] at h
  split at h
  · cases h
  obtain ⟨elementsJson, -, h⟩ := exists_of_bind_eq_ok h
  obtain ⟨elements, helements, h⟩ := exists_of_bind_eq_ok h
  obtain ⟨versionsJson, -, h⟩ := exists_of_bind_eq_ok h
  obtain ⟨versionsObject, -, h⟩ := exists_of_bind_eq_ok h
  obtain ⟨versions, hversions, h⟩ := exists_of_bind_eq_ok h
  obtain ⟨replicaIdJson, -, h⟩ := exists_of_bind_eq_ok h
  obtain ⟨replicaId, hreplicaId, h⟩ := exists_of_bind_eq_ok h
  have hset : (⟨elements, versions, toUInt64 replicaId⟩ : ORSet String) = set := Except.ok.inj h
  have hread : ReadElements elements := by
    rw [Json.overFields] at helements
    split at helements
    · cases helements
      exact readElements_empty
    · obtain ⟨object, -, hread⟩ := exists_of_bind_eq_ok helements
      exact readElements_elementsOfJson hread
  rw [← hset]
  exact ⟨hread, wasRead_versionsOfJson hversions,
    throughInt32_toUInt64 (Json.int32_asInteger hreplicaId)⟩

/-- An element is made with its first tag, and ids are read with `stoull`. -/
theorem tagged_of_ofJson {v : Json} {set : ORSet String} (h : ofJson v = .ok set) :
    set.Tagged := by
  obtain ⟨helements, hversions, -⟩ := wasRead_of_ofJson h
  exact ⟨fun e adds hadds => (helements e adds hadds).1, fun id t ht => (hversions id t ht).1,
    fun e adds hadds id t ht => ((helements e adds hadds).2 id t ht).1⟩

/-! ## The operations keep a set encodable -/

variable {set remote : ORSet String}

/-- A new set has the version of its own replica. -/
theorem Encodable.new {i : ℕ} (hi : i < 2 ^ 64) : (ORSet.new i : ORSet String).Encodable where
  version := ⟨i, _, AList.lookup_insert _⟩
  tag e adds hadds := by cases hadds
  versionId j t ht := by
    rw [lookup_versions_new] at ht
    split at ht
    · next heq => rw [heq]; exact hi
    · cases ht
  tagId e adds hadds := by cases hadds

/-- An add tags the element under the own id. -/
theorem Encodable.add (h : set.Encodable) (hid : set.replicaId < 2 ^ 64) (e : String) :
    (set.add e).Encodable where
  version := ⟨set.replicaId, _, AList.lookup_insert _⟩
  tag e' adds hadds := by
    rw [lookup_add] at hadds
    split at hadds
    · cases hadds
      exact ⟨set.replicaId, _, AList.lookup_insert _⟩
    · exact h.tag e' adds hadds
  versionId j t ht := by
    rw [lookup_versions_add] at ht
    split at ht
    · next heq => rw [heq]; exact hid
    · exact h.versionId j t ht
  tagId e' adds hadds j t ht := by
    rw [lookup_add] at hadds
    split at hadds
    · cases hadds
      rw [lookup_insert_eq] at ht
      split at ht
      · next heq => rw [heq]; exact hid
      · cases hold : set.elements.lookup e with
        | none =>
          rw [hold] at ht
          cases ht
        | some adds =>
          rw [hold] at ht
          exact h.tagId e adds hold j t ht
    · exact h.tagId e' adds hadds j t ht

theorem Encodable.remove (h : set.Encodable) (e : String) : (set.remove e).2.Encodable := by
  have hkept : ∀ e' adds, (set.remove e).2.elements.lookup e' = some adds →
      set.elements.lookup e' = some adds := by
    intro e' adds hadds
    rw [lookup_remove] at hadds
    split at hadds
    · cases hadds
    · exact hadds
  exact ⟨h.version, fun e' adds hadds => h.tag e' adds (hkept e' adds hadds), h.versionId,
    fun e' adds hadds => h.tagId e' adds (hkept e' adds hadds)⟩

/-- Merging anything that was decoded keeps a set encodable. -/
theorem Encodable.merge (h : set.Encodable) (hr : remote.Tagged) :
    (set.merge remote).Encodable where
  version := by
    obtain ⟨id, t, ht⟩ := h.version
    refine ⟨id, ?_⟩
    rw [lookup_versions_merge, ht]
    cases remote.versions.lookup id with
    | none => exact ⟨t, rfl⟩
    | some t' => exact ⟨t.max t', rfl⟩
  tag e adds hadds := by
    -- the element was kept, copied or updated
    rcases lookup_merge_eq_some hadds with ⟨hs, -, -⟩ | ⟨-, hq, -⟩ |
      ⟨localAdds, remoteAdds, hs, -, rfl⟩
    · exact h.tag e adds hs
    · exact hr.tag e adds hq
    · obtain ⟨j, t, ht⟩ := h.tag e localAdds hs
      exact ⟨j, exists_tag_updateTags set remoteAdds ht⟩
  versionId id t ht := by
    rw [lookup_versions_merge] at ht
    rcases joinVersion_eq ht with ht | ht
    · exact h.versionId id t ht
    · exact hr.versionId id t ht
  tagId e adds hadds id t ht := by
    rcases tag_merge hadds ht with ⟨adds', hadds', ht'⟩ | ⟨adds', hadds', ht'⟩
    · exact h.tagId e adds' hadds' id t ht'
    · exact hr.tagId e adds' hadds' id t ht'

/-- The contents decide. -/
theorem Encodable.of_equal {set' : ORSet String} (h : set.Encodable) (heq : set.Equal set') :
    set'.Encodable where
  version := by
    obtain ⟨id, t, ht⟩ := h.version
    exact ⟨id, t, by rw [← heq.versions id, ht]⟩
  tag e adds hadds := by
    obtain ⟨adds', hadds', hsame⟩ := heq.symm.lookup_eq_some hadds
    obtain ⟨id, t, ht⟩ := h.tag e adds' hadds'
    exact ⟨id, t, by rw [hsame id, ht]⟩
  versionId id t ht := h.versionId id t (by rw [heq.versions id, ht])
  tagId e adds hadds id t ht := by
    obtain ⟨adds', hadds', hsame⟩ := heq.symm.lookup_eq_some hadds
    exact h.tagId e adds' hadds' id t (by rw [← hsame id, ht])

/-! ## Numbers that were read -/

/-- Timestamps in range stay as they are. -/
theorem same_mapValues_truncated {timestamps : UnorderedMap ℕ Timestamp}
    (h : ∀ id t, timestamps.lookup id = some t → t.truncated = t) :
    Same (timestamps.mapValues Timestamp.truncated) timestamps := by
  intro id
  rw [lookup_mapValues]
  cases ht : timestamps.lookup id with
  | none => rfl
  | some t => exact congrArg some (h id t ht)

/-- All numbers are 32-bit integers stored in 64 bits. -/
structure InRange (set : ORSet String) : Prop where
  replicaId : throughInt32 set.replicaId = set.replicaId
  version : ∀ id t, set.versions.lookup id = some t → t.truncated = t
  tag : ∀ e adds, set.elements.lookup e = some adds →
    ∀ id t, adds.lookup id = some t → t.truncated = t

/-- Truncation leaves a set in range as it is. -/
theorem InRange.equal_truncated {set : ORSet String} (h : set.InRange) :
    set.truncated.Equal set where
  elements e := by
    have hlookup : set.truncated.elements.lookup e =
        (set.elements.lookup e).map (UnorderedMap.mapValues · Timestamp.truncated) := by
      rw [truncated, lookup_mapValues]
    rw [hlookup]
    cases hadds : set.elements.lookup e with
    | none => exact .none
    | some adds => exact .some (same_mapValues_truncated (h.tag e adds hadds))
  versions := same_mapValues_truncated h.version
  replicaId := by rw [replicaId_truncated, h.replicaId]

/-- A merge takes every timestamp from one of the sides. -/
theorem InRange.merge {set remote : ORSet String} (h : set.InRange) (hr : remote.InRange) :
    (set.merge remote).InRange where
  replicaId := h.replicaId
  version id t ht := by
    rw [lookup_versions_merge] at ht
    rcases joinVersion_eq ht with ht | ht
    · exact h.version id t ht
    · exact hr.version id t ht
  tag e adds hadds id t ht := by
    rcases tag_merge hadds ht with ⟨adds', hadds', ht'⟩ | ⟨adds', hadds', ht'⟩
    · exact h.tag e adds' hadds' id t ht'
    · exact hr.tag e adds' hadds' id t ht'

theorem InRange.new {i : ℕ} (hi : i < 2 ^ 31) : (new i : ORSet String).InRange where
  replicaId := throughInt32_of_lt hi
  version id t ht := by
    rw [lookup_versions_new] at ht
    split at ht
    · have hzero := throughInt32_of_lt (Nat.two_pow_pos 31)
      have hid := throughInt32_of_lt hi
      rw [← Option.some.inj ht, Timestamp.truncated_eq_iff]
      exact ⟨hzero, hid, hid⟩
    · cases ht
  tag e adds hadds := by cases hadds

/-- Whatever was decoded is in range. -/
theorem inRange_of_ofJson {v : Json} {set : ORSet String} (h : ofJson v = .ok set) :
    set.InRange := by
  obtain ⟨helements, hversions, hid⟩ := wasRead_of_ofJson h
  exact ⟨hid, fun id t ht => (hversions id t ht).2,
    fun e adds hadds id t ht => ((helements e adds hadds).2 id t ht).2⟩

end ORSet

namespace Map

/-- Whatever JSON a map is read from. -/
theorem tagged_of_ofJson {v : Json} {m : Map String String} (h : ofJson v = .ok m) :
    m.keys.Tagged := by
  rw [ofJson] at h
  split at h
  · cases h
  obtain ⟨keysJson, -, h⟩ := exists_of_bind_eq_ok h
  obtain ⟨keys, hkeys, h⟩ := exists_of_bind_eq_ok h
  obtain ⟨registersJson, -, h⟩ := exists_of_bind_eq_ok h
  obtain ⟨registers, -, h⟩ := exists_of_bind_eq_ok h
  cases h
  exact ORSet.tagged_of_ofJson hkeys

/-- A client with a 64-bit id can send its map after every call. -/
theorem encodable_apply {m : Map String String} (h : m.keys.Encodable)
    (hid : m.keys.replicaId < 2 ^ 64) (op : MapOp String String) :
    (replicated.apply op m).keys.Encodable := by
  cases op with
  | put key val => exact h.add hid key
  | remove key => exact h.remove key
  | get key =>
    show (m.get key).2.keys.Encodable
    rw [keys_get]
    exact h

/-- All numbers are 32-bit integers stored in 64 bits. -/
structure InRange (m : Map String String) : Prop where
  keys : m.keys.InRange
  register : ∀ k reg, m.registers.lookup k = some reg → reg.timestamp.truncated = reg.timestamp

variable {m remote : Map String String}

/-- Sending such a map changes none of its numbers. -/
theorem InRange.equal_truncated (h : m.InRange) : m.truncated.Equal m := by
  refine ⟨h.keys.equal_truncated, fun k => ?_⟩
  rw [truncated, lookup_mapValues]
  cases hreg : m.registers.lookup k with
  | none => rfl
  | some reg =>
    have hsame : reg.truncated = reg := by
      rw [LWWRegister.truncated, h.register k reg hreg]
    exact congrArg some hsame

theorem InRange.new {i : ℕ} (hi : i < 2 ^ 31) : (new i : Map String String).InRange :=
  ⟨ORSet.InRange.new hi, fun k reg hreg => by cases hreg⟩

/-- The same of maps, whose merge may create registers. -/
theorem InRange.merge (h : m.InRange) (hr : remote.InRange) : (m.merge remote).InRange := by
  have hmerge : ∀ {localReg remoteReg : LWWRegister String},
      localReg.timestamp.truncated = localReg.timestamp →
      remoteReg.timestamp.truncated = remoteReg.timestamp →
      (localReg.merge remoteReg).timestamp.truncated = (localReg.merge remoteReg).timestamp := by
    intro localReg remoteReg hl hq
    rw [LWWRegister.merge]
    split
    · exact Timestamp.truncated_copy hl hq
    · exact hl
  refine ⟨h.keys.merge hr.keys, fun k reg hreg => ?_⟩
  rcases register_of_merge hreg with ⟨hlocal, -⟩ |
    ⟨remoteReg, hremote, rfl | ⟨localReg, hlocal, rfl⟩⟩
  · exact h.register k reg hlocal
  · -- the stamp (1, id) of a new register is in range as the id of the map is
    refine hmerge ?_ (hr.register k remoteReg hremote)
    rw [Timestamp.truncated_eq_iff]
    have hone : 1 < 2 ^ 31 := by decide
    exact ⟨throughInt32_of_lt hone, h.keys.replicaId, h.keys.replicaId⟩
  · exact hmerge (h.register k localReg hlocal) (hr.register k remoteReg hremote)

/-- The loop over the registers. -/
theorem inRange_registersOfJson {registersJson : UnorderedMap String Json}
    {registers : UnorderedMap String (LWWRegister String)}
    (hread : registersOfJson registersJson = .ok registers) :
    ∀ k reg, registers.lookup k = some reg → reg.timestamp.truncated = reg.timestamp := by
  refine UnorderedMap.foldlM_invariant
    (I := fun (registers : UnorderedMap String (LWWRegister String)) => ∀ k reg,
      registers.lookup k = some reg → reg.timestamp.truncated = reg.timestamp)
    registersJson ?_ (fun k reg hreg => by cases hreg) hread
  intro registers name json registers' _ h hturn k reg hreg
  obtain ⟨reg', hreg', hturn⟩ := exists_of_bind_eq_ok hturn
  cases hturn
  rw [lookup_insert_eq] at hreg
  split at hreg
  · cases hreg
    exact LWWRegister.truncated_of_ofJson hreg'
  · exact h k reg hreg

theorem inRange_of_ofJson {v : Json} (h : ofJson v = .ok m) : m.InRange := by
  rw [ofJson] at h
  split at h
  · cases h
  obtain ⟨keysJson, -, h⟩ := exists_of_bind_eq_ok h
  obtain ⟨keys, hkeys, h⟩ := exists_of_bind_eq_ok h
  obtain ⟨registersJson, -, h⟩ := exists_of_bind_eq_ok h
  obtain ⟨registers, hregisters, h⟩ := exists_of_bind_eq_ok h
  cases h
  refine ⟨ORSet.inRange_of_ofJson hkeys, ?_⟩
  rw [Json.overFields] at hregisters
  split at hregisters
  · cases hregisters
    exact fun k reg hreg => by cases hreg
  · obtain ⟨object, -, hread⟩ := exists_of_bind_eq_ok hregisters
    exact inRange_registersOfJson hread

end Map

end CrdtStore
