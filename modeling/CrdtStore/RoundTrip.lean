import CrdtStore.Codec

/-!
# Decoding what was encoded

The states of a run can always be encoded and decoded: every map of timestamps that must not be
empty has an entry, and ids are read back unchanged. Sequence numbers are written as 64-bit numbers
but read back through a 32-bit accessor, so a state survives exactly when each of its sequence
numbers is one that a 32-bit signed integer extends to.
-/

namespace CrdtStore

open ReplicatedType Config
open UnorderedMap (Same lookup_mapValues)

namespace Timestamp

/-- A 64-bit sequence number, and ids that are non-negative 32-bit integers. -/
structure Fits (t : Timestamp) : Prop where
  seqNumber : t.seqNumber < 2 ^ 64
  uid : t.uid < 2 ^ 31
  replicaId : t.replicaId < 2 ^ 31

/-- The sequence number is a signed 32-bit integer extended to 64 bits. -/
def SignExtended (t : Timestamp) : Prop := t.seqNumber < 2 ^ 31 ∨ 2 ^ 64 - 2 ^ 31 ≤ t.seqNumber

instance (t : Timestamp) : Decidable t.SignExtended :=
  inferInstanceAs (Decidable (t.seqNumber < 2 ^ 31 ∨ 2 ^ 64 - 2 ^ 31 ≤ t.seqNumber))

theorem Fits.fresh {i : ℕ} (hi : i < 2 ^ 31) : ((default : Timestamp).setReplicaId i).Fits :=
  ⟨Nat.two_pow_pos 64, hi, hi⟩

theorem Fits.default : (default : Timestamp).Fits :=
  ⟨Nat.two_pow_pos 64, Nat.two_pow_pos 31, Nat.two_pow_pos 31⟩

/-- The counter wraps at 64 bits, so every update fits. -/
theorem Fits.update {t : Timestamp} (h : t.Fits) : t.update.Fits :=
  ⟨Nat.mod_lt _ (by omega), h.replicaId, h.replicaId⟩

theorem Fits.copy {t source : Timestamp} (h : t.Fits) (hs : source.Fits) : (t.copy source).Fits :=
  ⟨hs.seqNumber, hs.uid, h.replicaId⟩

/-- Of a timestamp that fits, only the counter can be cut. -/
theorem Fits.truncated_eq_iff {t : Timestamp} (h : t.Fits) : t.truncated = t ↔ t.SignExtended := by
  rw [SignExtended, ← throughInt32_eq_iff h.seqNumber]
  constructor
  · intro heq
    rw [← seqNumber_truncated, heq]
  · intro heq
    apply eq_of_seqNumber_eq
    · rw [seqNumber_truncated, heq]
    · rw [uid_truncated, throughInt32_of_lt h.uid]
    · rw [replicaId_truncated, throughInt32_of_lt h.replicaId]

end Timestamp

namespace LWWRegister

variable {V : Type*} {reg remote : LWWRegister V}

/-- An assigned register has its own timestamp, updated. -/
theorem fits_assign (h : reg.timestamp.Fits) (value : V) : (reg.assign value).timestamp.Fits :=
  h.update

/-- A merge keeps one of the two timestamps, or a copy under the local ids. -/
theorem fits_merge (h : reg.timestamp.Fits) (hr : remote.timestamp.Fits) :
    (reg.merge remote).timestamp.Fits := by
  rw [merge]
  split
  · exact h.copy hr
  · exact h

end LWWRegister

/-! ## The states of a run fit -/

namespace ORSet

variable {α : Type*} [DecidableEq α]

/-- At least one version, at least one tag under each element, and timestamps and ids that fit. -/
structure Fits (set : ORSet α) : Prop where
  replicaId : set.replicaId < 2 ^ 31
  version : ∃ id t, set.versions.lookup id = some t
  tag : ∀ e adds, set.elements.lookup e = some adds → ∃ id t, adds.lookup id = some t
  versions : ∀ id t, set.versions.lookup id = some t → id < 2 ^ 31 ∧ t.Fits
  tags : ∀ e adds, set.elements.lookup e = some adds →
    ∀ id t, adds.lookup id = some t → id < 2 ^ 31 ∧ t.Fits

theorem Fits.new {i : ℕ} (hi : i < 2 ^ 31) : (new i : ORSet α).Fits where
  replicaId := hi
  version := ⟨i, _, by rw [lookup_versions_new, if_pos rfl]⟩
  tag e adds h := by cases h
  versions id t h := by
    rw [lookup_versions_new] at h
    split at h
    · next hid =>
      cases h
      exact ⟨hid ▸ hi, Timestamp.Fits.fresh hi⟩
    · cases h
  tags e adds h := by cases h

/-- An add updates the version of its replica. -/
theorem Fits.add {set : ORSet α} (h : set.Fits) (e : α) : (set.add e).Fits := by
  have hfits : (((set.versions.lookup set.replicaId).getD default).update).Fits := by
    apply Timestamp.Fits.update
    cases hv : set.versions.lookup set.replicaId with
    | none => exact Timestamp.Fits.default
    | some t => exact (h.versions _ _ hv).2
  constructor
  · exact h.replicaId
  · exact ⟨set.replicaId, _, by rw [lookup_versions_add, if_pos rfl]⟩
  · intro e' adds hadds
    rw [lookup_add] at hadds
    split at hadds
    · cases hadds
      exact ⟨set.replicaId, _, AList.lookup_insert _⟩
    · exact h.tag e' adds hadds
  · intro id t ht
    rw [lookup_versions_add] at ht
    split at ht
    · next hid =>
      cases ht
      exact ⟨hid ▸ h.replicaId, hfits⟩
    · exact h.versions id t ht
  · intro e' adds hadds id t ht
    rw [lookup_add] at hadds
    split at hadds
    · cases hadds
      rw [UnorderedMap.lookup_insert_eq] at ht
      split at ht
      · next hid =>
        cases ht
        exact ⟨hid ▸ h.replicaId, hfits⟩
      · cases hold : set.elements.lookup e with
        | none =>
          rw [hold] at ht
          cases ht
        | some adds =>
          rw [hold] at ht
          exact h.tags e adds hold id t ht
    · exact h.tags e' adds hadds id t ht

theorem Fits.remove {set : ORSet α} (h : set.Fits) (e : α) : (set.remove e).2.Fits := by
  have hold : ∀ e' adds, (set.remove e).2.elements.lookup e' = some adds →
      set.elements.lookup e' = some adds := by
    intro e' adds hadds
    rw [lookup_remove] at hadds
    split at hadds
    · cases hadds
    · exact hadds
  exact ⟨h.replicaId, h.version, fun e' adds hadds => h.tag e' adds (hold e' adds hadds),
    h.versions, fun e' adds hadds => h.tags e' adds (hold e' adds hadds)⟩

/-- Tags and versions of the merged set are those of one side. -/
theorem Fits.merge {set remote : ORSet α} (h : set.Fits) (hr : remote.Fits) :
    (set.merge remote).Fits where
  replicaId := h.replicaId
  version := by
    obtain ⟨id, t, ht⟩ := h.version
    refine ⟨id, ?_⟩
    rw [lookup_versions_merge, ht]
    cases remote.versions.lookup id with
    | none => exact ⟨t, rfl⟩
    | some t' => exact ⟨t.max t', rfl⟩
  tag e adds hadds := by
    rcases lookup_merge_eq_some hadds with ⟨hs, -, -⟩ | ⟨-, hr', -⟩ | ⟨localAdds, _, hs, -, rfl⟩
    · exact h.tag e adds hs
    · exact hr.tag e adds hr'
    · obtain ⟨id, t, ht⟩ := h.tag e localAdds hs
      exact ⟨id, exists_tag_updateTags set _ ht⟩
  versions id t ht := by
    rw [lookup_versions_merge] at ht
    rcases joinVersion_eq ht with ht | ht
    · exact h.versions id t ht
    · exact hr.versions id t ht
  tags e adds hadds id t ht := by
    rcases tag_merge hadds ht with ⟨adds', hadds', ht⟩ | ⟨adds', hadds', ht⟩
    · exact h.tags e adds' hadds' id t ht
    · exact hr.tags e adds' hadds' id t ht

/-- A set that fits has the tags and versions that the constructor demands. -/
theorem Fits.encodable {set : ORSet String} (h : set.Fits) : set.Encodable where
  version := h.version
  tag := h.tag
  versionId id t ht := by
    have := (h.versions id t ht).1
    omega
  tagId e adds hadds id t ht := by
    have := (h.tags e adds hadds id t ht).1
    omega

/-- Each version and each tag has a sign-extended sequence number. -/
def SignExtended (set : ORSet α) : Prop :=
  (∀ id t, set.versions.lookup id = some t → t.SignExtended) ∧
    ∀ e adds, set.elements.lookup e = some adds →
      ∀ id t, adds.lookup id = some t → t.SignExtended

instance (set : ORSet α) : Decidable set.SignExtended :=
  inferInstanceAs (Decidable ((∀ id t, set.versions.lookup id = some t → t.SignExtended) ∧
    ∀ e adds, set.elements.lookup e = some adds →
      ∀ id t, adds.lookup id = some t → t.SignExtended))

/-- Truncating timestamps filed under ids changes none of them exactly when all are
sign-extended. -/
theorem same_mapValues_truncated_iff {timestamps : UnorderedMap ℕ Timestamp}
    (h : ∀ id t, timestamps.lookup id = some t → t.Fits) :
    Same (timestamps.mapValues Timestamp.truncated) timestamps ↔
      ∀ id t, timestamps.lookup id = some t → t.SignExtended := by
  constructor
  · intro hsame id t ht
    have hlook := hsame id
    rw [lookup_mapValues, ht] at hlook
    exact (h id t ht).truncated_eq_iff.mp (Option.some.inj hlook)
  · intro hsign id
    rw [lookup_mapValues]
    cases ht : timestamps.lookup id with
    | none => rfl
    | some t => exact congrArg some ((h id t ht).truncated_eq_iff.mpr (hsign id t ht))

/-- A set that fits is read back unchanged exactly when its counters are sign extensions. -/
theorem Fits.equal_truncated_iff {set : ORSet String} (h : set.Fits) :
    set.truncated.Equal set ↔ set.SignExtended := by
  have hversions := same_mapValues_truncated_iff fun id t ht => (h.versions id t ht).2
  have hlookup : ∀ e, set.truncated.elements.lookup e =
      (set.elements.lookup e).map (UnorderedMap.mapValues · Timestamp.truncated) := by
    intro e
    rw [truncated, lookup_mapValues]
  constructor
  · intro heq
    refine ⟨hversions.mp heq.versions, fun e adds hadds => ?_⟩
    have hrel := heq.elements e
    rw [hlookup, hadds] at hrel
    cases hrel with
    | some hsame =>
      exact (same_mapValues_truncated_iff fun id t ht => (h.tags e adds hadds id t ht).2).mp hsame
  · intro hsign
    have hid : set.truncated.replicaId = set.replicaId := by
      rw [replicaId_truncated, throughInt32_of_lt h.replicaId]
    refine ⟨fun e => ?_, hversions.mpr hsign.1, hid⟩
    rw [hlookup]
    cases hadds : set.elements.lookup e with
    | none => exact .none
    | some adds =>
      refine .some ((same_mapValues_truncated_iff fun id t ht => ?_).mpr (hsign.2 e adds hadds))
      exact (h.tags e adds hadds id t ht).2

end ORSet

namespace Map

variable {K V : Type*} [DecidableEq K]

/-- The keys fit, and so do the timestamps of the registers. -/
structure Fits (m : Map K V) : Prop where
  keys : m.keys.Fits
  registers : ∀ k reg, m.registers.lookup k = some reg → reg.timestamp.Fits

theorem Fits.new {i : ℕ} (hi : i < 2 ^ 31) : (new i : Map K V).Fits :=
  ⟨ORSet.Fits.new hi, fun k reg h => by cases h⟩

theorem Fits.remove {m : Map K V} (h : m.Fits) (key : K) : (m.remove key).Fits := by
  refine ⟨h.keys.remove key, fun k reg hreg => ?_⟩
  rw [lookup_registers_remove] at hreg
  split at hreg
  · cases hreg
  · exact h.registers k reg hreg

variable [Inhabited V]

/-- A put assigns the register under the own id. -/
theorem Fits.put {m : Map K V} (h : m.Fits) (key : K) (val : V) : (m.put key val).Fits := by
  refine ⟨h.keys.add key, fun k reg hreg => ?_⟩
  rw [lookup_registers_put] at hreg
  split at hreg
  · cases hreg
    apply LWWRegister.fits_assign
    cases hold : m.registers.lookup key with
    | none => exact Timestamp.Fits.fresh h.keys.replicaId
    | some old => exact h.registers key old hold
  · exact h.registers k reg hreg

/-- A register created in a merge is assigned under the local id first. -/
theorem fits_adopt {i : ℕ} (hi : i < 2 ^ 31) {remoteReg : LWWRegister V}
    (h : remoteReg.timestamp.Fits) : (adopt i remoteReg).timestamp.Fits :=
  LWWRegister.fits_merge (LWWRegister.fits_assign (Timestamp.Fits.fresh hi) remoteReg.value) h

/-- Registers created in a merge fit as well. -/
theorem Fits.merge {i : ℕ} {m remote : Map K V} (h : m.Fits) (hr : remote.Fits)
    (hcons : Consistent i m) : (m.merge remote).Fits := by
  have hi : i < 2 ^ 31 := hcons.replicaId ▸ h.keys.replicaId
  refine ⟨h.keys.merge hr.keys, fun k reg hreg => ?_⟩
  rcases hcons.register_merge hreg with ⟨localReg, remoteReg, hm, hq, rfl⟩ | ⟨hm, -⟩ |
    ⟨remoteReg, -, hq, rfl⟩
  · exact LWWRegister.fits_merge (h.registers k localReg hm) (hr.registers k remoteReg hq)
  · exact h.registers k reg hm
  · exact fits_adopt hi (hr.registers k remoteReg hq)

/-- All replicas have ids that are non-negative 32-bit integers. -/
def Int32Ids (_ : Config ℕ (MapOp K V) (Map K V)) (a : ReplicaAction ℕ (MapOp K V)) : Prop :=
  a.site < 2 ^ 31

instance (C : Config ℕ (MapOp K V) (Map K V)) (a : ReplicaAction ℕ (MapOp K V)) :
    Decidable (Int32Ids C a) := inferInstanceAs (Decidable (a.site < 2 ^ 31))

/-- Every state of a run with 32-bit ids fits. -/
theorem fits_of_reachable {C : Config ℕ (MapOp K V) (Map K V)} (h : replicated.Reachable Int32Ids C)
    {i : ℕ} (hi : i < 2 ^ 31) {R : Replica (Map K V)} (hR : C.HasState i R) : R.state.Fits := by
  refine h.induct (P := fun _ i R => i < 2 ^ 31 → R.state.Fits) ?_ ?_ ?_ ?_ i R hR hi
  · intro C i _ hi
    exact Fits.new hi
  · intro C i op _ _ ih j R hR hj
    exact ih j R hR hj
  · intro C i op hC _ ih hi
    have hfits := ih i _ .now hi
    cases op with
    | put key val => exact hfits.put key val
    | remove key => exact hfits.remove key
    | get key =>
      show ((C.node i).state.get key).2.Fits
      rw [(consistent_of_reachable hC .now).get]
      exact hfits
  · intro C i n q Q hC hstep hsent hfits hfitsQ hi
    obtain ⟨C', -, hq⟩ := hC.exists_send hsent
    exact (hfits hi).merge (hfitsQ hq) (consistent_of_reachable hC .now)

/-! ## What survives -/

/-- Each timestamp stored anywhere in the map has a sign-extended sequence number. -/
def SignExtended (m : Map K V) : Prop :=
  m.keys.SignExtended ∧ ∀ k reg, m.registers.lookup k = some reg → reg.timestamp.SignExtended

instance (m : Map K V) : Decidable m.SignExtended :=
  inferInstanceAs (Decidable (m.keys.SignExtended ∧
    ∀ k reg, m.registers.lookup k = some reg → reg.timestamp.SignExtended))

/-- The registers count as well. -/
theorem Fits.equal_truncated_iff {m : Map String String} (h : m.Fits) :
    m.truncated.Equal m ↔ m.SignExtended := by
  have htruncated : ∀ k reg, m.registers.lookup k = some reg →
      (reg.truncated = reg ↔ reg.timestamp.SignExtended) := by
    intro k reg hreg
    rw [← (h.registers k reg hreg).truncated_eq_iff]
    cases reg
    rw [LWWRegister.truncated, LWWRegister.mk.injEq]
    exact and_iff_left rfl
  constructor
  · intro heq
    refine ⟨h.keys.equal_truncated_iff.mp heq.keys, fun k reg hreg => ?_⟩
    have hlook := heq.registers k
    rw [truncated, lookup_mapValues, hreg] at hlook
    exact (htruncated k reg hreg).mp (Option.some.inj hlook)
  · intro hsign
    refine ⟨h.keys.equal_truncated_iff.mpr hsign.1, fun k => ?_⟩
    rw [truncated, lookup_mapValues]
    cases hreg : m.registers.lookup k with
    | none => rfl
    | some reg => exact congrArg some ((htruncated k reg hreg).mpr (hsign.2 k reg hreg))

/-- An encoded map that fits is decoded to an equal one exactly when it is sign-extended. -/
theorem Fits.decodes_iff {m : Map String String} (h : m.Fits) :
    (∃ m', ofJson m.toJson = .ok m' ∧ m'.Equal m) ↔ m.SignExtended := by
  obtain ⟨m', hok, hequal⟩ := ofJson_toJson h.keys.encodable
  rw [← h.equal_truncated_iff]
  constructor
  · intro hdecoded
    obtain ⟨m'', hok', hequal'⟩ := hdecoded
    obtain rfl : m' = m'' := Except.ok.inj (hok.symm.trans hok')
    exact hequal.symm.trans hequal'
  · intro htruncated
    exact ⟨m', hok, hequal.trans htruncated⟩

/-! ## States of a run -/

/-- Every state of a run can be decoded, and only its numbers may have changed. -/
theorem exists_decoded {C : Config ℕ (MapOp String String) (Map String String)}
    (h : replicated.Reachable Int32Ids C) {i : ℕ} (hi : i < 2 ^ 31)
    {R : Replica (Map String String)} (hR : C.HasState i R) :
    ∃ m', ofJson R.state.toJson = .ok m' ∧ m'.Equal R.state.truncated :=
  ofJson_toJson (fits_of_reachable h hi hR).keys.encodable

/-- **Decoding undoes encoding exactly for sign-extended states.** -/
theorem decoded_equal_iff {C : Config ℕ (MapOp String String) (Map String String)}
    (h : replicated.Reachable Int32Ids C) {i : ℕ} (hi : i < 2 ^ 31)
    {R : Replica (Map String String)} (hR : C.HasState i R) :
    (∃ m', ofJson R.state.toJson = .ok m' ∧ m'.Equal R.state) ↔ R.state.SignExtended :=
  (fits_of_reachable h hi hR).decodes_iff

/-- Replica 1 merges what replica 0 put, and both remove a key. -/
def sentAndRemoved : Config ℕ (MapOp String String) (Map String String) :=
  replicated.exec replicated.start
    [.update 0 (.put "k" "v"), .update 0 (.put "l" "w"), .send 0, .deliver 1 0,
      .update 1 (.put "k" "x"), .update 1 (.remove "l")]

theorem decoded_sentAndRemoved :
    ∃ m', ofJson (sentAndRemoved.node 1).state.toJson = .ok m' ∧
      m'.Equal (sentAndRemoved.node 1).state := by
  have hC : replicated.Reachable Int32Ids sentAndRemoved :=
    Reachable.start.exec (by decide)
  have hsign : (sentAndRemoved.node 1).state.SignExtended := by decide
  exact (decoded_equal_iff hC (by decide : 1 < 2 ^ 31) .now).mpr hsign

/-- Replica 0 puts a key `n` times. -/
def manyPuts (n : ℕ) : Config ℕ (MapOp String String) (Map String String) :=
  replicated.exec replicated.start (List.replicate n (.update 0 (.put "k" "v")))

/-- One more put. -/
theorem manyPuts_succ (n : ℕ) :
    manyPuts (n + 1) = replicated.next (manyPuts n) (.update 0 (.put "k" "v")) := by
  unfold manyPuts exec
  rw [List.replicate_succ', List.foldl_append]
  rfl

theorem reachable_manyPuts (n : ℕ) : replicated.Reachable Int32Ids (manyPuts n) := by
  induction n with
  | zero => exact .start
  | succ n ih =>
    rw [manyPuts_succ]
    exact .step ih (Nat.two_pow_pos 31)

/-- The version of replica 0 counts its puts. -/
theorem version_manyPuts {n : ℕ} (h : n < 2 ^ 64) :
    ((manyPuts n).node 0).state.keys.versions.lookup 0 = some ⟨n, 0, 0⟩ := by
  induction n with
  | zero => rfl
  | succ n ih =>
    have hid : ((manyPuts n).node 0).state.keys.replicaId = 0 :=
      (consistent_of_reachable (reachable_manyPuts n) .now).replicaId
    rw [manyPuts_succ, node_update_self]
    show (((manyPuts n).node 0).state.keys.add "k").versions.lookup 0 = _
    rw [ORSet.lookup_versions_add, hid, if_pos rfl, ih (by omega)]
    show some (Timestamp.update ⟨n, 0, 0⟩) = _
    rw [Timestamp.update, Nat.mod_eq_of_lt h]

/-- After 2³¹ puts the version of replica 0 is no 32-bit signed integer. -/
theorem not_decoded_manyPuts :
    replicated.Reachable Int32Ids (manyPuts (2 ^ 31)) ∧
      ¬ ∃ m', ofJson ((manyPuts (2 ^ 31)).node 0).state.toJson = .ok m' ∧
        m'.Equal ((manyPuts (2 ^ 31)).node 0).state := by
  refine ⟨reachable_manyPuts (2 ^ 31), ?_⟩
  have hfits := fits_of_reachable (reachable_manyPuts (2 ^ 31)) (Nat.two_pow_pos 31) .now
  rw [hfits.decodes_iff]
  intro hsign
  have hversion : Timestamp.SignExtended ⟨2 ^ 31, 0, 0⟩ :=
    hsign.1.1 0 _ (version_manyPuts (by omega))
  rcases hversion with hlt | hle
  · exact lt_irrefl _ hlt
  · exact absurd hle (by decide)

end Map

end CrdtStore
