import CrdtStore.Decoded
import CrdtStore.MapValues

/-!
# Numbers that survive the wire

`as_integer` reads 32-bit integers. While no clock has counted past a bound, no number anywhere in
the system exceeds it (`below_of_reachable`), so that below `2 ^ 31` a map that is encoded, in
whatever bucket order, is decoded with its contents (`exists_decoded_of_equal`).
-/

namespace CrdtStore

open UnorderedMap (Same lookup_insert_eq lookup_mapValues)
open ReplicatedType Config

namespace ORSet

theorem Equal.truncated {A B : ORSet String} (h : A.Equal B) : A.truncated.Equal B.truncated where
  elements e := by
    show Option.Rel Same ((A.elements.mapValues _).lookup e) ((B.elements.mapValues _).lookup e)
    rw [lookup_mapValues, lookup_mapValues]
    cases hA : A.elements.lookup e with
    | none =>
      rw [h.lookup_eq_none.mp hA]
      exact .none
    | some adds =>
      obtain ⟨adds', hB, hsame⟩ := h.lookup_eq_some hA
      rw [hB]
      exact .some hsame.mapValues
  versions := h.versions.mapValues
  replicaId := by rw [replicaId_truncated, replicaId_truncated, h.replicaId]

/-- The counter in the version vector is the version seen last. -/
theorem seqNumber_version {α : Type*} (set : ORSet α) (j : ℕ) :
    ((set.versions.lookup j).getD default).seqNumber = set.seen j := by
  rw [seen]
  cases set.versions.lookup j <;> rfl

end ORSet

namespace Map

theorem Equal.truncated {m m' : Map String String} (h : m.Equal m') :
    m.truncated.Equal m'.truncated :=
  ⟨h.keys.truncated, h.registers.mapValues⟩

/-- A map with small numbers, in any bucket order, is decoded with its contents. -/
theorem exists_decoded_of_equal {m m₁ : Map String String} (hfits : m.Fits)
    (hsigned : m.SignExtended) (heq : m.Equal m₁) :
    ∃ m', ofJson m₁.toJson = .ok m' ∧ m.Equal m' := by
  have hencodable : m₁.keys.Encodable := hfits.keys.encodable.of_equal heq.keys
  obtain ⟨m', hm', hequal⟩ := ofJson_toJson hencodable
  have hsmall : m.truncated.Equal m := hfits.equal_truncated_iff.mpr hsigned
  exact ⟨m', hm', (hsmall.symm.trans heq.truncated).trans hequal.symm⟩

variable {K V : Type*} [DecidableEq K]

/-- Every sequence number stored in the map is below `b`. -/
structure Below (b : ℕ) (m : Map K V) : Prop where
  versions : ∀ id t, m.keys.versions.lookup id = some t → t.seqNumber < b
  tags : ∀ e adds, m.keys.elements.lookup e = some adds →
    ∀ id t, adds.lookup id = some t → t.seqNumber < b
  registers : ∀ k reg, m.registers.lookup k = some reg → reg.timestamp.seqNumber < b

section Below

variable {b : ℕ} {m remote : Map K V}

/-- Numbers below `2 ^ 31` are read back as they were sent. -/
theorem Below.signExtended (h : Below (2 ^ 31) m) : m.SignExtended :=
  ⟨⟨fun id t ht => Or.inl (h.versions id t ht),
    fun e adds hadds id t ht => Or.inl (h.tags e adds hadds id t ht)⟩,
    fun k reg hreg => Or.inl (h.registers k reg hreg)⟩

theorem Below.new (hb : 0 < b) (i : ℕ) : Below b (new i : Map K V) where
  versions id t ht := by
    have hv : (ORSet.new i : ORSet K).versions.lookup id = some t := ht
    rw [ORSet.lookup_versions_new] at hv
    split at hv
    · cases hv
      exact hb
    · cases hv
  tags e adds hadds := by cases hadds
  registers k reg hreg := by cases hreg

/-- A remove counts nothing. -/
theorem Below.remove (h : Below b m) (key : K) : Below b (m.remove key) where
  versions := h.versions
  tags e adds hadds := by
    have hremove : (m.keys.remove key).2.elements.lookup e = some adds := hadds
    rw [ORSet.lookup_remove] at hremove
    split at hremove
    · cases hremove
    · exact h.tags e adds hremove
  registers k reg hreg := by
    rw [lookup_registers_remove] at hreg
    split at hreg
    · cases hreg
    · exact h.registers k reg hreg

/-- An updated clock counts at most one further. -/
theorem seqNumber_update_le (t : Timestamp) : t.update.seqNumber ≤ t.seqNumber + 1 :=
  Nat.mod_le _ _

variable [Inhabited V]

/-- A put counts one further in the versions of its replica, and in the register. -/
theorem Below.put (h : Below b m) {key : K} (hseen : m.keys.seen m.keys.replicaId + 1 < b)
    (hseq : m.seqNumber key + 1 < b) (val : V) : Below b (m.put key val) := by
  -- the new version is also the new tag
  have hversion :
      ((m.keys.versions.lookup m.keys.replicaId).getD default).update.seqNumber < b := by
    have hle := seqNumber_update_le ((m.keys.versions.lookup m.keys.replicaId).getD default)
    rw [ORSet.seqNumber_version] at hle
    omega
  refine ⟨fun id t ht => ?_, fun e adds hadds id t ht => ?_, fun k reg hreg => ?_⟩
  · rw [keys_put, ORSet.lookup_versions_add] at ht
    split at ht
    · cases ht
      exact hversion
    · exact h.versions id t ht
  · rw [keys_put, ORSet.lookup_add] at hadds
    split at hadds
    · cases hadds
      rw [lookup_insert_eq] at ht
      split at ht
      · cases ht
        exact hversion
      · cases hold : m.keys.elements.lookup key with
        | none =>
          rw [hold] at ht
          cases ht
        | some adds =>
          rw [hold] at ht
          exact h.tags key adds hold id t ht
    · exact h.tags e adds hadds id t ht
  · rw [lookup_registers_put] at hreg
    split at hreg
    · cases hreg
      have hle := seqNumber_update_le (((m.registers.lookup key).getD
        ((default : LWWRegister V).setReplicaId m.replicaId)).timestamp)
      rw [LWWRegister.timestamp_assign]
      unfold seqNumber at hseq
      cases hold : m.registers.lookup key with
      | none =>
        rw [hold] at hle hseq
        exact lt_of_le_of_lt hle hseq
      | some reg =>
        rw [hold] at hle hseq
        exact lt_of_le_of_lt hle hseq
    · exact h.registers k reg hreg

/-- A register created in a merge counts from 1, or takes over the number received. -/
theorem seqNumber_adopt_lt (hb : 1 < b) (id : ℕ) {remoteReg : LWWRegister V}
    (h : remoteReg.timestamp.seqNumber < b) : (adopt id remoteReg).timestamp.seqNumber < b := by
  rcases timestamp_adopt id remoteReg with ⟨hstamp, -⟩ | ⟨hfresh, -⟩
  · have hseq : (adopt id remoteReg).timestamp.seqNumber = remoteReg.timestamp.seqNumber :=
      congrArg Prod.fst hstamp
    omega
  · rw [hfresh]
    exact hb

theorem Below.merge {i : ℕ} (h : Below b m) (hr : Below b remote) (hb : 1 < b)
    (hcons : Consistent i m) : Below b (m.merge remote) where
  versions id t ht := by
    rw [keys_merge, ORSet.lookup_versions_merge] at ht
    unfold ORSet.joinVersion at ht
    split at ht
    · next t₁ t₂ h₁ h₂ =>
      -- the later of two versions is one of them
      cases ht
      rw [Timestamp.max]
      split
      · exact hr.versions id t₂ h₂
      · exact h.versions id t₁ h₁
    · next t₁ h₁ _ =>
      cases ht
      exact h.versions id _ h₁
    · exact hr.versions id t ht
  tags e adds hadds id t ht := by
    rcases ORSet.tag_merge hadds ht with ⟨adds', hadds', ht'⟩ | ⟨adds', hadds', ht'⟩
    · exact h.tags e adds' hadds' id t ht'
    · exact hr.tags e adds' hadds' id t ht'
  registers k reg hreg := by
    rcases hcons.register_merge hreg with ⟨localReg, remoteReg, hlocal, hremote, rfl⟩ |
      ⟨hlocal, -⟩ | ⟨remoteReg, -, hremote, rfl⟩
    · rw [LWWRegister.merge]
      split
      · exact hr.registers k remoteReg hremote
      · exact h.registers k localReg hlocal
    · exact h.registers k reg hlocal
    · -- an adopted register may keep the 1 of its own assignment
      exact seqNumber_adopt_lt hb i (hr.registers k remoteReg hremote)

/-- A put counts its two clocks up to less than `b`. -/
def Small (b : ℕ) (C : Config ℕ (MapOp K V) (Map K V)) : ReplicaAction ℕ (MapOp K V) → Prop
  | .update i (.put key _) =>
    (C.node i).state.keys.seen i + 1 < b ∧ (C.node i).state.seqNumber key + 1 < b
  | _ => True

/-- While puts count to less than `b`, every number is below `b`. -/
theorem below_of_reachable {C : Config ℕ (MapOp K V) (Map K V)} (hb : 1 < b)
    (h : replicated.Reachable (Small b) C) {i : ℕ} {R : Replica (Map K V)} (hR : C.HasState i R) :
    Below b R.state := by
  refine h.induct (P := fun _ _ R => Below b R.state) ?_ ?_ ?_ ?_ i R hR
  · intro C i _
    exact Below.new (by omega) i
  · intro C i op _ _ ih j R hR
    exact ih j R hR
  · intro C i op hC hstep ih
    have hcons : Consistent i (C.node i).state := consistent_of_reachable hC .now
    have hbelow : Below b (C.node i).state := ih i _ .now
    cases op with
    | put key val =>
      have hid : (C.node i).state.keys.replicaId = i := hcons.replicaId
      exact hbelow.put (by rw [hid]; exact hstep.1) hstep.2 val
    | remove key => exact hbelow.remove key
    | get key =>
      show Below b ((C.node i).state.get key).2
      rw [hcons.get]
      exact hbelow
  · intro C i n q Q hC _ _ hR hQ
    exact hR.merge hQ hb (consistent_of_reachable hC .now)

end Below

end Map

end CrdtStore
