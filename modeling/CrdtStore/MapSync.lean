import CrdtStore.MapRun
import CrdtStore.ORSetJoin

/-!
# A sync round

`Client::sync` posts the map of the client; `handler::handle_post` merges it and replies with the
map of the server, which the client merges. After the round both should show a user the same
(`Agree`). They do exactly from states that are `SyncSafe`:

* `stale`: no key of the server that the client lacks has the whole version vector of the client as
  its tags;
* `returned`: no key of the client that the server lacks has the version vector of both as its tags;
* `values`: no key has two values under one stamp.
-/

namespace CrdtStore

open UnorderedMap (Same)
open ReplicatedType Config

namespace ORSet

variable {α : Type*} [DecidableEq α] {s c : ℕ} {S C : ORSet α}

/-- An element that only the first set of a round holds. -/
theorem contains_round_of_left (hS : WellFormed s S) (hC : WellFormed c C) {e : α} {adds : Tags}
    (hs : S.elements.lookup e = some adds) (hc : C.elements.lookup e = none) :
    (S.merge C).contains e = (C.merge (S.merge C)).contains e ↔ ¬ Same adds C.versions := by
  have hwf := hS.tags e adds hs
  by_cases hd : C.Drops adds
  · have hSC := lookup_merge_dropped hC hwf hs hc hd
    rw [contains_eq_false.mpr hSC, contains_eq_false.mpr (lookup_merge_neither hc hSC)]
    exact iff_of_true rfl hd.2
  · have hSC := lookup_merge_kept hC hwf hs hc hd
    have habsent := absent_merge_remote hC hwf hc hSC
    rw [contains_iff.mpr ⟨adds, hSC⟩]
    constructor
    · intro heq hsame
      rw [habsent.mpr (covers_of_same hsame)] at heq
      cases heq
    · intro hne
      rw [eq_comm, ← Bool.not_eq_false, habsent]
      exact fun hcov => hd ⟨hcov, hne⟩

/-- Covered tags are the merged version vector when they are both version vectors. -/
theorem same_merge_iff (hS : WellFormed s S) (hC : WellFormed c C) {adds : Tags}
    (hwf : adds.WellFormed) (hcS : S.Covers adds) (hcC : C.Covers adds) :
    Same adds (S.merge C).versions ↔ Same adds S.versions ∧ Same adds C.versions := by
  constructor
  · intro hsame
    exact ⟨same_left_of_same_merge hS hC hwf hcS hsame,
      same_right_of_same_merge hS hC hwf hcC hsame⟩
  · rintro ⟨hsS, hsC⟩ j
    rw [lookup_versions_merge, ← hsS j, ← hsC j]
    cases hv : adds.lookup j with
    | none => rfl
    | some v =>
      show some v = some (v.max v)
      rw [Timestamp.max, ite_self]

/-- An element that only the second set of a round holds. -/
theorem contains_round_of_right (hS : WellFormed s S) (hC : WellFormed c C) {e : α} {adds : Tags}
    (hs : S.elements.lookup e = none) (hc : C.elements.lookup e = some adds) :
    (S.merge C).contains e = (C.merge (S.merge C)).contains e ↔
      (Same adds S.versions → ¬ Same adds C.versions) := by
  have hwf := hC.tags e adds hc
  by_cases hcov : S.Covers adds
  · have hSC := lookup_merge_ignored hS hwf hs hc hcov
    have hboth := same_merge_iff hS hC hwf hcov (hC.covers e adds hc)
    have hmerged := (hC.covers e adds hc).mono (seen_le_merge_right hS hC)
    rw [contains_eq_false.mpr hSC, eq_comm, absent_merge_local (hS.merge hC) hwf hc hSC, Drops,
      and_iff_right hmerged, hboth, not_and]
  · have hSC := lookup_merge_added hS hwf hs hc hcov
    rw [contains_iff.mpr ⟨adds, hSC⟩, contains_merge_of_left hc hSC]
    exact iff_of_true rfl fun hsame => absurd (covers_of_same hsame) hcov

/-- An element that both hold is in both at the end. -/
theorem contains_round_of_both {e : α} {adds adds' : Tags} (hs : S.elements.lookup e = some adds)
    (hc : C.elements.lookup e = some adds') :
    (S.merge C).contains e = (C.merge (S.merge C)).contains e := by
  rw [contains_merge_of_left hs hc, contains_merge_of_left hc (lookup_merge_both hs hc)]

end ORSet

namespace LWWRegister

variable {V : Type*}

/-- Two registers that merge each other end with one value unless they tie. -/
theorem value_merge_merge_iff (reg remote : LWWRegister V) :
    (reg.merge remote).value = (remote.merge (reg.merge remote)).value ↔
      (reg.timestamp.stamp = remote.timestamp.stamp → reg.value = remote.value) := by
  by_cases hlt : reg.timestamp < remote.timestamp
  · have hne : reg.timestamp.stamp ≠ remote.timestamp.stamp := by
      intro heq
      rw [Timestamp.lt_congr heq rfl] at hlt
      exact Timestamp.lt_irrefl _ hlt
    have hself : ¬ remote.timestamp < (reg.merge remote).timestamp := by
      rw [merge_of_lt hlt, Timestamp.lt_congr rfl (Timestamp.stamp_copy ..)]
      exact Timestamp.lt_irrefl _
    rw [merge_of_not_lt hself, merge_of_lt hlt]
    exact iff_of_true rfl fun heq => absurd heq hne
  · rw [merge_of_not_lt hlt]
    by_cases hgt : remote.timestamp < reg.timestamp
    · have hne : reg.timestamp.stamp ≠ remote.timestamp.stamp := by
        intro heq
        rw [Timestamp.lt_congr heq.symm rfl] at hgt
        exact Timestamp.lt_irrefl _ hgt
      rw [merge_of_lt hgt]
      exact iff_of_true rfl fun heq => absurd heq hne
    · rw [merge_of_not_lt hgt]
      exact ⟨fun h _ => h, fun h => h (Timestamp.stamp_eq_of_not_lt hlt hgt)⟩

end LWWRegister

namespace Map

variable {K V : Type*} [DecidableEq K] [Inhabited V]

/-- The server and the client after a round. -/
def sync (server client : Map K V) : Map K V × Map K V :=
  (server.merge client, client.merge (server.merge client))

/-- Two maps that show a user the same. -/
structure Agree (m n : Map K V) : Prop where
  pairs : Same m.keyValuePairs n.keyValuePairs
  contains : ∀ k, m.contains k = n.contains k
  get : ∀ k, (m.get k).1 = (n.get k).1

/-- The states from which a round ends in agreement. -/
structure SyncSafe (server client : Map K V) : Prop where
  stale : ∀ k adds, server.keys.elements.lookup k = some adds →
    client.keys.elements.lookup k = none → ¬ Same adds client.keys.versions
  returned : ∀ k adds, server.keys.elements.lookup k = none →
    client.keys.elements.lookup k = some adds → Same adds server.keys.versions →
    ¬ Same adds client.keys.versions
  values : ∀ k reg reg', server.registers.lookup k = some reg →
    client.registers.lookup k = some reg' → reg.timestamp.stamp = reg'.timestamp.stamp →
    reg.value = reg'.value

/-! ## Agreement, key by key -/

theorem Consistent.value_get {i : ℕ} {m : Map K V} (h : Consistent i m) (k : K) :
    (m.get k).1 = ((m.registers.lookup k).map LWWRegister.value).getD default := by
  rw [Map.get]
  cases hk : m.contains k
  · rw [h.lookup_eq_none.mpr hk]
    rfl
  · obtain ⟨reg, hreg⟩ := h.exists_register hk
    rw [if_pos rfl, UnorderedMap.subscript_of_lookup hreg, hreg]
    rfl

omit [Inhabited V] in
theorem Consistent.contains_eq_isSome {i : ℕ} {m : Map K V} (h : Consistent i m) (k : K) :
    m.contains k = (m.keyValuePairs.lookup k).isSome := by
  rw [lookup_keyValuePairs, Option.isSome_map]
  cases hreg : m.registers.lookup k with
  | none => exact h.lookup_eq_none.mp hreg
  | some reg => exact h.contains_of_lookup hreg

/-- Consistent maps agree when their keys have the same values. -/
theorem agree_iff {i j : ℕ} {m n : Map K V} (hm : Consistent i m) (hn : Consistent j n) :
    Agree m n ↔ ∀ k, m.keyValuePairs.lookup k = n.keyValuePairs.lookup k := by
  constructor
  · exact fun h => h.pairs
  · intro h
    refine ⟨h, fun k => ?_, fun k => ?_⟩
    · rw [hm.contains_eq_isSome, hn.contains_eq_isSome, h k]
    · rw [hm.value_get, hn.value_get, ← lookup_keyValuePairs, ← lookup_keyValuePairs, h k]

section Round

variable {i j : ℕ} {server client : Map K V}

/-- Unless both maps hold the key, the round agrees on its value when it agrees on the key. -/
theorem pairs_round_of_contains (hs : Consistent i server) (hc : Consistent j client) {k : K}
    (hone : server.registers.lookup k = none ∨ client.registers.lookup k = none)
    (heq : (sync server client).1.contains k = (sync server client).2.contains k) :
    (sync server client).1.keyValuePairs.lookup k =
      (sync server client).2.keyValuePairs.lookup k := by
  change (server.merge client).contains k = (client.merge (server.merge client)).contains k at heq
  show (server.merge client).keyValuePairs.lookup k =
    (client.merge (server.merge client)).keyValuePairs.lookup k
  rw [lookup_keyValuePairs, lookup_keyValuePairs, hc.lookup_registers_merge, ← heq]
  cases hk : (server.merge client).contains k
  · rw [(hs.merge hc).lookup_eq_none.mpr hk]
    rfl
  · rw [if_pos rfl, hs.lookup_registers_merge, if_pos hk]
    -- a register created for a remote one has its value
    rcases hone with hnone | hnone
    · rw [hnone]
      cases hreg : client.registers.lookup k with
      | none => rfl
      | some reg =>
        simp only [joinRegister, Option.map_some, LWWRegister.merge, value_adopt, Option.some.injEq]
        split <;> simp
    · rw [hnone]
      cases server.registers.lookup k <;> simp [joinRegister]

/-- When both maps hold the key, the round agrees on it unless the registers tie. -/
theorem pairs_round_of_both (hs : Consistent i server) (hc : Consistent j client) {k : K}
    {reg reg' : LWWRegister V} (hreg : server.registers.lookup k = some reg)
    (hreg' : client.registers.lookup k = some reg') :
    (sync server client).1.keyValuePairs.lookup k =
        (sync server client).2.keyValuePairs.lookup k ↔
      (reg.timestamp.stamp = reg'.timestamp.stamp → reg.value = reg'.value) := by
  obtain ⟨adds, hadds⟩ := ORSet.contains_iff.mp (hs.contains_of_lookup hreg)
  obtain ⟨adds', hadds'⟩ := ORSet.contains_iff.mp (hc.contains_of_lookup hreg')
  have hk : (server.merge client).contains k = true := ORSet.contains_merge_of_left hadds hadds'
  have hk' : (client.merge (server.merge client)).contains k = true :=
    (ORSet.contains_round_of_both hadds hadds').symm.trans hk
  show (server.merge client).keyValuePairs.lookup k =
    (client.merge (server.merge client)).keyValuePairs.lookup k ↔ _
  rw [lookup_keyValuePairs, lookup_keyValuePairs, hc.lookup_registers_merge, if_pos hk',
    hs.lookup_registers_merge, if_pos hk, hreg, hreg']
  simp only [joinRegister, Option.map_some, Option.some.injEq]
  exact LWWRegister.value_merge_merge_iff reg reg'

theorem syncSafe_of_agree (hs : Consistent i server) (hc : Consistent j client)
    (hws : ORSet.WellFormed i server.keys) (hwc : ORSet.WellFormed j client.keys)
    (h : Agree (sync server client).1 (sync server client).2) : SyncSafe server client where
  stale _ _ hadds hlack := (ORSet.contains_round_of_left hws hwc hadds hlack).mp (h.contains _)
  returned _ _ hlack hadds := (ORSet.contains_round_of_right hws hwc hlack hadds).mp (h.contains _)
  values _ _ _ hreg hreg' := (pairs_round_of_both hs hc hreg hreg').mp (h.pairs _)

theorem SyncSafe.agree (hs : Consistent i server) (hc : Consistent j client)
    (hws : ORSet.WellFormed i server.keys) (hwc : ORSet.WellFormed j client.keys)
    (h : SyncSafe server client) : Agree (sync server client).1 (sync server client).2 := by
  refine (agree_iff (hs.merge hc) (hc.merge (hs.merge hc))).mpr fun k => ?_
  have hnone : ∀ {n : ℕ} {m : Map K V}, Consistent n m → m.keys.elements.lookup k = none →
      m.registers.lookup k = none :=
    fun hm hk => hm.lookup_eq_none.mpr (ORSet.contains_eq_false.mpr hk)
  cases hk : server.keys.elements.lookup k with
  | none =>
    refine pairs_round_of_contains hs hc (Or.inl (hnone hs hk)) ?_
    cases hk' : client.keys.elements.lookup k with
    | none =>
      have hmerge := ORSet.lookup_merge_neither hk hk'
      exact (ORSet.contains_eq_false.mpr hmerge).trans
        (ORSet.contains_eq_false.mpr (ORSet.lookup_merge_neither hk' hmerge)).symm
    | some adds =>
      exact (ORSet.contains_round_of_right hws hwc hk hk').mpr (h.returned k adds hk hk')
  | some adds =>
    cases hk' : client.keys.elements.lookup k with
    | none =>
      refine pairs_round_of_contains hs hc (Or.inr (hnone hc hk')) ?_
      exact (ORSet.contains_round_of_left hws hwc hk hk').mpr (h.stale k adds hk hk')
    | some adds' =>
      obtain ⟨reg, hreg⟩ := hs.exists_register (ORSet.contains_iff.mpr ⟨adds, hk⟩)
      obtain ⟨reg', hreg'⟩ := hc.exists_register (ORSet.contains_iff.mpr ⟨adds', hk'⟩)
      exact (pairs_round_of_both hs hc hreg hreg').mpr (h.values k reg reg' hreg hreg')

end Round

/-! ## In a run -/

variable {C : Config ℕ (MapOp K V) (Map K V)}

theorem wellFormed_keys (h : replicated.Reachable NoReuse C) {i : ℕ} {R : Replica (Map K V)}
    (hR : C.HasState i R) : ORSet.WellFormed i R.state.keys :=
  ORSet.wellFormed_of_reachable (reachable_keysView h) (hR.map keys keyOp)

/-- **A round ends in agreement exactly from safe states**, of any two replicas of a run. -/
theorem sync_agree_iff (h : replicated.Reachable NoReuse C) {i j : ℕ}
    {server client : Replica (Map K V)} (hs : C.HasState i server) (hc : C.HasState j client) :
    Agree (sync server.state client.state).1 (sync server.state client.state).2 ↔
      SyncSafe server.state client.state :=
  ⟨syncSafe_of_agree (consistent_of_reachable h hs) (consistent_of_reachable h hc)
      (wellFormed_keys h hs) (wellFormed_keys h hc),
    SyncSafe.agree (consistent_of_reachable h hs) (consistent_of_reachable h hc)
      (wellFormed_keys h hs) (wellFormed_keys h hc)⟩

/-- Client 5 puts a key, posts it to server 0, misses the reply and removes the key. -/
def removeAfterPost : Config ℕ (MapOp String String) (Map String String) :=
  replicated.exec replicated.start
    [.update 5 (.put "k" "v"), .send 5, .deliver 0 0, .update 5 (.remove "k")]

theorem reachable_removeAfterPost : replicated.Reachable NoReuse removeAfterPost :=
  Reachable.start.exec (by decide)

/-- The server keeps the key that the client lacks. -/
theorem sync_disagrees :
    replicated.Reachable NoReuse removeAfterPost ∧
      ¬ Agree (sync (removeAfterPost.node 0).state (removeAfterPost.node 5).state).1
        (sync (removeAfterPost.node 0).state (removeAfterPost.node 5).state).2 := by
  refine ⟨reachable_removeAfterPost, fun h => ?_⟩
  have hne := h.contains "k"
  revert hne
  decide

theorem not_syncSafe_removeAfterPost :
    ¬ SyncSafe (removeAfterPost.node 0).state (removeAfterPost.node 5).state := by
  intro h
  have hne := ((sync_agree_iff reachable_removeAfterPost (.now : HasState _ 0 _)
    (.now : HasState _ 5 _)).mpr h).contains "k"
  revert hne
  decide

end Map

end CrdtStore
