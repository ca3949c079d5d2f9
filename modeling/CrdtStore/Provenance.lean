import CrdtStore.MapSync
import CrdtStore.Network

/-!
# Nothing is invented

Whatever order bodies arrive in, however often, and however their numbers are cut to 32 bits on the
way, a party that nobody else talks to has only pairs that somebody put, and a register for each of
its keys (`nothing_invented`).
-/

namespace CrdtStore

namespace Map

section Consistent

variable {i : ℕ} {m m' : Map String String}

theorem Consistent.of_equal (h : Consistent i m) (heq : m.Equal m') : Consistent i m' where
  replicaId := heq.keys.replicaId.symm.trans h.replicaId
  mem_iff k := by
    rw [← heq.contains_eq k, ← h.mem_iff, UnorderedMap.mem_iff_lookup, UnorderedMap.mem_iff_lookup,
      heq.registers k]
  owner k reg hreg := h.owner k reg (by rw [heq.registers k, hreg])

/-- The ids are cut alike. -/
theorem Consistent.truncated (h : Consistent i m) : Consistent (throughInt32 i) m.truncated where
  replicaId := by
    have hid : m.keys.replicaId = i := h.replicaId
    have hkeys : m.truncated.keys = m.keys.truncated := rfl
    rw [Map.replicaId, hkeys, ORSet.replicaId_truncated, hid]
  mem_iff k := by
    have hkeys : m.truncated.contains k = true ↔ m.contains k = true := by
      rw [contains, ORSet.contains_iff, contains, ORSet.contains_iff]
      show (∃ adds, (m.keys.elements.mapValues _).lookup k = some adds) ↔ _
      rw [UnorderedMap.lookup_mapValues]
      cases m.keys.elements.lookup k <;> simp
    rw [hkeys, ← h.mem_iff, UnorderedMap.mem_iff_lookup, UnorderedMap.mem_iff_lookup, Map.truncated,
      UnorderedMap.lookup_mapValues]
    cases m.registers.lookup k <;> simp
  owner k reg hreg := by
    rw [Map.truncated, UnorderedMap.lookup_mapValues, Option.map_eq_some_iff] at hreg
    obtain ⟨reg', hreg', rfl⟩ := hreg
    have hid : reg'.timestamp.replicaId = i := h.owner k reg' hreg'
    rw [LWWRegister.replicaId, LWWRegister.truncated, Timestamp.replicaId_truncated, hid]

end Consistent

/-- Keys and registers agree, and all pairs satisfy `P`. -/
structure Genuine (P : String → String → Prop) (m : Map String String) : Prop where
  consistent : ∃ i, Consistent i m
  pair : ∀ k reg, m.registers.lookup k = some reg → P k reg.value

variable {P : String → String → Prop} {m remote : Map String String}

theorem Genuine.apply (h : Genuine P m) {op : MapOp String String}
    (hop : ∀ key val, op = .put key val → P key val) : Genuine P (replicated.apply op m) := by
  obtain ⟨i, hcons⟩ := h.consistent
  cases op with
  | put key val =>
    refine ⟨⟨i, hcons.put key val⟩, fun k reg hreg => ?_⟩
    change (m.put key val).registers.lookup k = some reg at hreg
    rw [lookup_registers_put] at hreg
    split at hreg
    · next heq =>
      cases hreg
      exact heq ▸ hop key val rfl
    · exact h.pair k reg hreg
  | remove key =>
    refine ⟨⟨i, hcons.remove key⟩, fun k reg hreg => ?_⟩
    change (m.remove key).registers.lookup k = some reg at hreg
    rw [lookup_registers_remove] at hreg
    split at hreg
    · cases hreg
    · exact h.pair k reg hreg
  | get key =>
    -- every key has a register, so that `get` creates none
    show Genuine P (m.get key).2
    rw [hcons.get]
    exact h

theorem Genuine.merge (h : Genuine P m) (hr : Genuine P remote) : Genuine P (m.merge remote) := by
  obtain ⟨i, hcons⟩ := h.consistent
  obtain ⟨q, hremote⟩ := hr.consistent
  refine ⟨⟨i, hcons.merge hremote⟩, fun k reg hreg => ?_⟩
  rcases hcons.register_merge hreg with ⟨localReg, remoteReg, hl, hq, rfl⟩ | ⟨hl, -⟩ |
    ⟨remoteReg, -, hq, rfl⟩
  · rw [LWWRegister.merge]
    split
    · exact hr.pair k remoteReg hq
    · exact h.pair k localReg hl
  · exact h.pair k reg hl
  · rw [value_adopt]
    exact hr.pair k remoteReg hq

theorem Genuine.truncated (h : Genuine P m) : Genuine P m.truncated := by
  obtain ⟨i, hcons⟩ := h.consistent
  refine ⟨⟨_, hcons.truncated⟩, fun k reg hreg => ?_⟩
  rw [Map.truncated, UnorderedMap.lookup_mapValues, Option.map_eq_some_iff] at hreg
  obtain ⟨reg', hreg', rfl⟩ := hreg
  have hvalue : reg'.truncated.value = reg'.value := by rw [LWWRegister.truncated]
  rw [hvalue]
  exact h.pair k reg' hreg'

end Map

namespace Network

open Map (Genuine)

theorem kept_genuine (P : String → String → Prop) :
    Kept (fun op => ∀ key val, op = .put key val → P key val) (Genuine P) where
  new i := ⟨⟨i, Map.Consistent.new i⟩, fun k reg hreg => by cases hreg⟩
  apply h hop := h.apply hop
  merge h hr := h.merge hr
  of_equal h heq :=
    ⟨h.consistent.imp fun _ hcons => hcons.of_equal heq,
      fun k reg hreg => h.pair k reg (by rw [heq.registers k, hreg])⟩
  truncated h := h.truncated

/-- The pair was put by some party. -/
def WasPut (as : List NetworkAction) (k v : String) : Prop := ∃ j, .call j (.put k v) ∈ as

/-- **Nothing is invented.** In every run in which nobody else sends anything, all pairs that a
party has, or reads from what was sent, were put before, and keys and registers agree. -/
theorem nothing_invented {as : List NetworkAction}
    (h : system.Steps (Quiet fun _ => True) system.start as) :
    (∀ i k, (((system.exec system.start as).node i).contains k = true ↔
        k ∈ ((system.exec system.start as).node i).registers) ∧
      (((system.exec system.start as).node i).contains k = true →
        WasPut as k (((system.exec system.start as).node i).get k).1)) ∧
    ∀ p ∈ (system.exec system.start as).bodies, ∃ m, Map.ofJson p.2 = .ok m ∧
      ∀ k v, m.keyValuePairs.lookup k = some v → WasPut as k v := by
  have hputs : system.Steps (Quiet fun op => ∀ key val, op = .put key val → WasPut as key val)
      system.start as := by
    refine h.mono fun N a ha hquiet => ?_
    cases a with
    | call i op =>
      refine ⟨hquiet.1, fun key val hput => ⟨i, ?_⟩⟩
      rw [← hput]
      exact ha
    | send i => exact hquiet
    | handle s n => exact hquiet
    | receive c n => exact hquiet
    | restart i => exact hquiet
    | rehash i m => exact hquiet
    | inject i body => exact hquiet
  have hholds := holds_of_reachable (kept_genuine (WasPut as)) (System.Reachable.start.exec hputs)
  refine ⟨fun i k => ?_, fun p hp => ?_⟩
  · obtain ⟨⟨j, hcons⟩, hpair⟩ := hholds.node i
    refine ⟨(hcons.mem_iff k).symm, fun hk => ?_⟩
    obtain ⟨reg, hreg⟩ := hcons.exists_register hk
    rw [hcons.value_get, hreg]
    exact hpair k reg hreg
  · obtain ⟨m, hread, hm⟩ := hholds.body p hp
    refine ⟨m, hread, fun k v hv => ?_⟩
    rw [Map.lookup_keyValuePairs, Option.map_eq_some_iff] at hv
    obtain ⟨reg, hreg, rfl⟩ := hv
    exact hm.pair k reg hreg

/-- Client 6 receives what client 5 has posted to server 0. -/
def passedOn : List NetworkAction :=
  [.call 5 (.put "k" "v"), .send 5, .handle 0 0, .receive 6 1]

theorem nothing_invented_passedOn :
    (∀ i k, (((system.exec system.start passedOn).node i).contains k = true ↔
        k ∈ ((system.exec system.start passedOn).node i).registers) ∧
      (((system.exec system.start passedOn).node i).contains k = true →
        WasPut passedOn k (((system.exec system.start passedOn).node i).get k).1)) ∧
    ∀ p ∈ (system.exec system.start passedOn).bodies, ∃ m, Map.ofJson p.2 = .ok m ∧
      ∀ k v, m.keyValuePairs.lookup k = some v → WasPut passedOn k v := by
  have hsend : 5 < 2 ^ 64 := by decide
  have hhandle : 0 < 2 ^ 64 := by decide
  exact nothing_invented ⟨⟨hsend, trivial⟩, hsend, hhandle, trivial, trivial⟩

end Network

end CrdtStore
