import CrdtStore.Map
import CrdtStore.ORSetRun

/-!
# Runs of maps

Replicas with distinct ids put, remove and get, and merge states that any of them sent. In every
state of every run the registers are those of the keys of the set, and belong to the replica
(`Consistent`). The key set of a run of maps is a run of sets (`keysView`), which carries the
theorems about sets over.
-/

namespace CrdtStore

open ReplicatedType Config

/-- The calls of a `Map` other than `merge` that may change it. -/
inductive MapOp (K V : Type*) where
  | put (key : K) (val : V)
  | remove (key : K)
  | get (key : K)
deriving DecidableEq

namespace Map

variable {K V : Type*} [DecidableEq K] [Inhabited V]

/-- Replicas of a map, each with its id. -/
def replicated : ReplicatedType ℕ (MapOp K V) (Map K V) where
  init := new
  apply op m :=
    match op with
    | .put key val => m.put key val
    | .remove key => m.remove key
    | .get key => (m.get key).2
  merge := merge

/-! ## Keys and registers -/

/-- The registers are those of the keys, and belong to replica `i`. -/
structure Consistent (i : ℕ) (m : Map K V) : Prop where
  replicaId : m.replicaId = i
  mem_iff : ∀ k, k ∈ m.registers ↔ m.contains k = true
  owner : ∀ k reg, m.registers.lookup k = some reg → reg.replicaId = i

omit [Inhabited V] in
theorem Consistent.exists_register {i : ℕ} {m : Map K V} (h : Consistent i m) {k : K}
    (hk : m.contains k = true) : ∃ reg, m.registers.lookup k = some reg :=
  UnorderedMap.mem_iff_lookup.mp ((h.mem_iff k).mpr hk)

omit [Inhabited V] in
theorem Consistent.lookup_eq_none {i : ℕ} {m : Map K V} (h : Consistent i m) {k : K} :
    m.registers.lookup k = none ↔ m.contains k = false := by
  rw [← UnorderedMap.not_mem_iff_lookup, h.mem_iff, Bool.not_eq_true]

omit [Inhabited V] in
theorem Consistent.contains_of_lookup {i : ℕ} {m : Map K V} (h : Consistent i m) {k : K}
    {reg : LWWRegister V} (hreg : m.registers.lookup k = some reg) : m.contains k = true :=
  (h.mem_iff k).mp (UnorderedMap.mem_of_lookup hreg)

omit [Inhabited V] in
theorem Consistent.new (i : ℕ) : Consistent i (new i : Map K V) where
  replicaId := rfl
  mem_iff k := by
    show k ∈ (∅ : UnorderedMap K (LWWRegister V)) ↔ decide (k ∈ (∅ : UnorderedMap K Tags)) = true
    simp
  owner k reg h := by cases h

theorem Consistent.put {i : ℕ} {m : Map K V} (h : Consistent i m) (key : K) (val : V) :
    Consistent i (m.put key val) where
  replicaId := h.replicaId
  mem_iff k := by
    have hkeys : (m.put key val).contains k = true ↔ k = key ∨ m.contains k = true := by
      rw [contains, ORSet.contains_iff, keys_put, ORSet.lookup_add, contains, ORSet.contains_iff]
      by_cases hk : k = key <;> simp [hk]
    rw [hkeys, ← h.mem_iff, UnorderedMap.mem_iff_lookup, lookup_registers_put,
      UnorderedMap.mem_iff_lookup]
    by_cases hk : k = key <;> simp [hk]
  owner k reg hreg := by
    rw [lookup_registers_put] at hreg
    split at hreg
    · cases hreg
      show (((m.registers.lookup key).getD _).timestamp.update).replicaId = i
      rw [Timestamp.replicaId_update]
      cases hold : m.registers.lookup key with
      | none => exact h.replicaId
      | some reg => exact h.owner key reg hold
    · exact h.owner k reg hreg

omit [Inhabited V] in
theorem Consistent.remove {i : ℕ} {m : Map K V} (h : Consistent i m) (key : K) :
    Consistent i (m.remove key) where
  replicaId := h.replicaId
  mem_iff k := by
    have hkeys : (m.remove key).contains k = true ↔ k ≠ key ∧ m.contains k = true := by
      rw [contains, ORSet.contains_iff, keys_remove, ORSet.lookup_remove, contains,
        ORSet.contains_iff]
      by_cases hk : k = key <;> simp [hk]
    rw [hkeys, ← h.mem_iff, UnorderedMap.mem_iff_lookup, lookup_registers_remove,
      UnorderedMap.mem_iff_lookup]
    by_cases hk : k = key <;> simp [hk]
  owner k reg hreg := by
    rw [lookup_registers_remove] at hreg
    split at hreg
    · cases hreg
    · exact h.owner k reg hreg

/-- With a register for every key, `get` inserts none. -/
theorem Consistent.get {i : ℕ} {m : Map K V} (h : Consistent i m) (key : K) :
    (m.get key).2 = m := by
  rw [Map.get]
  split
  · next hk =>
    obtain ⟨reg, hreg⟩ := h.exists_register hk
    rw [UnorderedMap.subscript_of_lookup hreg]
  · rfl

theorem contains_of_contains_merge {m remote : Map K V} {k : K}
    (h : (m.merge remote).contains k = true) : m.contains k = true ∨ remote.contains k = true := by
  obtain ⟨adds, hadds⟩ := ORSet.contains_iff.mp h
  rcases ORSet.lookup_merge_eq_some hadds with ⟨hs, -, -⟩ | ⟨-, hr, -⟩ | ⟨localAdds, -, hs, -, -⟩
  · exact Or.inl (ORSet.contains_iff.mpr ⟨adds, hs⟩)
  · exact Or.inr (ORSet.contains_iff.mpr ⟨adds, hr⟩)
  · exact Or.inl (ORSet.contains_iff.mpr ⟨localAdds, hs⟩)

/-- The register of a key that both, one or none of two maps have a register of. -/
def joinRegister (i : ℕ) : Option (LWWRegister V) → Option (LWWRegister V) → Option (LWWRegister V)
  | some reg, some remoteReg => some (reg.merge remoteReg)
  | some reg, none => some reg
  | none, some remoteReg => some (adopt i remoteReg)
  | none, none => none

/-- The registers after merging consistent maps: of the keys of the merged set, joined. -/
theorem Consistent.lookup_registers_merge {i : ℕ} {m : Map K V} (h : Consistent i m)
    (remote : Map K V) (k : K) :
    (m.merge remote).registers.lookup k =
      if (m.merge remote).contains k then
        joinRegister i (m.registers.lookup k) (remote.registers.lookup k)
      else none := by
  rw [Map.lookup_registers_merge, lookup_eraseRemoved, h.replicaId]
  have hnone := h.lookup_eq_none (k := k)
  change _ = if (m.keys.merge remote.keys).contains k = true then _ else none
  change m.registers.lookup k = none ↔ m.keys.contains k = false at hnone
  cases hm : m.keys.contains k
  · rw [hnone.mpr hm]
    cases remote.registers.lookup k <;> cases (m.keys.merge remote.keys).contains k <;> rfl
  · obtain ⟨reg, hreg⟩ := h.exists_register hm
    rw [hreg]
    cases remote.registers.lookup k <;> cases (m.keys.merge remote.keys).contains k <;> rfl

/-- Where the register of a key comes from in a merge: both sides merged, the local one, or the
remote one adopted. -/
theorem Consistent.register_merge {i : ℕ} {m remote : Map K V} (h : Consistent i m) {k : K}
    {reg : LWWRegister V} (hreg : (m.merge remote).registers.lookup k = some reg) :
    (∃ localReg remoteReg, m.registers.lookup k = some localReg ∧
        remote.registers.lookup k = some remoteReg ∧ reg = localReg.merge remoteReg) ∨
      (m.registers.lookup k = some reg ∧ remote.registers.lookup k = none) ∨
        ∃ remoteReg, m.registers.lookup k = none ∧
          remote.registers.lookup k = some remoteReg ∧ reg = adopt i remoteReg := by
  rw [h.lookup_registers_merge] at hreg
  split at hreg
  · cases hm : m.registers.lookup k with
    | none =>
      cases hr : remote.registers.lookup k with
      | none =>
        rw [hm, hr] at hreg
        cases hreg
      | some remoteReg =>
        rw [hm, hr] at hreg
        exact Or.inr (Or.inr ⟨remoteReg, rfl, rfl, (Option.some.inj hreg).symm⟩)
    | some localReg =>
      cases hr : remote.registers.lookup k with
      | none =>
        rw [hm, hr] at hreg
        exact Or.inr (Or.inl ⟨hreg, rfl⟩)
      | some remoteReg =>
        rw [hm, hr] at hreg
        exact Or.inl ⟨localReg, remoteReg, rfl, rfl, (Option.some.inj hreg).symm⟩
  · cases hreg

theorem Consistent.merge {i q : ℕ} {m remote : Map K V} (h : Consistent i m)
    (hq : Consistent q remote) : Consistent i (m.merge remote) where
  replicaId := h.replicaId
  mem_iff k := by
    rw [UnorderedMap.mem_iff_lookup, h.lookup_registers_merge]
    cases hk : (m.merge remote).contains k
    · simp
    · rw [if_pos rfl]
      refine iff_of_true ?_ rfl
      rcases contains_of_contains_merge hk with hc | hc
      · obtain ⟨reg, hreg⟩ := h.exists_register hc
        rw [hreg]
        cases remote.registers.lookup k <;> exact ⟨_, rfl⟩
      · obtain ⟨reg, hreg⟩ := hq.exists_register hc
        rw [hreg]
        cases m.registers.lookup k <;> exact ⟨_, rfl⟩
  owner k reg hreg := by
    rcases h.register_merge hreg with ⟨localReg, remoteReg, hm, -, rfl⟩ | ⟨hm, -⟩ |
      ⟨remoteReg, -, -, rfl⟩
    · exact (LWWRegister.replicaId_merge ..).trans (h.owner k localReg hm)
    · exact h.owner k reg hm
    · exact LWWRegister.replicaId_merge ..

variable {C : Config ℕ (MapOp K V) (Map K V)}
  {G : Config ℕ (MapOp K V) (Map K V) → ReplicaAction ℕ (MapOp K V) → Prop}

theorem consistent_of_reachable (h : replicated.Reachable G C) {i : ℕ} {R : Replica (Map K V)}
    (hR : C.HasState i R) : Consistent i R.state := by
  refine h.induct (P := fun _ i R => Consistent i R.state) ?_ ?_ ?_ ?_ i R hR
  · intro C i _
    exact Consistent.new i
  · intro C i op _ _ ih j R hR
    exact ih j R hR
  · intro C i op _ _ ih
    have hcons := ih i _ .now
    cases op with
    | put key val => exact hcons.put key val
    | remove key => exact hcons.remove key
    | get key =>
      show Consistent i ((C.node i).state.get key).2
      rw [hcons.get]
      exact hcons
  · intro C i n q Q _ _ _ hR hQ
    exact hR.merge hQ

omit [Inhabited V] in
theorem size_keyValuePairs {i : ℕ} {m : Map K V} (h : Consistent i m) :
    UnorderedMap.size m.keyValuePairs = m.size := by
  apply UnorderedMap.size_eq_of_mem_iff
  intro k
  have hkey : m.contains k = true ↔ k ∈ m.keys.elements := decide_eq_true_iff
  rw [← hkey, ← h.mem_iff, UnorderedMap.mem_iff_lookup, UnorderedMap.mem_iff_lookup,
    lookup_keyValuePairs]
  simp

/-- **Keys and registers never drift apart**, whatever the run does. -/
theorem keys_and_registers_agree (h : replicated.Reachable (fun _ _ => True) C) {i : ℕ}
    {R : Replica (Map K V)} (hR : C.HasState i R) :
    (∀ k, k ∈ R.state.registers ↔ k ∈ R.state.keys.elements) ∧
      (∀ k reg, R.state.registers.lookup k = some reg → reg.replicaId = R.state.replicaId) ∧
      R.state.replicaId = i ∧
      (∀ k, (R.state.get k).2 = R.state) ∧
      R.state.size = UnorderedMap.size R.state.keyValuePairs ∧
      (∀ k v, ∃ reg, (R.state.put k v).registers.lookup k = some reg ∧ reg.timestamp.uid = i) := by
  have hcons := consistent_of_reachable h hR
  refine ⟨fun k => ?_, fun k reg hreg => ?_, hcons.replicaId, hcons.get,
    (size_keyValuePairs hcons).symm, fun k v => ?_⟩
  · rw [hcons.mem_iff]
    exact decide_eq_true_iff
  · rw [hcons.owner k reg hreg, hcons.replicaId]
  · rw [lookup_registers_put, if_pos rfl]
    refine ⟨_, rfl, ?_⟩
    rw [LWWRegister.timestamp_assign, Timestamp.uid_update]
    -- the register assigned is the replica's own, or initialised with its id
    cases hreg : R.state.registers.lookup k with
    | none => exact hcons.replicaId
    | some reg => exact hcons.owner k reg hreg

/-- A put at replica 0 that a remove at replica 1 has not observed reaches replica 1. -/
def concurrentPut : Config ℕ (MapOp String String) (Map String String) :=
  replicated.exec replicated.start
    [.update 0 (.put "k" "v"), .send 0, .deliver 1 0, .update 1 (.remove "k"),
      .update 0 (.put "k" "w"), .send 0, .deliver 1 1]

theorem size_concurrentPut :
    (concurrentPut.node 1).state.size =
      UnorderedMap.size (concurrentPut.node 1).state.keyValuePairs := by
  have hC : replicated.Reachable (fun _ _ => True) concurrentPut :=
    Reachable.start.exec ⟨trivial, trivial, trivial, trivial, trivial, trivial, trivial, trivial⟩
  exact (keys_and_registers_agree hC (.now : HasState _ 1 _)).2.2.2.2.1

/-! ## The key set of a run -/

/-- The call of the key set that a call of the map makes. -/
def keyOp : MapOp K V → SetOp K
  | .put key _ => .add key
  | .remove key => .remove key
  | .get key => .contains key

/-- The key sets of replicated maps are replicated sets. -/
def keysView : Simulation (replicated : ReplicatedType ℕ (MapOp K V) (Map K V))
    (ORSet.replicated : ReplicatedType ℕ (SetOp K) (ORSet K)) where
  state := keys
  op := keyOp
  init _ := rfl
  apply op m := by
    cases op with
    | put key val => rfl
    | remove key => rfl
    | get key => exact keys_get m key
  merge _ _ := rfl

/-- No version counter wraps, and no replica restarts after a put. -/
def NoReuse (C : Config ℕ (MapOp K V) (Map K V)) : ReplicaAction ℕ (MapOp K V) → Prop
  | .update i (.put _ _) => (C.node i).state.keys.seen i + 1 < 2 ^ 64
  | .restart i => ∀ ev ∈ C.log, ev.site = i → ∀ key val, ev.op ≠ .put key val
  | _ => True

instance (op : MapOp K V) : Decidable (∀ key val, op ≠ .put key val) :=
  match op with
  | .put key val => isFalse fun h => h key val rfl
  | .remove _ => isTrue nofun
  | .get _ => isTrue nofun

instance (C : Config ℕ (MapOp K V) (Map K V)) (a : ReplicaAction ℕ (MapOp K V)) :
    Decidable (NoReuse C a) :=
  match a with
  | .update i (.put _ _) =>
    inferInstanceAs (Decidable ((C.node i).state.keys.seen i + 1 < 2 ^ 64))
  | .restart i =>
    inferInstanceAs (Decidable (∀ ev ∈ C.log, ev.site = i → ∀ key val, ev.op ≠ .put key val))
  | .update _ (.remove _) => isTrue trivial
  | .update _ (.get _) => isTrue trivial
  | .send _ => isTrue trivial
  | .deliver _ _ => isTrue trivial

omit [DecidableEq K] [Inhabited V] in
theorem noReuse_map {C : Config ℕ (MapOp K V) (Map K V)} {a : ReplicaAction ℕ (MapOp K V)}
    (hG : NoReuse C a) : ORSet.NoReuse (C.map keys keyOp) (a.map keyOp) := by
  cases a with
  | update i op =>
    cases op with
    | put key val => exact hG
    | remove key => trivial
    | get key => trivial
  | send i => trivial
  | deliver i n => trivial
  | restart i =>
    intro ev hev hi e hop
    obtain ⟨ev', hev', rfl⟩ := List.mem_map.mp hev
    have hne := hG ev' hev' hi
    cases hop' : ev'.op with
    | put key val => exact hne key val hop'
    | remove key =>
      have hop : keyOp ev'.op = .add e := hop
      rw [hop'] at hop
      cases hop
    | get key =>
      have hop : keyOp ev'.op = .add e := hop
      rw [hop'] at hop
      cases hop

theorem reachable_keysView (h : replicated.Reachable NoReuse C) :
    ORSet.replicated.Reachable ORSet.NoReuse (C.map keys keyOp) :=
  keysView.reachable (fun _ _ hG => noReuse_map hG) h

omit [DecidableEq K] [Inhabited V] in
theorem remove_of_keyOp {k : K} (op : MapOp K V) (h : keyOp op = .remove k) : op = .remove k := by
  cases op with
  | put key val => cases h
  | remove key =>
    cases h
    rfl
  | get key => cases h

/-- **Add wins and no put is lost.** A put in the history of a replica that no remove in that
history had observed keeps its key in the map. -/
theorem contains_of_unobserved_put (h : replicated.Reachable NoReuse C) {i : ℕ}
    {R : Replica (Map K V)} (hR : C.HasState i R) {n : ℕ}
    {ev : UpdateEvent ℕ (MapOp K V) (Map K V)} {k : K} {v : V} (hev : C.log[n]? = some ev)
    (hop : ev.op = .put k v) (hlive : Live C.log (· = .remove k) R n) :
    R.state.contains k = true := by
  have hview := hlive.map keys keyOp (q := (· = .remove k)) remove_of_keyOp
  have hev' : (C.map keys keyOp).log[n]? = some (ev.map keys keyOp) := by
    rw [getElem?_log_map, hev]
    rfl
  have hop' : (ev.map keys keyOp).op = .add k := by
    show keyOp ev.op = .add k
    rw [hop]
    rfl
  exact ORSet.contains_of_live (reachable_keysView h) (hR.map keys keyOp) hev' hop' hview

theorem contains_concurrentPut : (concurrentPut.node 1).state.contains "k" = true := by
  have hC : replicated.Reachable NoReuse concurrentPut := Reachable.start.exec (by decide)
  have hput : ∃ ev, concurrentPut.log[2]? = some ev ∧ ev.op = .put "k" "w" := ⟨_, rfl, rfl⟩
  obtain ⟨ev, hev, hop⟩ := hput
  exact contains_of_unobserved_put hC (.now : HasState _ 1 _) hev hop (by decide)

end Map

end CrdtStore
