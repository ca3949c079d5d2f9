import CrdtStore.LWWRegister
import CrdtStore.ORSet

/-!
# Maps

`statebased/map.hh`: the keys in an `ORSet`, and for each key a `LWWRegister` with its value.

`merge` merges the key sets, erases the registers of the keys this removed, and walks the remote
registers. `lookup_registers_merge` says what that leaves under each key.
-/

namespace CrdtStore

open UnorderedMap (lookup_foldl lookup_insert_eq lookup_erase_eq lookup_unchanged lookup_modifyAt
  subscript_of_lookup)

/-- `_keys` and `_registers`. -/
structure Map (K V : Type*) where
  keys : ORSet K
  registers : UnorderedMap K (LWWRegister V)

namespace Map

variable {K V : Type*}

/-- `Map::Map(uint64_t)`. -/
def new (replicaId : ℕ) : Map K V := ⟨ORSet.new replicaId, ∅⟩

/-- `Map::replica_id`. -/
def replicaId (m : Map K V) : ℕ := m.keys.replicaId

variable [DecidableEq K]

/-- `Map::contains`. -/
def contains (m : Map K V) (key : K) : Bool := m.keys.contains key

/-- `Map::size`. -/
def size (m : Map K V) : ℕ := m.keys.size

/-- `Map::remove`. -/
def remove (m : Map K V) (key : K) : Map K V where
  keys := (m.keys.remove key).2
  -- the timestamp goes with the value
  registers := m.registers.erase key

/-- `Map::key_value_pairs`. -/
def keyValuePairs (m : Map K V) : UnorderedMap K V :=
  m.registers.foldl (fun res key reg => res.insert key reg.value) ∅

variable [Inhabited V]

/-- `Map::put`. -/
def put (m : Map K V) (key : K) (val : V) : Map K V :=
  let keys := m.keys.add key
  let registers :=
    -- a new register starts at sequence number 0, with the id of the map
    if key ∉ m.registers then m.registers.modifyAt key (·.setReplicaId keys.replicaId)
    else m.registers
  ⟨keys, registers.modifyAt key (·.assign val)⟩

/-- `Map::get`: the value, and the map after the subscript of `_registers`. -/
def get (m : Map K V) (key : K) : V × Map K V :=
  if m.contains key then
    -- `operator[]` would create a missing register
    let (reg, registers) := m.registers.subscript key
    (reg.value, { m with registers := registers })
  else (default, m)

/-- The registers of the keys that merging the keys removed are erased. -/
def eraseRemoved (m : Map K V) (keys : ORSet K) : UnorderedMap K (LWWRegister V) :=
  m.keys.elements.foldl
    (fun registers k _ => if keys.contains k then registers else registers.erase k)
    m.registers

/-- The loop of `merge` over the remote registers. -/
def mergeRegisters (keys : ORSet K) (registers remote : UnorderedMap K (LWWRegister V)) :
    UnorderedMap K (LWWRegister V) :=
  remote.foldl
    (fun registers key remoteReg =>
      match registers.lookup key with
      | some localReg => registers.insert key (localReg.merge remoteReg)
      | none =>
        if keys.contains key then
          let registers := registers.modifyAt key (·.setReplicaId keys.replicaId)
          -- a local stamp, which stays unless the remote one is greater
          let registers := registers.modifyAt key (·.assign remoteReg.value)
          registers.modifyAt key (·.merge remoteReg)
        else registers)
    registers

/-- `Map::merge`. -/
def merge (m remote : Map K V) : Map K V :=
  let keys := m.keys.merge remote.keys
  ⟨keys, mergeRegisters keys (m.eraseRemoved keys) remote.registers⟩

/-- The register that `merge` creates for a remote one: initialised with the local id, assigned the
remote value, then merged. -/
def adopt (id : ℕ) (remoteReg : LWWRegister V) : LWWRegister V :=
  (((default : LWWRegister V).setReplicaId id).assign remoteReg.value).merge remoteReg

/-! ## What each operation leaves under a key -/

@[simp] theorem keys_merge (m remote : Map K V) :
    (m.merge remote).keys = m.keys.merge remote.keys := rfl
@[simp] theorem keys_put (m : Map K V) (key : K) (val : V) :
    (m.put key val).keys = m.keys.add key := rfl
omit [Inhabited V] in
@[simp] theorem keys_remove (m : Map K V) (key : K) :
    (m.remove key).keys = (m.keys.remove key).2 := rfl
@[simp] theorem keys_get (m : Map K V) (key : K) : (m.get key).2.keys = m.keys := by
  rw [get]
  split <;> rfl

/-- The value a register created in a merge holds is the remote one. -/
@[simp] theorem value_adopt (id : ℕ) (remoteReg : LWWRegister V) :
    (adopt id remoteReg).value = remoteReg.value := by
  rw [adopt, LWWRegister.merge]
  split <;> rfl

omit [Inhabited V] in
theorem lookup_keyValuePairs (m : Map K V) (k : K) :
    m.keyValuePairs.lookup k = (m.registers.lookup k).map LWWRegister.value := by
  rw [keyValuePairs, lookup_foldl (g := fun _ reg _ => some reg.value)]
  · cases m.registers.lookup k <;> rfl
  · intro res key reg k'
    exact lookup_insert_eq ..

omit [Inhabited V] in
theorem lookup_registers_remove (m : Map K V) (key k : K) :
    (m.remove key).registers.lookup k = if k = key then none else m.registers.lookup k :=
  lookup_erase_eq ..

/-- The register a put leaves: the old one, or a fresh one with the id of the map, assigned. -/
theorem lookup_registers_put (m : Map K V) (key : K) (val : V) (k : K) :
    (m.put key val).registers.lookup k =
      if k = key then
        some (((m.registers.lookup key).getD
          ((default : LWWRegister V).setReplicaId m.replicaId)).assign val)
      else m.registers.lookup k := by
  show ((if key ∉ m.registers then _ else m.registers : UnorderedMap K (LWWRegister V)).modifyAt
    key _).lookup k = _
  rw [lookup_modifyAt]
  cases hreg : m.registers.lookup key with
  | none =>
    rw [if_pos (UnorderedMap.not_mem_iff_lookup.mpr hreg), lookup_modifyAt, if_pos rfl, hreg]
    by_cases hk : k = key
    · rw [if_pos hk, if_pos hk]
      rfl
    · rw [if_neg hk, if_neg hk, lookup_modifyAt, if_neg hk]
  | some reg =>
    rw [if_neg (not_not.mpr (UnorderedMap.mem_of_lookup hreg)), hreg]
    rfl

omit [Inhabited V] in
theorem lookup_eraseRemoved (m : Map K V) (keys : ORSet K) (k : K) :
    (m.eraseRemoved keys).lookup k =
      if m.keys.contains k = true ∧ keys.contains k = false then none
      else m.registers.lookup k := by
  rw [eraseRemoved, lookup_foldl (g := fun k _ entry => if keys.contains k then entry else none)]
  · have hcontains : m.keys.contains k = true ↔ ∃ adds, m.keys.elements.lookup k = some adds :=
      ORSet.contains_iff
    cases hk : m.keys.elements.lookup k with
    | none => simp [hcontains, hk]
    | some adds => cases keys.contains k <;> simp [hcontains, hk]
  · intro registers key _ k'
    cases keys.contains key
    · exact lookup_erase_eq ..
    · exact lookup_unchanged ..

theorem lookup_mergeRegisters (keys : ORSet K) (registers remote : UnorderedMap K (LWWRegister V))
    (k : K) :
    (mergeRegisters keys registers remote).lookup k =
      (remote.lookup k).elim (registers.lookup k) fun remoteReg =>
        match registers.lookup k with
        | some localReg => some (localReg.merge remoteReg)
        | none => if keys.contains k then some (adopt keys.replicaId remoteReg) else none := by
  rw [mergeRegisters, lookup_foldl (g := fun k remoteReg entry =>
    match entry with
    | some localReg => some (localReg.merge remoteReg)
    | none => if keys.contains k then some (adopt keys.replicaId remoteReg) else none)]
  intro registers key remoteReg k'
  cases hreg : registers.lookup key with
  | some localReg => exact lookup_insert_eq ..
  | none =>
    cases keys.contains key
    · simpa [hreg] using lookup_unchanged registers key k'
    · by_cases hk : k' = key
      · simp only [hk, lookup_modifyAt, if_true, Option.getD_some, hreg, Option.getD_none]
        rfl
      · simp only [hk, lookup_modifyAt, if_false, if_true]

/-- The register of a key after a merge. -/
theorem lookup_registers_merge (m remote : Map K V) (k : K) :
    (m.merge remote).registers.lookup k =
      (remote.registers.lookup k).elim
        ((m.eraseRemoved (m.keys.merge remote.keys)).lookup k) fun remoteReg =>
        match (m.eraseRemoved (m.keys.merge remote.keys)).lookup k with
        | some localReg => some (localReg.merge remoteReg)
        | none =>
          if (m.keys.merge remote.keys).contains k then some (adopt m.replicaId remoteReg)
          else none :=
  lookup_mergeRegisters ..

/-- Where a register comes from in any merge, also of maps whose keys and registers differ. -/
theorem register_of_merge {m remote : Map K V} {k : K} {reg : LWWRegister V}
    (hreg : (m.merge remote).registers.lookup k = some reg) :
    (m.registers.lookup k = some reg ∧ remote.registers.lookup k = none) ∨
      ∃ remoteReg, remote.registers.lookup k = some remoteReg ∧
        (reg = adopt m.replicaId remoteReg ∨
          ∃ localReg, m.registers.lookup k = some localReg ∧ reg = localReg.merge remoteReg) := by
  have hkept : ∀ localReg, (m.eraseRemoved (m.keys.merge remote.keys)).lookup k = some localReg →
      m.registers.lookup k = some localReg := by
    intro localReg hlocal
    rw [lookup_eraseRemoved] at hlocal
    split at hlocal
    · cases hlocal
    · exact hlocal
  rw [lookup_registers_merge] at hreg
  cases hremote : remote.registers.lookup k with
  | none =>
    rw [hremote] at hreg
    exact Or.inl ⟨hkept reg hreg, rfl⟩
  | some remoteReg =>
    rw [hremote] at hreg
    refine Or.inr ⟨remoteReg, rfl, ?_⟩
    cases hlocal : (m.eraseRemoved (m.keys.merge remote.keys)).lookup k with
    | some localReg =>
      rw [hlocal] at hreg
      cases hreg
      exact Or.inr ⟨localReg, hkept localReg hlocal, rfl⟩
    | none =>
      simp only [hlocal, Option.elim_some] at hreg
      split at hreg
      · cases hreg
        exact Or.inl rfl
      · cases hreg

end Map

end CrdtStore
