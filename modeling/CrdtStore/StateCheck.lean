import CrdtStore.Codec

/-!
# Comparing the states of two replicas

`RequestUtilities::compareRegisters` compares the registers of two encoded maps, without the ids of
their owners. It does so exactly (`compareRegisters_toJson_iff`), except that a map without
registers, whose `_registers` are encoded as null, differs from itself.
-/

namespace CrdtStore

namespace RequestUtilities

/-- `RequestUtilities::compareJSONObjects`. -/
def compareJSONObjects (obj1 obj2 : UnorderedMap String Json) : Bool :=
  if obj1.size ≠ obj2.size then false
  else
    !obj1.any fun key val1 =>
      match obj2.lookup key with
      | none => true
      | some val2 => !val1.valueEq val2

/-- What the loop of `compareRegisters` leaves of a register. -/
def filterReplicaId (fieldValue : Json) : Json :=
  match fieldValue with
  | .object fields =>
    match fields.dlookup "timestamp" with
    | some timestampObj =>
      if timestampObj.isObject && timestampObj.hasField "replica_id" then
        .object (fields.kinsert "timestamp" (timestampObj.erase "replica_id"))
      else fieldValue
    | none => fieldValue
  | _ => fieldValue

/-- `RequestUtilities::compareRegisters`. -/
def compareRegisters (json1 json2 : Json) : Except Thrown Bool :=
  if !json1.isObject || !json2.isObject then .ok false
  else do
    let reg1 ← json1.atField "_registers"
    let reg2 ← json2.atField "_registers"
    if !reg1.isObject || !reg2.isObject then return false
    else
      let reg1Filtered := (← reg1.asObject).mapValues filterReplicaId
      let reg2Filtered := (← reg2.asObject).mapValues filterReplicaId
      return compareJSONObjects reg1Filtered reg2Filtered

theorem compareJSONObjects_iff {obj1 obj2 : UnorderedMap String Json} :
    compareJSONObjects obj1 obj2 = true ↔
      obj1.size = obj2.size ∧ ∀ key val1, obj1.lookup key = some val1 →
        ∃ val2, obj2.lookup key = some val2 ∧ val1.valueEq val2 = true := by
  rw [compareJSONObjects]
  split
  · next hsize => exact iff_of_false Bool.false_ne_true fun h => hsize h.1
  · next hsize =>
    rw [Bool.not_eq_true', UnorderedMap.any_eq_false, and_iff_right (not_not.mp hsize)]
    refine forall₂_congr fun key val1 => imp_congr_right fun _ => ?_
    cases obj2.lookup key with
    | none => simp
    | some val2 => simp

end RequestUtilities

namespace LWWRegister

/-- The same value under the same stamp. -/
def SameWrite (reg reg' : LWWRegister String) : Prop :=
  reg.value = reg'.value ∧ reg.timestamp.seqNumber = reg'.timestamp.seqNumber ∧
    reg.timestamp.uid = reg'.timestamp.uid

open RequestUtilities

/-- Of an encoded register the filter leaves the value and the stamp. -/
theorem valueEq_filterReplicaId (reg reg' : LWWRegister String) :
    (filterReplicaId reg.toJson).valueEq (filterReplicaId reg'.toJson) = true ↔
      reg.SameWrite reg' := by
  have hfilter : ∀ r : LWWRegister String, filterReplicaId r.toJson =
      .object [⟨"timestamp", .object [⟨"uid", .number r.timestamp.uid⟩,
        ⟨"sequence_number", .number r.timestamp.seqNumber⟩]⟩, ⟨"value", .string r.value⟩] :=
    fun r => rfl
  rw [hfilter, hfilter, SameWrite]
  simp [Json.valueEq, Json.fieldsIn, Json.fieldIn]
  tauto

end LWWRegister

namespace Map

open RequestUtilities UnorderedMap

/-- The same register keys, and under each key the same value, sequence number and uid. -/
def SameRegisters (a b : Map String String) : Prop :=
  ∀ key, Option.Rel LWWRegister.SameWrite (a.registers.lookup key) (b.registers.lookup key)

theorem SameRegisters.mem_iff {a b : Map String String} (h : a.SameRegisters b) (key : String) :
    key ∈ a.registers ↔ key ∈ b.registers := by
  have hkey := h key
  rw [mem_iff_lookup, mem_iff_lookup]
  revert hkey
  generalize a.registers.lookup key = x, b.registers.lookup key = y
  intro hkey
  cases hkey <;> simp

/-- A map without registers encodes them as null. -/
theorem isObject_registers (m : Map String String) :
    (Json.ofMap (m.registers.mapValues LWWRegister.toJson)).isObject = true ↔
      ∃ key, key ∈ m.registers := by
  rw [Json.isObject_ofMap]
  refine exists_congr fun key => ?_
  rw [mem_iff_lookup, mem_iff_lookup, lookup_mapValues]
  cases m.registers.lookup key <;> simp

/-- The check of two encoded maps is one of their encoded registers. -/
theorem compareRegisters_registers (a b : Map String String) :
    let reg1 := Json.ofMap (a.registers.mapValues LWWRegister.toJson)
    let reg2 := Json.ofMap (b.registers.mapValues LWWRegister.toJson)
    compareRegisters a.toJson b.toJson =
      if !reg1.isObject || !reg2.isObject then .ok false
      else do
        let reg1Filtered := (← reg1.asObject).mapValues filterReplicaId
        let reg2Filtered := (← reg2.asObject).mapValues filterReplicaId
        return compareJSONObjects reg1Filtered reg2Filtered := rfl

/-- On maps that both have registers the check runs to its loop. -/
theorem compareRegisters_of_mem {a b : Map String String} {key key' : String}
    (ha : key ∈ a.registers) (hb : key' ∈ b.registers) :
    compareRegisters a.toJson b.toJson = .ok (compareJSONObjects
      ((a.registers.mapValues LWWRegister.toJson).mapValues filterReplicaId)
      ((b.registers.mapValues LWWRegister.toJson).mapValues filterReplicaId)) := by
  have hobject : ∀ (m : Map String String) (k : String), k ∈ m.registers →
      (Json.ofMap (m.registers.mapValues LWWRegister.toJson)).asObject =
        .ok (m.registers.mapValues LWWRegister.toJson) := by
    intro m k hk
    obtain ⟨reg, hreg⟩ := mem_iff_lookup.mp hk
    have hlookup : (m.registers.mapValues LWWRegister.toJson).lookup k = some reg.toJson := by
      rw [lookup_mapValues, hreg]
      rfl
    exact Json.asObject_ofMap hlookup
  rw [compareRegisters_registers, (isObject_registers a).mpr ⟨key, ha⟩,
    (isObject_registers b).mpr ⟨key', hb⟩, hobject a key ha, hobject b key' hb]
  rfl

/-- A map without registers is unlike every map, itself included. -/
theorem compareRegisters_of_empty {a b : Map String String}
    (h : (∀ key, key ∉ a.registers) ∨ ∀ key, key ∉ b.registers) :
    compareRegisters a.toJson b.toJson = .ok false := by
  have hobject : (!(Json.ofMap (a.registers.mapValues LWWRegister.toJson)).isObject ||
      !(Json.ofMap (b.registers.mapValues LWWRegister.toJson)).isObject) = true := by
    rw [Bool.or_eq_true, Bool.not_eq_true', Bool.not_eq_true', ← Bool.not_eq_true,
      ← Bool.not_eq_true, isObject_registers, isObject_registers, not_exists, not_exists]
    exact h
  rw [compareRegisters_registers]
  exact if_pos hobject

theorem lookup_filtered (m : Map String String) (key : String) :
    ((m.registers.mapValues LWWRegister.toJson).mapValues filterReplicaId).lookup key =
      (m.registers.lookup key).map fun reg => filterReplicaId reg.toJson := by
  rw [lookup_mapValues, lookup_mapValues, Option.map_map]
  rfl

theorem mem_filtered (m : Map String String) (key : String) :
    key ∈ (m.registers.mapValues LWWRegister.toJson).mapValues filterReplicaId ↔
      key ∈ m.registers := by
  rw [mem_iff_lookup, mem_iff_lookup, lookup_filtered]
  cases m.registers.lookup key <;> simp

/-- The loop finds the same keys, as the sizes are equal, and at each the same write. -/
theorem SameRegisters.of_compareJSONObjects {a b : Map String String}
    (h : compareJSONObjects ((a.registers.mapValues LWWRegister.toJson).mapValues filterReplicaId)
      ((b.registers.mapValues LWWRegister.toJson).mapValues filterReplicaId) = true) :
    a.SameRegisters b := by
  obtain ⟨hsize, hall⟩ := compareJSONObjects_iff.mp h
  intro key
  have hkeys := mem_iff_of_size_eq hsize (fun k hk => by
    obtain ⟨val1, hval1⟩ := mem_iff_lookup.mp hk
    obtain ⟨val2, hval2, -⟩ := hall k val1 hval1
    exact mem_of_lookup hval2) key
  rw [mem_filtered, mem_filtered] at hkeys
  have hkey := hall key
  rw [lookup_filtered, lookup_filtered] at hkey
  cases ha : a.registers.lookup key with
  | none =>
    rw [not_mem_iff_lookup.mp (mt hkeys.mpr (not_mem_iff_lookup.mpr ha))]
    exact .none
  | some reg =>
    obtain ⟨reg', hb⟩ := mem_iff_lookup.mp (hkeys.mp (mem_of_lookup ha))
    rw [ha, hb] at hkey
    obtain ⟨val2, hval2, heq⟩ := hkey _ rfl
    cases hval2
    rw [hb]
    exact .some ((LWWRegister.valueEq_filterReplicaId reg reg').mp heq)

/-- The loop over filtered registers compares them exactly. -/
theorem compareJSONObjects_registers (a b : Map String String) :
    compareJSONObjects ((a.registers.mapValues LWWRegister.toJson).mapValues filterReplicaId)
      ((b.registers.mapValues LWWRegister.toJson).mapValues filterReplicaId) = true ↔
      a.SameRegisters b := by
  refine ⟨SameRegisters.of_compareJSONObjects, fun h => ?_⟩
  rw [compareJSONObjects_iff]
  constructor
  · apply size_eq_of_mem_iff
    intro key
    rw [mem_filtered, mem_filtered]
    exact h.mem_iff key
  · intro key val1 hval1
    have hkey := h key
    rw [lookup_filtered] at hval1 ⊢
    revert hkey hval1
    generalize a.registers.lookup key = x, b.registers.lookup key = y
    intro hkey hval1
    cases hval1 with
    | none => cases hkey
    | some hsame =>
      cases hkey
      exact ⟨_, rfl, (LWWRegister.valueEq_filterReplicaId _ _).mpr hsame⟩

/-- Maps without registers have the same registers. -/
theorem SameRegisters.of_empty {a b : Map String String} (ha : ∀ key, key ∉ a.registers)
    (hb : ∀ key, key ∉ b.registers) : a.SameRegisters b := by
  intro key
  rw [not_mem_iff_lookup.mp (ha key), not_mem_iff_lookup.mp (hb key)]
  exact .none

/-- The check finds two encoded maps equal when they have the same registers, at least one. -/
theorem exists_compareRegisters (a b : Map String String) :
    ∃ result, compareRegisters a.toJson b.toJson = .ok result ∧
      (result = true ↔ (∃ key, key ∈ a.registers) ∧ a.SameRegisters b) := by
  by_cases hempty : (∀ key, key ∉ a.registers) ∨ ∀ key, key ∉ b.registers
  · refine ⟨false, compareRegisters_of_empty hempty, ?_⟩
    refine iff_of_false Bool.false_ne_true fun h => ?_
    obtain ⟨⟨key, ha⟩, hsame⟩ := h
    rcases hempty with hnone | hnone
    · exact hnone key ha
    · exact hnone key ((hsame.mem_iff key).mp ha)
  · obtain ⟨ha, hb⟩ := not_or.mp hempty
    simp only [not_forall, not_not] at ha hb
    obtain ⟨key', hkey'⟩ := hb
    refine ⟨_, compareRegisters_of_mem ha.choose_spec hkey', ?_⟩
    rw [compareJSONObjects_registers]
    exact (and_iff_right ha).symm

/-- The check of two encoded maps says whether they have the same registers, exactly when one of
them has a register. -/
theorem compareRegisters_toJson_iff (a b : Map String String) :
    ∃ result, compareRegisters a.toJson b.toJson = .ok result ∧
      ((result = true ↔ a.SameRegisters b) ↔
        ((∃ key, key ∈ a.registers) ∨ ∃ key, key ∈ b.registers)) := by
  obtain ⟨result, hresult, htrue⟩ := exists_compareRegisters a b
  refine ⟨result, hresult, ?_⟩
  rw [htrue]
  constructor
  · intro h
    by_contra hnone
    obtain ⟨ha, hb⟩ := not_or.mp hnone
    have hsame := SameRegisters.of_empty (not_exists.mp ha) (not_exists.mp hb)
    exact ha (h.mpr hsame).1
  · intro h
    refine and_iff_right_of_imp fun hsame => ?_
    rcases h with ha | ⟨key, hkey⟩
    · exact ha
    · exact ⟨key, (hsame.mem_iff key).mpr hkey⟩

/-- Two maps that nothing was put into are reported as out of sync. -/
theorem compareRegisters_new :
    compareRegisters (Map.new 0 : Map String String).toJson (Map.new 1).toJson = .ok false ∧
      (Map.new 0 : Map String String).SameRegisters (Map.new 1) :=
  ⟨rfl, fun _ => .none⟩

/-- The check is reflexive on maps with registers only. -/
theorem compareRegisters_self_iff (a : Map String String) :
    compareRegisters a.toJson a.toJson = .ok true ↔ ∃ key, key ∈ a.registers := by
  obtain ⟨result, hresult, htrue⟩ := exists_compareRegisters a a
  have hself : a.SameRegisters a := by
    intro key
    cases a.registers.lookup key with
    | none => exact .none
    | some reg => exact .some ⟨rfl, rfl, rfl⟩
  rw [hresult, Except.ok.injEq, htrue, and_iff_left hself]

end Map

end CrdtStore
