import CrdtStore.Timestamp

/-!
# Last-writer-wins registers

`statebased/lwwregister.hh`: a value with the timestamp of the write that put it there.
-/

namespace CrdtStore

/-- `_timestamp` and `_value`. -/
structure LWWRegister (V : Type*) where
  timestamp : Timestamp
  value : V
deriving DecidableEq, Repr

namespace LWWRegister

variable {V : Type*}

/-- `LWWRegister::LWWRegister()`: default members. -/
instance [Inhabited V] : Inhabited (LWWRegister V) := ⟨⟨default, default⟩⟩

/-- `LWWRegister::replica_id(uint64_t)`. -/
def setReplicaId (reg : LWWRegister V) (id : ℕ) : LWWRegister V :=
  { reg with timestamp := reg.timestamp.setReplicaId id }

/-- `LWWRegister::replica_id() const`. -/
def replicaId (reg : LWWRegister V) : ℕ := reg.timestamp.replicaId

/-- `LWWRegister::assign`. -/
def assign (reg : LWWRegister V) (value : V) : LWWRegister V :=
  { timestamp := reg.timestamp.update, value := value }

/-- `LWWRegister::merge`. -/
def merge (reg remote : LWWRegister V) : LWWRegister V :=
  if reg.timestamp < remote.timestamp then
    { value := remote.value, timestamp := reg.timestamp.copy remote.timestamp }
  else reg

@[simp] theorem value_assign (reg : LWWRegister V) (value : V) :
    (reg.assign value).value = value := rfl
@[simp] theorem timestamp_assign (reg : LWWRegister V) (value : V) :
    (reg.assign value).timestamp = reg.timestamp.update := rfl
@[simp] theorem timestamp_setReplicaId (reg : LWWRegister V) (id : ℕ) :
    (reg.setReplicaId id).timestamp = reg.timestamp.setReplicaId id := rfl
@[simp] theorem value_setReplicaId (reg : LWWRegister V) (id : ℕ) :
    (reg.setReplicaId id).value = reg.value := rfl

theorem merge_of_lt {reg remote : LWWRegister V} (h : reg.timestamp < remote.timestamp) :
    reg.merge remote = ⟨reg.timestamp.copy remote.timestamp, remote.value⟩ := if_pos h

theorem merge_of_not_lt {reg remote : LWWRegister V} (h : ¬ reg.timestamp < remote.timestamp) :
    reg.merge remote = reg := if_neg h

/-- A merged register is behind neither of the two. -/
theorem not_merge_lt {reg remote : LWWRegister V} {t : Timestamp}
    (h : ¬ reg.timestamp < t ∨ ¬ remote.timestamp < t) : ¬ (reg.merge remote).timestamp < t := by
  by_cases hlt : reg.timestamp < remote.timestamp
  · rw [merge_of_lt hlt, Timestamp.lt_congr (Timestamp.stamp_copy ..) rfl]
    simp only [Timestamp.lt_def] at h hlt ⊢
    omega
  · rw [merge_of_not_lt hlt]
    simp only [Timestamp.lt_def] at h hlt ⊢
    omega

/-- Merging keeps the owner of the register. -/
@[simp] theorem replicaId_merge (reg remote : LWWRegister V) :
    (reg.merge remote).timestamp.replicaId = reg.timestamp.replicaId := by
  rw [merge]
  split <;> rfl

end LWWRegister

end CrdtStore
