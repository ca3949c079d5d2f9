import Mathlib.Algebra.Group.Nat.Defs
import Mathlib.Tactic.Common

/-!
# Timestamps

`core/timestamp.hh` and `core/timestamp.cc`: a sequence number and the id of the replica that drew
it, compared lexicographically, next to the id of the replica that owns the object. Sequence
numbers are 64-bit unsigned integers and wrap.
-/

namespace CrdtStore

/-- `_seq_number`, `_uid` and `_replica_id`. -/
structure Timestamp where
  seqNumber : ℕ
  uid : ℕ
  replicaId : ℕ
deriving DecidableEq, Repr

namespace Timestamp

/-- `Timestamp::Timestamp()`: all members zero. -/
instance : Inhabited Timestamp := ⟨⟨0, 0, 0⟩⟩

/-- `Timestamp::replica_id(uint64_t)`. -/
def setReplicaId (t : Timestamp) (id : ℕ) : Timestamp := { t with uid := id, replicaId := id }

/-- `operator <`. -/
instance : LT Timestamp where
  lt t₁ t₂ := t₁.seqNumber < t₂.seqNumber ∨ (t₁.seqNumber = t₂.seqNumber ∧ t₁.uid < t₂.uid)

theorem lt_def {t₁ t₂ : Timestamp} : t₁ < t₂ ↔
    t₁.seqNumber < t₂.seqNumber ∨ (t₁.seqNumber = t₂.seqNumber ∧ t₁.uid < t₂.uid) := Iff.rfl

instance (t₁ t₂ : Timestamp) : Decidable (t₁ < t₂) := decidable_of_iff _ lt_def.symm

/-- `std::max`: the first argument unless it is smaller. -/
def max (t₁ t₂ : Timestamp) : Timestamp := if t₁ < t₂ then t₂ else t₁

/-- `Timestamp::update`. -/
def update (t : Timestamp) : Timestamp :=
  { t with seqNumber := (t.seqNumber + 1) % 2 ^ 64, uid := t.replicaId }

/-- `Timestamp::copy`: the replica id is not copied. -/
def copy (t source : Timestamp) : Timestamp :=
  { t with uid := source.uid, seqNumber := source.seqNumber }

/-- The pair that `operator ==` compares. -/
def stamp (t : Timestamp) : ℕ × ℕ := (t.seqNumber, t.uid)

@[simp] theorem replicaId_setReplicaId (t : Timestamp) (id : ℕ) :
    (t.setReplicaId id).replicaId = id := rfl
@[simp] theorem uid_setReplicaId (t : Timestamp) (id : ℕ) : (t.setReplicaId id).uid = id := rfl
@[simp] theorem seqNumber_setReplicaId (t : Timestamp) (id : ℕ) :
    (t.setReplicaId id).seqNumber = t.seqNumber := rfl
@[simp] theorem replicaId_update (t : Timestamp) : t.update.replicaId = t.replicaId := rfl
@[simp] theorem uid_update (t : Timestamp) : t.update.uid = t.replicaId := rfl
@[simp] theorem replicaId_copy (t source : Timestamp) :
    (t.copy source).replicaId = t.replicaId := rfl
@[simp] theorem uid_copy (t source : Timestamp) : (t.copy source).uid = source.uid := rfl
@[simp] theorem seqNumber_copy (t source : Timestamp) :
    (t.copy source).seqNumber = source.seqNumber := rfl
@[simp] theorem stamp_copy (t source : Timestamp) : (t.copy source).stamp = source.stamp := rfl

/-- As long as the counter does not wrap, `update` adds one. -/
theorem seqNumber_update {t : Timestamp} (h : t.seqNumber + 1 < 2 ^ 64) :
    t.update.seqNumber = t.seqNumber + 1 := Nat.mod_eq_of_lt h

theorem lt_irrefl (t : Timestamp) : ¬ t < t := by
  simp [lt_def]

theorem lt_trans {t₁ t₂ t₃ : Timestamp} (h : t₁ < t₂) (h' : t₂ < t₃) : t₁ < t₃ := by
  simp only [lt_def] at *
  omega

/-- Of two timestamps neither of which is smaller, both carry the same stamp. -/
theorem stamp_eq_of_not_lt {t₁ t₂ : Timestamp} (h : ¬ t₁ < t₂) (h' : ¬ t₂ < t₁) :
    t₁.stamp = t₂.stamp := by
  simp only [lt_def] at h h'
  rw [stamp, stamp, Prod.mk.injEq]
  omega

theorem lt_congr {t₁ t₂ s₁ s₂ : Timestamp} (h₁ : t₁.stamp = s₁.stamp) (h₂ : t₂.stamp = s₂.stamp) :
    t₁ < t₂ ↔ s₁ < s₂ := by
  simp only [stamp, Prod.mk.injEq] at h₁ h₂
  simp only [lt_def, h₁, h₂]

/-- Timestamps of one replica are ordered by their sequence numbers. -/
theorem lt_iff_of_uid_eq {t₁ t₂ : Timestamp} (h : t₁.uid = t₂.uid) :
    t₁ < t₂ ↔ t₁.seqNumber < t₂.seqNumber := by
  rw [lt_def, h]
  simp

/-- Timestamps of one replica with one sequence number are equal. -/
theorem eq_of_seqNumber_eq {t₁ t₂ : Timestamp} (hs : t₁.seqNumber = t₂.seqNumber)
    (hu : t₁.uid = t₂.uid) (hr : t₁.replicaId = t₂.replicaId) : t₁ = t₂ := by
  cases t₁
  cases t₂
  simp_all

end Timestamp

end CrdtStore
