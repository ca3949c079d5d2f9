import CrdtStore.Library.UnorderedMap
import CrdtStore.Timestamp

/-!
# Observed-remove sets

`statebased/orset.hh`. An element of the set carries tags: for each replica that added it, the
version of that replica at the add. The version vector holds, for each replica known, the newest
version seen of it.

The loops of `merge` are translated as loops over the entries of the maps they walk. The lemmas
`lookup_mergeVersions` and `lookup_merge` say what they leave under each key; nothing below
unfolds the loops again.
-/

namespace CrdtStore

open UnorderedMap (lookup_foldl lookup_insert_eq lookup_erase_eq lookup_unchanged)

/-- The timestamps of the adds of one element, by replica id. -/
abbrev Tags := UnorderedMap ℕ Timestamp

/-- `_elements`, `_versions` and `_replica_id`. -/
structure ORSet (α : Type*) where
  elements : UnorderedMap α Tags
  versions : UnorderedMap ℕ Timestamp
  replicaId : ℕ

namespace ORSet

variable {α : Type*} [DecidableEq α]

/-- `ORSet::ORSet(uint64_t)`. -/
def new (replicaId : ℕ) : ORSet α where
  elements := ∅
  versions := AList.insert replicaId ((default : Timestamp).setReplicaId replicaId) ∅
  replicaId := replicaId

/-- `ORSet::_merge_versions`. -/
def mergeVersions (set remote : ORSet α) : ORSet α :=
  { set with
    versions := remote.versions.foldl
      (fun versions id version =>
        match versions.lookup id with
        | some localVersion => versions.insert id (localVersion.max version)
        | none => versions.insert id version)
      set.versions }

/-- The first search of `_apply_remote_removes`: a local add the remote set has not seen. -/
def concurrentAdd (remote : ORSet α) (adds : Tags) : Bool :=
  UnorderedMap.any adds fun id localAdd =>
    match remote.versions.lookup id with
    | none => true
    | some remoteRemove => remoteRemove < localAdd

/-- The second search of `_apply_remote_removes`: a remote version that is no tag of the element,
or newer than the tag. -/
def evidence (remote : ORSet α) (adds : Tags) : Bool :=
  UnorderedMap.any remote.versions fun id remoteRemove =>
    match adds.lookup id with
    | none => true
    | some localAdd => localAdd < remoteRemove

/-- `newer_remote_remove` at the end of the body of `_apply_remote_removes`. -/
def newerRemoteRemove (remote : ORSet α) (adds : Tags) : Bool :=
  if concurrentAdd remote adds then false else evidence remote adds

/-- `ORSet::_apply_remote_removes`. -/
def applyRemoteRemoves (set remote : ORSet α) : ORSet α :=
  { set with
    elements := set.elements.foldl
      (fun elements e adds =>
        -- an element the remote set contains stays, with all its tags
        if e ∉ remote.elements then
          if newerRemoteRemove remote adds then elements.erase e else elements
        else elements)
      set.elements }

/-- The test of `_apply_remote_adds`: the local set has not seen the add. -/
def unseen (set : ORSet α) (id : ℕ) (remoteTimestamp : Timestamp) : Bool :=
  match set.versions.lookup id with
  | none => true
  | some version => version < remoteTimestamp

/-- The loop of `_apply_remote_adds` over the tags of an element both sides contain. -/
def updateTags (set : ORSet α) (adds remoteAdds : Tags) : Tags :=
  remoteAdds.foldl
    (fun adds id remoteTimestamp =>
      -- no tag is dropped, whatever the remote version vector covers
      if set.unseen id remoteTimestamp then adds.insert id remoteTimestamp else adds)
    adds

/-- `ORSet::_apply_remote_adds`. -/
def applyRemoteAdds (set remote : ORSet α) : ORSet α :=
  { set with
    elements := remote.elements.foldl
      (fun elements e remoteAdds =>
        match elements.lookup e with
        | some adds => elements.insert e (set.updateTags adds remoteAdds)
        | none =>
          -- one unseen tag brings the others along
          if UnorderedMap.any remoteAdds set.unseen then elements.insert e remoteAdds else elements)
      set.elements }

/-- `ORSet::merge`. -/
def merge (set remote : ORSet α) : ORSet α :=
  ((set.applyRemoteRemoves remote).applyRemoteAdds remote).mergeVersions remote

/-- `ORSet::add`. -/
def add (set : ORSet α) (e : α) : ORSet α :=
  let version := ((set.versions.lookup set.replicaId).getD default).update
  { set with
    versions := set.versions.insert set.replicaId version
    -- the tags of the other replicas stay
    elements := set.elements.insert e
      (((set.elements.lookup e).getD ∅).insert set.replicaId version) }

/-- `ORSet::remove`: whether the element existed, and the set without it. -/
def remove (set : ORSet α) (e : α) : Bool × ORSet α :=
  (decide (e ∈ set.elements), { set with elements := set.elements.erase e })

/-- `ORSet::contains`. -/
def contains (set : ORSet α) (e : α) : Bool := decide (e ∈ set.elements)

/-- `ORSet::size`. -/
def size (set : ORSet α) : ℕ := UnorderedMap.size set.elements

/-! ## What each operation leaves under a key -/

@[simp] theorem replicaId_merge (set remote : ORSet α) :
    (set.merge remote).replicaId = set.replicaId := rfl
@[simp] theorem replicaId_add (set : ORSet α) (e : α) : (set.add e).replicaId = set.replicaId := rfl
@[simp] theorem replicaId_remove (set : ORSet α) (e : α) :
    (set.remove e).2.replicaId = set.replicaId := rfl
@[simp] theorem versions_remove (set : ORSet α) (e : α) :
    (set.remove e).2.versions = set.versions := rfl

/-- What `_merge_versions` makes of two entries of the version vectors. -/
def joinVersion : Option Timestamp → Option Timestamp → Option Timestamp
  | some t, some t' => some (t.max t')
  | some t, none => some t
  | none, v => v

theorem joinVersion_eq {v v' : Option Timestamp} {t : Timestamp} (h : joinVersion v v' = some t) :
    v = some t ∨ v' = some t := by
  cases v with
  | none => exact Or.inr h
  | some a =>
    cases v' with
    | none => exact Or.inl h
    | some b =>
      rw [joinVersion, Timestamp.max] at h
      split at h
      · exact Or.inr h
      · exact Or.inl h

theorem lookup_versions_merge (set remote : ORSet α) (i : ℕ) :
    (set.merge remote).versions.lookup i =
      joinVersion (set.versions.lookup i) (remote.versions.lookup i) := by
  change (remote.versions.foldl _ set.versions).lookup i = _
  rw [lookup_foldl (g := fun _ version localVersion => joinVersion localVersion (some version))]
  · cases remote.versions.lookup i <;> cases set.versions.lookup i <;> rfl
  · intro versions id version k
    cases h : versions.lookup id <;> rw [lookup_insert_eq] <;> rfl

theorem lookup_applyRemoteRemoves (set remote : ORSet α) (e : α) :
    (set.applyRemoteRemoves remote).elements.lookup e =
      (set.elements.lookup e).elim none fun adds =>
        if e ∉ remote.elements ∧ newerRemoteRemove remote adds = true then none else some adds := by
  change (set.elements.foldl _ set.elements).lookup e = _
  rw [lookup_foldl (g := fun e adds entry =>
    if e ∉ remote.elements ∧ newerRemoteRemove remote adds = true then none else entry)]
  · cases set.elements.lookup e <;> rfl
  · intro elements e adds k
    by_cases he : e ∈ remote.elements
    · simpa [he] using lookup_unchanged elements e k
    · cases hr : newerRemoteRemove remote adds
      · simpa [he, hr] using lookup_unchanged elements e k
      · simpa [he, hr] using lookup_erase_eq elements e k

omit [DecidableEq α] in
theorem lookup_updateTags (set : ORSet α) (adds remoteAdds : Tags) (i : ℕ) :
    (set.updateTags adds remoteAdds).lookup i =
      (remoteAdds.lookup i).elim (adds.lookup i) fun t =>
        if set.unseen i t then some t else adds.lookup i := by
  rw [updateTags, lookup_foldl (g := fun id t entry => if set.unseen id t then some t else entry)]
  intro tags id t k
  cases set.unseen id t
  · exact lookup_unchanged tags id k
  · exact lookup_insert_eq tags id k t

theorem lookup_applyRemoteAdds (set remote : ORSet α) (e : α) :
    (set.applyRemoteAdds remote).elements.lookup e =
      (remote.elements.lookup e).elim (set.elements.lookup e) fun remoteAdds =>
        match set.elements.lookup e with
        | some adds => some (set.updateTags adds remoteAdds)
        | none => if UnorderedMap.any remoteAdds set.unseen then some remoteAdds else none := by
  change (remote.elements.foldl _ set.elements).lookup e = _
  rw [lookup_foldl (g := fun _ remoteAdds entry =>
    match entry with
    | some adds => some (set.updateTags adds remoteAdds)
    | none => if UnorderedMap.any remoteAdds set.unseen then some remoteAdds else none)]
  intro elements e remoteAdds k
  cases h : elements.lookup e with
  | some adds => rw [lookup_insert_eq]
  | none =>
    cases UnorderedMap.any remoteAdds set.unseen
    · simpa [h] using lookup_unchanged elements e k
    · simpa using lookup_insert_eq elements e k remoteAdds

/-- The tags of an element after a merge, by whether either side contains the element. -/
theorem lookup_merge (set remote : ORSet α) (e : α) :
    (set.merge remote).elements.lookup e =
      match set.elements.lookup e, remote.elements.lookup e with
      | none, none => none
      | some adds, none => if newerRemoteRemove remote adds then none else some adds
      | none, some remoteAdds =>
        if UnorderedMap.any remoteAdds set.unseen then some remoteAdds else none
      | some adds, some remoteAdds => some (set.updateTags adds remoteAdds) := by
  change ((set.applyRemoteRemoves remote).applyRemoteAdds remote).elements.lookup e = _
  rw [lookup_applyRemoteAdds, lookup_applyRemoteRemoves]
  simp only [UnorderedMap.not_mem_iff_lookup]
  -- the version vector is still the old one when the adds are applied
  cases set.elements.lookup e <;> cases remote.elements.lookup e <;> simp <;> rfl

theorem lookup_versions_add (set : ORSet α) (e : α) (i : ℕ) :
    (set.add e).versions.lookup i =
      if i = set.replicaId then some ((set.versions.lookup set.replicaId).getD default).update
      else set.versions.lookup i :=
  lookup_insert_eq ..

theorem lookup_add (set : ORSet α) (e e' : α) :
    (set.add e).elements.lookup e' =
      if e' = e then
        some (((set.elements.lookup e).getD ∅).insert set.replicaId
          ((set.versions.lookup set.replicaId).getD default).update)
      else set.elements.lookup e' :=
  lookup_insert_eq ..

theorem lookup_remove (set : ORSet α) (e e' : α) :
    (set.remove e).2.elements.lookup e' = if e' = e then none else set.elements.lookup e' :=
  lookup_erase_eq ..

theorem contains_iff {set : ORSet α} {e : α} :
    set.contains e = true ↔ ∃ adds, set.elements.lookup e = some adds := by
  rw [contains, decide_eq_true_iff, UnorderedMap.mem_iff_lookup]

end ORSet

end CrdtStore
