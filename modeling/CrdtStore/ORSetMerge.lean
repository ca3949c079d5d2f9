import CrdtStore.ORSet

/-!
# Merging well-formed sets

In the states of a run every version and every tag filed under an id carries that id, so that
timestamps filed under one id are ordered by their sequence numbers, and no tag is newer than the
version vector (`WellFormed`). On such states the two searches of `_apply_remote_removes` and the
test of `_apply_remote_adds` come down to one question: does the version vector of the other side
cover all tags of the element (`Covers`)? The exception is `_apply_remote_removes` on an element
whose tags are the whole remote version vector, where the second search finds nothing.
-/

namespace CrdtStore

open UnorderedMap (Same)

/-- Tags as `add` leaves them: at least one, each from the replica it is filed under. -/
structure Tags.WellFormed (adds : Tags) : Prop where
  nonempty : ∃ j t, adds.lookup j = some t
  uid : ∀ j t, adds.lookup j = some t → t.uid = j
  replicaId : ∀ j t, adds.lookup j = some t → t.replicaId = j
  pos : ∀ j t, adds.lookup j = some t → 0 < t.seqNumber

namespace ORSet

variable {α : Type*} [DecidableEq α]

/-- The newest version of replica `j` the set has seen, 0 when it knows nothing of `j`. -/
def seen (set : ORSet α) (j : ℕ) : ℕ := ((set.versions.lookup j).map Timestamp.seqNumber).getD 0

/-- The version vector of the set is at or past every tag. -/
def Covers (set : ORSet α) (adds : Tags) : Prop :=
  ∀ j t, adds.lookup j = some t → t.seqNumber ≤ set.seen j

/-- What holds of the state of replica `i` in every run. -/
structure WellFormed (i : ℕ) (set : ORSet α) : Prop where
  replicaId : set.replicaId = i
  own : ∃ t, set.versions.lookup i = some t
  versionUid : ∀ j t, set.versions.lookup j = some t → t.uid = j
  versionId : ∀ j t, set.versions.lookup j = some t → t.replicaId = j
  tags : ∀ e adds, set.elements.lookup e = some adds → adds.WellFormed
  covers : ∀ e adds, set.elements.lookup e = some adds → set.Covers adds

omit [DecidableEq α] in
theorem seen_of_lookup {set : ORSet α} {j : ℕ} {t : Timestamp}
    (h : set.versions.lookup j = some t) : set.seen j = t.seqNumber := by
  rw [seen, h]
  rfl

omit [DecidableEq α] in
theorem seen_of_none {set : ORSet α} {j : ℕ} (h : set.versions.lookup j = none) :
    set.seen j = 0 := by
  rw [seen, h]
  rfl

omit [DecidableEq α] in
theorem Covers.mono {set set' : ORSet α} {adds : Tags} (h : set.Covers adds)
    (hle : ∀ j, set.seen j ≤ set'.seen j) : set'.Covers adds :=
  fun j t ht => le_trans (h j t ht) (hle j)

/-! ## Fresh sets, adds and removes -/

omit [DecidableEq α] in
theorem lookup_versions_new (i j : ℕ) :
    (new i : ORSet α).versions.lookup j =
      if j = i then some ((default : Timestamp).setReplicaId i) else none := by
  show (AList.insert i _ ∅ : UnorderedMap ℕ Timestamp).lookup j = _
  rw [UnorderedMap.lookup_insert_eq]
  rfl

omit [DecidableEq α] in
theorem seen_new (i j : ℕ) : (new i : ORSet α).seen j = 0 := by
  rw [seen, lookup_versions_new]
  split <;> rfl

theorem WellFormed.new (i : ℕ) : WellFormed i (new i : ORSet α) where
  replicaId := rfl
  own := ⟨_, by rw [lookup_versions_new, if_pos rfl]⟩
  versionUid j t h := by
    rw [lookup_versions_new] at h
    split at h
    · next hj => cases h; exact hj.symm
    · cases h
  versionId j t h := by
    rw [lookup_versions_new] at h
    split at h
    · next hj => cases h; exact hj.symm
    · cases h
  tags e adds h := by cases h
  covers e adds h := by cases h

theorem WellFormed.remove {i : ℕ} {set : ORSet α} (h : WellFormed i set) (e : α) :
    WellFormed i (set.remove e).2 := by
  have hold : ∀ e' adds, (set.remove e).2.elements.lookup e' = some adds →
      set.elements.lookup e' = some adds := by
    intro e' adds he
    rw [lookup_remove] at he
    split at he
    · cases he
    · exact he
  exact ⟨h.replicaId, h.own, h.versionUid, h.versionId,
    fun e' adds he => h.tags e' adds (hold e' adds he),
    fun e' adds he => h.covers e' adds (hold e' adds he)⟩

/-- The version an add draws. -/
theorem WellFormed.lookup_versions_add {i : ℕ} {set : ORSet α} (h : WellFormed i set)
    (hwrap : set.seen i + 1 < 2 ^ 64) (e : α) (j : ℕ) :
    (set.add e).versions.lookup j =
      if j = i then some ⟨set.seen i + 1, i, i⟩ else set.versions.lookup j := by
  obtain ⟨t, ht⟩ := h.own
  have hseq : t.seqNumber + 1 < 2 ^ 64 := seen_of_lookup ht ▸ hwrap
  -- `operator[]` finds the own entry, and the counter does not wrap
  have hversion : ((set.versions.lookup set.replicaId).getD default).update
      = ⟨set.seen i + 1, i, i⟩ := by
    rw [h.replicaId, ht, seen_of_lookup ht]
    apply Timestamp.eq_of_seqNumber_eq
    · exact Timestamp.seqNumber_update hseq
    · exact h.versionId i t ht
    · exact h.versionId i t ht
  rw [ORSet.lookup_versions_add, hversion, h.replicaId]

theorem WellFormed.seen_add {i : ℕ} {set : ORSet α} (h : WellFormed i set)
    (hwrap : set.seen i + 1 < 2 ^ 64) (e : α) (j : ℕ) :
    (set.add e).seen j = if j = i then set.seen i + 1 else set.seen j := by
  rw [seen, h.lookup_versions_add hwrap]
  split <;> rfl

theorem WellFormed.seen_le_add {i : ℕ} {set : ORSet α} (h : WellFormed i set)
    (hwrap : set.seen i + 1 < 2 ^ 64) (e : α) (j : ℕ) : set.seen j ≤ (set.add e).seen j := by
  rw [h.seen_add hwrap]
  split
  · next hj => rw [hj]; omega
  · exact le_rfl

/-- The tags after an add: the own tag of the added element is the new version. -/
theorem WellFormed.lookup_add {i : ℕ} {set : ORSet α} (h : WellFormed i set)
    (hwrap : set.seen i + 1 < 2 ^ 64) (e e' : α) :
    (set.add e).elements.lookup e' =
      if e' = e then
        some (((set.elements.lookup e).getD ∅).insert i ⟨set.seen i + 1, i, i⟩)
      else set.elements.lookup e' := by
  have hversion := h.lookup_versions_add hwrap e i
  rw [ORSet.lookup_versions_add, h.replicaId, if_pos rfl, if_pos rfl, Option.some.injEq] at hversion
  rw [ORSet.lookup_add, h.replicaId, hversion]

/-- A tag after an add is the new one or one from before. -/
theorem WellFormed.tag_add {i : ℕ} {set : ORSet α} (h : WellFormed i set)
    (hwrap : set.seen i + 1 < 2 ^ 64) {e e' : α} {adds : Tags} {j : ℕ} {t : Timestamp}
    (hadds : (set.add e).elements.lookup e' = some adds) (ht : adds.lookup j = some t) :
    (e' = e ∧ j = i ∧ t = ⟨set.seen i + 1, i, i⟩) ∨
      ∃ adds', set.elements.lookup e' = some adds' ∧ adds'.lookup j = some t := by
  rw [h.lookup_add hwrap] at hadds
  split at hadds
  · next he =>
    cases hadds
    rw [UnorderedMap.lookup_insert_eq] at ht
    split at ht
    · next hj =>
      cases ht
      exact Or.inl ⟨he, hj, rfl⟩
    · subst he
      right
      cases hold : set.elements.lookup e' with
      | none =>
        rw [hold] at ht
        cases ht
      | some adds' =>
        rw [hold] at ht
        exact ⟨adds', rfl, ht⟩
  · exact Or.inr ⟨adds, hadds, ht⟩

theorem WellFormed.add {i : ℕ} {set : ORSet α} (h : WellFormed i set)
    (hwrap : set.seen i + 1 < 2 ^ 64) (e : α) : WellFormed i (set.add e) where
  replicaId := h.replicaId
  own := ⟨_, by rw [h.lookup_versions_add hwrap, if_pos rfl]⟩
  versionUid j t ht := by
    rw [h.lookup_versions_add hwrap] at ht
    split at ht
    · next hj => cases ht; exact hj.symm
    · exact h.versionUid j t ht
  versionId j t ht := by
    rw [h.lookup_versions_add hwrap] at ht
    split at ht
    · next hj => cases ht; exact hj.symm
    · exact h.versionId j t ht
  tags e' adds hadds := by
    have hcase : ∀ j t, adds.lookup j = some t →
        t.uid = j ∧ t.replicaId = j ∧ 0 < t.seqNumber := by
      intro j t ht
      rcases h.tag_add hwrap hadds ht with ⟨-, rfl, rfl⟩ | ⟨adds', hadds', ht⟩
      · exact ⟨rfl, rfl, Nat.succ_pos _⟩
      · have hold := h.tags e' adds' hadds'
        exact ⟨hold.uid j t ht, hold.replicaId j t ht, hold.pos j t ht⟩
    refine ⟨?_, fun j t ht => (hcase j t ht).1, fun j t ht => (hcase j t ht).2.1,
      fun j t ht => (hcase j t ht).2.2⟩
    rw [h.lookup_add hwrap] at hadds
    split at hadds
    · cases hadds
      exact ⟨i, _, AList.lookup_insert _⟩
    · exact (h.tags e' adds hadds).nonempty
  covers e' adds hadds j t ht := by
    rcases h.tag_add hwrap hadds ht with ⟨-, rfl, rfl⟩ | ⟨adds', hadds', ht⟩
    · rw [h.seen_add hwrap, if_pos rfl]
    · exact le_trans (h.covers e' adds' hadds' j t ht) (h.seen_le_add hwrap e j)

/-! ## The searches of `merge` -/

theorem unseen_iff {set : ORSet α} {i j : ℕ} {t : Timestamp} (h : WellFormed i set)
    (hu : t.uid = j) (hpos : 0 < t.seqNumber) :
    set.unseen j t = true ↔ set.seen j < t.seqNumber := by
  rw [unseen]
  cases hv : set.versions.lookup j with
  | none => simp [seen_of_none hv, hpos]
  | some v =>
    have huid : v.uid = t.uid := (h.versionUid j v hv).trans hu.symm
    rw [seen_of_lookup hv, decide_eq_true_iff, Timestamp.lt_iff_of_uid_eq huid]

/-- `_apply_remote_adds` adds a remote element unless all its tags are covered. -/
theorem any_unseen_iff {set : ORSet α} {i : ℕ} {adds : Tags} (h : WellFormed i set)
    (ha : adds.WellFormed) : UnorderedMap.any adds set.unseen = true ↔ ¬ set.Covers adds := by
  rw [UnorderedMap.any_eq_true]
  simp only [Covers, not_forall, not_le, exists_prop]
  refine exists₂_congr fun j t => and_congr_right fun ht => ?_
  exact unseen_iff h (ha.uid j t ht) (ha.pos j t ht)

/-- The first search of `_apply_remote_removes` succeeds unless all tags are covered. -/
theorem concurrentAdd_iff {remote : ORSet α} {i : ℕ} {adds : Tags} (h : WellFormed i remote)
    (ha : adds.WellFormed) : concurrentAdd remote adds = true ↔ ¬ remote.Covers adds := by
  rw [← any_unseen_iff h ha]
  rfl

/-- `Q` has seen every add of the tags, as `_apply_remote_removes` compares them. -/
def Knows (Q : ORSet α) (adds : Tags) : Prop :=
  ∀ j t, adds.lookup j = some t → ∃ v, Q.versions.lookup j = some v ∧ ¬ v < t

omit [DecidableEq α] in
instance (Q : ORSet α) (adds : Tags) : Decidable (Q.Knows adds) :=
  decidable_of_iff (∀ j t, adds.lookup j = some t → ∃ v ∈ Q.versions.lookup j, ¬ v < t) Iff.rfl

omit [DecidableEq α] in
theorem concurrentAdd_of_knows {Q : ORSet α} {adds : Tags} (hknows : Q.Knows adds) :
    concurrentAdd Q adds = false := by
  rw [concurrentAdd, UnorderedMap.any_eq_false]
  intro j t ht
  obtain ⟨v, hv, hle⟩ := hknows j t ht
  rw [hv]
  exact decide_eq_false hle

omit [DecidableEq α] in
/-- The second search fails exactly when the tags are the whole version vector. -/
theorem evidence_iff_of_knows {Q : ORSet α} {adds : Tags} (hknows : Q.Knows adds)
    (hids : ∀ j t v, adds.lookup j = some t → Q.versions.lookup j = some v →
      v.uid = t.uid ∧ v.replicaId = t.replicaId) :
    evidence Q adds = true ↔ ¬ Same adds Q.versions := by
  rw [evidence, UnorderedMap.any_eq_true]
  constructor
  · intro hfound hsame
    obtain ⟨j, v, hv, hev⟩ := hfound
    rw [hsame j, hv] at hev
    exact Timestamp.lt_irrefl v (of_decide_eq_true hev)
  · intro hne
    by_contra hnone
    apply hne
    intro j
    cases hv : Q.versions.lookup j with
    | none =>
      cases ht : adds.lookup j with
      | none => rfl
      | some t =>
        obtain ⟨v, hv', -⟩ := hknows j t ht
        rw [hv] at hv'
        cases hv'
    | some v =>
      have hno := not_exists.mp (not_exists.mp hnone j) v
      cases ht : adds.lookup j with
      | none => exact absurd ⟨hv, by rw [ht]⟩ hno
      | some t =>
        -- neither is smaller, so they are equal
        obtain ⟨v', hv', hle⟩ := hknows j t ht
        obtain rfl : v = v' := Option.some.inj (hv.symm.trans hv')
        have hge : ¬ t < v := fun hlt => hno ⟨hv, by rw [ht]; exact decide_eq_true hlt⟩
        obtain ⟨huid, hid⟩ := hids j t v ht hv
        rw [Timestamp.lt_iff_of_uid_eq huid] at hle
        rw [Timestamp.lt_iff_of_uid_eq huid.symm] at hge
        rw [Option.some.injEq]
        exact Timestamp.eq_of_seqNumber_eq (by omega) huid.symm hid.symm

/-- A covered tag has an entry in the version vector, which is not older. -/
theorem WellFormed.knows {remote : ORSet α} {i : ℕ} {adds : Tags} (h : WellFormed i remote)
    (ha : adds.WellFormed) (hc : remote.Covers adds) : remote.Knows adds := by
  intro j t ht
  have hle := hc j t ht
  cases hv : remote.versions.lookup j with
  | none =>
    have hpos := ha.pos j t ht
    rw [seen_of_none hv] at hle
    omega
  | some v =>
    have huid : v.uid = t.uid := (h.versionUid j v hv).trans (ha.uid j t ht).symm
    rw [seen_of_lookup hv] at hle
    refine ⟨v, rfl, ?_⟩
    rw [Timestamp.lt_iff_of_uid_eq huid]
    omega

/-- The second search, on covered tags, fails exactly when the tags are the whole remote version
vector. -/
theorem evidence_iff {remote : ORSet α} {i : ℕ} {adds : Tags} (h : WellFormed i remote)
    (ha : adds.WellFormed) (hc : remote.Covers adds) :
    evidence remote adds = true ↔ ¬ Same adds remote.versions := by
  refine evidence_iff_of_knows (h.knows ha hc) fun j t v ht hv => ?_
  exact ⟨(h.versionUid j v hv).trans (ha.uid j t ht).symm,
    (h.versionId j v hv).trans (ha.replicaId j t ht).symm⟩

/-- `_apply_remote_removes` drops an element the remote set lacks when the remote version vector
covers the tags and is not just the tags. -/
theorem newerRemoteRemove_iff {remote : ORSet α} {i : ℕ} {adds : Tags} (h : WellFormed i remote)
    (ha : adds.WellFormed) :
    newerRemoteRemove remote adds = true ↔ remote.Covers adds ∧ ¬ Same adds remote.versions := by
  rw [newerRemoteRemove]
  by_cases hc : remote.Covers adds
  · have hno : concurrentAdd remote adds = false := by
      rw [← Bool.not_eq_true, concurrentAdd_iff h ha, not_not]
      exact hc
    rw [hno, if_neg (by simp), evidence_iff h ha hc]
    exact (and_iff_right hc).symm
  · rw [if_pos ((concurrentAdd_iff h ha).mpr hc)]
    simp [hc]

/-! ## The merged set -/

section Merge

variable {i q : ℕ} {set remote : ORSet α}

theorem seen_merge (h : WellFormed i set) (hq : WellFormed q remote) (j : ℕ) :
    (set.merge remote).seen j = max (set.seen j) (remote.seen j) := by
  rw [seen, lookup_versions_merge]
  cases hv : set.versions.lookup j with
  | none =>
    rw [seen_of_none hv, Nat.zero_max]
    rfl
  | some v =>
    cases hw : remote.versions.lookup j with
    | none =>
      rw [seen_of_none hw, Nat.max_zero, seen_of_lookup hv]
      rfl
    | some w =>
      have huid : v.uid = w.uid := (h.versionUid j v hv).trans (hq.versionUid j w hw).symm
      rw [seen_of_lookup hv, seen_of_lookup hw]
      show (Timestamp.max v w).seqNumber = _
      rw [Timestamp.max]
      split
      · next hlt =>
        rw [Timestamp.lt_iff_of_uid_eq huid] at hlt
        exact (Nat.max_eq_right (le_of_lt hlt)).symm
      · next hle =>
        rw [Timestamp.lt_iff_of_uid_eq huid] at hle
        exact (Nat.max_eq_left (not_lt.mp hle)).symm

theorem seen_le_merge_left (h : WellFormed i set) (hq : WellFormed q remote) (j : ℕ) :
    set.seen j ≤ (set.merge remote).seen j := by
  rw [seen_merge h hq]
  exact Nat.le_max_left _ _

theorem seen_le_merge_right (h : WellFormed i set) (hq : WellFormed q remote) (j : ℕ) :
    remote.seen j ≤ (set.merge remote).seen j := by
  rw [seen_merge h hq]
  exact Nat.le_max_right _ _

omit [DecidableEq α] in
/-- A tag of an updated element is a local one or an unseen remote one. -/
theorem tag_updateTags {adds remoteAdds : Tags} {j : ℕ} {t : Timestamp}
    (ht : (set.updateTags adds remoteAdds).lookup j = some t) :
    adds.lookup j = some t ∨ (remoteAdds.lookup j = some t ∧ set.unseen j t = true) := by
  rw [lookup_updateTags] at ht
  cases hr : remoteAdds.lookup j with
  | none =>
    rw [hr] at ht
    exact Or.inl ht
  | some t' =>
    rw [hr] at ht
    simp only [Option.elim_some] at ht
    split at ht
    · next hun =>
      cases ht
      exact Or.inr ⟨rfl, hun⟩
    · exact Or.inl ht

/-- How an element comes to be in the merged set. -/
theorem lookup_merge_eq_some {e : α} {adds : Tags}
    (hadds : (set.merge remote).elements.lookup e = some adds) :
    (set.elements.lookup e = some adds ∧ remote.elements.lookup e = none ∧
        newerRemoteRemove remote adds = false) ∨
      (set.elements.lookup e = none ∧ remote.elements.lookup e = some adds ∧
        UnorderedMap.any adds set.unseen = true) ∨
      ∃ localAdds remoteAdds, set.elements.lookup e = some localAdds ∧
        remote.elements.lookup e = some remoteAdds ∧
        adds = set.updateTags localAdds remoteAdds := by
  rw [lookup_merge] at hadds
  cases hs : set.elements.lookup e with
  | none =>
    cases hr : remote.elements.lookup e with
    | none =>
      rw [hs, hr] at hadds
      cases hadds
    | some remoteAdds =>
      rw [hs, hr] at hadds
      simp only [Option.ite_none_right_eq_some, Option.some.injEq] at hadds
      obtain ⟨hun, rfl⟩ := hadds
      exact Or.inr (Or.inl ⟨rfl, rfl, hun⟩)
  | some localAdds =>
    cases hr : remote.elements.lookup e with
    | none =>
      rw [hs, hr] at hadds
      simp only [Option.ite_none_left_eq_some, Option.some.injEq, Bool.not_eq_true] at hadds
      obtain ⟨hrem, rfl⟩ := hadds
      exact Or.inl ⟨rfl, rfl, hrem⟩
    | some remoteAdds =>
      rw [hs, hr] at hadds
      cases hadds
      exact Or.inr (Or.inr ⟨localAdds, remoteAdds, rfl, rfl, rfl⟩)

/-- Every tag of the merged set is a tag of the element on one of the two sides. -/
theorem tag_merge {e : α} {adds : Tags} {j : ℕ} {t : Timestamp}
    (hadds : (set.merge remote).elements.lookup e = some adds) (ht : adds.lookup j = some t) :
    (∃ adds', set.elements.lookup e = some adds' ∧ adds'.lookup j = some t) ∨
      ∃ adds', remote.elements.lookup e = some adds' ∧ adds'.lookup j = some t := by
  rcases lookup_merge_eq_some hadds with ⟨hs, -, -⟩ | ⟨-, hr, -⟩ |
    ⟨localAdds, remoteAdds, hs, hr, rfl⟩
  · exact Or.inl ⟨adds, hs, ht⟩
  · exact Or.inr ⟨adds, hr, ht⟩
  · rcases tag_updateTags ht with ht | ⟨ht, -⟩
    · exact Or.inl ⟨localAdds, hs, ht⟩
    · exact Or.inr ⟨remoteAdds, hr, ht⟩

/-- A remote tag newer than the local version is copied. -/
theorem lookup_updateTags_of_lt (h : WellFormed i set) (adds : Tags) {remoteAdds : Tags}
    (hr : remoteAdds.WellFormed) {j : ℕ} {t : Timestamp} (ht : remoteAdds.lookup j = some t)
    (hlt : set.seen j < t.seqNumber) : (set.updateTags adds remoteAdds).lookup j = some t := by
  have hun := (unseen_iff h (hr.uid j t ht) (hr.pos j t ht)).mpr hlt
  rw [lookup_updateTags, ht, Option.elim_some, if_pos hun]

/-- Where the local version covers the remote tag, the local tag is left. -/
theorem lookup_updateTags_of_le (h : WellFormed i set) (adds : Tags) {remoteAdds : Tags}
    (hr : remoteAdds.WellFormed) {j : ℕ}
    (hle : ∀ t, remoteAdds.lookup j = some t → t.seqNumber ≤ set.seen j) :
    (set.updateTags adds remoteAdds).lookup j = adds.lookup j := by
  rw [lookup_updateTags]
  cases ht : remoteAdds.lookup j with
  | none => rfl
  | some t =>
    have hun : ¬ set.unseen j t = true := by
      rw [unseen_iff h (hr.uid j t ht) (hr.pos j t ht)]
      exact not_lt.mpr (hle t ht)
    rw [Option.elim_some, if_neg hun]

omit [DecidableEq α] in
/-- An element both sides contain has a tag for each local tag. -/
theorem exists_tag_updateTags (set : ORSet α) {adds : Tags} (remoteAdds : Tags) {j : ℕ}
    {t : Timestamp} (ht : adds.lookup j = some t) :
    ∃ t', (set.updateTags adds remoteAdds).lookup j = some t' := by
  rw [lookup_updateTags]
  cases remoteAdds.lookup j with
  | none => exact ⟨t, ht⟩
  | some t' =>
    simp only [Option.elim_some]
    split
    · exact ⟨t', rfl⟩
    · exact ⟨t, ht⟩

theorem WellFormed.merge (h : WellFormed i set) (hq : WellFormed q remote) :
    WellFormed i (set.merge remote) where
  replicaId := h.replicaId
  own := by
    obtain ⟨t, ht⟩ := h.own
    rw [lookup_versions_merge, ht]
    cases remote.versions.lookup i with
    | none => exact ⟨_, rfl⟩
    | some v => exact ⟨_, rfl⟩
  versionUid j t ht := by
    rw [lookup_versions_merge] at ht
    rcases joinVersion_eq ht with ht | ht
    · exact h.versionUid j t ht
    · exact hq.versionUid j t ht
  versionId j t ht := by
    rw [lookup_versions_merge] at ht
    rcases joinVersion_eq ht with ht | ht
    · exact h.versionId j t ht
    · exact hq.versionId j t ht
  tags e adds hadds := by
    have hcase : ∀ j t, adds.lookup j = some t →
        t.uid = j ∧ t.replicaId = j ∧ 0 < t.seqNumber := by
      intro j t ht
      rcases tag_merge hadds ht with ⟨adds', hadds', ht⟩ | ⟨adds', hadds', ht⟩
      · have hold := h.tags e adds' hadds'
        exact ⟨hold.uid j t ht, hold.replicaId j t ht, hold.pos j t ht⟩
      · have hold := hq.tags e adds' hadds'
        exact ⟨hold.uid j t ht, hold.replicaId j t ht, hold.pos j t ht⟩
    refine ⟨?_, fun j t ht => (hcase j t ht).1, fun j t ht => (hcase j t ht).2.1,
      fun j t ht => (hcase j t ht).2.2⟩
    rcases lookup_merge_eq_some hadds with ⟨hs, -, -⟩ | ⟨-, hr, -⟩ |
      ⟨localAdds, remoteAdds, hs, hr, rfl⟩
    · exact (h.tags e adds hs).nonempty
    · exact (hq.tags e adds hr).nonempty
    · obtain ⟨j, t, ht⟩ := (h.tags e localAdds hs).nonempty
      exact ⟨j, exists_tag_updateTags set remoteAdds ht⟩
  covers e adds hadds j t ht := by
    rcases tag_merge hadds ht with ⟨adds', hadds', ht⟩ | ⟨adds', hadds', ht⟩
    · exact le_trans (h.covers e adds' hadds' j t ht) (seen_le_merge_left h hq j)
    · exact le_trans (hq.covers e adds' hadds' j t ht) (seen_le_merge_right h hq j)

end Merge

end ORSet

end CrdtStore
