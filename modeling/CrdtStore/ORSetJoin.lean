import CrdtStore.ORSetRun

/-!
# Is `merge` a join?

`ORSet::merge` should be commutative, associative and idempotent on the states of a run
(`JoinLaws`). It is not always: it decides per element what the algorithm it implements decides per
tag, and its second search wants more evidence of a remove than a remove leaves. `JoinSafe` is the
exact condition on the tags and version vectors of the states merged, `joinLaws_iff` the theorem.

* `evidence`: a state that lacks an element and covers its tags, those in one state or in two others
  together, knows a version that is none of these tags;
* `joint`: two states that lack an element and together cover its tags do not split them;
* `crossing`: a state that lacks an element and covers its tags in one state does not need that
  state to cover its tags in another.
-/

namespace CrdtStore

open UnorderedMap (Same)
open ReplicatedType Config

namespace ORSet

variable {α : Type*} [DecidableEq α]

/-- The comparison of `elements()` and of the version vectors. -/
def SameSet (A B : ORSet α) : Prop :=
  (∀ e, A.contains e = B.contains e) ∧ Same A.versions B.versions

/-- `merge` is idempotent, commutative and associative on these states. -/
structure JoinLaws (states : List (ORSet α)) : Prop where
  idem : ∀ X ∈ states, SameSet (X.merge X) X
  comm : ∀ X ∈ states, ∀ Y ∈ states, SameSet (X.merge Y) (Y.merge X)
  assoc : ∀ X ∈ states, ∀ Y ∈ states, ∀ Z ∈ states,
    SameSet ((X.merge Y).merge Z) (X.merge (Y.merge Z))

/-- Each tag is covered by one of the two version vectors. -/
def JointlyCover (Y Z : ORSet α) (adds : Tags) : Prop :=
  ∀ j t, adds.lookup j = some t → t.seqNumber ≤ Y.seen j ∨ t.seqNumber ≤ Z.seen j

/-- Each version of `Z` is one of the tags `adds` of `X`, or one of `adds'` that `X` has not
seen. -/
def OnlyTags (X Z : ORSet α) (adds adds' : Tags) : Prop :=
  ∀ j v, Z.versions.lookup j = some v →
    adds.lookup j = some v ∨ (adds'.lookup j = some v ∧ X.seen j < v.seqNumber)

/-- The condition for `merge` to be a join on these states. -/
structure JoinSafe (states : List (ORSet α)) : Prop where
  evidence : ∀ X ∈ states, ∀ Y ∈ states, ∀ Z ∈ states, ∀ e adds adds',
    X.elements.lookup e = some adds → Y.elements.lookup e = some adds' →
    Z.elements.lookup e = none → Z.Covers adds → JointlyCover X Z adds' →
    ¬ OnlyTags X Z adds adds'
  joint : ∀ X ∈ states, ∀ Y ∈ states, ∀ Z ∈ states, ∀ e adds, X.elements.lookup e = some adds →
    Y.elements.lookup e = none → Z.elements.lookup e = none → JointlyCover Y Z adds →
    Y.Covers adds ∨ Z.Covers adds
  crossing : ∀ X ∈ states, ∀ Y ∈ states, ∀ Z ∈ states, ∀ e adds adds',
    X.elements.lookup e = some adds → Y.elements.lookup e = some adds' →
    Z.elements.lookup e = none → Z.Covers adds → JointlyCover X Z adds' → Z.Covers adds'

/-! ## Version vectors -/

theorem joinVersion_assoc (u v w : Option Timestamp) :
    joinVersion (joinVersion u v) w = joinVersion u (joinVersion v w) := by
  cases u with
  | none => rfl
  | some a =>
    cases v with
    | none => rfl
    | some b =>
      cases w with
      | none => rfl
      | some c =>
        -- both sides pick the first of the greatest
        simp only [joinVersion, Timestamp.max]
        by_cases hab : a < b <;> by_cases hbc : b < c <;> by_cases hac : a < c <;>
          simp only [hab, hbc, hac, if_true, if_false]
        · exact absurd (Timestamp.lt_trans hab hbc) hac
        · simp only [Timestamp.lt_def] at hab hbc hac
          omega

/-- Versions of one replica commute: their timestamps differ in the sequence number at most. -/
theorem joinVersion_comm {u v : Option Timestamp} {j : ℕ}
    (hu : ∀ t, u = some t → t.uid = j ∧ t.replicaId = j)
    (hv : ∀ t, v = some t → t.uid = j ∧ t.replicaId = j) : joinVersion u v = joinVersion v u := by
  cases u with
  | none => cases v <;> rfl
  | some a =>
    cases v with
    | none => rfl
    | some b =>
      have hua := hu a rfl
      have hvb := hv b rfl
      have huid : a.uid = b.uid := hua.1.trans hvb.1.symm
      simp only [joinVersion, Timestamp.max, Option.some.injEq]
      split
      · next hab =>
        rw [Timestamp.lt_iff_of_uid_eq huid] at hab
        rw [if_neg]
        rw [Timestamp.lt_iff_of_uid_eq huid.symm]
        omega
      · next hab =>
        rw [Timestamp.lt_iff_of_uid_eq huid] at hab
        split
        · rfl
        · next hba =>
          rw [Timestamp.lt_iff_of_uid_eq huid.symm] at hba
          exact Timestamp.eq_of_seqNumber_eq (by omega) huid (hua.2.trans hvb.2.symm)

section States

variable {x y z : ℕ} {X Y Z : ORSet α}

/-- The version vectors of the merges in both orders are the same. -/
theorem versions_comm (hX : WellFormed x X) (hY : WellFormed y Y) :
    Same (X.merge Y).versions (Y.merge X).versions := by
  intro j
  rw [lookup_versions_merge, lookup_versions_merge]
  exact joinVersion_comm (j := j) (fun t ht => ⟨hX.versionUid j t ht, hX.versionId j t ht⟩)
    (fun t ht => ⟨hY.versionUid j t ht, hY.versionId j t ht⟩)

/-- The version vector of three merged states does not depend on the nesting. -/
theorem versions_assoc (X Y Z : ORSet α) :
    Same ((X.merge Y).merge Z).versions (X.merge (Y.merge Z)).versions := by
  intro j
  simp only [lookup_versions_merge, joinVersion_assoc]

/-- A merge covers tags when the two sides cover them jointly. -/
theorem covers_merge_iff (hY : WellFormed y Y) (hZ : WellFormed z Z) (adds : Tags) :
    (Y.merge Z).Covers adds ↔ JointlyCover Y Z adds := by
  refine forall₂_congr fun j t => imp_congr_right fun _ => ?_
  rw [seen_merge hY hZ, le_max_iff]

omit [DecidableEq α] in
theorem jointlyCover_comm (adds : Tags) : JointlyCover Y Z adds ↔ JointlyCover Z Y adds :=
  forall₂_congr fun _ _ => imp_congr_right fun _ => or_comm

omit [DecidableEq α] in
theorem Covers.jointly_left {adds : Tags} (h : Y.Covers adds) (Z : ORSet α) :
    JointlyCover Y Z adds := fun j t ht => Or.inl (h j t ht)

omit [DecidableEq α] in
theorem Covers.jointly_right {adds : Tags} (h : Z.Covers adds) (Y : ORSet α) :
    JointlyCover Y Z adds := fun j t ht => Or.inr (h j t ht)

omit [DecidableEq α] in
/-- The version vector covers itself. -/
theorem covers_of_same {adds : Tags} (h : Same adds Z.versions) : Z.Covers adds := by
  intro j t ht
  rw [seen_of_lookup ((h j).symm.trans ht)]

/-- If tags one side covers are the whole merged version vector, they are that side's alone. -/
theorem same_left_of_same_merge (hY : WellFormed y Y) (hZ : WellFormed z Z) {adds : Tags}
    (hadds : adds.WellFormed) (hc : Y.Covers adds) (hsame : Same adds (Y.merge Z).versions) :
    Same adds Y.versions := by
  intro j
  have hj := hsame j
  cases hT : adds.lookup j with
  | none =>
    -- the merged vector has no entry here, so neither side has
    rw [hT, lookup_versions_merge] at hj
    cases hv : Y.versions.lookup j with
    | none => rfl
    | some v =>
      rw [hv] at hj
      cases hw : Z.versions.lookup j <;> rw [hw] at hj <;> cases hj
  | some t =>
    have hle := hc j t hT
    have hpos := hadds.pos j t hT
    rw [hT] at hj
    -- the merged entry is the tag, and `Y` is between the two
    have hseen : (Y.merge Z).seen j = t.seqNumber := seen_of_lookup hj.symm
    have hge := seen_le_merge_left hY hZ j
    cases hv : Y.versions.lookup j with
    | none =>
      rw [seen_of_none hv] at hle
      omega
    | some v =>
      rw [seen_of_lookup hv] at hle hge
      rw [Option.some.injEq]
      exact Timestamp.eq_of_seqNumber_eq (by omega)
        ((hadds.uid j t hT).trans (hY.versionUid j v hv).symm)
        ((hadds.replicaId j t hT).trans (hY.versionId j v hv).symm)

/-- A side that covers tags that are the merged version vector has this vector itself. -/
theorem same_right_of_same_merge (hY : WellFormed y Y) (hZ : WellFormed z Z) {adds : Tags}
    (hadds : adds.WellFormed) (hc : Z.Covers adds) (hsame : Same adds (Y.merge Z).versions) :
    Same adds Z.versions :=
  same_left_of_same_merge hZ hY hadds hc (hsame.trans (versions_comm hY hZ))

/-! ## Elements of a merge -/

/-- What `_apply_remote_removes` does with an element that the remote set `Y` lacks. -/
def Drops (Y : ORSet α) (adds : Tags) : Prop := Y.Covers adds ∧ ¬ Same adds Y.versions

/-- An element of the left side only, that the right side does not drop. -/
theorem lookup_merge_kept (hY : WellFormed y Y) {e : α} {adds : Tags} (hadds : adds.WellFormed)
    (hX : X.elements.lookup e = some adds) (hlack : Y.elements.lookup e = none)
    (hkeep : ¬ Y.Drops adds) : (X.merge Y).elements.lookup e = some adds := by
  rw [lookup_merge, hX, hlack]
  exact if_neg (fun h => hkeep ((newerRemoteRemove_iff hY hadds).mp h))

/-- An element of the left side only, that the right side drops. -/
theorem lookup_merge_dropped (hY : WellFormed y Y) {e : α} {adds : Tags} (hadds : adds.WellFormed)
    (hX : X.elements.lookup e = some adds) (hlack : Y.elements.lookup e = none)
    (hdrop : Y.Drops adds) : (X.merge Y).elements.lookup e = none := by
  rw [lookup_merge, hX, hlack]
  exact if_pos ((newerRemoteRemove_iff hY hadds).mpr hdrop)

/-- An element of the right side only, with a tag that is new to the left side. -/
theorem lookup_merge_added (hX : WellFormed x X) {e : α} {adds : Tags} (hadds : adds.WellFormed)
    (hlack : X.elements.lookup e = none) (hY : Y.elements.lookup e = some adds)
    (hnew : ¬ X.Covers adds) : (X.merge Y).elements.lookup e = some adds := by
  rw [lookup_merge, hlack, hY]
  exact if_pos ((any_unseen_iff hX hadds).mpr hnew)

/-- An element of the right side only, with no tag that is new to the left side. -/
theorem lookup_merge_ignored (hX : WellFormed x X) {e : α} {adds : Tags} (hadds : adds.WellFormed)
    (hlack : X.elements.lookup e = none) (hY : Y.elements.lookup e = some adds)
    (hold : X.Covers adds) : (X.merge Y).elements.lookup e = none := by
  rw [lookup_merge, hlack, hY]
  exact if_neg (fun h => (any_unseen_iff hX hadds).mp h hold)

/-- An element of both sides stays, with its tags updated. -/
theorem lookup_merge_both {e : α} {adds adds' : Tags} (hX : X.elements.lookup e = some adds)
    (hY : Y.elements.lookup e = some adds') :
    (X.merge Y).elements.lookup e = some (X.updateTags adds adds') := by
  rw [lookup_merge, hX, hY]

theorem lookup_merge_neither {e : α} (hX : X.elements.lookup e = none)
    (hY : Y.elements.lookup e = none) : (X.merge Y).elements.lookup e = none := by
  rw [lookup_merge, hX, hY]

theorem contains_eq_false {e : α} : X.contains e = false ↔ X.elements.lookup e = none := by
  rw [contains, decide_eq_false_iff_not, UnorderedMap.not_mem_iff_lookup]

theorem contains_merge_of_left {e : α} {adds adds' : Tags} (hX : X.elements.lookup e = some adds)
    (hY : Y.elements.lookup e = some adds') : (X.merge Y).contains e = true :=
  contains_iff.mpr ⟨_, lookup_merge_both hX hY⟩

/-- The local set holds the element, the remote one lacks it. -/
theorem absent_merge_local (hY : WellFormed y Y) {e : α} {adds : Tags} (hadds : adds.WellFormed)
    (hX : X.elements.lookup e = some adds) (hlack : Y.elements.lookup e = none) :
    (X.merge Y).contains e = false ↔ Y.Drops adds := by
  rw [contains_eq_false]
  by_cases hd : Y.Drops adds
  · exact iff_of_true (lookup_merge_dropped hY hadds hX hlack hd) hd
  · rw [lookup_merge_kept hY hadds hX hlack hd]
    simp [hd]

/-- The local set lacks the element, the remote one holds it. -/
theorem absent_merge_remote (hX : WellFormed x X) {e : α} {adds : Tags} (hadds : adds.WellFormed)
    (hlack : X.elements.lookup e = none) (hY : Y.elements.lookup e = some adds) :
    (X.merge Y).contains e = false ↔ X.Covers adds := by
  rw [contains_eq_false]
  by_cases hc : X.Covers adds
  · exact iff_of_true (lookup_merge_ignored hX hadds hlack hY hc) hc
  · rw [lookup_merge_added hX hadds hlack hY hc]
    simp [hc]

/-- A state covers the updated tags when it covers the local ones and, where the local version
vector does not, the remote ones. -/
theorem covers_updateTags_iff (hX : WellFormed x X) (hY : WellFormed y Y) {e : α}
    {adds adds' : Tags} (hadds : X.elements.lookup e = some adds)
    (hadds' : Y.elements.lookup e = some adds') :
    Z.Covers (X.updateTags adds adds') ↔ Z.Covers adds ∧ JointlyCover X Z adds' := by
  have hwf := hY.tags e adds' hadds'
  constructor
  · intro h
    refine ⟨fun j t ht => ?_, fun j t ht => ?_⟩
    · obtain ⟨t', ht', hle⟩ := hX.tag_le_updateTags hY hadds hadds' ht
      exact hle.trans (h j t' ht')
    · by_cases hlt : X.seen j < t.seqNumber
      · right
        exact h j t (lookup_updateTags_of_lt hX adds hwf ht hlt)
      · left
        exact not_lt.mp hlt
  · rintro ⟨hZ, hjoint⟩ j t ht
    rcases tag_updateTags ht with ht | ⟨ht, hun⟩
    · exact hZ j t ht
    · rw [unseen_iff hX (hwf.uid j t ht) (hwf.pos j t ht)] at hun
      exact (hjoint j t ht).resolve_left (by omega)

/-- On tags that `Z` covers, the second search of `_apply_remote_removes` fails after `X` merged `Y`
when the versions of `Z` are only tags. -/
theorem same_updateTags (hX : WellFormed x X) (hY : WellFormed y Y) {e : α} {adds adds' : Tags}
    (hadds : X.elements.lookup e = some adds) (hadds' : Y.elements.lookup e = some adds')
    (hc : Z.Covers (X.updateTags adds adds')) (honly : OnlyTags X Z adds adds') :
    Same (X.updateTags adds adds') Z.versions := by
  have hwf := hX.tags e adds hadds
  have hwf' := hY.tags e adds' hadds'
  intro j
  cases hv : Z.versions.lookup j with
  | none =>
    cases ht : (X.updateTags adds adds').lookup j with
    | none => rfl
    | some t =>
      have hle := hc j t ht
      rw [seen_of_none hv] at hle
      have hpos : 0 < t.seqNumber := by
        rcases tag_updateTags ht with ht | ⟨ht, -⟩
        · exact hwf.pos j t ht
        · exact hwf'.pos j t ht
      omega
  | some v =>
    rcases honly j v hv with hv' | ⟨hv', hlt⟩
    · -- an unseen tag would be newer than the version of `Z` that covers it
      have hold : ∀ t, adds'.lookup j = some t → t.seqNumber ≤ X.seen j := by
        intro t ht
        by_contra hlt
        have hle := hc j t (lookup_updateTags_of_lt hX adds hwf' ht (not_le.mp hlt))
        rw [seen_of_lookup hv] at hle
        have hle' := hX.covers e adds hadds j v hv'
        omega
      rw [lookup_updateTags_of_le hX adds hwf' hold]
      exact hv'
    · exact lookup_updateTags_of_lt hX adds hwf' hv' hlt

/-- Updated tags that are the whole version vector are those of one side. -/
theorem onlyTags_of_same (hY : WellFormed y Y) (hX : WellFormed x X) {e : α} {adds adds' : Tags}
    (hadds' : Y.elements.lookup e = some adds')
    (hsame : Same (X.updateTags adds adds') Z.versions) : OnlyTags X Z adds adds' := by
  have hwf' := hY.tags e adds' hadds'
  intro j v hv
  have ht := (hsame j).trans hv
  refine (tag_updateTags ht).imp_right fun ⟨ht, hun⟩ => ⟨ht, ?_⟩
  exact (unseen_iff hX (hwf'.uid j v ht) (hwf'.pos j v ht)).mp hun

/-- An update of tags keeps them well formed. -/
theorem updateTags_wellFormed (hX : WellFormed x X) (hY : WellFormed y Y) {e : α}
    {adds adds' : Tags} (hadds : X.elements.lookup e = some adds)
    (hadds' : Y.elements.lookup e = some adds') : (X.updateTags adds adds').WellFormed :=
  (hX.merge hY).tags e _ (lookup_merge_both hadds hadds')

/-! ## Three-way merges, by who holds the element -/

/-- The element is in `X` only: either of the others may drop it. -/
theorem absent_left_nested_of_left (hY : WellFormed y Y) (hZ : WellFormed z Z) {e : α} {adds : Tags}
    (hadds : adds.WellFormed) (hX : X.elements.lookup e = some adds)
    (hlackY : Y.elements.lookup e = none) (hlackZ : Z.elements.lookup e = none) :
    ((X.merge Y).merge Z).contains e = false ↔ Y.Drops adds ∨ Z.Drops adds := by
  by_cases hd : Y.Drops adds
  · have hXY := lookup_merge_dropped hY hadds hX hlackY hd
    rw [contains_eq_false]
    exact iff_of_true (lookup_merge_neither hXY hlackZ) (Or.inl hd)
  · have hXY := lookup_merge_kept hY hadds hX hlackY hd
    rw [absent_merge_local hZ hadds hXY hlackZ, or_iff_right hd]

/-- The element is in `X` only: the others must drop it together. -/
theorem absent_right_nested_of_left (hY : WellFormed y Y) (hZ : WellFormed z Z) {e : α}
    {adds : Tags} (hadds : adds.WellFormed) (hX : X.elements.lookup e = some adds)
    (hlackY : Y.elements.lookup e = none) (hlackZ : Z.elements.lookup e = none) :
    (X.merge (Y.merge Z)).contains e = false ↔ (Y.merge Z).Drops adds :=
  absent_merge_local (hY.merge hZ) hadds hX (lookup_merge_neither hlackY hlackZ)

/-- The element is in `Y` only: `X` ignores it, or `Z` drops it. -/
theorem absent_left_nested_of_mid (hX : WellFormed x X) (hZ : WellFormed z Z) {e : α} {adds : Tags}
    (hadds : adds.WellFormed) (hlackX : X.elements.lookup e = none)
    (hY : Y.elements.lookup e = some adds) (hlackZ : Z.elements.lookup e = none) :
    ((X.merge Y).merge Z).contains e = false ↔ X.Covers adds ∨ Z.Drops adds := by
  by_cases hc : X.Covers adds
  · have hXY := lookup_merge_ignored hX hadds hlackX hY hc
    rw [contains_eq_false]
    exact iff_of_true (lookup_merge_neither hXY hlackZ) (Or.inl hc)
  · have hXY := lookup_merge_added hX hadds hlackX hY hc
    rw [absent_merge_local hZ hadds hXY hlackZ, or_iff_right hc]

theorem absent_right_nested_of_mid (hX : WellFormed x X) (hZ : WellFormed z Z) {e : α}
    {adds : Tags} (hadds : adds.WellFormed) (hlackX : X.elements.lookup e = none)
    (hY : Y.elements.lookup e = some adds) (hlackZ : Z.elements.lookup e = none) :
    (X.merge (Y.merge Z)).contains e = false ↔ X.Covers adds ∨ Z.Drops adds := by
  by_cases hd : Z.Drops adds
  · have hYZ := lookup_merge_dropped hZ hadds hY hlackZ hd
    rw [contains_eq_false]
    exact iff_of_true (lookup_merge_neither hlackX hYZ) (Or.inr hd)
  · have hYZ := lookup_merge_kept hZ hadds hY hlackZ hd
    rw [absent_merge_remote hX hadds hlackX hYZ, or_iff_left hd]

/-- The element is in `Z` only: the others ignore it together. -/
theorem absent_left_nested_of_right (hX : WellFormed x X) (hY : WellFormed y Y) {e : α}
    {adds : Tags} (hadds : adds.WellFormed) (hlackX : X.elements.lookup e = none)
    (hlackY : Y.elements.lookup e = none) (hZ : Z.elements.lookup e = some adds) :
    ((X.merge Y).merge Z).contains e = false ↔ JointlyCover X Y adds := by
  rw [absent_merge_remote (hX.merge hY) hadds (lookup_merge_neither hlackX hlackY) hZ,
    covers_merge_iff hX hY]

/-- The element is in `Z` only: either of the others may ignore it. -/
theorem absent_right_nested_of_right (hX : WellFormed x X) (hY : WellFormed y Y) {e : α}
    {adds : Tags} (hadds : adds.WellFormed) (hlackX : X.elements.lookup e = none)
    (hlackY : Y.elements.lookup e = none) (hZ : Z.elements.lookup e = some adds) :
    (X.merge (Y.merge Z)).contains e = false ↔ X.Covers adds ∨ Y.Covers adds := by
  by_cases hc : Y.Covers adds
  · have hYZ := lookup_merge_ignored hY hadds hlackY hZ hc
    rw [contains_eq_false]
    exact iff_of_true (lookup_merge_neither hlackX hYZ) (Or.inr hc)
  · have hYZ := lookup_merge_added hY hadds hlackY hZ hc
    rw [absent_merge_remote hX hadds hlackX hYZ, or_iff_left hc]

/-- The element is in `X` and `Y`: `Z` drops the updated tags. -/
theorem absent_left_nested_of_left_mid (hX : WellFormed x X) (hY : WellFormed y Y)
    (hZ : WellFormed z Z) {e : α} {adds adds' : Tags} (hadds : X.elements.lookup e = some adds)
    (hadds' : Y.elements.lookup e = some adds') (hlackZ : Z.elements.lookup e = none) :
    ((X.merge Y).merge Z).contains e = false ↔ Z.Drops (X.updateTags adds adds') :=
  absent_merge_local hZ (updateTags_wellFormed hX hY hadds hadds') (lookup_merge_both hadds hadds')
    hlackZ

/-- The element is in `X` and `Y`: `Z` drops it from `Y`, and the two together from `X`. -/
theorem absent_right_nested_of_left_mid (hX : WellFormed x X) (hY : WellFormed y Y)
    (hZ : WellFormed z Z) {e : α} {adds adds' : Tags} (hadds : X.elements.lookup e = some adds)
    (hadds' : Y.elements.lookup e = some adds') (hlackZ : Z.elements.lookup e = none) :
    (X.merge (Y.merge Z)).contains e = false ↔ Z.Drops adds' ∧ (Y.merge Z).Drops adds := by
  have hwf' := hY.tags e adds' hadds'
  by_cases hd : Z.Drops adds'
  · have hYZ := lookup_merge_dropped hZ hwf' hadds' hlackZ hd
    rw [absent_merge_local (hY.merge hZ) (hX.tags e adds hadds) hadds hYZ, and_iff_right hd]
  · have hYZ := lookup_merge_kept hZ hwf' hadds' hlackZ hd
    rw [contains_merge_of_left hadds hYZ]
    simp [hd]

/-- The element is in `X` and `Z`: `Y` drops it, and that of `Z` is not new then. -/
theorem absent_left_nested_of_left_right (hX : WellFormed x X) (hY : WellFormed y Y)
    (hZ : WellFormed z Z) {e : α} {adds adds' : Tags} (hadds : X.elements.lookup e = some adds)
    (hlackY : Y.elements.lookup e = none) (hadds' : Z.elements.lookup e = some adds') :
    ((X.merge Y).merge Z).contains e = false ↔ Y.Drops adds ∧ JointlyCover X Y adds' := by
  have hwf := hX.tags e adds hadds
  by_cases hd : Y.Drops adds
  · have hXY := lookup_merge_dropped hY hwf hadds hlackY hd
    rw [absent_merge_remote (hX.merge hY) (hZ.tags e adds' hadds') hXY hadds',
      covers_merge_iff hX hY, and_iff_right hd]
  · have hXY := lookup_merge_kept hY hwf hadds hlackY hd
    rw [contains_merge_of_left hXY hadds']
    simp [hd]

theorem absent_right_nested_of_left_right (hX : WellFormed x X) (hY : WellFormed y Y)
    (hZ : WellFormed z Z) {e : α} {adds adds' : Tags} (hadds : X.elements.lookup e = some adds)
    (hlackY : Y.elements.lookup e = none) (hadds' : Z.elements.lookup e = some adds') :
    (X.merge (Y.merge Z)).contains e = false ↔ Y.Covers adds' ∧ (Y.merge Z).Drops adds := by
  have hwf' := hZ.tags e adds' hadds'
  by_cases hc : Y.Covers adds'
  · have hYZ := lookup_merge_ignored hY hwf' hlackY hadds' hc
    rw [absent_merge_local (hY.merge hZ) (hX.tags e adds hadds) hadds hYZ, and_iff_right hc]
  · have hYZ := lookup_merge_added hY hwf' hlackY hadds' hc
    rw [contains_merge_of_left hadds hYZ]
    simp [hc]

/-- The element is in `Y` and `Z`: `X` ignores that of `Y`, and that of `Z` is not new then. -/
theorem absent_left_nested_of_mid_right (hX : WellFormed x X) (hY : WellFormed y Y)
    (hZ : WellFormed z Z) {e : α} {adds adds' : Tags} (hlackX : X.elements.lookup e = none)
    (hadds : Y.elements.lookup e = some adds) (hadds' : Z.elements.lookup e = some adds') :
    ((X.merge Y).merge Z).contains e = false ↔ X.Covers adds ∧ JointlyCover X Y adds' := by
  have hwf := hY.tags e adds hadds
  by_cases hc : X.Covers adds
  · have hXY := lookup_merge_ignored hX hwf hlackX hadds hc
    rw [absent_merge_remote (hX.merge hY) (hZ.tags e adds' hadds') hXY hadds',
      covers_merge_iff hX hY, and_iff_right hc]
  · have hXY := lookup_merge_added hX hwf hlackX hadds hc
    rw [contains_merge_of_left hXY hadds']
    simp [hc]

theorem absent_right_nested_of_mid_right (hX : WellFormed x X) (hY : WellFormed y Y)
    (hZ : WellFormed z Z) {e : α} {adds adds' : Tags} (hlackX : X.elements.lookup e = none)
    (hadds : Y.elements.lookup e = some adds) (hadds' : Z.elements.lookup e = some adds') :
    (X.merge (Y.merge Z)).contains e = false ↔ X.Covers adds ∧ JointlyCover X Y adds' := by
  rw [absent_merge_remote hX (updateTags_wellFormed hY hZ hadds hadds') hlackX
    (lookup_merge_both hadds hadds'), covers_updateTags_iff hY hZ hadds hadds', jointlyCover_comm]

/-! ## Safe states join -/

section Safe

variable {states : List (ORSet α)}

/-- What `evidence` says of one state that holds the element. -/
theorem JoinSafe.not_same (S : JoinSafe states) (mX : X ∈ states) (mZ : Z ∈ states) {e : α}
    {adds : Tags} (hadds : X.elements.lookup e = some adds) (hlack : Z.elements.lookup e = none) :
    ¬ Same adds Z.versions := by
  intro hsame
  have hc : Z.Covers adds := covers_of_same hsame
  exact S.evidence X mX X mX Z mZ e adds adds hadds hadds hlack hc (hc.jointly_right X)
    fun j v hv => Or.inl ((hsame j).trans hv)

/-- Between states that are safe to join, covering the tags of an element is dropping it. -/
theorem JoinSafe.drops_iff (S : JoinSafe states) (mX : X ∈ states) (mZ : Z ∈ states) {e : α}
    {adds : Tags} (hadds : X.elements.lookup e = some adds) (hlack : Z.elements.lookup e = none) :
    Z.Drops adds ↔ Z.Covers adds :=
  and_iff_left (S.not_same mX mZ hadds hlack)

/-- The same of tags that two states have updated. -/
theorem JoinSafe.drops_updateTags_iff (S : JoinSafe states) (hX : WellFormed x X)
    (hY : WellFormed y Y) (mX : X ∈ states) (mY : Y ∈ states) (mZ : Z ∈ states) {e : α}
    {adds adds' : Tags} (hadds : X.elements.lookup e = some adds)
    (hadds' : Y.elements.lookup e = some adds') (hlack : Z.elements.lookup e = none) :
    Z.Drops (X.updateTags adds adds') ↔ Z.Covers adds ∧ JointlyCover X Z adds' := by
  rw [← covers_updateTags_iff hX hY hadds hadds']
  refine and_iff_left fun hsame => ?_
  obtain ⟨hc, hjoint⟩ := (covers_updateTags_iff hX hY hadds hadds').mp (covers_of_same hsame)
  exact S.evidence X mX Y mY Z mZ e adds adds' hadds hadds' hlack hc hjoint
    (onlyTags_of_same hY hX hadds' hsame)

/-- A merge of two states drops what one of them covers. -/
theorem JoinSafe.merge_drops_left (S : JoinSafe states) (hX : WellFormed x X) (hY : WellFormed y Y)
    (hZ : WellFormed z Z) (mX : X ∈ states) (mY : Y ∈ states) {e : α} {adds : Tags}
    (hadds : X.elements.lookup e = some adds) (hlack : Y.elements.lookup e = none)
    (hc : Y.Covers adds) : (Y.merge Z).Drops adds := by
  refine ⟨(covers_merge_iff hY hZ adds).mpr (hc.jointly_left Z), fun hsame => ?_⟩
  exact S.not_same mX mY hadds hlack
    (same_left_of_same_merge hY hZ (hX.tags e adds hadds) hc hsame)

/-- What `Z` covers, it drops also after it was merged into `Y`. -/
theorem JoinSafe.merge_drops_right (S : JoinSafe states) (hX : WellFormed x X)
    (hY : WellFormed y Y) (hZ : WellFormed z Z) (mX : X ∈ states) (mZ : Z ∈ states) {e : α}
    {adds : Tags} (hadds : X.elements.lookup e = some adds) (hlack : Z.elements.lookup e = none)
    (hc : Z.Covers adds) : (Y.merge Z).Drops adds := by
  refine ⟨(covers_merge_iff hY hZ adds).mpr (hc.jointly_right Y), fun hsame => ?_⟩
  exact S.not_same mX mZ hadds hlack
    (same_right_of_same_merge hY hZ (hX.tags e adds hadds) hc hsame)

/-- Two Booleans are equal when they are false together. -/
theorem contains_eq_of_false_iff {e : α} (h : X.contains e = false ↔ Y.contains e = false) :
    X.contains e = Y.contains e := by
  rw [Bool.eq_iff_iff, ← not_iff_not, Bool.not_eq_true, Bool.not_eq_true]
  exact h

/-- Merges of safe states contain the same in both orders. -/
theorem JoinSafe.contains_comm (S : JoinSafe states) (hX : WellFormed x X) (hY : WellFormed y Y)
    (mX : X ∈ states) (mY : Y ∈ states) (e : α) :
    (X.merge Y).contains e = (Y.merge X).contains e := by
  apply contains_eq_of_false_iff
  cases hx : X.elements.lookup e with
  | none =>
    cases hy : Y.elements.lookup e with
    | none =>
      rw [contains_eq_false, contains_eq_false, lookup_merge_neither hx hy,
        lookup_merge_neither hy hx]
    | some adds =>
      have hwf := hY.tags e adds hy
      rw [absent_merge_remote hX hwf hx hy, absent_merge_local hX hwf hy hx,
        S.drops_iff mY mX hy hx]
  | some adds =>
    have hwf := hX.tags e adds hx
    cases hy : Y.elements.lookup e with
    | none =>
      rw [absent_merge_local hY hwf hx hy, absent_merge_remote hY hwf hy hx,
        S.drops_iff mX mY hx hy]
    | some adds' => rw [contains_merge_of_left hx hy, contains_merge_of_left hy hx]

/-- The two groupings agree when only the first state holds the element. -/
theorem JoinSafe.assoc_of_left (S : JoinSafe states) (hX : WellFormed x X) (hY : WellFormed y Y)
    (hZ : WellFormed z Z) (mX : X ∈ states) (mY : Y ∈ states) (mZ : Z ∈ states) {e : α}
    {adds : Tags} (hx : X.elements.lookup e = some adds) (hy : Y.elements.lookup e = none)
    (hz : Z.elements.lookup e = none) :
    ((X.merge Y).merge Z).contains e = false ↔ (X.merge (Y.merge Z)).contains e = false := by
  have hwf := hX.tags e adds hx
  rw [absent_left_nested_of_left hY hZ hwf hx hy hz, absent_right_nested_of_left hY hZ hwf hx hy hz,
    S.drops_iff mX mY hx hy, S.drops_iff mX mZ hx hz]
  constructor
  · rintro (hc | hc)
    · exact S.merge_drops_left hX hY hZ mX mY hx hy hc
    · exact S.merge_drops_right hX hY hZ mX mZ hx hz hc
  · rintro ⟨hc, -⟩
    exact S.joint X mX Y mY Z mZ e adds hx hy hz ((covers_merge_iff hY hZ adds).mp hc)

theorem JoinSafe.assoc_of_left_mid (S : JoinSafe states) (hX : WellFormed x X)
    (hY : WellFormed y Y) (hZ : WellFormed z Z) (mX : X ∈ states) (mY : Y ∈ states)
    (mZ : Z ∈ states) {e : α} {adds adds' : Tags} (hx : X.elements.lookup e = some adds)
    (hy : Y.elements.lookup e = some adds') (hz : Z.elements.lookup e = none) :
    ((X.merge Y).merge Z).contains e = false ↔ (X.merge (Y.merge Z)).contains e = false := by
  rw [absent_left_nested_of_left_mid hX hY hZ hx hy hz,
    absent_right_nested_of_left_mid hX hY hZ hx hy hz,
    S.drops_updateTags_iff hX hY mX mY mZ hx hy hz, S.drops_iff mY mZ hy hz]
  constructor
  · rintro ⟨hc, hjoint⟩
    refine ⟨S.crossing X mX Y mY Z mZ e adds adds' hx hy hz hc hjoint, ?_⟩
    exact S.merge_drops_right hX hY hZ mX mZ hx hz hc
  · rintro ⟨hc, hjoint, -⟩
    rw [covers_merge_iff hY hZ] at hjoint
    refine ⟨S.crossing Y mY X mX Z mZ e adds' adds hy hx hz hc hjoint, ?_⟩
    exact hc.jointly_right X

theorem JoinSafe.assoc_of_left_right (S : JoinSafe states) (hX : WellFormed x X)
    (hY : WellFormed y Y) (hZ : WellFormed z Z) (mX : X ∈ states) (mY : Y ∈ states)
    (mZ : Z ∈ states) {e : α} {adds adds' : Tags} (hx : X.elements.lookup e = some adds)
    (hy : Y.elements.lookup e = none) (hz : Z.elements.lookup e = some adds') :
    ((X.merge Y).merge Z).contains e = false ↔ (X.merge (Y.merge Z)).contains e = false := by
  rw [absent_left_nested_of_left_right hX hY hZ hx hy hz,
    absent_right_nested_of_left_right hX hY hZ hx hy hz, S.drops_iff mX mY hx hy]
  constructor
  · rintro ⟨hc, hjoint⟩
    refine ⟨S.crossing X mX Z mZ Y mY e adds adds' hx hz hy hc hjoint, ?_⟩
    exact S.merge_drops_left hX hY hZ mX mY hx hy hc
  · rintro ⟨hc, hjoint, -⟩
    rw [covers_merge_iff hY hZ, jointlyCover_comm] at hjoint
    refine ⟨S.crossing Z mZ X mX Y mY e adds' adds hz hx hy hc hjoint, ?_⟩
    exact hc.jointly_right X

/-- Merges of three safe states contain the same however they are nested. -/
theorem JoinSafe.contains_assoc (S : JoinSafe states) (hX : WellFormed x X) (hY : WellFormed y Y)
    (hZ : WellFormed z Z) (mX : X ∈ states) (mY : Y ∈ states) (mZ : Z ∈ states) (e : α) :
    ((X.merge Y).merge Z).contains e = (X.merge (Y.merge Z)).contains e := by
  apply contains_eq_of_false_iff
  cases hx : X.elements.lookup e with
  | none =>
    cases hy : Y.elements.lookup e with
    | none =>
      cases hz : Z.elements.lookup e with
      | none =>
        rw [contains_eq_false, contains_eq_false,
          lookup_merge_neither (lookup_merge_neither hx hy) hz,
          lookup_merge_neither hx (lookup_merge_neither hy hz)]
      | some adds =>
        have hwf := hZ.tags e adds hz
        rw [absent_left_nested_of_right hX hY hwf hx hy hz,
          absent_right_nested_of_right hX hY hwf hx hy hz]
        constructor
        · exact S.joint Z mZ X mX Y mY e adds hz hx hy
        · rintro (hc | hc)
          · exact hc.jointly_left Y
          · exact hc.jointly_right X
    | some adds =>
      have hwf := hY.tags e adds hy
      cases hz : Z.elements.lookup e with
      | none =>
        rw [absent_left_nested_of_mid hX hZ hwf hx hy hz,
          absent_right_nested_of_mid hX hZ hwf hx hy hz]
      | some adds' =>
        rw [absent_left_nested_of_mid_right hX hY hZ hx hy hz,
          absent_right_nested_of_mid_right hX hY hZ hx hy hz]
  | some adds =>
    cases hy : Y.elements.lookup e with
    | none =>
      cases hz : Z.elements.lookup e with
      | none => exact S.assoc_of_left hX hY hZ mX mY mZ hx hy hz
      | some adds' => exact S.assoc_of_left_right hX hY hZ mX mY mZ hx hy hz
    | some adds' =>
      cases hz : Z.elements.lookup e with
      | none => exact S.assoc_of_left_mid hX hY hZ mX mY mZ hx hy hz
      | some adds'' =>
        rw [contains_merge_of_left (lookup_merge_both hx hy) hz,
          contains_merge_of_left hx (lookup_merge_both hy hz)]

end Safe

/-! ## Only safe states join -/

/-- `merge` is idempotent on every state. -/
theorem sameSet_merge_self (X : ORSet α) : SameSet (X.merge X) X := by
  constructor
  · intro e
    apply contains_eq_of_false_iff
    rw [contains_eq_false, contains_eq_false]
    cases hx : X.elements.lookup e with
    | none => simp [lookup_merge_neither hx hx]
    | some adds => simp [lookup_merge_both hx hx]
  · intro j
    rw [lookup_versions_merge]
    cases hv : X.versions.lookup j with
    | none => rfl
    | some v =>
      show some (v.max v) = some v
      rw [Timestamp.max, ite_self]

/-- Where merges commute, the tags of an element are not all that a state without it has seen. -/
theorem not_same_of_comm (hX : WellFormed x X) (hZ : WellFormed z Z)
    (hcomm : SameSet (X.merge Z) (Z.merge X)) {e : α} {adds : Tags}
    (hx : X.elements.lookup e = some adds) (hz : Z.elements.lookup e = none) :
    ¬ Same adds Z.versions := by
  intro hsame
  have hwf := hX.tags e adds hx
  have habsent := (absent_merge_remote hZ hwf hz hx).mpr (covers_of_same hsame)
  rw [← hcomm.1 e, absent_merge_local hZ hwf hx hz] at habsent
  exact habsent.2 hsame

/-- Where merges associate, states that cover tags jointly do not share them out. -/
theorem covers_of_assoc (hX : WellFormed x X) (hY : WellFormed y Y) (hZ : WellFormed z Z)
    (hassoc : SameSet ((Y.merge Z).merge X) (Y.merge (Z.merge X))) {e : α} {adds : Tags}
    (hx : X.elements.lookup e = some adds) (hy : Y.elements.lookup e = none)
    (hz : Z.elements.lookup e = none) (hjoint : JointlyCover Y Z adds) :
    Y.Covers adds ∨ Z.Covers adds := by
  have hwf := hX.tags e adds hx
  have habsent := (absent_left_nested_of_right hY hZ hwf hy hz hx).mpr hjoint
  rw [hassoc.1 e] at habsent
  exact (absent_right_nested_of_right hY hZ hwf hy hz hx).mp habsent

/-- Where merges associate, a state that covers the tags in `X` covers those in `Y`. -/
theorem crossing_of_assoc (hX : WellFormed x X) (hY : WellFormed y Y) (hZ : WellFormed z Z)
    (hcomm : SameSet (X.merge Z) (Z.merge X))
    (hassoc : SameSet ((X.merge Z).merge Y) (X.merge (Z.merge Y))) {e : α} {adds adds' : Tags}
    (hx : X.elements.lookup e = some adds) (hy : Y.elements.lookup e = some adds')
    (hz : Z.elements.lookup e = none) (hc : Z.Covers adds) (hjoint : JointlyCover X Z adds') :
    Z.Covers adds' := by
  have hdrops : Z.Drops adds := ⟨hc, not_same_of_comm hX hZ hcomm hx hz⟩
  have habsent := (absent_left_nested_of_left_right hX hZ hY hx hz hy).mpr ⟨hdrops, hjoint⟩
  rw [hassoc.1 e] at habsent
  exact ((absent_right_nested_of_left_right hX hZ hY hx hz hy).mp habsent).1

/-- **`merge` is a join exactly on safe states.** -/
theorem joinLaws_iff {states : List (ORSet α)} (hwf : ∀ X ∈ states, ∃ x, WellFormed x X) :
    JoinLaws states ↔ JoinSafe states := by
  constructor
  · intro L
    have hcross : ∀ X ∈ states, ∀ Y ∈ states, ∀ Z ∈ states, ∀ e adds adds',
        X.elements.lookup e = some adds → Y.elements.lookup e = some adds' →
        Z.elements.lookup e = none → Z.Covers adds → JointlyCover X Z adds' → Z.Covers adds' := by
      intro X mX Y mY Z mZ e adds adds' hx hy hz
      obtain ⟨x, hX⟩ := hwf X mX
      obtain ⟨y, hY⟩ := hwf Y mY
      obtain ⟨z, hZ⟩ := hwf Z mZ
      exact crossing_of_assoc hX hY hZ (L.comm X mX Z mZ) (L.assoc X mX Z mZ Y mY) hx hy hz
    refine ⟨?_, ?_, hcross⟩
    · intro X mX Y mY Z mZ e adds adds' hx hy hz hc hjoint honly
      obtain ⟨x, hX⟩ := hwf X mX
      obtain ⟨y, hY⟩ := hwf Y mY
      obtain ⟨z, hZ⟩ := hwf Z mZ
      have hnot := not_same_of_comm hX hZ (L.comm X mX Z mZ) hx hz
      have hnot' := not_same_of_comm hY hZ (L.comm Y mY Z mZ) hy hz
      have hc' := hcross X mX Y mY Z mZ e adds adds' hx hy hz hc hjoint
      -- dropped when `Y` merges `Z` first, so dropped when `X` merges `Y` first
      have hdrops : (Y.merge Z).Drops adds :=
        ⟨(covers_merge_iff hY hZ adds).mpr (hc.jointly_right Y), fun hsame =>
          hnot (same_right_of_same_merge hY hZ (hX.tags e adds hx) hc hsame)⟩
      have habsent := (absent_right_nested_of_left_mid hX hY hZ hx hy hz).mpr
        ⟨⟨hc', hnot'⟩, hdrops⟩
      rw [← (L.assoc X mX Y mY Z mZ).1 e, absent_left_nested_of_left_mid hX hY hZ hx hy hz]
        at habsent
      exact habsent.2 (same_updateTags hX hY hx hy habsent.1 honly)
    · -- `X` comes last on one side of the law and first on the other
      intro X mX Y mY Z mZ e adds hx hy hz
      obtain ⟨x, hX⟩ := hwf X mX
      obtain ⟨y, hY⟩ := hwf Y mY
      obtain ⟨z, hZ⟩ := hwf Z mZ
      exact covers_of_assoc hX hY hZ (L.assoc Y mY Z mZ X mX) hx hy hz
  · intro S
    refine ⟨fun X _ => sameSet_merge_self X, ?_, ?_⟩
    · intro X mX Y mY
      obtain ⟨x, hX⟩ := hwf X mX
      obtain ⟨y, hY⟩ := hwf Y mY
      exact ⟨S.contains_comm hX hY mX mY, versions_comm hX hY⟩
    · intro X mX Y mY Z mZ
      obtain ⟨x, hX⟩ := hwf X mX
      obtain ⟨y, hY⟩ := hwf Y mY
      obtain ⟨z, hZ⟩ := hwf Z mZ
      exact ⟨S.contains_assoc hX hY hZ mX mY mZ, versions_assoc X Y Z⟩

end States

/-! ## In a run -/

/-- **`merge` on three states of a run** is a join exactly when they are safe. -/
theorem joinLaws_iff_joinSafe {C : Config ℕ (SetOp α) (ORSet α)}
    (h : replicated.Reachable NoReuse C) {a b c : ℕ} {A B D : Replica (ORSet α)}
    (hA : C.HasState a A) (hB : C.HasState b B) (hD : C.HasState c D) :
    JoinLaws [A.state, B.state, D.state] ↔ JoinSafe [A.state, B.state, D.state] := by
  refine joinLaws_iff fun X hX => ?_
  simp only [List.mem_cons, List.not_mem_nil, or_false] at hX
  rcases hX with rfl | rfl | rfl
  · exact ⟨a, wellFormed_of_reachable h hA⟩
  · exact ⟨b, wellFormed_of_reachable h hB⟩
  · exact ⟨c, wellFormed_of_reachable h hD⟩

/-- Replica 1 receives the element that replica 0 then removes. -/
def removeAfterSend : List (ReplicaAction ℕ (SetOp String)) :=
  [.update 0 (.add "e"), .send 0, .deliver 1 0, .update 0 (.remove "e")]

/-- The global state after `removeAfterSend`. -/
def removedAfterSend : Config ℕ (SetOp String) (ORSet String) :=
  replicated.exec replicated.start removeAfterSend

theorem reachable_removedAfterSend : replicated.Reachable NoReuse removedAfterSend := by
  refine Reachable.start.exec ⟨?_, trivial, trivial, trivial, trivial⟩
  show (replicated.start.node 0).state.seen 0 + 1 < 2 ^ 64
  decide

/-- The version vector of replica 0 is the tag of the element, which is no evidence of a remove. -/
theorem merge_not_commutative :
    replicated.Reachable NoReuse removedAfterSend ∧
      ¬ SameSet ((removedAfterSend.node 0).state.merge (removedAfterSend.node 1).state)
        ((removedAfterSend.node 1).state.merge (removedAfterSend.node 0).state) := by
  refine ⟨reachable_removedAfterSend, fun h => ?_⟩
  have hne := h.1 "e"
  revert hne
  decide

theorem not_joinSafe_removedAfterSend :
    ¬ JoinSafe [(removedAfterSend.node 0).state, (removedAfterSend.node 1).state,
      (removedAfterSend.node 1).state] := by
  intro S
  have L := (joinLaws_iff_joinSafe reachable_removedAfterSend (.now : HasState _ 0 _)
    (.now : HasState _ 1 _) (.now : HasState _ 1 _)).mpr S
  have hne := (L.comm (removedAfterSend.node 0).state (by simp) (removedAfterSend.node 1).state
    (by simp)).1 "e"
  revert hne
  decide

end ORSet

end CrdtStore
