import CrdtStore.ORSetJoin

/-!
# Late deliveries and received removes

What merging a state does when its receiver has been past it: nothing, whatever the receiver did
since it was in that state or merged it (`lookup_merge_of_absorbed`), as long as no version counter
has wrapped.

And what merging a state does with an element that it lacks although it has seen every add of it:
`_apply_remote_removes` drops the element unless its tags are the whole remote version vector
(`merge_removes_iff`).
-/

namespace CrdtStore

open UnorderedMap (Same)
open ReplicatedType Config

namespace ORSet

variable {α : Type*} [DecidableEq α]

/-! ## Late deliveries -/

/-- `R` has seen all that `B` has, and every element of `R` that `B` lacks survives merging `B`. -/
structure Absorbs (B R : ORSet α) : Prop where
  versions : ∀ j w, B.versions.lookup j = some w →
    ∃ v, R.versions.lookup j = some v ∧ w.seqNumber ≤ v.seqNumber
  not_drops : ∀ e adds, R.elements.lookup e = some adds → B.elements.lookup e = none →
    ¬ B.Drops adds

section Absorbs

variable {i q : ℕ} {B R Q : ORSet α}

theorem Absorbs.refl (R : ORSet α) : Absorbs R R where
  versions j w hw := ⟨w, hw, le_rfl⟩
  not_drops e adds hadds hlack := by
    rw [hadds] at hlack
    cases hlack

theorem Absorbs.seen_le (h : Absorbs B R) (j : ℕ) : B.seen j ≤ R.seen j := by
  cases hb : B.versions.lookup j with
  | none =>
    rw [seen_of_none hb]
    exact Nat.zero_le _
  | some w =>
    obtain ⟨v, hv, hle⟩ := h.versions j w hb
    rw [seen_of_lookup hb, seen_of_lookup hv]
    exact hle

omit [DecidableEq α] in
/-- The entries of a version vector stay, and get no older. -/
theorem versions_le_of_seen_le {X : ORSet α} (hdom : ∀ j w, B.versions.lookup j = some w →
    ∃ v, X.versions.lookup j = some v) (hle : ∀ j, B.seen j ≤ X.seen j) (j : ℕ) (w : Timestamp)
    (hw : B.versions.lookup j = some w) :
    ∃ v, X.versions.lookup j = some v ∧ w.seqNumber ≤ v.seqNumber := by
  obtain ⟨v, hv⟩ := hdom j w hw
  refine ⟨v, hv, ?_⟩
  rw [← seen_of_lookup hw, ← seen_of_lookup hv]
  exact hle j

/-- What `_apply_remote_removes` keeps it would keep again. -/
theorem Absorbs.merged (hR : WellFormed i R) (hB : WellFormed q B) : Absorbs B (R.merge B) where
  versions := by
    refine versions_le_of_seen_le (fun j w hw => ?_) (seen_le_merge_right hR hB)
    rw [ORSet.lookup_versions_merge, hw]
    cases R.versions.lookup j <;> exact ⟨_, rfl⟩
  not_drops e adds hadds hlack := by
    rcases lookup_merge_eq_some hadds with ⟨hs, -, hkeep⟩ | ⟨-, hr, -⟩ | ⟨-, remoteAdds, -, hr, -⟩
    · intro hdrop
      rw [← Bool.not_eq_true, newerRemoteRemove_iff hB (hR.tags e adds hs)] at hkeep
      exact hkeep hdrop
    · rw [hlack] at hr
      cases hr
    · rw [hlack] at hr
      cases hr

theorem updateTags_of_covers (hR : WellFormed i R) {adds remoteAdds : Tags}
    (hwf : remoteAdds.WellFormed) (hc : R.Covers remoteAdds) :
    R.updateTags adds remoteAdds = adds := by
  rw [updateTags]
  apply UnorderedMap.foldl_eq_self
  intro j t ht
  have hle := hc j t ht
  rw [if_neg]
  rw [unseen_iff hR (hwf.uid j t ht) (hwf.pos j t ht)]
  omega

omit [DecidableEq α] in
/-- A tag past the version vector of `B` keeps its element. -/
theorem not_drops_of_unseen {adds : Tags} {j : ℕ} {t : Timestamp} (ht : adds.lookup j = some t)
    (hlt : B.seen j < t.seqNumber) : ¬ B.Drops adds := by
  intro hdrop
  have hle := hdrop.1 j t ht
  omega

theorem Absorbs.add (h : Absorbs B R) (hR : WellFormed i R) (hwrap : R.seen i + 1 < 2 ^ 64)
    (e₀ : α) : Absorbs B (R.add e₀) where
  versions := by
    refine versions_le_of_seen_le (fun j w hw => ?_)
      fun j => (h.seen_le j).trans (hR.seen_le_add hwrap e₀ j)
    obtain ⟨v, hv, -⟩ := h.versions j w hw
    rw [hR.lookup_versions_add hwrap]
    split
    · exact ⟨_, rfl⟩
    · exact ⟨v, hv⟩
  not_drops e adds hadds hlack := by
    rw [hR.lookup_add hwrap] at hadds
    split at hadds
    · -- the new tag is past all that anyone has seen of this replica
      cases hadds
      apply not_drops_of_unseen (AList.lookup_insert _)
      have hle := h.seen_le i
      show B.seen i < R.seen i + 1
      omega
    · exact h.not_drops e adds hadds hlack

theorem Absorbs.remove (h : Absorbs B R) (e₀ : α) : Absorbs B (R.remove e₀).2 where
  versions := h.versions
  not_drops e adds hadds hlack := by
    rw [lookup_remove] at hadds
    split at hadds
    · cases hadds
    · exact h.not_drops e adds hadds hlack

/-- Tags that `R` has not seen are not in `B`, and the others only get newer. -/
theorem Absorbs.merge (h : Absorbs B R) (hR : WellFormed i R) (hQ : WellFormed q Q) :
    Absorbs B (R.merge Q) where
  versions := by
    refine versions_le_of_seen_le (fun j w hw => ?_)
      fun j => (h.seen_le j).trans (seen_le_merge_left hR hQ j)
    obtain ⟨v, hv, -⟩ := h.versions j w hw
    rw [ORSet.lookup_versions_merge, hv]
    cases Q.versions.lookup j <;> exact ⟨_, rfl⟩
  not_drops e adds hadds hlack := by
    rcases lookup_merge_eq_some hadds with ⟨hs, -, -⟩ | ⟨-, hr, hany⟩ |
      ⟨localAdds, remoteAdds, hs, hr, rfl⟩
    · exact h.not_drops e adds hs hlack
    · obtain ⟨j, t, ht, hun⟩ := UnorderedMap.any_eq_true.mp hany
      have hwf := hQ.tags e adds hr
      rw [unseen_iff hR (hwf.uid j t ht) (hwf.pos j t ht)] at hun
      exact not_drops_of_unseen ht ((h.seen_le j).trans_lt hun)
    · have hwf := hQ.tags e remoteAdds hr
      by_cases hc : R.Covers remoteAdds
      · rw [updateTags_of_covers hR hwf hc]
        exact h.not_drops e localAdds hs hlack
      · -- a new tag is in the merged element
        rw [← any_unseen_iff hR hwf] at hc
        obtain ⟨j, t, ht, hun⟩ := UnorderedMap.any_eq_true.mp hc
        have hlt := (unseen_iff hR (hwf.uid j t ht) (hwf.pos j t ht)).mp hun
        exact not_drops_of_unseen (lookup_updateTags_of_lt hR localAdds hwf ht hlt)
          ((h.seen_le j).trans_lt hlt)

/-- Nothing changes when a state is merged that the replica has been past. -/
theorem Absorbs.lookup_merge (h : Absorbs B R) (hR : WellFormed i R) (hB : WellFormed q B) (e : α) :
    (R.merge B).elements.lookup e = R.elements.lookup e := by
  have hcovers : ∀ adds, B.elements.lookup e = some adds → R.Covers adds := fun adds hadds =>
    (hB.covers e adds hadds).mono h.seen_le
  cases hr : R.elements.lookup e with
  | none =>
    cases hb : B.elements.lookup e with
    | none => exact lookup_merge_neither hr hb
    | some adds => exact lookup_merge_ignored hR (hB.tags e adds hb) hr hb (hcovers adds hb)
  | some adds =>
    cases hb : B.elements.lookup e with
    | none => exact lookup_merge_kept hB (hR.tags e adds hr) hr hb (h.not_drops e adds hr hb)
    | some adds' =>
      rw [lookup_merge_both hr hb, updateTags_of_covers hR (hB.tags e adds' hb) (hcovers adds' hb)]

theorem Absorbs.lookup_versions_merge (h : Absorbs B R) (hR : WellFormed i R)
    (hB : WellFormed q B) (j : ℕ) : (R.merge B).versions.lookup j = R.versions.lookup j := by
  rw [ORSet.lookup_versions_merge]
  cases hb : B.versions.lookup j with
  | none => cases R.versions.lookup j <;> rfl
  | some w =>
    obtain ⟨v, hv, hle⟩ := h.versions j w hb
    rw [hv]
    show some (v.max w) = some v
    have huid : v.uid = w.uid := (hR.versionUid j v hv).trans (hB.versionUid j w hb).symm
    rw [Timestamp.max, if_neg]
    rw [Timestamp.lt_iff_of_uid_eq huid]
    omega

end Absorbs

/-- The steps of a run in which replica `i` does not start again. -/
def Lasting (i : ℕ) (C : Config ℕ (SetOp α) (ORSet α)) (a : ReplicaAction ℕ (SetOp α)) : Prop :=
  NoReuse C a ∧ a ≠ .restart i

section Run

variable {C : Config ℕ (SetOp α) (ORSet α)} {i : ℕ} {B : ORSet α}

/-- What a replica has absorbed it still has after its next call. -/
theorem Absorbs.updated (hC : replicated.Reachable NoReuse C) {op : SetOp α}
    (hG : NoReuse C (.update i op)) (h : Absorbs B (C.node i).state) :
    Absorbs B (replicated.apply op (C.node i).state) := by
  cases op with
  | add e => exact h.add (wellFormed_of_reachable hC .now) hG e
  | remove e => exact h.remove e
  | contains e => exact h

/-- What a replica has absorbed it still has after the next merge. -/
theorem Absorbs.received (hC : replicated.Reachable NoReuse C) {n q : ℕ} {Q : Replica (ORSet α)}
    (hQ : C.sent[n]? = some (q, Q)) (h : Absorbs B (C.node i).state) :
    Absorbs B (replicated.merge (C.node i).state Q.state) :=
  h.merge (wellFormed_of_reachable hC .now) (wellFormed_of_reachable hC (hasState_sent hQ))

theorem absorbs_exec (hC : replicated.Reachable NoReuse C) {as : List (ReplicaAction ℕ (SetOp α))}
    (has : replicated.Steps (Lasting i) C as) :
    Absorbs (C.node i).state ((replicated.exec C as).node i).state := by
  refine hC.rel_exec (P := Absorbs) ?_ ?_ has (.refl _)
  · intro C op B hC hG hB
    exact hB.updated hC hG
  · intro C n q Q B hC hQ hB
    exact hB.received hC hQ

end Run

theorem absorbs_of_absorbed {i : ℕ} {as : List (ReplicaAction ℕ (SetOp α))}
    (has : replicated.Steps (Lasting i) replicated.start as) {B : ORSet α}
    (hB : B ∈ replicated.absorbed i replicated.start as) :
    (∃ q, WellFormed q B) ∧
      Absorbs B ((replicated.exec replicated.start as).node i).state := by
  refine Reachable.rel_absorbed (G := NoReuse) (P := fun B R => (∃ q, WellFormed q B) ∧ Absorbs B R)
    ?_ ?_ ?_ ?_ .start has hB
  · intro C hC
    exact ⟨⟨i, wellFormed_of_reachable hC .now⟩, Absorbs.refl _⟩
  · intro C n q Q hC hQ
    have hwf := wellFormed_of_reachable hC (hasState_sent hQ)
    exact ⟨⟨q, hwf⟩, Absorbs.merged (wellFormed_of_reachable hC .now) hwf⟩
  · intro C op B hC hG hB
    exact ⟨hB.1, hB.2.updated hC hG⟩
  · intro C n q Q B hC hQ hB
    exact ⟨hB.1, hB.2.received hC hQ⟩

/-- **Late deliveries are harmless.** Merging a state that the replica was in or merged before
changes no element, no tag and no version. -/
theorem lookup_merge_of_absorbed {i : ℕ} {as : List (ReplicaAction ℕ (SetOp α))}
    (has : replicated.Steps (Lasting i) replicated.start as) {B : ORSet α}
    (hB : B ∈ replicated.absorbed i replicated.start as) {R : ORSet α}
    (hR : R = ((replicated.exec replicated.start as).node i).state) :
    (∀ e, (R.merge B).elements.lookup e = R.elements.lookup e) ∧
      ∀ j, (R.merge B).versions.lookup j = R.versions.lookup j := by
  obtain ⟨⟨q, hwfB⟩, habsorbs⟩ := absorbs_of_absorbed has hB
  have hreach : replicated.Reachable NoReuse (replicated.exec replicated.start as) :=
    Reachable.start.exec (has.mono fun _ _ h => h.1)
  have hwfR := wellFormed_of_reachable hreach (.now : HasState _ i _)
  subst hR
  exact ⟨habsorbs.lookup_merge hwfR hwfB, habsorbs.lookup_versions_merge hwfR hwfB⟩

/-- Replica 1 merges the add of replica 0 twice and removes the element in between. -/
def deliveredTwice : List (ReplicaAction ℕ (SetOp String)) :=
  [.update 0 (.add "e"), .send 0, .deliver 1 0, .update 1 (.remove "e")]

theorem lookup_merge_deliveredTwice :
    let C := replicated.exec replicated.start deliveredTwice
    ((C.node 1).state.merge (C.node 0).state).elements.lookup "e" =
      (C.node 1).state.elements.lookup "e" := by
  have has : replicated.Steps (Lasting 1) replicated.start deliveredTwice := by
    refine ⟨⟨?_, nofun⟩, ⟨trivial, nofun⟩, ⟨trivial, nofun⟩, ⟨trivial, nofun⟩, trivial⟩
    show (replicated.start.node 0).state.seen 0 + 1 < 2 ^ 64
    decide
  -- the fourth state: three of replica 1, then the one it merges
  exact (lookup_merge_of_absorbed has (.tail _ (.tail _ (.tail _ (.head _)))) rfl).1 "e"

/-! ## When a version counter wraps -/

/-- Replica 0 adds an element `n` times. -/
def manyAdds (n : ℕ) : List (ReplicaAction ℕ (SetOp String)) :=
  List.replicate n (.update 0 (.add "e"))

theorem exec_manyAdds_succ (n : ℕ) :
    replicated.exec replicated.start (manyAdds (n + 1)) =
      replicated.next (replicated.exec replicated.start (manyAdds n)) (.update 0 (.add "e")) := by
  unfold manyAdds exec
  rw [List.replicate_succ', List.foldl_append]
  rfl

/-- The version of replica 0 counts its adds modulo 2⁶⁴. -/
theorem versions_manyAdds (n : ℕ) :
    ((replicated.exec replicated.start (manyAdds n)).node 0).state.replicaId = 0 ∧
      ((replicated.exec replicated.start (manyAdds n)).node 0).state.versions.lookup 0 =
        some ⟨n % 2 ^ 64, 0, 0⟩ := by
  induction n with
  | zero => exact ⟨rfl, rfl⟩
  | succ n ih =>
    rw [exec_manyAdds_succ, node_update_self]
    refine ⟨ih.1, ?_⟩
    show (((replicated.exec replicated.start (manyAdds n)).node 0).state.add "e").versions.lookup 0
      = _
    rw [lookup_versions_add, ih.1, if_pos rfl, ih.2]
    show some (Timestamp.update ⟨n % 2 ^ 64, 0, 0⟩) = _
    rw [Timestamp.update, Nat.mod_add_mod]

theorem steps_manyAdds (n : ℕ) (C : Config ℕ (SetOp String) (ORSet String)) :
    replicated.Steps (fun _ a => ∀ j, a ≠ .restart j) C (manyAdds n) := by
  induction n generalizing C with
  | zero => trivial
  | succ n ih => exact ⟨nofun, ih _⟩

/-- A state that a replica is in before the last step of a run is one that it was in. -/
theorem mem_absorbed_manyAdds {m n : ℕ} (hmn : m ≤ n) :
    ((replicated.exec replicated.start (manyAdds m)).node 0).state ∈
      replicated.absorbed 0 replicated.start (manyAdds n) := by
  obtain ⟨k, rfl⟩ := Nat.exists_eq_add_of_le hmn
  unfold manyAdds
  rw [List.replicate_add]
  exact mem_absorbed_append _ _ _

/-- After 2⁶⁴ adds the version is 0 again, and merging the state before the last add changes it. -/
theorem stale_state_changes_version :
    ∃ n, n + 1 = 2 ^ 64 ∧
      replicated.Steps (fun _ a => ∀ j, a ≠ .restart j) replicated.start (manyAdds (n + 1)) ∧
      ∃ B ∈ replicated.absorbed 0 replicated.start (manyAdds (n + 1)),
        ∃ R, R = ((replicated.exec replicated.start (manyAdds (n + 1))).node 0).state ∧
          (R.merge B).versions.lookup 0 ≠ R.versions.lookup 0 := by
  refine ⟨2 ^ 64 - 1, by omega, steps_manyAdds _ _, _, mem_absorbed_manyAdds (Nat.le_succ _), _,
    rfl, ?_⟩
  rw [lookup_versions_merge, (versions_manyAdds _).2, (versions_manyAdds _).2]
  decide

/-! ## Received removes

These hold in every run, whatever wraps or starts again: they rest on ids alone. -/

/-- Timestamps carry the id that they are filed under. -/
structure Owned (i : ℕ) (set : ORSet α) : Prop where
  replicaId : set.replicaId = i
  own : ∃ t, set.versions.lookup i = some t
  version : ∀ j t, set.versions.lookup j = some t → t.uid = j ∧ t.replicaId = j
  tag : ∀ e adds, set.elements.lookup e = some adds →
    ∀ j t, adds.lookup j = some t → t.uid = j ∧ t.replicaId = j

section Owned

variable {i q : ℕ} {R Q : ORSet α}

theorem Owned.new (i : ℕ) : Owned i (new i : ORSet α) where
  replicaId := rfl
  own := ⟨_, AList.lookup_insert _⟩
  version j t ht := by
    rw [lookup_versions_new] at ht
    split at ht
    · next hj =>
      cases ht
      exact ⟨hj.symm, hj.symm⟩
    · cases ht
  tag e adds hadds := by cases hadds

/-- The version an add draws has the id of its replica. -/
theorem Owned.lookup_versions_add (h : Owned i R) (e : α) (j : ℕ) : ∃ seq,
    (R.add e).versions.lookup j = if j = i then some ⟨seq, i, i⟩ else R.versions.lookup j := by
  obtain ⟨t, ht⟩ := h.own
  have hid := (h.version i t ht).2
  refine ⟨t.update.seqNumber, ?_⟩
  rw [ORSet.lookup_versions_add, h.replicaId, ht]
  split
  · show some t.update = _
    rw [Option.some.injEq]
    apply Timestamp.eq_of_seqNumber_eq
    · rfl
    · exact hid
    · exact hid
  · rfl

/-- A tag after an add is the new version or one from before. -/
theorem tag_add {e e₀ : α} {adds : Tags} {j : ℕ} {t : Timestamp}
    (hadds : (R.add e₀).elements.lookup e = some adds) (ht : adds.lookup j = some t) :
    (R.add e₀).versions.lookup j = some t ∨
      ∃ adds', R.elements.lookup e = some adds' ∧ adds'.lookup j = some t := by
  rw [lookup_add] at hadds
  split at hadds
  · next he =>
    subst he
    cases hadds
    rw [UnorderedMap.lookup_insert_eq] at ht
    split at ht
    · next hj =>
      left
      rw [ORSet.lookup_versions_add, if_pos hj]
      exact ht
    · right
      cases hold : R.elements.lookup e with
      | none =>
        rw [hold] at ht
        cases ht
      | some adds =>
        rw [hold] at ht
        exact ⟨adds, rfl, ht⟩
  · exact Or.inr ⟨adds, hadds, ht⟩

theorem Owned.add (h : Owned i R) (e₀ : α) : Owned i (R.add e₀) := by
  have hversion : ∀ j t, (R.add e₀).versions.lookup j = some t → t.uid = j ∧ t.replicaId = j := by
    intro j t ht
    obtain ⟨seq, hlookup⟩ := h.lookup_versions_add e₀ j
    rw [hlookup] at ht
    split at ht
    · next hj =>
      cases ht
      exact ⟨hj.symm, hj.symm⟩
    · exact h.version j t ht
  refine ⟨h.replicaId, ?_, hversion, fun e adds hadds j t ht => ?_⟩
  · obtain ⟨seq, hlookup⟩ := h.lookup_versions_add e₀ i
    rw [if_pos rfl] at hlookup
    exact ⟨_, hlookup⟩
  · rcases tag_add hadds ht with hnew | ⟨adds', hadds', ht⟩
    · exact hversion j t hnew
    · exact h.tag e adds' hadds' j t ht

theorem Owned.remove (h : Owned i R) (e₀ : α) : Owned i (R.remove e₀).2 where
  replicaId := h.replicaId
  own := h.own
  version := h.version
  tag e adds hadds j t ht := by
    rw [lookup_remove] at hadds
    split at hadds
    · cases hadds
    · exact h.tag e adds hadds j t ht

theorem Owned.merge (h : Owned i R) (hQ : Owned q Q) : Owned i (R.merge Q) where
  replicaId := h.replicaId
  own := by
    obtain ⟨t, ht⟩ := h.own
    rw [ORSet.lookup_versions_merge, ht]
    cases Q.versions.lookup i <;> exact ⟨_, rfl⟩
  version j t ht := by
    rw [ORSet.lookup_versions_merge] at ht
    rcases joinVersion_eq ht with ht | ht
    · exact h.version j t ht
    · exact hQ.version j t ht
  tag e adds hadds j t ht := by
    rcases tag_merge hadds ht with ⟨adds', hadds', ht⟩ | ⟨adds', hadds', ht⟩
    · exact h.tag e adds' hadds' j t ht
    · exact hQ.tag e adds' hadds' j t ht

theorem Owned.evidence_iff (hR : Owned i R) (hQ : Owned q Q) {e : α} {adds : Tags}
    (hadds : R.elements.lookup e = some adds) (hknows : Q.Knows adds) :
    evidence Q adds = true ↔ ¬ Same adds Q.versions := by
  refine evidence_iff_of_knows hknows fun j t v ht hv => ?_
  obtain ⟨huid, hid⟩ := hR.tag e adds hadds j t ht
  obtain ⟨huid', hid'⟩ := hQ.version j v hv
  exact ⟨huid'.trans huid.symm, hid'.trans hid.symm⟩

end Owned

theorem owned_of_reachable {G : Config ℕ (SetOp α) (ORSet α) → ReplicaAction ℕ (SetOp α) → Prop}
    {C : Config ℕ (SetOp α) (ORSet α)} (h : replicated.Reachable G C) {i : ℕ}
    {R : Replica (ORSet α)} (hR : C.HasState i R) : Owned i R.state := by
  refine h.induct (P := fun _ i R => Owned i R.state) ?_ ?_ ?_ ?_ i R hR
  · intro C i _
    exact Owned.new i
  · intro C i op _ _ ih j R hR
    exact ih j R hR
  · intro C i op _ _ ih
    have hold := ih i _ .now
    cases op with
    | add e => exact hold.add e
    | remove e => exact hold.remove e
    | contains e => exact hold
  · intro C i n q Q _ _ _ hR hQ
    exact hR.merge hQ

/-- **A received remove** takes effect exactly when the tags of the element are not the whole
version vector of the set that has seen them all and lacks the element. -/
theorem merge_removes_iff {C : Config ℕ (SetOp α) (ORSet α)}
    (h : replicated.Reachable (fun _ _ => True) C) {i q : ℕ} {R Q : Replica (ORSet α)}
    (hR : C.HasState i R) (hQ : C.HasState q Q) {e : α} (hlack : Q.state.contains e = false)
    (hknows : ∀ adds, R.state.elements.lookup e = some adds → Q.state.Knows adds) :
    (R.state.merge Q.state).contains e = false ↔
      ∀ adds, R.state.elements.lookup e = some adds → ¬ Same adds Q.state.versions := by
  rw [contains_eq_false] at hlack ⊢
  cases hadds : R.state.elements.lookup e with
  | none =>
    rw [lookup_merge_neither hadds hlack]
    exact iff_of_true rfl nofun
  | some adds =>
    have hevidence := (owned_of_reachable h hR).evidence_iff (owned_of_reachable h hQ) hadds
      (hknows adds hadds)
    rw [lookup_merge, hadds, hlack]
    simp only [newerRemoteRemove, concurrentAdd_of_knows (hknows adds hadds)]
    simp [hevidence]

/-- Replica 0 removes the element after replica 1 has received it: its version vector is the tag of
the element, and replica 1 keeps the element. -/
theorem received_remove_ignored :
    replicated.Reachable (fun _ _ => True) removedAfterSend ∧
      (removedAfterSend.node 0).state.contains "e" = false ∧
      (∀ adds, (removedAfterSend.node 1).state.elements.lookup "e" = some adds →
        (removedAfterSend.node 0).state.Knows adds) ∧
      ((removedAfterSend.node 1).state.merge (removedAfterSend.node 0).state).contains "e" =
        true := by
  refine ⟨reachable_removedAfterSend.mono fun _ _ _ => trivial, by decide, ?_, by decide⟩
  intro adds hadds
  revert adds
  show ∀ adds ∈ (removedAfterSend.node 1).state.elements.lookup "e",
    (removedAfterSend.node 0).state.Knows adds
  decide

/-- Replica 0 drops the element that replica 1 has received and removed. -/
theorem merge_removes_deliveredTwice :
    let C := replicated.exec replicated.start deliveredTwice
    ((C.node 0).state.merge (C.node 1).state).contains "e" = false := by
  intro C
  have hreach : replicated.Reachable (fun _ _ => True) C :=
    Reachable.start.exec ⟨trivial, trivial, trivial, trivial, trivial⟩
  have hknows : ∀ adds ∈ (C.node 0).state.elements.lookup "e", (C.node 1).state.Knows adds := by
    decide
  have hne : ∀ adds ∈ (C.node 0).state.elements.lookup "e",
      adds.lookup 1 ≠ (C.node 1).state.versions.lookup 1 := by
    decide
  exact (merge_removes_iff hreach (.now : HasState _ 0 _) (.now : HasState _ 1 _) (by decide)
    hknows).mpr fun adds hadds hsame => hne adds hadds (hsame 1)

end ORSet

end CrdtStore
