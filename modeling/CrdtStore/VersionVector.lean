import CrdtStore.ORSetTags
import Mathlib.Order.Interval.Finset.Nat

/-!
# Version vectors

What the `_versions` of a set say about the adds of a run. Each entry is the number of adds of its
replica that the state knows of, and comparing two version vectors entry by entry compares what the
two states know (`versions_exact`).
-/

namespace CrdtStore

open ReplicatedType Config

namespace ORSet

variable {α : Type*} [DecidableEq α] {C : Config ℕ (SetOp α) (ORSet α)} {i q : ℕ}
  {R Q : Replica (ORSet α)}

instance (op : SetOp α) : Decidable (∃ e, op = .add e) :=
  match op with
  | .add e => isTrue ⟨e, rfl⟩
  | .remove _ => isFalse nofun
  | .contains _ => isFalse nofun

/-- The update is an add of replica `j`. -/
def IsAddOf (j : ℕ) (ev : UpdateEvent ℕ (SetOp α) (ORSet α)) : Prop :=
  ev.site = j ∧ ∃ e, ev.op = .add e

instance (j : ℕ) (ev : UpdateEvent ℕ (SetOp α) (ORSet α)) : Decidable (IsAddOf j ev) :=
  inferInstanceAs (Decidable (_ ∧ _))

/-- The adds of replica `j` in a history. -/
def addsOf (log : List (UpdateEvent ℕ (SetOp α) (ORSet α))) (hist : Finset ℕ) (j : ℕ) : Finset ℕ :=
  hist.filter fun n => ∃ ev ∈ log[n]?, IsAddOf j ev

/-- The version that update `n` of the log drew. -/
def versionAt (log : List (UpdateEvent ℕ (SetOp α) (ORSet α))) (n : ℕ) : ℕ :=
  (log[n]?.map version).getD 0

omit [DecidableEq α] in
theorem versionAt_eq {log : List (UpdateEvent ℕ (SetOp α) (ORSet α))} {n : ℕ}
    {ev : UpdateEvent ℕ (SetOp α) (ORSet α)} (hev : log[n]? = some ev) :
    versionAt log n = version ev := by
  rw [versionAt, hev]
  rfl

omit [DecidableEq α] in
theorem mem_addsOf {log : List (UpdateEvent ℕ (SetOp α) (ORSet α))} {hist : Finset ℕ} {j n : ℕ} :
    n ∈ addsOf log hist j ↔
      n ∈ hist ∧ ∃ ev e, log[n]? = some ev ∧ ev.site = j ∧ ev.op = .add e := by
  rw [addsOf, Finset.mem_filter]
  constructor
  · rintro ⟨hn, ev, hev, hsite, e, hop⟩
    exact ⟨hn, ev, e, hev, hsite, hop⟩
  · rintro ⟨hn, ev, e, hev, hsite, hop⟩
    exact ⟨hn, ev, hev, hsite, e, hop⟩

/-- A state knows an add exactly when its version vector has reached the version of the add. -/
theorem mem_addsOf_iff (h : replicated.Reachable NoReuse C) (hR : C.HasState i R) {j n : ℕ} :
    n ∈ addsOf C.log R.hist j ↔ ∃ ev e, C.log[n]? = some ev ∧ ev.site = j ∧ ev.op = .add e ∧
      version ev ≤ R.state.seen j := by
  rw [mem_addsOf]
  constructor
  · rintro ⟨hn, ev, e, hev, rfl, hop⟩
    exact ⟨ev, e, hev, rfl, hop, ((tracks_of_reachable h hR).seen_iff n ev e hev hop).mp hn⟩
  · rintro ⟨ev, e, hev, rfl, hop, hle⟩
    exact ⟨((tracks_of_reachable h hR).seen_iff n ev e hev hop).mpr hle, ev, e, hev, rfl, hop⟩

/-- No version is skipped. -/
theorem exists_add_of_version (h : replicated.Reachable NoReuse C) (hR : C.HasState i R) {j : ℕ}
    {v : ℕ} (hpos : 0 < v) (hle : v ≤ R.state.seen j) :
    ∃ n ∈ addsOf C.log R.hist j, versionAt C.log n = v := by
  -- down from the newest version
  induction hle using Nat.decreasingInduction with
  | self =>
    obtain ⟨n, hn, ev, e, hev, hop, hsite, hver⟩ := (tracks_of_reachable h hR).drawn j hpos
    exact ⟨n, mem_addsOf.mpr ⟨hn, ev, e, hev, hsite, hop⟩, (versionAt_eq hev).trans hver⟩
  | of_succ v hlt ih =>
    obtain ⟨n, hn, hver⟩ := ih (Nat.succ_pos v)
    obtain ⟨hhist, ev, e, hev, rfl, hop⟩ := mem_addsOf.mp hn
    obtain ⟨C', hC', hlog, hpast, hversion⟩ := exists_version h hev hop
    have hseen : (C'.node ev.site).state.seen ev.site = v := by
      rw [versionAt_eq hev] at hver
      omega
    -- the replica drew the version before, and the add has that in its past
    have hdrawn : 0 < (C'.node ev.site).state.seen ev.site := by
      rw [hseen]
      exact hpos
    obtain ⟨n', hn', ev', e', hev', hop', hsite', hver'⟩ :=
      (tracks_of_reachable hC' .now).drawn ev.site hdrawn
    have hlt : n' < n := h.past_lt hev (hpast ▸ hn')
    have hold : C.log[n']? = some ev' := by
      rw [hlog, List.getElem?_take_of_lt hlt] at hev'
      exact hev'
    have hknown : n' ∈ R.hist := h.past_subset hR hhist hev (hpast ▸ hn')
    exact ⟨n', mem_addsOf.mpr ⟨hknown, ev', e', hold, hsite', hop'⟩,
      (versionAt_eq hold).trans (hver'.trans hseen)⟩

theorem versionAt_injOn (h : replicated.Reachable NoReuse C) (hist : Finset ℕ) (j : ℕ) :
    Set.InjOn (versionAt C.log) (addsOf C.log hist j) := by
  intro m hm n hn heq
  obtain ⟨-, ev, e, hev, hsite, hop⟩ := mem_addsOf.mp hm
  obtain ⟨-, ev', e', hev', hsite', hop'⟩ := mem_addsOf.mp hn
  rw [versionAt_eq hev, versionAt_eq hev'] at heq
  exact eq_of_version_eq h hev hop hev' hop' (hsite.trans hsite'.symm) heq

/-- The versions of the adds of a replica that a state knows are the numbers up to its entry. -/
theorem image_versionAt (h : replicated.Reachable NoReuse C) (hR : C.HasState i R) (j : ℕ) :
    (addsOf C.log R.hist j).image (versionAt C.log) = Finset.Icc 1 (R.state.seen j) := by
  ext v
  rw [Finset.mem_image, Finset.mem_Icc]
  constructor
  · rintro ⟨n, hn, rfl⟩
    obtain ⟨ev, e, hev, -, hop, hle⟩ := (mem_addsOf_iff h hR).mp hn
    rw [versionAt_eq hev]
    exact ⟨version_pos h hev hop, hle⟩
  · rintro ⟨hpos, hle⟩
    exact exists_add_of_version h hR hpos hle

theorem seen_eq_card (h : replicated.Reachable NoReuse C) (hR : C.HasState i R) (j : ℕ) :
    R.state.seen j = (addsOf C.log R.hist j).card := by
  have hcard := congrArg Finset.card (image_versionAt h hR j)
  rw [Finset.card_image_of_injOn (versionAt_injOn h R.hist j), Nat.card_Icc] at hcard
  omega

theorem addsOf_subset_iff (h : replicated.Reachable NoReuse C) (hR : C.HasState i R)
    (hQ : C.HasState q Q) (j : ℕ) :
    addsOf C.log R.hist j ⊆ addsOf C.log Q.hist j ↔ R.state.seen j ≤ Q.state.seen j := by
  constructor
  · intro hsub
    rw [seen_eq_card h hR, seen_eq_card h hQ]
    exact Finset.card_le_card hsub
  · intro hle n hn
    obtain ⟨ev, e, hev, hsite, hop, hversion⟩ := (mem_addsOf_iff h hR).mp hn
    exact (mem_addsOf_iff h hQ).mpr ⟨ev, e, hev, hsite, hop, hversion.trans hle⟩

/-- **Version vectors are exact.** An entry counts the adds of its replica that the state knows;
two vectors are ordered exactly when the known adds are, so incomparable vectors mean that each
state knows an add the other does not; and one add had seen another exactly when its replica had
reached the version of the other. -/
theorem versions_exact (h : replicated.Reachable NoReuse C) :
    (∀ i R, C.HasState i R → ∀ j, R.state.seen j = (addsOf C.log R.hist j).card) ∧
    (∀ i q R Q, C.HasState i R → C.HasState q Q →
      ((∀ j, R.state.seen j ≤ Q.state.seen j) ↔
        ∀ j, addsOf C.log R.hist j ⊆ addsOf C.log Q.hist j)) ∧
    ∀ (m n : ℕ) ev ev' e e', C.log[m]? = some ev → ev.op = .add e → C.log[n]? = some ev' →
      ev'.op = .add e' → m ≠ n → (m ∈ ev'.past ↔ version ev ≤ ev'.state.seen ev.site) := by
  refine ⟨fun i R hR => seen_eq_card h hR, fun i q R Q hR hQ => ?_, ?_⟩
  · exact forall_congr' fun j => (addsOf_subset_iff h hR hQ j).symm
  · intro m n ev ev' e e' hev hop hev' _ hne
    have hleft := (tracks_of_reachable h (.left hev' rfl)).seen_iff m ev e hev hop
    rw [← hleft, Finset.mem_insert]
    exact (or_iff_right hne).symm

theorem versions_exact_addedAgain :
    (∀ i R, addedAgain.HasState i R →
      ∀ j, R.state.seen j = (addsOf addedAgain.log R.hist j).card) ∧
    (∀ i q R Q, addedAgain.HasState i R → addedAgain.HasState q Q →
      ((∀ j, R.state.seen j ≤ Q.state.seen j) ↔
        ∀ j, addsOf addedAgain.log R.hist j ⊆ addsOf addedAgain.log Q.hist j)) ∧
    ∀ (m n : ℕ) ev ev' e e', addedAgain.log[m]? = some ev → ev.op = .add e →
      addedAgain.log[n]? = some ev' → ev'.op = .add e' → m ≠ n →
        (m ∈ ev'.past ↔ version ev ≤ ev'.state.seen ev.site) := by
  have hfirst : NoReuse replicated.start (.update 0 (.add "e")) := by
    show 0 + 1 < 2 ^ 64
    decide
  have hsecond : NoReuse (replicated.exec replicated.start
      [.update 0 (.add "e"), .send 0, .deliver 1 0]) (.update 1 (.add "e")) := by
    show 0 + 1 < 2 ^ 64
    decide
  have h : replicated.Reachable NoReuse addedAgain :=
    Reachable.start.exec ⟨hfirst, trivial, trivial, hsecond, trivial⟩
  exact versions_exact h

end ORSet

end CrdtStore
