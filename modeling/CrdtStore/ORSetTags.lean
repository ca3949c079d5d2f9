import CrdtStore.ORSetDelivery

/-!
# Tags identify adds

A tag names one add of the whole run, executed by the replica it is filed under for the element it
is filed at (`Produces`), so no tag stands under two elements anywhere in the system. The version
vectors that tags are compared with hold at most what the replica itself has drawn, and never
decrease. `tags_identify_adds` is all of this for every state of every run.
-/

namespace CrdtStore

open ReplicatedType Config

namespace ORSet

variable {α : Type*} [DecidableEq α] {C : Config ℕ (SetOp α) (ORSet α)}

/-- The update was an add of `e` and filed `t` at the element, under the id of its replica. -/
def Produces (ev : UpdateEvent ℕ (SetOp α) (ORSet α)) (e : α) (t : Timestamp) : Prop :=
  ev.op = .add e ∧
    ∃ adds, ev.state.elements.lookup e = some adds ∧ adds.lookup ev.site = some t

/-! ## The add behind a tag -/

/-- An add files the version that it has drawn, and nothing else. -/
theorem produces_iff (h : replicated.Reachable NoReuse C) {n : ℕ}
    {ev : UpdateEvent ℕ (SetOp α) (ORSet α)} (hev : C.log[n]? = some ev) {e : α} {t : Timestamp} :
    Produces ev e t ↔ ev.op = .add e ∧ t = ⟨version ev, ev.site, ev.site⟩ := by
  unfold Produces
  refine and_congr_right fun hop => ?_
  obtain ⟨C', hC', hstep, hevent, -⟩ := h.exists_event hev
  rw [hop] at hstep hevent
  have hversion : version ev = (C'.node ev.site).state.seen ev.site + 1 := by
    have hdrawn := version_event hC' hstep
    rwa [hevent] at hdrawn
  have hstate : ev.state = (C'.node ev.site).state.add e := congrArg UpdateEvent.state hevent.symm
  rw [hversion, hstate, (wellFormed_of_reachable hC' .now).lookup_add hstep, if_pos rfl]
  constructor
  · intro hadds
    obtain ⟨adds, hadds, ht⟩ := hadds
    cases hadds
    rw [AList.lookup_insert] at ht
    exact (Option.some.inj ht).symm
  · intro ht
    rw [ht]
    exact ⟨_, rfl, AList.lookup_insert _⟩

/-- Every tag was produced by an add in the history, of its element at its replica. -/
theorem exists_produces (h : replicated.Reachable NoReuse C) {i : ℕ} {R : Replica (ORSet α)}
    (hR : C.HasState i R) {e : α} {adds : Tags} {j : ℕ} {t : Timestamp}
    (hadds : R.state.elements.lookup e = some adds) (ht : adds.lookup j = some t) :
    ∃ n ∈ R.hist, ∃ ev, C.log[n]? = some ev ∧ ev.site = j ∧ Produces ev e t := by
  obtain ⟨n, hn, ev, hev, hop, hsite, hver⟩ :=
    (tracks_of_reachable h hR).tagged e adds j t hadds ht
  have hwf := (wellFormed_of_reachable h hR).tags e adds hadds
  refine ⟨n, hn, ev, hev, hsite, (produces_iff h hev).mpr ⟨hop, ?_⟩⟩
  apply Timestamp.eq_of_seqNumber_eq
  · exact hver.symm
  · exact (hwf.uid j t ht).trans hsite.symm
  · exact (hwf.replicaId j t ht).trans hsite.symm

/-- Timestamps of one replica with one sequence number were produced by one add. -/
theorem produces_unique (h : replicated.Reachable NoReuse C) {m n : ℕ}
    {ev ev' : UpdateEvent ℕ (SetOp α) (ORSet α)} {e e' : α} {t t' : Timestamp}
    (hev : C.log[m]? = some ev) (hev' : C.log[n]? = some ev') (hp : Produces ev e t)
    (hp' : Produces ev' e' t') (huid : t.uid = t'.uid) (hseq : t.seqNumber = t'.seqNumber) :
    m = n ∧ e = e' := by
  obtain ⟨hop, rfl⟩ := (produces_iff h hev).mp hp
  obtain ⟨hop', rfl⟩ := (produces_iff h hev').mp hp'
  have hmn : m = n := eq_of_version_eq h hev hop hev' hop' huid hseq
  refine ⟨hmn, ?_⟩
  have heq : ev = ev' := by
    rw [hmn, hev'] at hev
    exact (Option.some.inj hev).symm
  rw [heq, hop'] at hop
  exact (SetOp.add.inj hop).symm

/-- A tag was produced by exactly one of all adds of the run. -/
theorem existsUnique_produces (h : replicated.Reachable NoReuse C) {i : ℕ} {R : Replica (ORSet α)}
    (hR : C.HasState i R) {e : α} {adds : Tags} {j : ℕ} {t : Timestamp}
    (hadds : R.state.elements.lookup e = some adds) (ht : adds.lookup j = some t) :
    ∃! n : ℕ, ∃ ev, C.log[n]? = some ev ∧ ∃ e', Produces ev e' t := by
  obtain ⟨n, -, ev, hev, -, hp⟩ := exists_produces h hR hadds ht
  refine ⟨n, ⟨ev, hev, e, hp⟩, fun m hm => ?_⟩
  obtain ⟨ev', hev', e', hp'⟩ := hm
  exact (produces_unique h hev' hev hp' hp rfl rfl).1

/-- The add that produced a tag was executed at the replica the tag is filed under, for its
element. -/
theorem site_and_element_of_produces (h : replicated.Reachable NoReuse C) {i : ℕ}
    {R : Replica (ORSet α)} (hR : C.HasState i R) {e : α} {adds : Tags} {j : ℕ} {t : Timestamp}
    (hadds : R.state.elements.lookup e = some adds) (ht : adds.lookup j = some t) {n : ℕ}
    {ev : UpdateEvent ℕ (SetOp α) (ORSet α)} {e' : α} (hev : C.log[n]? = some ev)
    (hp : Produces ev e' t) : ev.site = j ∧ e' = e := by
  have huid := ((wellFormed_of_reachable h hR).tags e adds hadds).uid j t ht
  obtain ⟨m, -, ev₀, hev₀, -, hp₀⟩ := exists_produces h hR hadds ht
  refine ⟨?_, (produces_unique h hev hev₀ hp hp₀ rfl rfl).2⟩
  obtain ⟨-, rfl⟩ := (produces_iff h hev).mp hp
  exact huid

/-- Tags of one replica with one sequence number, in any two states, are of one element. -/
theorem element_eq_of_tag_eq (h : replicated.Reachable NoReuse C) {p q : ℕ}
    {R Q : Replica (ORSet α)} (hR : C.HasState p R) (hQ : C.HasState q Q) {e e' : α}
    {adds adds' : Tags} {j : ℕ} {t t' : Timestamp}
    (hadds : R.state.elements.lookup e = some adds)
    (hadds' : Q.state.elements.lookup e' = some adds') (ht : adds.lookup j = some t)
    (ht' : adds'.lookup j = some t') (hseq : t.seqNumber = t'.seqNumber) : e = e' := by
  have huid := ((wellFormed_of_reachable h hR).tags e adds hadds).uid j t ht
  have huid' := ((wellFormed_of_reachable h hQ).tags e' adds' hadds').uid j t' ht'
  obtain ⟨m, -, ev, hev, -, hp⟩ := exists_produces h hR hadds ht
  obtain ⟨n, -, ev', hev', -, hp'⟩ := exists_produces h hQ hadds' ht'
  exact (produces_unique h hev hev' hp hp' (huid.trans huid'.symm) hseq).2

/-! ## The versions that tags are compared with -/

/-- Version vectors are ordered by what they have seen. -/
theorem WellFormed.not_lt_of_seen_le {p q : ℕ} {X Y : ORSet α} (hX : WellFormed p X)
    (hY : WellFormed q Y) {j : ℕ} {v w : Timestamp} (hv : X.versions.lookup j = some v)
    (hw : Y.versions.lookup j = some w) (hle : X.seen j ≤ Y.seen j) : ¬ w < v := by
  have huid : w.uid = v.uid := (hY.versionUid j w hw).trans (hX.versionUid j v hv).symm
  rw [seen_of_lookup hv, seen_of_lookup hw] at hle
  rw [Timestamp.lt_iff_of_uid_eq huid]
  omega

/-- Nobody has seen more of a replica than the replica itself. -/
theorem exists_own_version (h : replicated.Reachable NoReuse C) {i : ℕ} {R : Replica (ORSet α)}
    (hR : C.HasState i R) {j : ℕ} {v : Timestamp} (hv : R.state.versions.lookup j = some v) :
    ∃ w, (C.node j).state.versions.lookup j = some w ∧ ¬ w < v := by
  have hown := wellFormed_of_reachable h (.now : C.HasState j (C.node j))
  obtain ⟨w, hw⟩ := hown.own
  have hle := seen_le_own h (fun _ _ hS => tracks_of_reachable h hS) hR j
  exact ⟨w, hw, (wellFormed_of_reachable h hR).not_lt_of_seen_le hown hv hw hle⟩

/-- Entries of a version vector stay and get no older while the replica runs. -/
theorem exists_later_version (h : replicated.Reachable NoReuse C) {i : ℕ}
    {as : List (ReplicaAction ℕ (SetOp α))} (has : replicated.Steps (Lasting i) C as) {j : ℕ}
    {v : Timestamp} (hv : (C.node i).state.versions.lookup j = some v) :
    ∃ w, ((replicated.exec C as).node i).state.versions.lookup j = some w ∧ ¬ w < v := by
  have hlater : replicated.Reachable NoReuse (replicated.exec C as) :=
    h.exec (has.mono fun _ _ hstep => hstep.1)
  have habsorbs := absorbs_exec h has
  obtain ⟨w, hw, -⟩ := habsorbs.versions j v hv
  exact ⟨w, hw, (wellFormed_of_reachable h .now).not_lt_of_seen_le
    (wellFormed_of_reachable hlater .now) hv hw (habsorbs.seen_le j)⟩

/-! ## All of it -/

/-- **Tags identify adds.** In every state of every run: an element has a tag; a tag carries the id
it is filed under, was produced by exactly one add, executed at that replica for that element, and
is not newer than the entry of the version vector; tags of one replica with one sequence number are
of one element; nobody has seen more of a replica than itself; and versions never decrease. -/
theorem tags_identify_adds (h : replicated.Reachable NoReuse C) :
    (∀ i R, C.HasState i R → ∀ e adds, R.state.elements.lookup e = some adds →
      (∃ j t, adds.lookup j = some t) ∧
      ∀ j t, adds.lookup j = some t →
        t.uid = j ∧
        (∃! n : ℕ, ∃ ev, C.log[n]? = some ev ∧ ∃ e', Produces ev e' t) ∧
        (∀ (n : ℕ) ev e', C.log[n]? = some ev → Produces ev e' t → ev.site = j ∧ e' = e) ∧
        ∃ v, R.state.versions.lookup j = some v ∧ ¬ v < t) ∧
    (∀ p q R Q, C.HasState p R → C.HasState q Q → ∀ e e' adds adds',
      R.state.elements.lookup e = some adds → Q.state.elements.lookup e' = some adds' →
      ∀ j t t', adds.lookup j = some t → adds'.lookup j = some t' →
        t.seqNumber = t'.seqNumber → e = e') ∧
    (∀ i R, C.HasState i R → ∀ j v, R.state.versions.lookup j = some v →
      ∃ w, (C.node j).state.versions.lookup j = some w ∧ ¬ w < v) ∧
    ∀ i as, replicated.Steps (Lasting i) C as →
      ∀ j v, (C.node i).state.versions.lookup j = some v →
        ∃ w, ((replicated.exec C as).node i).state.versions.lookup j = some w ∧ ¬ w < v := by
  refine ⟨?_, ?_, ?_, ?_⟩
  · intro i R hR e adds hadds
    have hwf := wellFormed_of_reachable h hR
    have htags := hwf.tags e adds hadds
    have hknows := hwf.knows htags (hwf.covers e adds hadds)
    refine ⟨htags.nonempty, fun j t ht => ?_⟩
    refine ⟨htags.uid j t ht, existsUnique_produces h hR hadds ht, ?_, hknows j t ht⟩
    intro n ev e' hev hp
    exact site_and_element_of_produces h hR hadds ht hev hp
  · intro p q R Q hR hQ e e' adds adds' hadds hadds' j t t' ht ht' hseq
    exact element_eq_of_tag_eq h hR hQ hadds hadds' ht ht' hseq
  · intro i R hR j v hv
    exact exists_own_version h hR hv
  · intro i as has j v hv
    exact exists_later_version h has hv

/-- Replica 1 adds an element again that it has received. -/
def addedAgain : Config ℕ (SetOp String) (ORSet String) :=
  replicated.exec replicated.start
    [.update 0 (.add "e"), .send 0, .deliver 1 0, .update 1 (.add "e")]

theorem existsUnique_addedAgain :
    ∃! n : ℕ, ∃ ev, addedAgain.log[n]? = some ev ∧ ∃ e', Produces ev e' ⟨1, 0, 0⟩ := by
  have hsteps : replicated.Steps NoReuse replicated.start
      [.update 0 (.add "e"), .send 0, .deliver 1 0, .update 1 (.add "e")] := by
    refine ⟨?_, trivial, trivial, ?_, trivial⟩
    · show (replicated.start.node 0).state.seen 0 + 1 < 2 ^ 64
      decide
    · show 0 + 1 < 2 ^ 64
      decide
  -- the tag of replica 0 at replica 1
  exact (((tags_identify_adds (Reachable.start.exec hsteps)).1 1 _ .now "e" _ rfl).2 0 ⟨1, 0, 0⟩
    rfl).2.1

end ORSet

end CrdtStore
