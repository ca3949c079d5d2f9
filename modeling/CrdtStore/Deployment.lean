import CrdtStore.MapRun

/-!
# The deployed topology

Clients put and remove keys and exchange maps with servers; servers only merge, what clients post
and what other servers broadcast. A client starts with a sync, so its version vector knows a server
before it first draws a version (`synced`). As servers draw none, a remove seen by a server or a
client always leaves the evidence that `_apply_remote_removes` looks for (`has_evidence`).

A removed element should stay out of every set that knows of the removes. It may not: where two
sides of a merge both contain an element, tags that one side has already seen removed stay, or come
back with the element. `CleanMerge` excludes that, and in runs of clean merges a set contains just
the elements with a live add (`contains_iff_live`).
-/

namespace CrdtStore

open UnorderedMap (Same)
open ReplicatedType Config

namespace ORSet

variable {α : Type*} [DecidableEq α]

/-- The version vector knows a server. -/
def synced (server : ℕ → Bool) (set : ORSet α) : Bool :=
  UnorderedMap.any set.versions fun j _ => server j

/-- The steps of the deployed system. -/
def Deployed (server : ℕ → Bool) (C : Config ℕ (SetOp α) (ORSet α))
    (a : ReplicaAction ℕ (SetOp α)) : Prop :=
  ClientServer server (synced server) C a ∧ NoReuse C a

/-- All tags are newer than the version vector. -/
def Unseen (set : ORSet α) (adds : Tags) : Prop :=
  ∀ j t, adds.lookup j = some t → set.seen j < t.seqNumber

/-- Merging `Q` into `R` keeps no tag of `e` that the other side has seen and lacks. -/
structure CleanMerge (R Q : ORSet α) (e : α) : Prop where
  kept : ∀ adds, R.elements.lookup e = some adds → Q.elements.lookup e = none →
    Q.Covers adds ∨ Q.Unseen adds
  copied : ∀ adds, R.elements.lookup e = none → Q.elements.lookup e = some adds →
    R.Covers adds ∨ R.Unseen adds
  updated : ∀ adds adds', R.elements.lookup e = some adds → Q.elements.lookup e = some adds' →
    ∀ j t, adds.lookup j = some t → Q.seen j < t.seqNumber ∨ adds'.lookup j = some t ∨
      ∃ t', adds'.lookup j = some t' ∧ R.seen j < t'.seqNumber

omit [DecidableEq α] in
instance (set : ORSet α) (adds : Tags) : Decidable (set.Covers adds) :=
  inferInstanceAs (Decidable (∀ j t, adds.lookup j = some t → t.seqNumber ≤ set.seen j))

omit [DecidableEq α] in
instance (set : ORSet α) (adds : Tags) : Decidable (set.Unseen adds) :=
  inferInstanceAs (Decidable (∀ j t, adds.lookup j = some t → set.seen j < t.seqNumber))

instance (R Q : ORSet α) (e : α) : Decidable (CleanMerge R Q e) :=
  decidable_of_iff
    ((∀ adds ∈ R.elements.lookup e, Q.elements.lookup e = none → Q.Covers adds ∨ Q.Unseen adds) ∧
      (R.elements.lookup e = none → ∀ adds ∈ Q.elements.lookup e, R.Covers adds ∨ R.Unseen adds) ∧
      ∀ adds ∈ R.elements.lookup e, ∀ adds' ∈ Q.elements.lookup e,
        ∀ j t, adds.lookup j = some t → Q.seen j < t.seqNumber ∨ adds'.lookup j = some t ∨
          ∃ t' ∈ adds'.lookup j, R.seen j < t'.seqNumber)
    ⟨fun h => ⟨h.1, fun adds hR hQ => h.2.1 hR adds hQ,
        fun adds adds' hR hQ => h.2.2 adds hR adds' hQ⟩,
      fun h => ⟨h.kept, fun hR adds hQ => h.copied adds hR hQ,
        fun adds hR adds' hQ => h.updated adds adds' hR hQ⟩⟩

/-- The merges of a run that are clean for `e`. -/
def KeepsNoStaleTag (e : α) (C : Config ℕ (SetOp α) (ORSet α)) : ReplicaAction ℕ (SetOp α) → Prop
  | .deliver i n => ∀ q Q, C.sent[n]? = some (q, Q) → CleanMerge (C.node i).state Q.state e
  | _ => True

variable {server : ℕ → Bool} {C : Config ℕ (SetOp α) (ORSet α)}

/-! ## Evidence of removes -/

omit [DecidableEq α] in
theorem synced_iff {set : ORSet α} : synced server set = true ↔
    ∃ s v, set.versions.lookup s = some v ∧ server s = true := UnorderedMap.any_eq_true

theorem synced_of_server {i : ℕ} {set : ORSet α} (h : WellFormed i set) (hi : server i = true) :
    synced server set = true := by
  obtain ⟨v, hv⟩ := h.own
  exact synced_iff.mpr ⟨i, v, hv, hi⟩

theorem synced_merge {set remote : ORSet α}
    (h : synced server set = true ∨ synced server remote = true) :
    synced server (set.merge remote) = true := by
  rw [synced_iff, synced_iff] at h
  rw [synced_iff]
  rcases h with ⟨s, v, hv, hs⟩ | ⟨s, v, hv, hs⟩
  · refine ⟨s, ?_⟩
    rw [lookup_versions_merge, hv]
    cases remote.versions.lookup s <;> exact ⟨_, rfl, hs⟩
  · refine ⟨s, ?_⟩
    rw [lookup_versions_merge, hv]
    cases set.versions.lookup s <;> exact ⟨_, rfl, hs⟩

theorem synced_apply {set : ORSet α} (h : synced server set = true) (op : SetOp α) :
    synced server (replicated.apply op set) = true := by
  cases op with
  | add e =>
    obtain ⟨s, v, hv, hs⟩ := synced_iff.mp h
    refine synced_iff.mpr ⟨s, ?_⟩
    show ∃ v, (set.add e).versions.lookup s = some v ∧ _
    rw [lookup_versions_add]
    split
    · exact ⟨_, rfl, hs⟩
    · exact ⟨v, hv, hs⟩
  | remove e => exact h
  | contains e => exact h

theorem noReuse_of_deployed (h : replicated.Reachable (Deployed server) C) :
    replicated.Reachable NoReuse C := h.mono fun _ _ h => h.2

/-- A replica that has seen any version knows a server. -/
theorem synced_or_fresh (h : replicated.Reachable (Deployed server) C) {i : ℕ}
    {R : Replica (ORSet α)} (hR : C.HasState i R) :
    synced server R.state = true ∨ ∀ j, R.state.seen j = 0 := by
  refine h.induct (P := fun _ _ R => synced server R.state = true ∨ ∀ j, R.state.seen j = 0)
    ?_ ?_ ?_ ?_ i R hR
  · intro C i _
    exact Or.inr (seen_new i)
  · intro C i op _ _ ih j R hR
    exact ih j R hR
  · intro C i op _ hstep _
    exact Or.inl (synced_apply hstep.1.2 op)
  · intro C i n q Q hC hstep hQ _ _
    left
    apply synced_merge
    -- one of the two is a server
    rcases hstep.1 with hi | hq
    · exact Or.inl (synced_of_server (wellFormed_of_reachable (noReuse_of_deployed hC) .now) hi)
    · have hwf := wellFormed_of_reachable (noReuse_of_deployed hC) (hasState_sent hQ)
      exact Or.inr (synced_of_server hwf (hq _ hQ))

/-- No tag was drawn by a server. -/
theorem tag_not_server (h : replicated.Reachable (Deployed server) C) {i : ℕ}
    {R : Replica (ORSet α)} (hR : C.HasState i R) {e : α} {adds : Tags} {j : ℕ} {t : Timestamp}
    (hadds : R.state.elements.lookup e = some adds) (ht : adds.lookup j = some t) :
    server j = false := by
  have htracks := tracks_of_reachable (noReuse_of_deployed h) hR
  obtain ⟨n, -, ev, hev, -, rfl, -⟩ := htracks.tagged e adds j t hadds ht
  obtain ⟨C', -, hstep, -, -⟩ := h.exists_event hev
  exact hstep.1.1

/-- A set that covers tags it lacks knows a version that is none of them, that of a server. -/
theorem has_evidence (h : replicated.Reachable (Deployed server) C) {i q : ℕ}
    {R Q : Replica (ORSet α)} (hR : C.HasState i R) (hQ : C.HasState q Q) {e : α} {adds : Tags}
    (hadds : R.state.elements.lookup e = some adds) (hc : Q.state.Covers adds) :
    ¬ Same adds Q.state.versions := by
  intro hsame
  have hwf := (wellFormed_of_reachable (noReuse_of_deployed h) hR).tags e adds hadds
  obtain ⟨j, t, ht⟩ := hwf.nonempty
  have hpos := hwf.pos j t ht
  have hle := hc j t ht
  rcases synced_or_fresh h hQ with hs | hfresh
  · obtain ⟨s, v, hv, hs⟩ := synced_iff.mp hs
    rw [tag_not_server h hR hadds ((hsame s).trans hv)] at hs
    cases hs
  · have := hfresh j
    omega

/-! ## Clean merges -/

/-- Every tag of `e` is that of a live add. -/
def TagsLive (log : List (UpdateEvent ℕ (SetOp α) (ORSet α))) (R : Replica (ORSet α)) (e : α) :
    Prop :=
  ∀ adds j t, R.state.elements.lookup e = some adds → adds.lookup j = some t →
    ∃ n ev, log[n]? = some ev ∧ ev.op = .add e ∧ ev.site = j ∧ version ev = t.seqNumber ∧
      Live log (· = .remove e) R n

section Merge

variable {i q : ℕ} {R Q : Replica (ORSet α)} {e : α}

/-- The add behind a tag is live. -/
theorem TagsLive.live (h : replicated.Reachable NoReuse C) (hlive : TagsLive C.log R e)
    {adds : Tags} (hadds : R.state.elements.lookup e = some adds) {t : Timestamp} {n : ℕ}
    {ev : UpdateEvent ℕ (SetOp α) (ORSet α)} (hev : C.log[n]? = some ev) (hop : ev.op = .add e)
    (ht : adds.lookup ev.site = some t) (hver : version ev = t.seqNumber) :
    Live C.log (· = .remove e) R n := by
  obtain ⟨n', ev', hev', hop', hsite, hver', hl⟩ := hlive adds _ t hadds ht
  rwa [eq_of_version_eq h hev hop hev' hop' hsite.symm (hver.trans hver'.symm)]

theorem tagsLive_kept (h : replicated.Reachable (Deployed server) C) (hR : C.HasState i R)
    (hQ : C.HasState q Q) (hclean : CleanMerge R.state Q.state e) (hlR : TagsLive C.log R e)
    {adds : Tags} (hadds : R.state.elements.lookup e = some adds)
    (hlack : Q.state.elements.lookup e = none)
    (hkeep : newerRemoteRemove Q.state adds = false) {j : ℕ} {t : Timestamp}
    (ht : adds.lookup j = some t) :
    ∃ n ev, C.log[n]? = some ev ∧ ev.op = .add e ∧ ev.site = j ∧ version ev = t.seqNumber ∧
      Live C.log (· = .remove e) (replicated.merged R Q) n := by
  have hwf := (wellFormed_of_reachable (noReuse_of_deployed h) hR).tags e adds hadds
  have hwfQ := wellFormed_of_reachable (noReuse_of_deployed h) hQ
  have hnot : ¬ Q.state.Covers adds := by
    intro hc
    rw [← Bool.not_eq_true, newerRemoteRemove_iff hwfQ hwf] at hkeep
    exact hkeep ⟨hc, has_evidence h hR hQ hadds hc⟩
  have hunseen := ((hclean.kept adds hadds hlack).resolve_left hnot) j t ht
  obtain ⟨n, ev, hev, hop, rfl, hver, hlive⟩ := hlR adds j t hadds ht
  refine ⟨n, ev, hev, hop, rfl, hver, (h.live_merged hR hQ n).mpr ⟨Or.inl hlive.1, fun _ => hlive,
    fun hn => ?_⟩⟩
  have hseen := ((tracks_of_reachable (noReuse_of_deployed h) hQ).seen_iff n ev e hev hop).mp hn
  omega

/-- A remote tag that the local set has not seen stays live. -/
theorem tagsLive_unseen (h : replicated.Reachable (Deployed server) C) (hR : C.HasState i R)
    (hQ : C.HasState q Q) (hlQ : TagsLive C.log Q e) {adds : Tags}
    (hadds : Q.state.elements.lookup e = some adds) {j : ℕ} {t : Timestamp}
    (ht : adds.lookup j = some t) (hunseen : R.state.seen j < t.seqNumber) :
    ∃ n ev, C.log[n]? = some ev ∧ ev.op = .add e ∧ ev.site = j ∧ version ev = t.seqNumber ∧
      Live C.log (· = .remove e) (replicated.merged R Q) n := by
  obtain ⟨n, ev, hev, hop, rfl, hver, hlive⟩ := hlQ adds j t hadds ht
  refine ⟨n, ev, hev, hop, rfl, hver, (h.live_merged hR hQ n).mpr ⟨Or.inr hlive.1, fun hn => ?_,
    fun _ => hlive⟩⟩
  have hseen := ((tracks_of_reachable (noReuse_of_deployed h) hR).seen_iff n ev e hev hop).mp hn
  omega

/-- A local tag that stays where both sides contain the element. -/
theorem tagsLive_updated (h : replicated.Reachable (Deployed server) C) (hR : C.HasState i R)
    (hQ : C.HasState q Q) (hclean : CleanMerge R.state Q.state e) (hlR : TagsLive C.log R e)
    (hlQ : TagsLive C.log Q e) {adds adds' : Tags}
    (hadds : R.state.elements.lookup e = some adds)
    (hadds' : Q.state.elements.lookup e = some adds') {j : ℕ} {t : Timestamp}
    (ht : (R.state.updateTags adds adds').lookup j = some t) (hlocal : adds.lookup j = some t) :
    ∃ n ev, C.log[n]? = some ev ∧ ev.op = .add e ∧ ev.site = j ∧ version ev = t.seqNumber ∧
      Live C.log (· = .remove e) (replicated.merged R Q) n := by
  have hwfR := wellFormed_of_reachable (noReuse_of_deployed h) hR
  obtain ⟨n, ev, hev, hop, rfl, hver, hlive⟩ := hlR adds j t hadds hlocal
  refine ⟨n, ev, hev, hop, rfl, hver, (h.live_merged hR hQ n).mpr ⟨Or.inl hlive.1, fun _ => hlive,
    fun hn => ?_⟩⟩
  rcases hclean.updated adds adds' hadds hadds' _ t hlocal with hunseen | hsame | ⟨t', ht', hlt⟩
  · have hseen := ((tracks_of_reachable (noReuse_of_deployed h) hQ).seen_iff n ev e hev hop).mp hn
    omega
  · -- the other side has the same tag, of the same add
    exact hlQ.live (noReuse_of_deployed h) hadds' hev hop hsame hver
  · -- the other side replaces it by a newer one
    have hwf := (wellFormed_of_reachable (noReuse_of_deployed h) hQ).tags e adds' hadds'
    rw [lookup_updateTags_of_lt hwfR adds hwf ht' hlt] at ht
    cases ht
    have hle := hwfR.covers e adds hadds _ t hlocal
    omega

/-- Clean merges keep live tags only. -/
theorem TagsLive.merge (h : replicated.Reachable (Deployed server) C) (hR : C.HasState i R)
    (hQ : C.HasState q Q) (hclean : CleanMerge R.state Q.state e) (hlR : TagsLive C.log R e)
    (hlQ : TagsLive C.log Q e) : TagsLive C.log (replicated.merged R Q) e := by
  intro adds j t hadds ht
  have hwfR := wellFormed_of_reachable (noReuse_of_deployed h) hR
  have hwfQ := wellFormed_of_reachable (noReuse_of_deployed h) hQ
  rcases lookup_merge_eq_some hadds with ⟨hs, hr, hkeep⟩ | ⟨hs, hr, hany⟩ |
    ⟨localAdds, remoteAdds, hs, hr, rfl⟩
  · exact tagsLive_kept h hR hQ hclean hlR hs hr hkeep ht
  · rw [any_unseen_iff hwfR (hwfQ.tags e adds hr)] at hany
    exact tagsLive_unseen h hR hQ hlQ hr ht ((hclean.copied adds hs hr).resolve_left hany j t ht)
  · rcases tag_updateTags ht with hlocal | ⟨hremote, hun⟩
    · exact tagsLive_updated h hR hQ hclean hlR hlQ hs hr ht hlocal
    · have hwf := hwfQ.tags e remoteAdds hr
      rw [unseen_iff hwfR (hwf.uid j t hremote) (hwf.pos j t hremote)] at hun
      exact tagsLive_unseen h hR hQ hlQ hr hremote hun

/-- When all tags of `S` are live, a state for which no seen add of `S` is dead has a tag at least
as new as each tag of `S` that it has seen. -/
theorem TagsLive.exists_tag {S : Replica (ORSet α)} (h : replicated.Reachable NoReuse C)
    (hlive : TagsLive C.log S e) {p : ℕ} {P : Replica (ORSet α)} (hP : C.HasState p P)
    (hkeep : ∀ n, Live C.log (· = .remove e) S n → n ∈ P.hist →
      Live C.log (· = .remove e) P n)
    {adds : Tags} (hadds : S.state.elements.lookup e = some adds) {j : ℕ} {t : Timestamp}
    (ht : adds.lookup j = some t) (hseen : t.seqNumber ≤ P.state.seen j) :
    ∃ adds' t', P.state.elements.lookup e = some adds' ∧ adds'.lookup j = some t' ∧
      t.seqNumber ≤ t'.seqNumber := by
  obtain ⟨n, ev, hev, hop, rfl, hver, hl⟩ := hlive adds j t hadds ht
  have hn : n ∈ P.hist := by
    rw [(tracks_of_reachable h hP).seen_iff n ev e hev hop, hver]
    exact hseen
  rw [← hver]
  exact liveTagged_of_reachable h hP n ev e hev hop (hkeep n hl hn)

/-- A live tag is not older than another live add of its replica that the state has seen. -/
theorem TagsLive.version_le (h : replicated.Reachable NoReuse C) (hR : C.HasState i R)
    (hlR : TagsLive C.log R e) {adds : Tags} (hadds : R.state.elements.lookup e = some adds)
    {t : Timestamp} {n : ℕ} {ev : UpdateEvent ℕ (SetOp α) (ORSet α)} (hev : C.log[n]? = some ev)
    (hop : ev.op = .add e) (ht : adds.lookup ev.site = some t) (hn : n ∈ R.hist) :
    version ev ≤ t.seqNumber := by
  by_contra hlt
  obtain ⟨m, ev', hev', hop', hsite, hver', hl⟩ := hlR adds _ t hadds ht
  have hmn : m < n := by
    by_contra hle
    rcases Nat.lt_or_ge n m with hnm | hmn
    · have := version_lt h hnm hev hop hev' hop' hsite.symm
      omega
    · obtain rfl : m = n := by omega
      rw [hev] at hev'
      cases hev'
      omega
  have hpast : m ∈ ev.past := add_mem_past h hmn hev' hop' hev hsite
  -- a remove of the newer add had seen the older one too
  have hdead : ¬ Live C.log (· = .remove e) R n := by
    intro hlive
    obtain ⟨adds', t', hadds', ht', hle⟩ := liveTagged_of_reachable h hR n ev e hev hop hlive
    rw [hadds] at hadds'
    cases hadds'
    rw [ht] at ht'
    cases ht'
    omega
  obtain ⟨r, hr, evr, hevr, hopr, hnr⟩ := Removed.of_not_live hn hdead
  exact hl.2 r hr evr hevr hopr (h.past_trans hevr hnr hev hpast)

/-- The tag of a live add that the other side has seen is not older than the tag there. -/
theorem TagsLive.tag_eq (h : replicated.Reachable NoReuse C) (hR : C.HasState i R)
    (hQ : C.HasState q Q) (hlR : TagsLive C.log R e) (hlQ : TagsLive C.log Q e)
    {adds adds' : Tags} (hadds : R.state.elements.lookup e = some adds)
    (hadds' : Q.state.elements.lookup e = some adds') {j : ℕ} {t t' : Timestamp}
    (ht : adds.lookup j = some t) (ht' : adds'.lookup j = some t')
    (hle : t.seqNumber ≤ t'.seqNumber) (hseen : t'.seqNumber ≤ R.state.seen j) : t' = t := by
  have hwfR := (wellFormed_of_reachable h hR).tags e adds hadds
  have hwfQ := (wellFormed_of_reachable h hQ).tags e adds' hadds'
  obtain ⟨n, ev, hev, hop, rfl, hver, -⟩ := hlQ adds' j t' hadds' ht'
  have hn : n ∈ R.hist := by
    rw [(tracks_of_reachable h hR).seen_iff n ev e hev hop, hver]
    exact hseen
  have hge := hlR.version_le h hR hadds hev hop ht hn
  apply Timestamp.eq_of_seqNumber_eq
  · omega
  · exact (hwfQ.uid _ t' ht').trans (hwfR.uid _ t ht).symm
  · exact (hwfQ.replicaId _ t' ht').trans (hwfR.replicaId _ t ht).symm

/-- Only clean merges keep live tags only. -/
theorem CleanMerge.of_tagsLive (h : replicated.Reachable NoReuse C) (hR : C.HasState i R)
    (hQ : C.HasState q Q) (hlR : TagsLive C.log R e) (hlQ : TagsLive C.log Q e)
    (hlive : TagsLive C.log (replicated.merged R Q) e) : CleanMerge R.state Q.state e where
  kept adds hadds hlack := by
    by_contra hcon
    rw [not_or] at hcon
    have hwfR := wellFormed_of_reachable h hR
    have hwfQ := wellFormed_of_reachable h hQ
    have hmerged : (R.state.merge Q.state).elements.lookup e = some adds := by
      rw [lookup_merge, hadds, hlack]
      exact if_neg fun hnewer =>
        hcon.1 ((newerRemoteRemove_iff hwfQ (hwfR.tags e adds hadds)).mp hnewer).1
    refine hcon.2 fun j t ht => ?_
    by_contra hseen
    obtain ⟨adds', -, hadds', -⟩ := hlive.exists_tag h hQ
      (fun n hn => ((h.live_merged hR hQ n).mp hn).2.2) hmerged ht (not_lt.mp hseen)
    rw [hlack] at hadds'
    cases hadds'
  copied adds hlack hadds := by
    by_contra hcon
    rw [not_or] at hcon
    have hwfR := wellFormed_of_reachable h hR
    have hwfQ := wellFormed_of_reachable h hQ
    have hmerged : (R.state.merge Q.state).elements.lookup e = some adds := by
      rw [lookup_merge, hlack, hadds]
      exact if_pos ((any_unseen_iff hwfR (hwfQ.tags e adds hadds)).mpr hcon.1)
    refine hcon.2 fun j t ht => ?_
    by_contra hseen
    obtain ⟨adds', -, hadds', -⟩ := hlive.exists_tag h hR
      (fun n hn => ((h.live_merged hR hQ n).mp hn).2.1) hmerged ht (not_lt.mp hseen)
    rw [hlack] at hadds'
    cases hadds'
  updated adds adds' hadds hadds' j t ht := by
    have hwfR := wellFormed_of_reachable h hR
    have hwfQ := (wellFormed_of_reachable h hQ).tags e adds' hadds'
    by_contra hcon
    rw [not_or, not_or, not_lt] at hcon
    obtain ⟨hseen, hne, hnewer⟩ := hcon
    have hold : ∀ t', adds'.lookup j = some t' → t'.seqNumber ≤ R.state.seen j :=
      fun t' ht' => not_lt.mp fun hlt => hnewer ⟨t', ht', hlt⟩
    have hmerged : (R.state.merge Q.state).elements.lookup e =
        some (R.state.updateTags adds adds') := by
      rw [lookup_merge, hadds, hadds']
    -- the tag stays, so its add is live at the other side, which has a tag as new
    have hstays : (R.state.updateTags adds adds').lookup j = some t :=
      (lookup_updateTags_of_le hwfR adds hwfQ hold).trans ht
    obtain ⟨adds'', t', hadds'', ht', hle⟩ := hlive.exists_tag h hQ
      (fun n hn => ((h.live_merged hR hQ n).mp hn).2.2) hmerged hstays hseen
    rw [hadds'] at hadds''
    cases hadds''
    -- and no newer one, as that would be dead at this side
    have heq := hlR.tag_eq h hR hQ hlQ hadds hadds' ht ht' hle (hold t' ht')
    rw [heq] at ht'
    exact hne ht'

/-- **Clean merges are exactly those that keep live tags only**, of sets with live tags only. -/
theorem tagsLive_merged_iff (h : replicated.Reachable (Deployed server) C) (hR : C.HasState i R)
    (hQ : C.HasState q Q) (hlR : TagsLive C.log R e) (hlQ : TagsLive C.log Q e) :
    TagsLive C.log (replicated.merged R Q) e ↔ CleanMerge R.state Q.state e :=
  ⟨CleanMerge.of_tagsLive (noReuse_of_deployed h) hR hQ hlR hlQ,
    fun hclean => hlR.merge h hR hQ hclean hlQ⟩

end Merge

/-- The steps of the deployed system whose merges are clean for `e`. -/
def CleanlyDeployed (server : ℕ → Bool) (e : α) (C : Config ℕ (SetOp α) (ORSet α))
    (a : ReplicaAction ℕ (SetOp α)) : Prop :=
  Deployed server C a ∧ KeepsNoStaleTag e C a

theorem tagsLive_of_reachable {e : α} (h : replicated.Reachable (CleanlyDeployed server e) C)
    {i : ℕ} {R : Replica (ORSet α)} (hR : C.HasState i R) : TagsLive C.log R e := by
  refine h.induct (P := fun log _ R => TagsLive log R e) ?_ ?_ ?_ ?_ i R hR
  · intro C i _ adds j t hadds
    cases hadds
  · intro C i op hC _ ih j R hR adds j' t hadds ht
    obtain ⟨n, ev, hev, hop, hsite, hver, hlive⟩ := ih j R hR adds j' t hadds ht
    exact ⟨n, ev, by rw [hC.log_append hR hlive.1]; exact hev, hop, hsite, hver,
      (hC.live_append hR _ n).mpr hlive⟩
  · intro C i op hC hstep ih adds j t hadds ht
    have hdep := hC.mono fun _ _ h => h.1
    -- a tag from before, unless the operation removes the element
    have hold : ∀ adds', (C.node i).state.elements.lookup e = some adds' →
        adds'.lookup j = some t → op ≠ .remove e →
        ∃ n ev, (C.log ++ [replicated.event C i op])[n]? = some ev ∧ ev.op = .add e ∧
          ev.site = j ∧ version ev = t.seqNumber ∧
          Live (C.log ++ [replicated.event C i op]) (· = .remove e) (replicated.updated C i op)
            n := by
      intro adds' hadds' ht' hop
      obtain ⟨n, ev, hev, hop', hsite, hver, hlive⟩ := ih i _ .now adds' j t hadds' ht'
      exact ⟨n, ev, by rw [hC.log_append .now hlive.1]; exact hev, hop', hsite, hver,
        (hC.live_updated n).mpr (Or.inr ⟨hop, hlive⟩)⟩
    cases op with
    | add e₀ =>
      have hwf := wellFormed_of_reachable (noReuse_of_deployed hdep)
        (.now : C.HasState i (C.node i))
      rcases hwf.tag_add hstep.1.2 hadds ht with ⟨rfl, rfl, rfl⟩ | ⟨adds', hadds', ht'⟩
      · refine ⟨C.log.length, replicated.event C j (.add e), by simp, rfl, rfl, ?_,
          (hC.live_updated _).mpr (Or.inl rfl)⟩
        exact version_event (noReuse_of_deployed hdep) hstep.1.2
      · exact hold adds' hadds' ht' nofun
    | remove e₀ =>
      change ((C.node i).state.remove e₀).2.elements.lookup e = some adds at hadds
      rw [lookup_remove] at hadds
      split at hadds
      · cases hadds
      · next hne =>
        refine hold adds hadds ht fun heq => hne ?_
        cases heq
        rfl
    | contains e₀ => exact hold adds hadds ht nofun
  · intro C i n q Q hC hstep hQ hR hlQ
    exact hR.merge (hC.mono fun _ _ h => h.1) .now (hasState_sent hQ) (hstep.2 q Q hQ) hlQ

/-- **A set contains just the elements with a live add**, in runs of clean merges. -/
theorem contains_iff_live {e : α} (h : replicated.Reachable (CleanlyDeployed server e) C) {i : ℕ}
    {R : Replica (ORSet α)} (hR : C.HasState i R) :
    R.state.contains e = true ↔
      ∃ n ev, C.log[n]? = some ev ∧ ev.op = .add e ∧ Live C.log (· = .remove e) R n := by
  have hnr : replicated.Reachable NoReuse C := h.mono fun _ _ h => h.1.2
  constructor
  · intro he
    obtain ⟨adds, hadds⟩ := contains_iff.mp he
    obtain ⟨j, t, ht⟩ := ((wellFormed_of_reachable hnr hR).tags e adds hadds).nonempty
    obtain ⟨n, ev, hev, hop, -, -, hlive⟩ := tagsLive_of_reachable h hR adds j t hadds ht
    exact ⟨n, ev, hev, hop, hlive⟩
  · rintro ⟨n, ev, hev, hop, hlive⟩
    exact contains_of_live hnr hR hev hop hlive

end ORSet

namespace Map

variable {K V : Type*} [DecidableEq K] [Inhabited V]
  {server : ℕ → Bool} {C : Config ℕ (MapOp K V) (Map K V)}

/-! ## Maps -/

/-- The steps of the deployed system. -/
def Deployed (server : ℕ → Bool) (C : Config ℕ (MapOp K V) (Map K V))
    (a : ReplicaAction ℕ (MapOp K V)) : Prop :=
  ClientServer server (fun m => m.keys.synced server) C a ∧ NoReuse C a

/-- The merges of a run that are clean for the key `k`. -/
def KeepsNoStaleTag (k : K) (C : Config ℕ (MapOp K V) (Map K V)) :
    ReplicaAction ℕ (MapOp K V) → Prop
  | .deliver i n => ∀ q Q, C.sent[n]? = some (q, Q) →
      ORSet.CleanMerge (C.node i).state.keys Q.state.keys k
  | _ => True

instance (k : K) (C : Config ℕ (MapOp K V) (Map K V)) (a : ReplicaAction ℕ (MapOp K V)) :
    Decidable (KeepsNoStaleTag k C a) :=
  match a with
  | .deliver i n =>
    decidable_of_iff
      (∀ p ∈ C.sent[n]?, ORSet.CleanMerge (C.node i).state.keys p.2.state.keys k)
      ⟨fun h q Q hQ => h (q, Q) hQ, fun h p hp => h p.1 p.2 hp⟩
  | .update _ _ => isTrue trivial
  | .send _ => isTrue trivial
  | .restart _ => isTrue trivial

/-- The steps of the deployed system whose merges are clean for `k`. -/
def CleanlyDeployed (server : ℕ → Bool) (k : K) (C : Config ℕ (MapOp K V) (Map K V))
    (a : ReplicaAction ℕ (MapOp K V)) : Prop :=
  Deployed server C a ∧ KeepsNoStaleTag k C a

instance (server : ℕ → Bool) (C : Config ℕ (MapOp K V) (Map K V))
    (a : ReplicaAction ℕ (MapOp K V)) : Decidable (Deployed server C a) :=
  inferInstanceAs (Decidable (_ ∧ _))

instance (server : ℕ → Bool) (k : K) (C : Config ℕ (MapOp K V) (Map K V))
    (a : ReplicaAction ℕ (MapOp K V)) : Decidable (CleanlyDeployed server k C a) :=
  inferInstanceAs (Decidable (_ ∧ _))

theorem reachable_keysView_cleanly {k : K}
    (h : replicated.Reachable (CleanlyDeployed server k) C) :
    ORSet.replicated.Reachable (ORSet.CleanlyDeployed server k) (C.map keys keyOp) := by
  refine keysView.reachable (fun C a hG => ⟨⟨hG.1.1.map, noReuse_map hG.1.2⟩, ?_⟩) h
  cases a with
  | deliver i n =>
    intro q Q hQ
    obtain ⟨p, hp, hpQ⟩ := Option.map_eq_some_iff.mp ((getElem?_sent_map ..).symm.trans hQ)
    cases hpQ
    exact hG.2 p.1 p.2 hp
  | update i op => trivial
  | send i => trivial
  | restart i => trivial

/-- **No zombie keys.** In runs of the deployed system whose merges are clean for `k`, a replica all
of whose puts of `k` have been seen by removes it knows of does not contain `k`. -/
theorem not_contains_of_observed_removes {k : K}
    (h : replicated.Reachable (CleanlyDeployed server k) C) {i : ℕ} {R : Replica (Map K V)}
    (hR : C.HasState i R)
    (hremoved : ∀ n ∈ R.hist, ∀ ev v, C.log[n]? = some ev → ev.op = .put k v →
      Removed C.log (· = .remove k) R n) :
    R.state.contains k = false := by
  rw [← Bool.not_eq_true]
  intro hk
  have hview := (ORSet.contains_iff_live (reachable_keysView_cleanly h)
    (hR.map keys keyOp)).mp hk
  obtain ⟨n, ev, hev, hop, hlive⟩ := hview
  rw [getElem?_log_map] at hev
  obtain ⟨ev', hev', rfl⟩ := Option.map_eq_some_iff.mp hev
  -- an add of the key set is a put of the map
  have hput : ∃ v, ev'.op = .put k v := by
    have hop : keyOp ev'.op = .add k := hop
    cases hop' : ev'.op with
    | put key val =>
      rw [hop'] at hop
      cases hop
      exact ⟨val, rfl⟩
    | remove key =>
      rw [hop'] at hop
      cases hop
    | get key =>
      rw [hop'] at hop
      cases hop
  obtain ⟨v, hput⟩ := hput
  have hlive := hlive.of_map keys keyOp (p := (· = .remove k)) (fun op hop => by rw [hop]; rfl)
  exact hlive.not_removed (hremoved n hlive.1 ev' v hev' hput)

/-- Servers have the ids 0 to 4. -/
def isServer (i : ℕ) : Bool := i < 5

/-- Client `c` syncs with server `s`, whose broadcast reaches server `p` only, after `n`
messages. -/
def syncRound (c s p n : ℕ) : List (ReplicaAction ℕ (MapOp String String)) :=
  [.send c, .deliver s n, .send s, .deliver p (n + 1), .deliver c (n + 1)]

/-- Clients 5 and 6 put a key, 7 removes the put of 5 and 8 that of 6; 7 then receives the put of 6
and 8 that of 5, before either knows of the remove of the other. -/
def crossedRemoves : List (ReplicaAction ℕ (MapOp String String)) :=
  syncRound 5 0 1 0 ++ syncRound 6 2 3 2 ++ syncRound 7 0 1 4 ++ syncRound 8 2 3 6 ++
    .update 5 (.put "k" "a") :: syncRound 5 0 1 8 ++
    .update 6 (.put "k" "b") :: syncRound 6 2 3 10 ++
    syncRound 7 0 1 12 ++ syncRound 8 2 3 14 ++
    .update 7 (.remove "k") :: .update 8 (.remove "k") ::
    syncRound 7 2 3 16 ++ syncRound 8 0 1 18 ++ syncRound 8 2 3 20

/-- The global state after `crossedRemoves`. -/
def afterCrossedRemoves : Config ℕ (MapOp String String) (Map String String) :=
  replicated.exec replicated.start crossedRemoves

/-- Server 2 knows of both removes and keeps the tag of client 6, which client 8 had removed. -/
theorem zombie_key :
    replicated.Steps (Deployed isServer) replicated.start crossedRemoves ∧
      (∀ n ∈ (afterCrossedRemoves.node 2).hist, ∀ ev v, afterCrossedRemoves.log[n]? = some ev →
        ev.op = .put "k" v →
        Removed afterCrossedRemoves.log (· = .remove "k") (afterCrossedRemoves.node 2) n) ∧
      (afterCrossedRemoves.node 2).state.contains "k" = true := by
  refine ⟨by decide, fun n hn ev v hev hop => ?_, by decide⟩
  have hall : ∀ n ∈ (afterCrossedRemoves.node 2).hist,
      (∀ ev ∈ afterCrossedRemoves.log[n]?, ∀ key val, ev.op ≠ .put key val) ∨
        Removed afterCrossedRemoves.log (· = .remove "k") (afterCrossedRemoves.node 2) n := by
    decide
  exact (hall n hn).resolve_left fun hne => hne ev hev "k" v hop

/-- Client 5 puts a key and removes it again. -/
def putThenRemove : List (ReplicaAction ℕ (MapOp String String)) :=
  syncRound 5 0 1 0 ++ .update 5 (.put "k" "a") :: syncRound 5 0 1 2 ++
    .update 5 (.remove "k") :: syncRound 5 0 1 4

theorem not_contains_putThenRemove :
    ((replicated.exec replicated.start putThenRemove).node 1).state.contains "k" = false := by
  have hsteps : replicated.Steps (CleanlyDeployed isServer "k") replicated.start putThenRemove := by
    decide
  refine not_contains_of_observed_removes (Reachable.start.exec hsteps) (.now : HasState _ 1 _)
    fun n hn ev v hev hop => ?_
  have hall : ∀ n ∈ ((replicated.exec replicated.start putThenRemove).node 1).hist,
      (∀ ev ∈ (replicated.exec replicated.start putThenRemove).log[n]?,
        ∀ key val, ev.op ≠ .put key val) ∨
      Removed (replicated.exec replicated.start putThenRemove).log (· = .remove "k")
        ((replicated.exec replicated.start putThenRemove).node 1) n := by
    decide
  exact (hall n hn).resolve_left fun hne => hne ev hev "k" v hop

end Map

end CrdtStore
