import CrdtStore.Library.Replication
import CrdtStore.ORSetMerge

/-!
# Runs of observed-remove sets

Replicas with distinct ids add and remove elements and merge states that any of them sent. Every
add draws the next version of its replica (`version`), and the invariant `Tracks` ties the code's
state to the causal history: the version vector has seen exactly the adds in the history, and
every tag is an add in the history. From it follows that an element is never lost: an add that no
remove in the history had observed keeps a tag (`LiveTagged`).

Runs are those in which no version counter wraps and only replicas that have not added anything
are restarted (`NoReuse`).
-/

namespace CrdtStore

open ReplicatedType Config

/-- The calls of an `ORSet` other than `merge`. -/
inductive SetOp (α : Type*) where
  | add (e : α)
  | remove (e : α)
  | contains (e : α)
deriving DecidableEq

namespace ORSet

variable {α : Type*} [DecidableEq α]

/-- Replicas of a set, each with its id. -/
def replicated : ReplicatedType ℕ (SetOp α) (ORSet α) where
  init := new
  apply op set :=
    match op with
    | .add e => set.add e
    | .remove e => (set.remove e).2
    | .contains _ => set
  merge := merge

/-- No version counter wraps, and no replica restarts after an add. -/
def NoReuse (C : Config ℕ (SetOp α) (ORSet α)) : ReplicaAction ℕ (SetOp α) → Prop
  | .update i (.add _) => (C.node i).state.seen i + 1 < 2 ^ 64
  | .restart i => ∀ ev ∈ C.log, ev.site = i → ∀ e, ev.op ≠ .add e
  | _ => True

/-- The version an add drew. -/
def version (ev : UpdateEvent ℕ (SetOp α) (ORSet α)) : ℕ := ev.state.seen ev.site

variable {C : Config ℕ (SetOp α) (ORSet α)}

/-- No add wraps the version counter of its replica. -/
def NoWrap (G : Config ℕ (SetOp α) (ORSet α) → ReplicaAction ℕ (SetOp α) → Prop) : Prop :=
  ∀ C i e, G C (.update i (.add e)) → (C.node i).state.seen i + 1 < 2 ^ 64

omit [DecidableEq α] in
theorem noWrap_noReuse :
    NoWrap (NoReuse : Config ℕ (SetOp α) (ORSet α) → ReplicaAction ℕ (SetOp α) → Prop) :=
  fun _ _ _ h => h

theorem wellFormed_of_noWrap {G : Config ℕ (SetOp α) (ORSet α) → ReplicaAction ℕ (SetOp α) → Prop}
    (hG : NoWrap G) (h : replicated.Reachable G C) {i : ℕ} {R : Replica (ORSet α)}
    (hR : C.HasState i R) : WellFormed i R.state := by
  refine h.induct (P := fun _ i R => WellFormed i R.state) ?_ ?_ ?_ ?_ i R hR
  · intro C i _
    exact WellFormed.new i
  · intro C i op _ _ ih j R hR
    exact ih j R hR
  · intro C i op _ hstep ih
    have hwf := ih i _ .now
    cases op with
    | add e => exact hwf.add (hG C i e hstep) e
    | remove e => exact hwf.remove e
    | contains e => exact hwf
  · intro C i n q Q _ _ _ hR hQ
    exact hR.merge hQ

theorem wellFormed_of_reachable (h : replicated.Reachable NoReuse C) {i : ℕ}
    {R : Replica (ORSet α)} (hR : C.HasState i R) : WellFormed i R.state :=
  wellFormed_of_noWrap noWrap_noReuse h hR

/-- The version drawn by the next add of replica `i`. -/
theorem version_event (h : replicated.Reachable NoReuse C) {i : ℕ} {e : α}
    (hG : NoReuse C (.update i (.add e))) :
    version (replicated.event C i (.add e)) = (C.node i).state.seen i + 1 := by
  show ((C.node i).state.add e).seen i = _
  rw [(wellFormed_of_reachable h .now).seen_add hG, if_pos rfl]

/-- The version of a logged add is the next one of its replica. -/
theorem exists_version (h : replicated.Reachable NoReuse C) {n : ℕ}
    {ev : UpdateEvent ℕ (SetOp α) (ORSet α)} (hev : C.log[n]? = some ev) {e : α}
    (hop : ev.op = .add e) : ∃ C', replicated.Reachable NoReuse C' ∧ C'.log = C.log.take n ∧
      ev.past = (C'.node ev.site).hist ∧ version ev = (C'.node ev.site).state.seen ev.site + 1 := by
  obtain ⟨C', hC', hstep, hevent, hlog⟩ := h.exists_event hev
  rw [hop] at hstep hevent
  refine ⟨C', hC', hlog, ?_, ?_⟩
  · rw [← hevent]
    rfl
  · have hversion := version_event hC' hstep
    rwa [hevent] at hversion

theorem version_pos (h : replicated.Reachable NoReuse C) {n : ℕ}
    {ev : UpdateEvent ℕ (SetOp α) (ORSet α)} (hev : C.log[n]? = some ev) {e : α}
    (hop : ev.op = .add e) : 0 < version ev := by
  obtain ⟨C', -, -, -, hversion⟩ := exists_version h hev hop
  omega

/-- The causal history as the code's state knows it. -/
structure Tracks (log : List (UpdateEvent ℕ (SetOp α) (ORSet α))) (R : Replica (ORSet α)) :
    Prop where
  /-- The version vector has seen exactly the adds of the history. -/
  seen_iff : ∀ n ev e, log[n]? = some ev → ev.op = .add e →
    (n ∈ R.hist ↔ version ev ≤ R.state.seen ev.site)
  /-- Every version seen was drawn by an add of the history. -/
  drawn : ∀ j, 0 < R.state.seen j → ∃ n ∈ R.hist, ∃ ev e, log[n]? = some ev ∧ ev.op = .add e ∧
    ev.site = j ∧ version ev = R.state.seen j
  /-- Every tag was drawn by an add of that element in the history. -/
  tagged : ∀ e adds j t, R.state.elements.lookup e = some adds → adds.lookup j = some t →
    ∃ n ∈ R.hist, ∃ ev, log[n]? = some ev ∧ ev.op = .add e ∧ ev.site = j ∧
      version ev = t.seqNumber

/-- A replica is restarted before its first add only, so it has all its adds in its history. -/
theorem add_mem_hist (h : replicated.Reachable NoReuse C) {n : ℕ}
    {ev : UpdateEvent ℕ (SetOp α) (ORSet α)} {e : α} (hev : C.log[n]? = some ev)
    (hop : ev.op = .add e) : n ∈ (C.node ev.site).hist :=
  h.own_hist (K := fun op => ∃ e, op = .add e)
    (fun _ _ hG ev hev hi hop => hop.elim fun e hop => hG ev hev hi e hop) hev ⟨e, hop⟩

/-- An add has seen all earlier adds of its replica. -/
theorem add_mem_past (h : replicated.Reachable NoReuse C) {m n : ℕ} (hmn : m < n)
    {ev ev' : UpdateEvent ℕ (SetOp α) (ORSet α)} {e : α} (hev : C.log[m]? = some ev)
    (hop : ev.op = .add e) (hev' : C.log[n]? = some ev') (hsite : ev.site = ev'.site) :
    m ∈ ev'.past :=
  h.own_past (K := fun op => ∃ e, op = .add e)
    (fun _ _ hG ev hev hi hop => hop.elim fun e hop => hG ev hev hi e hop) hmn hev hev' hsite
    ⟨e, hop⟩

/-- A replica has seen all its own adds, so nobody has seen more of them. -/
theorem seen_le_own (h : replicated.Reachable NoReuse C)
    (htracks : ∀ j R, C.HasState j R → Tracks C.log R) {j : ℕ} {R : Replica (ORSet α)}
    (hR : C.HasState j R) (i : ℕ) : R.state.seen i ≤ (C.node i).state.seen i := by
  rcases Nat.eq_zero_or_pos (R.state.seen i) with hzero | hpos
  · omega
  · obtain ⟨n, -, ev, e, hev, hop, rfl, hver⟩ := (htracks j R hR).drawn i hpos
    have hown := ((htracks _ _ .now).seen_iff n ev e hev hop).mp (add_mem_hist h hev hop)
    omega

theorem Tracks.init (h : replicated.Reachable NoReuse C) (i : ℕ) :
    Tracks C.log (⟨new i, ∅⟩ : Replica (ORSet α)) where
  seen_iff n ev e hev hop := by
    have hpos := version_pos h hev hop
    rw [seen_new]
    exact ⟨fun hn => absurd hn (Finset.notMem_empty n), fun hle => by omega⟩
  drawn j hj := by
    rw [seen_new] at hj
    omega
  tagged e adds j t hadds := by cases hadds

/-- The entries a state refers to stay where they are when the log grows. -/
theorem Tracks.append {R : Replica (ORSet α)} {ev' : UpdateEvent ℕ (SetOp α) (ORSet α)}
    (hR : Tracks C.log R) (hhist : ∀ n ∈ R.hist, n < C.log.length)
    (hnew : ∀ e, ev'.op = .add e → R.state.seen ev'.site < version ev') :
    Tracks (C.log ++ [ev']) R where
  seen_iff n ev e hev hop := by
    rcases of_getElem?_concat hev with hev | ⟨rfl, rfl⟩
    · exact hR.seen_iff n ev e hev hop
    · have hlt := hnew e hop
      exact ⟨fun hmem => absurd (hhist _ hmem) (Nat.lt_irrefl _), fun hle => by omega⟩
  drawn j hj := by
    obtain ⟨n, hn, ev, e, hev, hrest⟩ := hR.drawn j hj
    exact ⟨n, hn, ev, e, by rw [List.getElem?_append_left (hhist n hn)]; exact hev, hrest⟩
  tagged e adds j t hadds ht := by
    obtain ⟨n, hn, ev, hev, hrest⟩ := hR.tagged e adds j t hadds ht
    exact ⟨n, hn, ev, by rw [List.getElem?_append_left (hhist n hn)]; exact hev, hrest⟩

/-- A local call that draws no version and tags nothing. -/
theorem Tracks.updated_of_not_add {R : Replica (ORSet α)} {log : List _} {m : ℕ} {set : ORSet α}
    {ev' : UpdateEvent ℕ (SetOp α) (ORSet α)} (hR : Tracks log R) (hm : log[m]? = some ev')
    (hop' : ∀ e, ev'.op ≠ .add e) (hseen : ∀ j, set.seen j = R.state.seen j)
    (htags : ∀ e adds, set.elements.lookup e = some adds →
      R.state.elements.lookup e = some adds) :
    Tracks log ⟨set, insert m R.hist⟩ where
  seen_iff n ev e hev hop := by
    have hne : n ≠ m := by
      rintro rfl
      rw [hm] at hev
      cases hev
      exact hop' e hop
    rw [Finset.mem_insert, hseen, ← hR.seen_iff n ev e hev hop]
    exact or_iff_right hne
  drawn j hj := by
    rw [hseen] at hj ⊢
    obtain ⟨n, hn, hrest⟩ := hR.drawn j hj
    exact ⟨n, Finset.mem_insert_of_mem hn, hrest⟩
  tagged e adds j t hadds ht := by
    obtain ⟨n, hn, hrest⟩ := hR.tagged e adds j t (htags e adds hadds) ht
    exact ⟨n, Finset.mem_insert_of_mem hn, hrest⟩

/-- An add draws the next version of its replica. -/
theorem Tracks.add {R : Replica (ORSet α)} {log : List _} {m i : ℕ} {e₀ : α}
    {ev' : UpdateEvent ℕ (SetOp α) (ORSet α)} (hR : Tracks log R)
    (hfresh : ∀ n ∈ R.hist, n ≠ m) (hm : log[m]? = some ev') (hop' : ev'.op = .add e₀)
    (hsite : ev'.site = i) (hver : version ev' = R.state.seen i + 1)
    (hwf : WellFormed i R.state) (hwrap : R.state.seen i + 1 < 2 ^ 64)
    (hown : ∀ n ev e, log[n]? = some ev → ev.op = .add e → ev.site = i → n = m ∨ n ∈ R.hist) :
    Tracks log ⟨R.state.add e₀, insert m R.hist⟩ where
  seen_iff n ev e hev hop := by
    show n ∈ insert m R.hist ↔ version ev ≤ (R.state.add e₀).seen ev.site
    rw [hwf.seen_add hwrap, Finset.mem_insert]
    by_cases hnm : n = m
    · subst hnm
      rw [hm] at hev
      cases hev
      simp [hsite, hver]
    · rw [or_iff_right hnm, hR.seen_iff n ev e hev hop]
      split
      · next hi =>
        -- the other adds of this replica are in its history already
        have hmem : n ∈ R.hist := (hown n ev e hev hop hi).resolve_left hnm
        have hle := (hR.seen_iff n ev e hev hop).mp hmem
        rw [hi] at hle ⊢
        omega
      · exact Iff.rfl
  drawn j hj := by
    show ∃ n ∈ insert m R.hist, ∃ ev e, log[n]? = some ev ∧ ev.op = .add e ∧ ev.site = j ∧
      version ev = (R.state.add e₀).seen j
    have hj' : 0 < (R.state.add e₀).seen j := hj
    rw [hwf.seen_add hwrap] at hj' ⊢
    split at hj'
    · next hji =>
      subst hji
      rw [if_pos rfl]
      exact ⟨m, Finset.mem_insert_self _ _, ev', e₀, hm, hop', hsite, hver⟩
    · next hji =>
      rw [if_neg hji]
      obtain ⟨n, hn, hrest⟩ := hR.drawn j hj'
      exact ⟨n, Finset.mem_insert_of_mem hn, hrest⟩
  tagged e adds j t hadds ht := by
    rcases hwf.tag_add hwrap hadds ht with ⟨rfl, rfl, rfl⟩ | ⟨adds', hadds', ht⟩
    · exact ⟨m, Finset.mem_insert_self _ _, ev', hm, hop', hsite, hver⟩
    · obtain ⟨n, hn, hrest⟩ := hR.tagged e adds' j t hadds' ht
      exact ⟨n, Finset.mem_insert_of_mem hn, hrest⟩

theorem Tracks.merge {R Q : Replica (ORSet α)} {log : List _} {i q : ℕ} (hR : Tracks log R)
    (hQ : Tracks log Q) (hwfR : WellFormed i R.state) (hwfQ : WellFormed q Q.state) :
    Tracks log (replicated.merged R Q) where
  seen_iff n ev e hev hop := by
    show n ∈ R.hist ∪ Q.hist ↔ version ev ≤ (R.state.merge Q.state).seen ev.site
    rw [Finset.mem_union, seen_merge hwfR hwfQ, hR.seen_iff n ev e hev hop,
      hQ.seen_iff n ev e hev hop, le_max_iff]
  drawn j hj := by
    show ∃ n ∈ R.hist ∪ Q.hist, ∃ ev e, log[n]? = some ev ∧ ev.op = .add e ∧ ev.site = j ∧
      version ev = (R.state.merge Q.state).seen j
    have hj' : 0 < (R.state.merge Q.state).seen j := hj
    rw [seen_merge hwfR hwfQ] at hj' ⊢
    rcases le_total (R.state.seen j) (Q.state.seen j) with hle | hle
    · rw [max_eq_right hle] at hj' ⊢
      obtain ⟨n, hn, hrest⟩ := hQ.drawn j hj'
      exact ⟨n, Finset.mem_union_right _ hn, hrest⟩
    · rw [max_eq_left hle] at hj' ⊢
      obtain ⟨n, hn, hrest⟩ := hR.drawn j hj'
      exact ⟨n, Finset.mem_union_left _ hn, hrest⟩
  tagged e adds j t hadds ht := by
    rcases tag_merge hadds ht with ⟨adds', hadds', ht⟩ | ⟨adds', hadds', ht⟩
    · obtain ⟨n, hn, hrest⟩ := hR.tagged e adds' j t hadds' ht
      exact ⟨n, Finset.mem_union_left _ hn, hrest⟩
    · obtain ⟨n, hn, hrest⟩ := hQ.tagged e adds' j t hadds' ht
      exact ⟨n, Finset.mem_union_right _ hn, hrest⟩

/-- A replica that adds tracks the log with its add. -/
theorem Tracks.updated_add (hC : replicated.Reachable NoReuse C) {i : ℕ} {e₀ : α}
    (hG : NoReuse C (.update i (.add e₀))) (h : Tracks C.log (C.node i)) :
    Tracks (C.log ++ [replicated.event C i (.add e₀)]) (replicated.updated C i (.add e₀)) := by
  have hnew : (C.log ++ [replicated.event C i (.add e₀)])[C.log.length]? =
      some (replicated.event C i (.add e₀)) := List.getElem?_concat_length
  have hfresh : ∀ n ∈ (C.node i).hist, n < C.log.length := fun n hn => hC.hist_lt .now hn
  have happ : Tracks (C.log ++ [replicated.event C i (.add e₀)]) (C.node i) := by
    refine h.append hfresh fun e _ => ?_
    rw [version_event hC hG]
    exact Nat.lt_succ_self _
  refine happ.add (fun n hn => (hfresh n hn).ne) hnew rfl rfl (version_event hC hG)
    (wellFormed_of_reachable hC .now) hG fun n ev e hev hop hsite => ?_
  rcases of_getElem?_concat hev with hev | ⟨hn, -⟩
  · right
    have hown := add_mem_hist hC hev hop
    rwa [hsite] at hown
  · exact Or.inl hn

/-- Other calls draw no version and leave no tag. -/
theorem Tracks.updated_other (hC : replicated.Reachable NoReuse C) {i : ℕ} {op : SetOp α}
    (hne : ∀ e, op ≠ .add e) (h : Tracks C.log (C.node i)) :
    Tracks (C.log ++ [replicated.event C i op]) (replicated.updated C i op) := by
  have hnew : (C.log ++ [replicated.event C i op])[C.log.length]? =
      some (replicated.event C i op) := List.getElem?_concat_length
  have happ : Tracks (C.log ++ [replicated.event C i op]) (C.node i) :=
    h.append (fun n hn => hC.hist_lt .now hn) fun e he => absurd he (hne e)
  refine happ.updated_of_not_add hnew hne ?_ ?_
  · cases op with
    | add e => exact absurd rfl (hne e)
    | remove e => exact fun j => rfl
    | contains e => exact fun j => rfl
  · intro e adds hadds
    cases op with
    | add e => exact absurd rfl (hne e)
    | remove e₀ =>
      have hadds : ((C.node i).state.remove e₀).2.elements.lookup e = some adds := hadds
      rw [lookup_remove] at hadds
      split at hadds
      · cases hadds
      · exact hadds
    | contains e => exact hadds

theorem tracks_of_reachable (h : replicated.Reachable NoReuse C) {i : ℕ} {R : Replica (ORSet α)}
    (hR : C.HasState i R) : Tracks C.log R := by
  refine h.induct (P := fun log _ R => Tracks log R) ?_ ?_ ?_ ?_ i R hR
  · intro C i hC
    exact Tracks.init hC i
  · -- the version of a new add is past what anyone has seen
    intro C i op hC hG ih j R hR
    refine (ih j R hR).append (fun n hn => hC.hist_lt hR hn) fun e hop => ?_
    obtain rfl : op = .add e := hop
    rw [version_event hC hG]
    have hle := seen_le_own hC ih hR i
    show R.state.seen i < _
    omega
  · intro C i op hC hG ih
    have hold := ih i _ .now
    cases op with
    | add e => exact hold.updated_add hC hG
    | remove e => exact hold.updated_other hC nofun
    | contains e => exact hold.updated_other hC nofun
  · intro C i n q Q hC _ hQ hR hQ'
    exact hR.merge hQ' (wellFormed_of_reachable hC .now)
      (wellFormed_of_reachable hC (hasState_sent hQ))

/-- Of two adds of a replica, the later has the greater version. -/
theorem version_lt (h : replicated.Reachable NoReuse C) {m n : ℕ} (hmn : m < n)
    {ev ev' : UpdateEvent ℕ (SetOp α) (ORSet α)} {e e' : α} (hev : C.log[m]? = some ev)
    (hop : ev.op = .add e) (hev' : C.log[n]? = some ev') (hop' : ev'.op = .add e')
    (hsite : ev.site = ev'.site) : version ev < version ev' := by
  obtain ⟨C', hC', hlog, hpast, hversion⟩ := exists_version h hev' hop'
  have hmem := add_mem_past h hmn hev hop hev' hsite
  have hold : C'.log[m]? = some ev := by
    rw [hlog, List.getElem?_take_of_lt hmn]
    exact hev
  have hseen := ((tracks_of_reachable hC' .now).seen_iff m ev e hold hop).mp (hpast ▸ hmem)
  rw [hsite] at hseen
  omega

/-- An add is determined by its replica and its version. -/
theorem eq_of_version_eq (h : replicated.Reachable NoReuse C) {m n : ℕ}
    {ev ev' : UpdateEvent ℕ (SetOp α) (ORSet α)} {e e' : α} (hev : C.log[m]? = some ev)
    (hop : ev.op = .add e) (hev' : C.log[n]? = some ev') (hop' : ev'.op = .add e')
    (hsite : ev.site = ev'.site) (hversion : version ev = version ev') : m = n := by
  rcases Nat.lt_trichotomy m n with hmn | hmn | hmn
  · have := version_lt h hmn hev hop hev' hop' hsite
    omega
  · exact hmn
  · have := version_lt h hmn hev' hop' hev hop hsite.symm
    omega

/-! ## No add is lost -/

/-- Every add of `e` that is live in the history of `R` has left a tag. -/
def LiveTagged (log : List (UpdateEvent ℕ (SetOp α) (ORSet α))) (R : Replica (ORSet α)) : Prop :=
  ∀ n ev e, log[n]? = some ev → ev.op = .add e → Live log (· = .remove e) R n →
    ∃ adds t, R.state.elements.lookup e = some adds ∧ adds.lookup ev.site = some t ∧
      version ev ≤ t.seqNumber

/-- A local add only makes tags newer. -/
theorem WellFormed.tag_le_add {i : ℕ} {set : ORSet α} (h : WellFormed i set)
    (hwrap : set.seen i + 1 < 2 ^ 64) (e₀ : α) {e : α} {adds : Tags} {j : ℕ} {t : Timestamp}
    (hadds : set.elements.lookup e = some adds) (ht : adds.lookup j = some t) :
    ∃ adds' t', (set.add e₀).elements.lookup e = some adds' ∧ adds'.lookup j = some t' ∧
      t.seqNumber ≤ t'.seqNumber := by
  rw [h.lookup_add hwrap]
  by_cases he : e = e₀
  · subst he
    rw [if_pos rfl, hadds]
    by_cases hj : j = i
    · subst hj
      have hle := h.covers e adds hadds j t ht
      refine ⟨_, _, rfl, AList.lookup_insert _, ?_⟩
      show t.seqNumber ≤ set.seen j + 1
      omega
    · refine ⟨_, t, rfl, ?_, le_rfl⟩
      rw [AList.lookup_insert_ne hj]
      exact ht
  · rw [if_neg he]
    exact ⟨adds, t, hadds, ht, le_rfl⟩

/-- Updating the tags of an element with unseen ones only makes them newer. -/
theorem WellFormed.tag_le_updateTags {i q : ℕ} {set remote : ORSet α} (h : WellFormed i set)
    (hq : WellFormed q remote) {e : α} {adds remoteAdds : Tags}
    (hadds : set.elements.lookup e = some adds)
    (hremote : remote.elements.lookup e = some remoteAdds) {j : ℕ} {t : Timestamp}
    (ht : adds.lookup j = some t) :
    ∃ t', (set.updateTags adds remoteAdds).lookup j = some t' ∧ t.seqNumber ≤ t'.seqNumber := by
  obtain ⟨t', ht'⟩ := exists_tag_updateTags set remoteAdds ht
  refine ⟨t', ht', ?_⟩
  rcases tag_updateTags ht' with hold | ⟨hnew, hun⟩
  · rw [ht, Option.some.injEq] at hold
    rw [hold]
  · have hwf := hq.tags e remoteAdds hremote
    have hlt := (unseen_iff h (hwf.uid j t' hnew) (hwf.pos j t' hnew)).mp hun
    have hle := h.covers e adds hadds j t ht
    omega

/-- An unseen remote tag reaches the merged set. -/
theorem WellFormed.tag_of_unseen {i : ℕ} {set remote : ORSet α} (h : WellFormed i set) {e : α}
    {remoteAdds : Tags} (hremote : remote.elements.lookup e = some remoteAdds)
    (hwf : remoteAdds.WellFormed) {j : ℕ} {t : Timestamp} (ht : remoteAdds.lookup j = some t)
    (hlt : set.seen j < t.seqNumber) :
    ∃ adds, (set.merge remote).elements.lookup e = some adds ∧ adds.lookup j = some t := by
  rw [lookup_merge, hremote]
  cases hs : set.elements.lookup e with
  | none =>
    have hun : set.unseen j t = true := (unseen_iff h (hwf.uid j t ht) (hwf.pos j t ht)).mpr hlt
    have hany : UnorderedMap.any remoteAdds set.unseen = true :=
      UnorderedMap.any_eq_true.mpr ⟨j, t, ht, hun⟩
    exact ⟨remoteAdds, if_pos hany, ht⟩
  | some adds =>
    exact ⟨_, rfl, lookup_updateTags_of_lt h adds hwf ht hlt⟩

theorem LiveTagged.merge (h : replicated.Reachable NoReuse C) {i q : ℕ} {R Q : Replica (ORSet α)}
    (hR : C.HasState i R) (hQ : C.HasState q Q) (hlR : LiveTagged C.log R)
    (hlQ : LiveTagged C.log Q) : LiveTagged C.log (replicated.merged R Q) := by
  have hwfR := wellFormed_of_reachable h hR
  have hwfQ := wellFormed_of_reachable h hQ
  intro n ev e hev hop hlive
  obtain ⟨hn, hliveR, hliveQ⟩ := (h.live_merged hR hQ n).mp hlive
  show ∃ adds t, (R.state.merge Q.state).elements.lookup e = some adds ∧ _
  by_cases hnR : n ∈ R.hist
  · obtain ⟨adds, t, hadds, ht, hver⟩ := hlR n ev e hev hop (hliveR hnR)
    rw [lookup_merge, hadds]
    cases hremote : Q.state.elements.lookup e with
    | some remoteAdds =>
      obtain ⟨t', ht', hle⟩ := hwfR.tag_le_updateTags hwfQ hadds hremote ht
      exact ⟨_, t', rfl, ht', hver.trans hle⟩
    | none =>
      -- had the other side seen the add, it would be live there, and the element present
      have hnot : ¬ Q.state.Covers adds := by
        intro hc
        have hseen : version ev ≤ Q.state.seen ev.site := hver.trans (hc _ t ht)
        have hnQ := ((tracks_of_reachable h hQ).seen_iff n ev e hev hop).mpr hseen
        obtain ⟨adds', -, hadds', -⟩ := hlQ n ev e hev hop (hliveQ hnQ)
        rw [hremote] at hadds'
        cases hadds'
      have hkeep : newerRemoteRemove Q.state adds = false := by
        rw [← Bool.not_eq_true, newerRemoteRemove_iff hwfQ (hwfR.tags e adds hadds)]
        exact fun hc => hnot hc.1
      refine ⟨adds, t, ?_, ht, hver⟩
      simp [hkeep]
  · have hnQ : n ∈ Q.hist := hn.resolve_left hnR
    obtain ⟨adds, t, hadds, ht, hver⟩ := hlQ n ev e hev hop (hliveQ hnQ)
    have hseen := (tracks_of_reachable h hR).seen_iff n ev e hev hop
    have hlt : R.state.seen ev.site < t.seqNumber := by
      have hnle := (not_congr hseen).mp hnR
      omega
    obtain ⟨adds', hadds', ht'⟩ := hwfR.tag_of_unseen hadds (hwfQ.tags e adds hadds) ht hlt
    exact ⟨adds', t, hadds', ht', hver⟩

theorem liveTagged_of_reachable (h : replicated.Reachable NoReuse C) {i : ℕ}
    {R : Replica (ORSet α)} (hR : C.HasState i R) : LiveTagged C.log R := by
  refine h.induct (P := fun log _ R => LiveTagged log R) ?_ ?_ ?_ ?_ i R hR
  · intro C i _ n ev e _ _ hlive
    exact absurd hlive.1 (Finset.notMem_empty n)
  · intro C i op hC _ ih j R hR n ev e hev hop hlive
    rw [hC.log_append hR hlive.1] at hev
    exact ih j R hR n ev e hev hop ((hC.live_append hR _ n).mp hlive)
  · intro C i op hC hG ih n ev e hev hop hlive
    have hwf := wellFormed_of_reachable hC (.now : C.HasState i (C.node i))
    rcases (hC.live_updated n).mp hlive with rfl | ⟨hne, hlive⟩
    · -- the add just executed
      obtain rfl : replicated.event C i op = ev :=
        Option.some.inj (List.getElem?_concat_length.symm.trans hev)
      obtain rfl : op = .add e := hop
      show ∃ adds t, ((C.node i).state.add e).elements.lookup e = some adds ∧ _
      rw [hwf.lookup_add hG, if_pos rfl, version_event hC hG]
      exact ⟨_, _, rfl, AList.lookup_insert _, le_rfl⟩
    · rw [hC.log_append .now hlive.1] at hev
      obtain ⟨adds, t, hadds, ht, hver⟩ := ih i _ .now n ev e hev hop hlive
      cases op with
      | add e₀ =>
        obtain ⟨adds', t', hadds', ht', hle⟩ := hwf.tag_le_add hG e₀ hadds ht
        exact ⟨adds', t', hadds', ht', hver.trans hle⟩
      | remove e₀ =>
        have hee : e ≠ e₀ := fun hee => hne (by rw [hee])
        refine ⟨adds, t, ?_, ht, hver⟩
        show ((C.node i).state.remove e₀).2.elements.lookup e = some adds
        rw [lookup_remove, if_neg hee]
        exact hadds
      | contains e₀ => exact ⟨adds, t, hadds, ht, hver⟩
  · intro C i n q Q hC _ hQ hR hQ'
    exact LiveTagged.merge hC .now (hasState_sent hQ) hR hQ'

/-- **Add wins.** An add that no remove in the history had observed keeps the element in the set,
in every state of every run. -/
theorem contains_of_live (h : replicated.Reachable NoReuse C) {i : ℕ} {R : Replica (ORSet α)}
    (hR : C.HasState i R) {n : ℕ} {ev : UpdateEvent ℕ (SetOp α) (ORSet α)} {e : α}
    (hev : C.log[n]? = some ev) (hop : ev.op = .add e)
    (hlive : Live C.log (· = .remove e) R n) : R.state.contains e = true := by
  obtain ⟨adds, -, hadds, -⟩ := liveTagged_of_reachable h hR n ev e hev hop hlive
  exact contains_iff.mpr ⟨adds, hadds⟩

end ORSet

end CrdtStore
