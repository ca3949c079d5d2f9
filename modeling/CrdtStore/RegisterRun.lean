import CrdtStore.Library.Replication
import CrdtStore.LWWRegister

/-!
# Runs of registers

Registers with distinct ids are assigned to and merge states that any of them sent. A register
always holds the newest assign in its history (`Newest`), and no two assigns carry the same stamp,
so registers that have seen the same assigns hold the same value, in whatever order they merged.
-/

namespace CrdtStore

open ReplicatedType Config

/-- The calls of a `LWWRegister` other than `merge` that change it. -/
inductive RegisterOp (V : Type*) where
  | assign (value : V)
deriving DecidableEq

namespace LWWRegister

variable {V : Type*} [Inhabited V]

/-- Registers, each given its id before use. -/
def replicated : ReplicatedType ℕ (RegisterOp V) (LWWRegister V) where
  init i := (default : LWWRegister V).setReplicaId i
  apply op reg :=
    match op with
    | .assign value => reg.assign value
  merge := merge

/-- No sequence number wraps, and no register starts again after an assign. -/
def NoReuse (C : Config ℕ (RegisterOp V) (LWWRegister V)) :
    ReplicaAction ℕ (RegisterOp V) → Prop
  | .update i _ => (C.node i).state.timestamp.seqNumber + 1 < 2 ^ 64
  | .restart i => ∀ ev ∈ C.log, ev.site ≠ i
  | .send _ => True
  | .deliver _ _ => True

variable {C : Config ℕ (RegisterOp V) (LWWRegister V)} {i q : ℕ} {R Q : Replica (LWWRegister V)}

theorem replicaId_of_reachable (h : replicated.Reachable NoReuse C) (hR : C.HasState i R) :
    R.state.timestamp.replicaId = i := by
  refine h.induct (P := fun _ i R => R.state.timestamp.replicaId = i) ?_ ?_ ?_ ?_ i R hR
  · intro C i _
    rfl
  · intro C i op _ _ ih j R hR
    exact ih j R hR
  · intro C i op _ _ ih
    have hold := ih i _ .now
    cases op with
    | assign value => exact hold
  · intro C i n q Q _ _ _ hR _
    show ((C.node i).state.merge Q.state).timestamp.replicaId = i
    rw [replicaId_merge]
    exact hR

/-- The stamp of a logged assign: the next sequence number of its register, with its id. -/
theorem exists_stamp (h : replicated.Reachable NoReuse C) {n : ℕ}
    {ev : UpdateEvent ℕ (RegisterOp V) (LWWRegister V)} (hev : C.log[n]? = some ev) :
    ∃ C', replicated.Reachable NoReuse C' ∧ C'.log = C.log.take n ∧
      ev.past = (C'.node ev.site).hist ∧
      ev.state.timestamp.stamp = ((C'.node ev.site).state.timestamp.seqNumber + 1, ev.site) := by
  obtain ⟨C', hC', hstep, hevent, hlog⟩ := h.exists_event hev
  refine ⟨C', hC', hlog, ?_, ?_⟩
  · rw [← hevent]
    rfl
  · have hid := replicaId_of_reachable hC' (.now : C'.HasState ev.site _)
    have hseq := Timestamp.seqNumber_update hstep
    conv_lhs => rw [← hevent]
    cases ev.op with
    | assign value =>
      show (((C'.node ev.site).state.timestamp.update.seqNumber),
        (C'.node ev.site).state.timestamp.replicaId) = _
      rw [hseq, hid]

theorem seqNumber_pos (h : replicated.Reachable NoReuse C) {n : ℕ}
    {ev : UpdateEvent ℕ (RegisterOp V) (LWWRegister V)} (hev : C.log[n]? = some ev) :
    0 < ev.state.timestamp.seqNumber := by
  obtain ⟨C', -, -, -, hstamp⟩ := exists_stamp h hev
  have hseq := congrArg Prod.fst hstamp
  show 0 < ev.state.timestamp.stamp.1
  rw [hseq]
  exact Nat.succ_pos _

/-! ## The newest assign -/

/-- The register holds the newest assign of the history. -/
structure Newest (log : List (UpdateEvent ℕ (RegisterOp V) (LWWRegister V)))
    (R : Replica (LWWRegister V)) : Prop where
  /-- Nothing was assigned, or the value and the stamp are those of an assign. -/
  source : (R.hist = ∅ ∧ R.state.timestamp.seqNumber = 0 ∧ R.state.value = default) ∨
    ∃ n ∈ R.hist, ∃ ev, log[n]? = some ev ∧ ev.op = .assign R.state.value ∧
      ev.state.timestamp.stamp = R.state.timestamp.stamp
  not_lt : ∀ n ∈ R.hist, ∀ ev, log[n]? = some ev → ¬ R.state.timestamp < ev.state.timestamp

theorem Newest.init (i : ℕ) (log : List (UpdateEvent ℕ (RegisterOp V) (LWWRegister V))) :
    Newest log ⟨replicated.init i, ∅⟩ where
  source := Or.inl ⟨rfl, rfl, rfl⟩
  not_lt n hn := absurd hn (Finset.notMem_empty n)

theorem Newest.append (h : replicated.Reachable NoReuse C) (hR : C.HasState i R)
    (hnew : Newest C.log R) (l : List (UpdateEvent ℕ (RegisterOp V) (LWWRegister V))) :
    Newest (C.log ++ l) R where
  source := by
    refine hnew.source.imp_right fun hsource => ?_
    obtain ⟨n, hn, ev, hev, hop, hstamp⟩ := hsource
    exact ⟨n, hn, ev, by rw [h.log_append hR hn, hev], hop, hstamp⟩
  not_lt n hn ev hev := by
    rw [h.log_append hR hn] at hev
    exact hnew.not_lt n hn ev hev

/-- An assign draws a stamp above that of the register, and so above its whole history. -/
theorem Newest.updated (h : replicated.Reachable NoReuse C) {op : RegisterOp V}
    (hop : NoReuse C (.update i op)) (hnew : Newest C.log (C.node i)) :
    Newest (C.log ++ [replicated.event C i op]) (replicated.updated C i op) := by
  have hlast : (C.log ++ [replicated.event C i op])[C.log.length]? =
      some (replicated.event C i op) := by simp
  have hseq : (replicated.updated C i op).state.timestamp.seqNumber =
      (C.node i).state.timestamp.seqNumber + 1 := by
    cases op with
    | assign value => exact Timestamp.seqNumber_update hop
  constructor
  · right
    refine ⟨C.log.length, Finset.mem_insert_self _ _, _, hlast, ?_, rfl⟩
    cases op with
    | assign value => rfl
  · intro n hn ev hev
    rcases Finset.mem_insert.mp hn with rfl | hn
    · rw [hlast] at hev
      cases hev
      exact Timestamp.lt_irrefl _
    · rw [h.log_append .now hn] at hev
      have hold := hnew.not_lt n hn ev hev
      rw [Timestamp.lt_def] at hold ⊢
      omega

theorem Newest.hist_eq_empty (h : replicated.Reachable NoReuse C) (hnew : Newest C.log R)
    (hzero : R.state.timestamp.seqNumber = 0) : R.hist = ∅ := by
  rcases hnew.source with ⟨hempty, -, -⟩ | ⟨n, -, ev, hev, -, hstamp⟩
  · exact hempty
  · have hpos := seqNumber_pos h hev
    have hseq : ev.state.timestamp.seqNumber = R.state.timestamp.seqNumber :=
      congrArg Prod.fst hstamp
    omega

/-- A merge keeps the greater of two newest assigns. -/
theorem Newest.merged (h : replicated.Reachable NoReuse C) (hR : Newest C.log R)
    (hQ : Newest C.log Q) : Newest C.log (replicated.merged R Q) where
  source := by
    show (R.hist ∪ Q.hist = ∅ ∧ (R.state.merge Q.state).timestamp.seqNumber = 0 ∧
        (R.state.merge Q.state).value = default) ∨
      ∃ n ∈ R.hist ∪ Q.hist, ∃ ev, C.log[n]? = some ev ∧
        ev.op = .assign (R.state.merge Q.state).value ∧
        ev.state.timestamp.stamp = (R.state.merge Q.state).timestamp.stamp
    by_cases hlt : R.state.timestamp < Q.state.timestamp
    · rw [merge_of_lt hlt, Timestamp.stamp_copy, Timestamp.seqNumber_copy]
      rcases hQ.source with ⟨hempty, hzero, hvalue⟩ | ⟨n, hn, hsource⟩
      · -- below a register without assigns there is only another such register
        have hR0 : R.hist = ∅ := by
          apply hR.hist_eq_empty h
          rw [Timestamp.lt_def] at hlt
          omega
        exact Or.inl ⟨by rw [hR0, hempty, Finset.union_idempotent], hzero, hvalue⟩
      · exact Or.inr ⟨n, Finset.mem_union_right _ hn, hsource⟩
    · rw [merge_of_not_lt hlt]
      rcases hR.source with ⟨hempty, hzero, hvalue⟩ | ⟨n, hn, hsource⟩
      · have hQ0 : Q.hist = ∅ := by
          apply hQ.hist_eq_empty h
          rw [Timestamp.lt_def] at hlt
          omega
        exact Or.inl ⟨by rw [hQ0, hempty, Finset.union_idempotent], hzero, hvalue⟩
      · exact Or.inr ⟨n, Finset.mem_union_left _ hn, hsource⟩
  not_lt n hn ev hev := by
    apply not_merge_lt
    rcases Finset.mem_union.mp hn with hn | hn
    · exact Or.inl (hR.not_lt n hn ev hev)
    · exact Or.inr (hQ.not_lt n hn ev hev)

theorem newest_of_reachable (h : replicated.Reachable NoReuse C) (hR : C.HasState i R) :
    Newest C.log R := by
  refine h.induct (P := fun log _ R => Newest log R) ?_ ?_ ?_ ?_ i R hR
  · intro C i _
    exact Newest.init i C.log
  · intro C i op hC _ ih j R hR
    exact (ih j R hR).append hC hR _
  · intro C i op hC hop ih
    have hold := ih i _ .now
    exact hold.updated hC hop
  · intro C i n q Q hC _ _ hR hQ
    exact hR.merged hC hQ

/-! ## Last writer wins -/

omit [Inhabited V] in
theorem restart_without_assign (C : Config ℕ (RegisterOp V) (LWWRegister V)) (i : ℕ)
    (h : NoReuse C (.restart i)) : ∀ ev ∈ C.log, ev.site = i → ¬ True := by
  intro ev hev hsite
  exact absurd hsite (h ev hev)

/-- Later assigns carry other stamps than earlier ones. -/
theorem stamp_ne_of_lt (h : replicated.Reachable NoReuse C) {m n : ℕ} (hlt : m < n)
    {ev ev' : UpdateEvent ℕ (RegisterOp V) (LWWRegister V)} (hev : C.log[m]? = some ev)
    (hev' : C.log[n]? = some ev') :
    ev.state.timestamp.stamp ≠ ev'.state.timestamp.stamp := by
  intro heq
  obtain ⟨C₁, -, -, -, hstamp⟩ := exists_stamp h hev
  obtain ⟨C₂, hC₂, hlog, hpast, hstamp'⟩ := exists_stamp h hev'
  -- the uid of a stamp is the id of the register that drew it
  have hsite : ev.site = ev'.site := by
    rw [hstamp, hstamp', Prod.mk.injEq] at heq
    exact heq.2
  have hseen : m ∈ ev'.past :=
    h.own_past (K := fun _ => True) restart_without_assign hlt hev hev' hsite trivial
  have hold : C₂.log[m]? = some ev := by
    rw [hlog, List.getElem?_take_of_lt hlt]
    exact hev
  have hnot := (newest_of_reachable hC₂ (.now : C₂.HasState ev'.site _)).not_lt m
    (hpast ▸ hseen) ev hold
  have hseq : ev.state.timestamp.seqNumber =
      (C₂.node ev'.site).state.timestamp.seqNumber + 1 :=
    congrArg Prod.fst (heq.trans hstamp')
  rw [Timestamp.lt_def] at hnot
  omega

theorem stamp_injective (h : replicated.Reachable NoReuse C) {m n : ℕ}
    {ev ev' : UpdateEvent ℕ (RegisterOp V) (LWWRegister V)} (hev : C.log[m]? = some ev)
    (hev' : C.log[n]? = some ev')
    (heq : ev.state.timestamp.stamp = ev'.state.timestamp.stamp) : m = n := by
  rcases Nat.lt_trichotomy m n with hlt | heq' | hlt
  · exact absurd heq (stamp_ne_of_lt h hlt hev hev')
  · exact heq'
  · exact absurd heq.symm (stamp_ne_of_lt h hlt hev' hev)

/-- A register holds the assign in its history with the greatest stamp. -/
theorem exists_greatest (h : replicated.Reachable NoReuse C) (hR : C.HasState i R)
    (hne : R.hist.Nonempty) :
    ∃ n ∈ R.hist, ∃ ev, C.log[n]? = some ev ∧ ev.op = .assign R.state.value ∧
      ev.state.timestamp.stamp = R.state.timestamp.stamp ∧
      ∀ m ∈ R.hist, ∀ ev', C.log[m]? = some ev' → m ≠ n →
        ev'.state.timestamp < ev.state.timestamp := by
  have hnew := newest_of_reachable h hR
  rcases hnew.source with ⟨hempty, -, -⟩ | ⟨n, hn, ev, hev, hop, hstamp⟩
  · exact absurd hempty hne.ne_empty
  · refine ⟨n, hn, ev, hev, hop, hstamp, fun m hm ev' hev' hmn => ?_⟩
    by_contra hlt
    have hnot : ¬ ev.state.timestamp < ev'.state.timestamp := by
      rw [Timestamp.lt_congr hstamp rfl]
      exact hnew.not_lt m hm ev' hev'
    exact hmn (stamp_injective h hev' hev (Timestamp.stamp_eq_of_not_lt hlt hnot))

theorem value_eq_of_hist_eq (h : replicated.Reachable NoReuse C) (hR : C.HasState i R)
    (hQ : C.HasState q Q) (heq : R.hist = Q.hist) : R.state.value = Q.state.value := by
  have hnewR := newest_of_reachable h hR
  have hnewQ := newest_of_reachable h hQ
  rcases hnewR.source with ⟨hempty, -, hvalue⟩ | ⟨n, hn, ev, hev, hop, hstamp⟩
  · rcases hnewQ.source with ⟨-, -, hvalue'⟩ | ⟨n', hn', -⟩
    · rw [hvalue, hvalue']
    · rw [← heq, hempty] at hn'
      exact absurd hn' (Finset.notMem_empty _)
  · rcases hnewQ.source with ⟨hempty, -, -⟩ | ⟨n', hn', ev', hev', hop', hstamp'⟩
    · rw [heq, hempty] at hn
      exact absurd hn (Finset.notMem_empty _)
    · -- neither of the two assigns is newer than the other
      have hnot : ¬ ev.state.timestamp < ev'.state.timestamp := by
        rw [Timestamp.lt_congr hstamp rfl]
        exact hnewR.not_lt n' (heq ▸ hn') ev' hev'
      have hnot' : ¬ ev'.state.timestamp < ev.state.timestamp := by
        rw [Timestamp.lt_congr hstamp' rfl]
        exact hnewQ.not_lt n (heq ▸ hn) ev hev
      obtain rfl := stamp_injective h hev hev' (Timestamp.stamp_eq_of_not_lt hnot hnot')
      rw [hev] at hev'
      cases hev'
      exact RegisterOp.assign.inj (hop.symm.trans hop')

/-- Registers in a run are last-writer-wins registers: stamps are never drawn twice, each register
holds the assign in its history with the greatest stamp, and so the assigns in a history determine
the value. -/
theorem last_writer_wins (h : replicated.Reachable NoReuse C) :
    (∀ (m n : ℕ) (ev ev' : UpdateEvent ℕ (RegisterOp V) (LWWRegister V)), C.log[m]? = some ev →
      C.log[n]? = some ev' → m ≠ n → ev.state.timestamp.stamp ≠ ev'.state.timestamp.stamp) ∧
    (∀ i R, C.HasState i R → R.hist.Nonempty →
      ∃ n ∈ R.hist, ∃ ev, C.log[n]? = some ev ∧ ev.op = .assign R.state.value ∧
        ev.state.timestamp.stamp = R.state.timestamp.stamp ∧
        ∀ m ∈ R.hist, ∀ ev', C.log[m]? = some ev' → m ≠ n →
          ev'.state.timestamp < ev.state.timestamp) ∧
    ∀ i j R R', C.HasState i R → C.HasState j R' → R.hist = R'.hist →
      R.state.value = R'.state.value := by
  refine ⟨?_, ?_, ?_⟩
  · intro m n ev ev' hev hev' hne heq
    exact hne (stamp_injective h hev hev' heq)
  · intro i R hR hne
    exact exists_greatest h hR hne
  · intro i j R R' hR hR' heq
    exact value_eq_of_hist_eq h hR hR' heq

/-- Two registers are assigned to concurrently, and each merges what the other sent. -/
def crossed : Config ℕ (RegisterOp String) (LWWRegister String) :=
  replicated.exec replicated.start [.update 0 (.assign "x"), .update 1 (.assign "y"), .send 0,
    .send 1, .deliver 0 1, .deliver 1 0]

/-- Two registers that saw two concurrent assigns hold the same value. -/
theorem value_crossed : (crossed.node 0).state.value = (crossed.node 1).state.value := by
  have hsteps : replicated.Steps NoReuse replicated.start
      [.update 0 (.assign "x"), .update 1 (.assign "y"), .send 0, .send 1, .deliver 0 1,
        .deliver 1 0] := by
    refine ⟨?_, ?_, trivial, trivial, trivial, trivial, trivial⟩
    · show 0 + 1 < 2 ^ 64
      decide
    · show 0 + 1 < 2 ^ 64
      decide
  exact (last_writer_wins (Reachable.start.exec hsteps)).2.2 0 1 _ _ .now .now (by decide)

end LWWRegister

end CrdtStore
