import CrdtStore.MapValues

/-!
# Last writer wins

Where a key was never removed, every put outranks those it follows, and the register of the key is
behind none that its replica has seen. It should then carry the stamp and value of the greatest put
(`LastWriter`). It does as long as no merge that creates the register stamps it anew: `KeepsStamp`
is the condition on the merges, `lastWriter_iff` the theorem.
-/

namespace CrdtStore

open ReplicatedType Config

namespace Map

variable {K V : Type*} [DecidableEq K] [Inhabited V]
  {C : Config ℕ (MapOp K V) (Map K V)}
  {G : Config ℕ (MapOp K V) (Map K V) → ReplicaAction ℕ (MapOp K V) → Prop}

/-! ## The greatest put -/

/-- No remove of `k` is executed, no counter wraps and no replica restarts after a put. -/
def NeverRemoved (k : K) (C : Config ℕ (MapOp K V) (Map K V)) : ReplicaAction ℕ (MapOp K V) → Prop
  | .update i (.put key _) =>
    (C.node i).state.keys.seen i + 1 < 2 ^ 64 ∧ (C.node i).state.seqNumber key + 1 < 2 ^ 64
  | .update _ (.remove key) => key ≠ k
  | .restart i => ∀ ev ∈ C.log, ev.site = i → ∀ key val, ev.op ≠ .put key val
  | _ => True

/-- No register of `k` is created in a merge for a timestamp below the first one of the replica. -/
def KeepsStamp (k : K) (C : Config ℕ (MapOp K V) (Map K V)) : ReplicaAction ℕ (MapOp K V) → Prop
  | .deliver i n => ∀ q Q remoteReg, C.sent[n]? = some (q, Q) →
      (C.node i).state.registers.lookup k = none →
      Q.state.registers.lookup k = some remoteReg → ¬ remoteReg.timestamp < ⟨1, i, i⟩
  | _ => True

/-- The register of `k` holds the stamp and the value of the greatest put on `k` in the history. -/
def LastWriter (log : List (UpdateEvent ℕ (MapOp K V) (Map K V))) (R : Replica (Map K V)) (k : K) :
    Prop :=
  R.state.contains k = true → ∃ reg, R.state.registers.lookup k = some reg ∧
    ∃ n ∈ R.hist, ∃ ev, log[n]? = some ev ∧ ev.op = .put k reg.value ∧
      (putTimestamp ev k).stamp = reg.timestamp.stamp ∧
      ∀ m ∈ R.hist, ∀ ev' w, log[m]? = some ev' → ev'.op = .put k w → m ≠ n →
        putTimestamp ev' k < putTimestamp ev k

section NeverRemoved

variable {k : K}

omit [Inhabited V] in
theorem counts_neverRemoved : Counts (NeverRemoved (V := V) k) := fun _ _ _ _ h => h.2

omit [Inhabited V] in
theorem NeverRemoved.noReuse (C : Config ℕ (MapOp K V) (Map K V)) (a : ReplicaAction ℕ (MapOp K V))
    (h : NeverRemoved k C a) : NoReuse C a := by
  cases a with
  | update i op =>
    cases op with
    | put key val => exact h.1
    | remove key => trivial
    | get key => trivial
  | send i => trivial
  | deliver i n => trivial
  | restart i => exact h

theorem op_ne_remove (hGN : ∀ C a, G C a → NeverRemoved k C a) (h : replicated.Reachable G C)
    {m : ℕ} {ev : UpdateEvent ℕ (MapOp K V) (Map K V)} (hev : C.log[m]? = some ev) :
    ev.op ≠ .remove k := by
  obtain ⟨C', -, hstep, -, -⟩ := h.exists_event hev
  intro hop
  rw [hop] at hstep
  exact hGN C' _ hstep rfl

theorem neverErased (h : replicated.Reachable (NeverRemoved k) C) (H : Finset ℕ) :
    NeverErased C.log H k :=
  fun _ _ _ hev hop => absurd hop (op_ne_remove (fun _ _ h => h) h hev)

omit [DecidableEq K] [Inhabited V] in
theorem not_put_of_restart {C : Config ℕ (MapOp K V) (Map K V)} {i : ℕ}
    (hG : ∀ ev ∈ C.log, ev.site = i → ∀ key val, ev.op ≠ .put key val) :
    ∀ ev ∈ C.log, ev.site = i → ¬ ∃ key v, ev.op = .put key v :=
  fun ev hev hi ⟨key, v, hop⟩ => hG ev hev hi key v hop

/-- Two puts on a key never carry the same stamp. -/
theorem stamp_ne_of_lt (h : replicated.Reachable (NeverRemoved k) C) {m n : ℕ} (hlt : m < n)
    {ev ev' : UpdateEvent ℕ (MapOp K V) (Map K V)} {v w : V} (hev : C.log[m]? = some ev)
    (hop : ev.op = .put k v) (hev' : C.log[n]? = some ev') (hop' : ev'.op = .put k w) :
    (putTimestamp ev k).stamp ≠ (putTimestamp ev' k).stamp := by
  intro heq
  have huid := uid_putTimestamp counts_neverRemoved h hev hop
  have huid' := uid_putTimestamp counts_neverRemoved h hev' hop'
  have hsite : ev.site = ev'.site := by
    rw [← huid.1, ← huid'.1]
    exact congrArg Prod.snd heq
  -- of two puts of one replica, the later has seen the earlier
  have hmem : m ∈ ev'.past :=
    h.own_past (K := fun op => ∃ key v, op = .put key v)
      (fun C i hG => not_put_of_restart hG) hlt hev hev' hsite ⟨k, v, hop⟩
  have hlt := seqNumber_lt_of_mem_past counts_neverRemoved NeverRemoved.noReuse h hev' hop'
    (neverErased h _) hmem hev hop
  exact absurd (congrArg Prod.fst heq) (Nat.ne_of_lt hlt)

/-- A register that carries the stamp of a put carries that of the greatest. -/
theorem lastWriter_of_stamp (h : replicated.Reachable (NeverRemoved k) C) {i : ℕ}
    {R : Replica (Map K V)} (hR : C.HasState i R)
    (hstamp : ∀ reg, R.state.registers.lookup k = some reg → ∃ n ∈ R.hist, ∃ ev,
      C.log[n]? = some ev ∧ ev.op = .put k reg.value ∧
        (putTimestamp ev k).stamp = reg.timestamp.stamp) : LastWriter C.log R k := by
  intro hk
  obtain ⟨reg, hreg⟩ := (consistent_of_reachable h hR).exists_register hk
  obtain ⟨n, hn, ev, hev, hop, hs⟩ := hstamp reg hreg
  refine ⟨reg, hreg, n, hn, ev, hev, hop, hs, fun m hm ev' w hev' hop' hne => ?_⟩
  have hnot := register_not_behind counts_neverRemoved NeverRemoved.noReuse h hR
    (neverErased h _) reg hreg m hm ev' w hev' hop'
  rw [Timestamp.lt_congr hs.symm rfl] at hnot
  by_contra hnot'
  have heq := Timestamp.stamp_eq_of_not_lt hnot hnot'
  rcases Nat.lt_or_gt_of_ne hne with hlt | hlt
  · exact stamp_ne_of_lt h hlt hev' hop' hev hop heq.symm
  · exact stamp_ne_of_lt h hlt hev hop hev' hop' heq

/-- Merges that keep the stamps of the puts keep the last writer. -/
theorem lastWriter_of_keepsStamp
    (h : replicated.Reachable (fun C a => NeverRemoved k C a ∧ KeepsStamp k C a) C) {i : ℕ}
    {R : Replica (Map K V)} (hR : C.HasState i R) : LastWriter C.log R k := by
  refine lastWriter_of_stamp (h.mono fun _ _ h => h.1) hR fun reg hreg => ?_
  have hwriter := traced_of_reachable (W := fun ev key reg => key = k →
    ev.op = .put k reg.value ∧ (putTimestamp ev k).stamp = reg.timestamp.stamp) ?_ ?_ ?_ h hR k reg
      hreg
  · obtain ⟨n, hn, ev, hev, hw⟩ := hwriter
    exact ⟨n, hn, ev, hev, hw rfl⟩
  · rintro ev key reg' hop hreg' rfl
    exact ⟨hop, congrArg Timestamp.stamp (putTimestamp_of_lookup hreg')⟩
  · rintro ev key reg reg' hw hv hs hk
    rw [hv, hs]
    exact hw hk
  · rintro C i n q m Q key reg ev - hG hQ hlocal hremote - hw rfl
    obtain ⟨hop, hs⟩ := hw rfl
    rw [value_adopt]
    refine ⟨hop, hs.trans ?_⟩
    rcases timestamp_adopt i reg with ⟨hkept, -⟩ | ⟨hnew, hge⟩
    · exact hkept.symm
    · -- neither timestamp is below the other
      rw [hnew]
      exact Timestamp.stamp_eq_of_not_lt (hG.2 q Q reg hQ hlocal hremote) hge

/-- A merge that stamps a register anew leaves one that no put stamped. -/
theorem keepsStamp_of_lastWriter {a : ReplicaAction ℕ (MapOp K V)}
    (h : replicated.Reachable (NeverRemoved k) C) (ha : NeverRemoved k C a)
    (hlast : ∀ i R, (replicated.next C a).HasState i R →
      LastWriter (replicated.next C a).log R k) : KeepsStamp k C a := by
  cases a with
  | deliver i n =>
    intro q Q remoteReg hQ hlocal hremote hlt
    have hnext := Reachable.step h ha
    have hnode : (replicated.next C (.deliver i n)).node i = replicated.merged (C.node i) Q := by
      simp only [next, hQ, Function.update_self]
    have hlog : (replicated.next C (.deliver i n)).log = C.log :=
      log_next_of_not_update (by simp)
    -- the put whose write is received keeps the key in the map
    obtain ⟨m, hm, ev, hev, hw⟩ := exists_wrote counts_neverRemoved h (hasState_sent hQ) hremote
    have hstate : (replicated.next C (.deliver i n)).HasState i (replicated.merged (C.node i) Q) :=
      hnode ▸ .now
    have hk : ((C.node i).state.merge Q.state).contains k = true := by
      obtain ⟨reg, hreg⟩ := exists_register_of_put (hnext.mono NeverRemoved.noReuse) hstate
        (neverErased hnext _) (Finset.mem_union_right _ hm) (hlog ▸ hev) hw.1
      exact ((consistent_of_reachable hnext hstate)).contains_of_lookup hreg
    -- were the stamp (1, `i`) of the new register that of a put, it would be a put of this replica
    obtain ⟨reg, hreg, p, hp, ev', hev', hop', hs, -⟩ := hlast i _ hstate hk
    change ((C.node i).state.merge Q.state).registers.lookup k = some reg at hreg
    rw [(consistent_of_reachable h .now).lookup_registers_merge, if_pos hk, hlocal, hremote] at hreg
    cases hreg
    have hnew : (adopt i remoteReg).timestamp = ⟨1, i, i⟩ := by
      rcases timestamp_adopt i remoteReg with ⟨-, hgt⟩ | ⟨hnew, -⟩
      · exact absurd (Timestamp.lt_trans hlt hgt) (Timestamp.lt_irrefl _)
      · exact hnew
    rw [hlog] at hev'
    have huid := (uid_putTimestamp counts_neverRemoved h hev' hop').1
    have hsite : ev'.site = i := by
      rw [← huid, show (putTimestamp ev' k).uid = (adopt i remoteReg).timestamp.uid from
        congrArg Prod.snd hs, hnew]
    -- a put of this replica would have left it a register
    have hown : p ∈ (C.node ev'.site).hist :=
      h.own_hist (K := fun op => ∃ key v, op = .put key v)
        (fun C i hG => not_put_of_restart hG) hev' ⟨k, _, hop'⟩
    rw [hsite] at hown
    obtain ⟨old, hold⟩ := exists_register_of_put (h.mono NeverRemoved.noReuse) .now
      (neverErased h _) hown hev' hop'
    rw [hlocal] at hold
    cases hold
  | update i op => trivial
  | send i => trivial
  | restart i => trivial

end NeverRemoved

/-- **Last writer wins** for a key that is never removed, in every state of a run, exactly when
every merge that creates its register keeps the stamp received. -/
theorem lastWriter_iff {k : K} {as : List (ReplicaAction ℕ (MapOp K V))}
    (has : replicated.Steps (NeverRemoved k) replicated.start as) :
    (∀ as', as' <+: as → ∀ i R, (replicated.exec replicated.start as').HasState i R →
        LastWriter (replicated.exec replicated.start as').log R k) ↔
      replicated.Steps (KeepsStamp k) replicated.start as := by
  constructor
  · intro hall
    exact has.of_forall_initial (P := fun C => ∀ i R, C.HasState i R → LastWriter C.log R k)
      (fun C a h ha hP => keepsStamp_of_lastWriter h ha hP) .start hall
  · intro hkeeps as' hp i R hR
    exact lastWriter_of_keepsStamp (Reachable.start.exec ((has.and hkeeps).of_initial hp)) hR

/-- Replica 3 receives the put of replica 1, then the greater one of replica 2. -/
def olderFirst : List (ReplicaAction ℕ (MapOp String String)) :=
  [.update 1 (.put "k" "older"), .update 2 (.put "k" "newer"), .send 1, .send 2, .deliver 3 0,
    .deliver 3 1]

theorem steps_olderFirst : replicated.Steps (NeverRemoved "k") replicated.start olderFirst :=
  ⟨⟨by decide, by decide⟩, ⟨by decide, by decide⟩, trivial, trivial, trivial, trivial, trivial⟩

/-- Replica 3 keeps the older value under the stamp (1, 3), which no put carries. -/
theorem older_at_replica_three :
    ¬ LastWriter (replicated.exec replicated.start olderFirst).log
      ((replicated.exec replicated.start olderFirst).node 3) "k" := by
  intro h
  obtain ⟨reg, hreg, n, hn, ev, hev, hop, hs, -⟩ := h (by decide)
  have hkept : ((replicated.exec replicated.start olderFirst).node 3).state.registers.lookup "k" =
      some ⟨⟨1, 3, 3⟩, "older"⟩ := by decide
  rw [hkept] at hreg
  cases hreg
  have hn : n ∈ ({0, 1} : Finset ℕ) := hn
  simp only [Finset.mem_insert, Finset.mem_singleton] at hn
  rcases hn with rfl | rfl <;> cases hev
  · revert hs
    decide
  · revert hop
    decide

theorem last_writer_loses :
    replicated.Steps (NeverRemoved "k") replicated.start olderFirst ∧
      ¬ LastWriter (replicated.exec replicated.start olderFirst).log
        ((replicated.exec replicated.start olderFirst).node 3) "k" :=
  ⟨steps_olderFirst, older_at_replica_three⟩

theorem not_keepsStamp_olderFirst :
    ¬ replicated.Steps (KeepsStamp "k") replicated.start olderFirst := fun h =>
  older_at_replica_three
    ((lastWriter_iff steps_olderFirst).mpr h olderFirst (List.prefix_refl _) 3 _ .now)

end Map

end CrdtStore
