import CrdtStore.MapRun

/-!
# The values of a map

A put should carry a greater timestamp than every put of its key that its replica has seen, so that
no merge brings back a value that was overwritten. The evidence is the register of the key. It is
erased with the key, and a put that finds none starts again at sequence number 1.

A history in which no remove of a key follows a put of it never erases a register (`NeverErased`).
There the register of the key is not behind any put seen (`register_not_behind`): a put outranks the
puts it follows, and no merge replaces its value by one of theirs (`put_outranks`).
-/

namespace CrdtStore

open ReplicatedType Config

namespace Map

variable {K V : Type*} [DecidableEq K]

/-- The sequence number of the register of a key, 0 when there is none. -/
def seqNumber (m : Map K V) (k : K) : ℕ :=
  ((m.registers.lookup k).map fun reg => reg.timestamp.seqNumber).getD 0

/-- The timestamp that a put of `k` leaves in the register. -/
def putTimestamp (ev : UpdateEvent ℕ (MapOp K V) (Map K V)) (k : K) : Timestamp :=
  ((ev.state.registers.lookup k).map LWWRegister.timestamp).getD default

variable [Inhabited V]

/-- The register after a put: the next sequence number, with the id of the replica. -/
theorem Consistent.lookup_put {i : ℕ} {m : Map K V} (h : Consistent i m) {k : K}
    (hwrap : m.seqNumber k + 1 < 2 ^ 64) (v : V) :
    (m.put k v).registers.lookup k = some ⟨⟨m.seqNumber k + 1, i, i⟩, v⟩ := by
  rw [lookup_registers_put, if_pos rfl]
  unfold seqNumber at hwrap ⊢
  cases hreg : m.registers.lookup k with
  | none =>
    show some (⟨⟨_, m.replicaId, m.replicaId⟩, v⟩ : LWWRegister V) = _
    rw [h.replicaId]
    rfl
  | some reg =>
    rw [hreg] at hwrap
    have hseq : reg.timestamp.update.seqNumber = reg.timestamp.seqNumber + 1 :=
      Timestamp.seqNumber_update hwrap
    have howner : reg.timestamp.replicaId = i := h.owner k reg hreg
    show some (⟨⟨reg.timestamp.update.seqNumber, reg.timestamp.replicaId, reg.timestamp.replicaId⟩,
      v⟩ : LWWRegister V) = _
    rw [hseq, howner]
    rfl

/-- Other calls leave the register of a key. -/
theorem Consistent.lookup_apply {i : ℕ} {m : Map K V} (h : Consistent i m) {op : MapOp K V} {k : K}
    (hput : ∀ v, op ≠ .put k v) (hrem : op ≠ .remove k) :
    (replicated.apply op m).registers.lookup k = m.registers.lookup k := by
  cases op with
  | put key val =>
    have hk : k ≠ key := fun hk => hput val (by rw [hk])
    show (m.put key val).registers.lookup k = _
    rw [lookup_registers_put, if_neg hk]
  | remove key =>
    have hk : k ≠ key := fun hk => hrem (by rw [hk])
    show (m.remove key).registers.lookup k = _
    rw [lookup_registers_remove, if_neg hk]
  | get key =>
    show (m.get key).2.registers.lookup k = _
    rw [h.get]

/-- A register created in a merge keeps the remote timestamp or is stamped by the replica. -/
theorem timestamp_adopt (id : ℕ) (remoteReg : LWWRegister V) :
    ((adopt id remoteReg).timestamp.stamp = remoteReg.timestamp.stamp ∧
        (⟨1, id, id⟩ : Timestamp) < remoteReg.timestamp) ∨
      ((adopt id remoteReg).timestamp = ⟨1, id, id⟩ ∧
        ¬ (⟨1, id, id⟩ : Timestamp) < remoteReg.timestamp) := by
  have hfresh : (((default : LWWRegister V).setReplicaId id).assign remoteReg.value).timestamp =
      ⟨1, id, id⟩ := rfl
  by_cases hlt : (⟨1, id, id⟩ : Timestamp) < remoteReg.timestamp
  · left
    rw [adopt, LWWRegister.merge_of_lt (hfresh ▸ hlt)]
    exact ⟨Timestamp.stamp_copy .., hlt⟩
  · right
    rw [adopt, LWWRegister.merge_of_not_lt (hfresh ▸ hlt)]
    exact ⟨hfresh, hlt⟩

/-- A register created in a merge is not behind the remote one. -/
theorem not_adopt_lt {id : ℕ} {remoteReg : LWWRegister V} {t : Timestamp}
    (h : ¬ remoteReg.timestamp < t) : ¬ (adopt id remoteReg).timestamp < t := by
  rcases timestamp_adopt id remoteReg with ⟨hs, -⟩ | ⟨hs, hge⟩
  · rw [Timestamp.lt_congr hs rfl]
    exact h
  · rw [hs]
    simp only [Timestamp.lt_def] at h hge ⊢
    omega

/-! ## Puts and the registers they leave -/

variable {C : Config ℕ (MapOp K V) (Map K V)}
  {G : Config ℕ (MapOp K V) (Map K V) → ReplicaAction ℕ (MapOp K V) → Prop}

/-- No put wraps the sequence number of its register. -/
def Counts (G : Config ℕ (MapOp K V) (Map K V) → ReplicaAction ℕ (MapOp K V) → Prop) : Prop :=
  ∀ C i k v, G C (.update i (.put k v)) → (C.node i).state.seqNumber k + 1 < 2 ^ 64

/-- The step of the run that a logged put was. -/
theorem put_step (hG : Counts G) (h : replicated.Reachable G C) {n : ℕ}
    {ev : UpdateEvent ℕ (MapOp K V) (Map K V)} {k : K} {v : V} (hev : C.log[n]? = some ev)
    (hop : ev.op = .put k v) :
    ∃ C', replicated.Reachable G C' ∧ G C' (.update ev.site (.put k v)) ∧
      C'.log = C.log.take n ∧ ev.past = (C'.node ev.site).hist ∧
      ev.state.registers.lookup k =
        some ⟨⟨(C'.node ev.site).state.seqNumber k + 1, ev.site, ev.site⟩, v⟩ := by
  obtain ⟨C', hC', hstep, hevent, hlog⟩ := h.exists_event hev
  rw [hop] at hstep hevent
  refine ⟨C', hC', hstep, hlog, ?_, ?_⟩
  · rw [← hevent]
    rfl
  · have hput := (consistent_of_reachable hC' .now).lookup_put (hG C' _ k v hstep) v
    conv_lhs => rw [← hevent]
    exact hput

omit [Inhabited V] in
theorem putTimestamp_of_lookup {ev : UpdateEvent ℕ (MapOp K V) (Map K V)} {k : K}
    {reg : LWWRegister V} (h : ev.state.registers.lookup k = some reg) :
    putTimestamp ev k = reg.timestamp := by
  rw [putTimestamp, h]
  rfl

theorem uid_putTimestamp (hG : Counts G) (h : replicated.Reachable G C) {n : ℕ}
    {ev : UpdateEvent ℕ (MapOp K V) (Map K V)} {k : K} {v : V} (hev : C.log[n]? = some ev)
    (hop : ev.op = .put k v) :
    (putTimestamp ev k).uid = ev.site ∧ 0 < (putTimestamp ev k).seqNumber := by
  obtain ⟨C', -, -, -, -, hreg⟩ := put_step hG h hev hop
  rw [putTimestamp_of_lookup hreg]
  exact ⟨rfl, Nat.succ_pos _⟩

/-- The register of `k` holds the write of this put: its value, under its stamp or, where a replica
with a greater id received it first, under that id. -/
def Wrote (ev : UpdateEvent ℕ (MapOp K V) (Map K V)) (k : K) (reg : LWWRegister V) : Prop :=
  ev.op = .put k reg.value ∧
    (reg.timestamp.stamp = (putTimestamp ev k).stamp ∨
      (reg.timestamp.seqNumber = 1 ∧ (putTimestamp ev k).seqNumber = 1 ∧
        putTimestamp ev k < reg.timestamp))

omit [Inhabited V] in
theorem Wrote.congr {ev : UpdateEvent ℕ (MapOp K V) (Map K V)} {k : K} {reg reg' : LWWRegister V}
    (h : Wrote ev k reg) (hv : reg'.value = reg.value)
    (hs : reg'.timestamp.stamp = reg.timestamp.stamp) : Wrote ev k reg' := by
  refine ⟨by rw [hv]; exact h.1, ?_⟩
  rw [hs, Timestamp.lt_congr rfl hs, show reg'.timestamp.seqNumber = reg.timestamp.seqNumber from
    congrArg Prod.fst hs]
  exact h.2

omit [Inhabited V] in
/-- The timestamp of a register is at least that of the put whose write it holds. -/
theorem Wrote.not_lt {ev : UpdateEvent ℕ (MapOp K V) (Map K V)} {k : K} {reg : LWWRegister V}
    (h : Wrote ev k reg) : ¬ reg.timestamp < putTimestamp ev k := by
  intro hlt
  rcases h.2 with heq | ⟨-, -, hgt⟩
  · rw [Timestamp.lt_congr heq rfl] at hlt
    exact Timestamp.lt_irrefl _ hlt
  · exact Timestamp.lt_irrefl _ (Timestamp.lt_trans hlt hgt)

theorem Wrote.adopt {ev : UpdateEvent ℕ (MapOp K V) (Map K V)} {k : K} {reg : LWWRegister V}
    (h : Wrote ev k reg) (hpos : 0 < (putTimestamp ev k).seqNumber) (id : ℕ) :
    Wrote ev k (adopt id reg) := by
  rcases timestamp_adopt id reg with ⟨hs, -⟩ | ⟨hs, hge⟩
  · exact h.congr (value_adopt id reg) hs
  · refine ⟨by rw [value_adopt]; exact h.1, ?_⟩
    -- the remote timestamp is not past (1, id), nor is that of the put
    have hput := h.not_lt
    rw [hs, Timestamp.stamp, Timestamp.stamp, Prod.mk.injEq]
    simp only [Timestamp.lt_def, true_and] at hge hput ⊢
    omega

/-- Every register is related by `W` to a put in the history. -/
def Traced (W : UpdateEvent ℕ (MapOp K V) (Map K V) → K → LWWRegister V → Prop)
    (log : List (UpdateEvent ℕ (MapOp K V) (Map K V))) (R : Replica (Map K V)) : Prop :=
  ∀ k reg, R.state.registers.lookup k = some reg →
    ∃ n ∈ R.hist, ∃ ev, log[n]? = some ev ∧ W ev k reg

section Traced

variable {W : UpdateEvent ℕ (MapOp K V) (Map K V) → K → LWWRegister V → Prop}

theorem Traced.append (h : replicated.Reachable G C) {i : ℕ} {R : Replica (Map K V)}
    (hR : C.HasState i R) (htraced : Traced W C.log R)
    (ev : UpdateEvent ℕ (MapOp K V) (Map K V)) : Traced W (C.log ++ [ev]) R := by
  intro k reg hreg
  obtain ⟨n, hn, ev', hev', hw⟩ := htraced k reg hreg
  exact ⟨n, hn, ev', by rw [h.log_append hR hn]; exact hev', hw⟩

/-- An update keeps the other registers, and a put is the writer of the one it leaves. -/
theorem Traced.updated (h : replicated.Reachable G C) {i : ℕ}
    (hput : ∀ {ev k reg}, ev.op = .put k reg.value → ev.state.registers.lookup k = some reg →
      W ev k reg)
    (htraced : Traced W C.log (C.node i)) (op : MapOp K V) :
    Traced W (C.log ++ [replicated.event C i op]) (replicated.updated C i op) := by
  intro k reg hreg
  have hcons := consistent_of_reachable h (.now : C.HasState i (C.node i))
  by_cases hput' : ∃ v, op = .put k v
  · obtain ⟨v, rfl⟩ := hput'
    refine ⟨C.log.length, Finset.mem_insert_self _ _, replicated.event C i (.put k v),
      by simp, hput ?_ hreg⟩
    change ((C.node i).state.put k v).registers.lookup k = some reg at hreg
    rw [lookup_registers_put, if_pos rfl] at hreg
    cases hreg
    rfl
  · by_cases hrem : op = .remove k
    · subst hrem
      change ((C.node i).state.remove k).registers.lookup k = some reg at hreg
      rw [lookup_registers_remove, if_pos rfl] at hreg
      cases hreg
    · -- the register is the old one
      have hold : (C.node i).state.registers.lookup k = some reg :=
        (hcons.lookup_apply (fun v h => hput' ⟨v, h⟩) hrem).symm.trans hreg
      obtain ⟨n, hn, ev, hev, hw⟩ :=
        Traced.append h .now htraced (replicated.event C i op) k reg hold
      exact ⟨n, Finset.mem_insert_of_mem hn, ev, hev, hw⟩

theorem Traced.merged {log : List (UpdateEvent ℕ (MapOp K V) (Map K V))} {i : ℕ}
    {R Q : Replica (Map K V)} (hcons : Consistent i R.state)
    (hcongr : ∀ {ev k reg reg'}, W ev k reg → reg'.value = reg.value →
      reg'.timestamp.stamp = reg.timestamp.stamp → W ev k reg')
    (hadopt : ∀ {m : ℕ} {k reg ev}, R.state.registers.lookup k = none →
      Q.state.registers.lookup k = some reg → log[m]? = some ev → W ev k reg →
      W ev k (adopt i reg))
    (hR : Traced W log R) (hQ : Traced W log Q) : Traced W log (replicated.merged R Q) := by
  intro k reg hreg
  rcases hcons.register_merge hreg with ⟨localReg, remoteReg, hlocal, hremote, rfl⟩ | ⟨hlocal, -⟩ |
    ⟨remoteReg, hlocal, hremote, rfl⟩
  · by_cases hlt : localReg.timestamp < remoteReg.timestamp
    · obtain ⟨m, hm, ev, hev, hw⟩ := hQ k remoteReg hremote
      rw [LWWRegister.merge_of_lt hlt]
      exact ⟨m, Finset.mem_union_right _ hm, ev, hev, hcongr hw rfl rfl⟩
    · obtain ⟨m, hm, ev, hev, hw⟩ := hR k localReg hlocal
      rw [LWWRegister.merge_of_not_lt hlt]
      exact ⟨m, Finset.mem_union_left _ hm, ev, hev, hw⟩
  · obtain ⟨m, hm, ev, hev, hw⟩ := hR k reg hlocal
    exact ⟨m, Finset.mem_union_left _ hm, ev, hev, hw⟩
  · obtain ⟨m, hm, ev, hev, hw⟩ := hQ k remoteReg hremote
    exact ⟨m, Finset.mem_union_right _ hm, ev, hev, hadopt hlocal hremote hev hw⟩

/-- Every register is traced to a put in the history, by any relation `W` that puts establish and
that survives copying a timestamp and value and creating a register in a merge. -/
theorem traced_of_reachable
    (hput : ∀ {ev k reg}, ev.op = .put k reg.value → ev.state.registers.lookup k = some reg →
      W ev k reg)
    (hcongr : ∀ {ev k reg reg'}, W ev k reg → reg'.value = reg.value →
      reg'.timestamp.stamp = reg.timestamp.stamp → W ev k reg')
    (hadopt : ∀ {C} {i n q m : ℕ} {Q k reg ev}, replicated.Reachable G C → G C (.deliver i n) →
      C.sent[n]? = some (q, Q) → (C.node i).state.registers.lookup k = none →
      Q.state.registers.lookup k = some reg → C.log[m]? = some ev → W ev k reg →
      W ev k (adopt i reg))
    (h : replicated.Reachable G C) {i : ℕ} {R : Replica (Map K V)} (hR : C.HasState i R) :
    Traced W C.log R := by
  refine h.induct (P := fun log _ R => Traced W log R) ?_ ?_ ?_ ?_ i R hR
  · intro C i _ k reg hreg
    cases hreg
  · intro C i op hC _ ih j R hR
    exact (ih j R hR).append hC hR _
  · intro C i op hC _ ih
    exact (ih i _ .now).updated hC hput op
  · intro C i n q Q hC hstep hQ ihR ihQ
    exact Traced.merged (consistent_of_reachable hC .now) hcongr
      (fun hlocal hremote hev hw => hadopt hC hstep hQ hlocal hremote hev hw) ihR ihQ

end Traced

/-- Every register holds the write of a put in the history. -/
theorem exists_wrote (hG : Counts G) (h : replicated.Reachable G C) {i : ℕ}
    {R : Replica (Map K V)} (hR : C.HasState i R) {k : K} {reg : LWWRegister V}
    (hreg : R.state.registers.lookup k = some reg) :
    ∃ n ∈ R.hist, ∃ ev, C.log[n]? = some ev ∧ Wrote ev k reg := by
  refine traced_of_reachable (W := Wrote) ?_ Wrote.congr ?_ h hR k reg hreg
  · intro ev k reg hop hreg
    rw [Wrote, putTimestamp_of_lookup hreg]
    exact ⟨hop, Or.inl rfl⟩
  · intro C i n q Q k reg m ev hC _ _ _ _ hev hw
    exact hw.adopt (uid_putTimestamp hG hC hev hw.1).2 i

/-! ## Registers of keys that were not erased -/

/-- No remove of `k` in the history `H` follows a put of `k`: none finds a register to erase. -/
def NeverErased (log : List (UpdateEvent ℕ (MapOp K V) (Map K V))) (H : Finset ℕ) (k : K) : Prop :=
  ∀ m ∈ H, ∀ ev, log[m]? = some ev → ev.op = .remove k →
    ∀ n ∈ ev.past, ∀ ev' v, log[n]? = some ev' → ev'.op ≠ .put k v

omit [DecidableEq K] [Inhabited V] in
theorem NeverErased.mono {log : List (UpdateEvent ℕ (MapOp K V) (Map K V))} {H H' : Finset ℕ}
    {k : K} (h : NeverErased log H' k) (hsub : H ⊆ H') : NeverErased log H k :=
  fun m hm => h m (hsub hm)

/-- What is known of a history stays true as the log grows. -/
theorem NeverErased.of_append (h : replicated.Reachable G C)
    {log : List (UpdateEvent ℕ (MapOp K V) (Map K V))} {H : Finset ℕ} {k : K}
    (hH : ∀ m ∈ H, m < C.log.length) (hno : NeverErased (C.log ++ log) H k) :
    NeverErased C.log H k := by
  intro m hm ev hev hop n hn ev' v hev'
  have hlt := h.past_lt hev hn
  refine hno m hm ev ?_ hop n hn ev' v ?_
  · rw [List.getElem?_append_left (hH m hm)]
    exact hev
  · rw [List.getElem?_append_left (hlt.trans (hH m hm))]
    exact hev'

/-- A put in a history that erased nothing has left a register. -/
theorem exists_register_of_put (h : replicated.Reachable NoReuse C) {i : ℕ}
    {R : Replica (Map K V)} (hR : C.HasState i R) {k : K} (hno : NeverErased C.log R.hist k) {m : ℕ}
    (hm : m ∈ R.hist)
    {ev : UpdateEvent ℕ (MapOp K V) (Map K V)} {v : V} (hev : C.log[m]? = some ev)
    (hop : ev.op = .put k v) : ∃ reg, R.state.registers.lookup k = some reg := by
  refine (consistent_of_reachable h hR).exists_register ?_
  exact contains_of_unobserved_put h hR hev hop ⟨hm, fun n hn ev' hev' hop' hmem =>
    hno n hn ev' hev' hop' m hmem ev v hev hop⟩

/-- The register of `k` is behind no put in the history. -/
def NotBehind (log : List (UpdateEvent ℕ (MapOp K V) (Map K V))) (R : Replica (Map K V)) (k : K) :
    Prop :=
  ∀ reg, R.state.registers.lookup k = some reg → ∀ m ∈ R.hist, ∀ ev v, log[m]? = some ev →
    ev.op = .put k v → ¬ reg.timestamp < putTimestamp ev k

theorem NotBehind.append (h : replicated.Reachable G C) {i : ℕ} {R : Replica (Map K V)}
    (hR : C.HasState i R) {k : K} (hnot : NotBehind C.log R k)
    (ev : UpdateEvent ℕ (MapOp K V) (Map K V)) : NotBehind (C.log ++ [ev]) R k := by
  intro reg hreg m hm ev' v hev' hop'
  rw [h.log_append hR hm] at hev'
  exact hnot reg hreg m hm ev' v hev' hop'

/-- A put draws the number after that of the old register, which is not behind. -/
theorem NotBehind.put (hG : Counts G) (hGR : ∀ C a, G C a → NoReuse C a)
    (h : replicated.Reachable G C) {i : ℕ} {k : K} {w : V} (hstep : G C (.update i (.put k w)))
    (hno : NeverErased C.log (C.node i).hist k) (hnot : NotBehind C.log (C.node i) k) :
    NotBehind (C.log ++ [replicated.event C i (.put k w)])
      (replicated.updated C i (.put k w)) k := by
  intro reg hreg m hm ev v hev hop
  have hcons := consistent_of_reachable h (.now : C.HasState i (C.node i))
  change ((C.node i).state.put k w).registers.lookup k = some reg at hreg
  rcases Finset.mem_insert.mp hm with rfl | hm
  · -- the put itself
    obtain rfl : replicated.event C i (.put k w) = ev := by simpa using hev
    rw [putTimestamp_of_lookup hreg]
    exact Timestamp.lt_irrefl _
  · rw [h.log_append .now hm] at hev
    obtain ⟨old, hold⟩ := exists_register_of_put (h.mono hGR) .now hno hm hev hop
    have hold' := hnot old hold m hm ev v hev hop
    rw [hcons.lookup_put (hG C i k w hstep)] at hreg
    cases hreg
    simp only [seqNumber, hold, Option.map_some, Option.getD_some, Timestamp.lt_def] at hold' ⊢
    omega

/-- Other calls leave the register, a remove leaves none. -/
theorem NotBehind.updated_of_ne (h : replicated.Reachable G C) {i : ℕ} {k : K} {op : MapOp K V}
    (hput : ∀ w, op ≠ .put k w) (hnot : NotBehind C.log (C.node i) k) :
    NotBehind (C.log ++ [replicated.event C i op]) (replicated.updated C i op) k := by
  intro reg hreg m hm ev v hev hop
  have hcons := consistent_of_reachable h (.now : C.HasState i (C.node i))
  have hrem : op ≠ .remove k := by
    rintro rfl
    change ((C.node i).state.remove k).registers.lookup k = some reg at hreg
    rw [lookup_registers_remove, if_pos rfl] at hreg
    cases hreg
  have hold : (C.node i).state.registers.lookup k = some reg :=
    (hcons.lookup_apply hput hrem).symm.trans hreg
  rcases Finset.mem_insert.mp hm with rfl | hm
  · obtain rfl : replicated.event C i op = ev := by simpa using hev
    exact absurd hop (hput v)
  · rw [h.log_append .now hm] at hev
    exact hnot reg hold m hm ev v hev hop

/-- A merge leaves a register that is behind neither side, as each side that has seen a put has a
register. -/
theorem NotBehind.merged (hGR : ∀ C a, G C a → NoReuse C a) (h : replicated.Reachable G C)
    {i q : ℕ} {Q : Replica (Map K V)} (hQ : C.HasState q Q) {k : K}
    (hnoR : NeverErased C.log (C.node i).hist k) (hnoQ : NeverErased C.log Q.hist k)
    (hnotR : NotBehind C.log (C.node i) k) (hnotQ : NotBehind C.log Q k) :
    NotBehind C.log (replicated.merged (C.node i) Q) k := by
  intro reg hreg m hm ev v hev hop
  have hlocal : m ∈ (C.node i).hist → ∃ old, (C.node i).state.registers.lookup k = some old :=
    fun hmR => exists_register_of_put (h.mono hGR) .now hnoR hmR hev hop
  have hremote : m ∈ Q.hist → ∃ old, Q.state.registers.lookup k = some old :=
    fun hmQ => exists_register_of_put (h.mono hGR) hQ hnoQ hmQ hev hop
  rcases (consistent_of_reachable h .now).register_merge hreg with
    ⟨localReg, remoteReg, hl, hr, rfl⟩ | ⟨hl, hr⟩ | ⟨remoteReg, hl, hr, rfl⟩
  · -- the greater of two registers, each behind no put of its side
    apply LWWRegister.not_merge_lt
    rcases Finset.mem_union.mp hm with hmR | hmQ
    · exact Or.inl (hnotR localReg hl m hmR ev v hev hop)
    · exact Or.inr (hnotQ remoteReg hr m hmQ ev v hev hop)
  · -- the remote side has seen no put of the key
    have hmR : m ∈ (C.node i).hist := by
      refine (Finset.mem_union.mp hm).resolve_right fun hmQ => ?_
      obtain ⟨old, hold⟩ := hremote hmQ
      rw [hr] at hold
      cases hold
    exact hnotR reg hl m hmR ev v hev hop
  · -- the local side has seen no put of the key
    have hmQ : m ∈ Q.hist := by
      refine (Finset.mem_union.mp hm).resolve_left fun hmR => ?_
      obtain ⟨old, hold⟩ := hlocal hmR
      rw [hl] at hold
      cases hold
    exact not_adopt_lt (hnotQ remoteReg hr m hmQ ev v hev hop)

/-- The register of a key is behind no put seen, as long as no remove seen erased one. -/
theorem register_not_behind (hG : Counts G) (hGR : ∀ C a, G C a → NoReuse C a)
    (h : replicated.Reachable G C) {i : ℕ} {R : Replica (Map K V)} (hR : C.HasState i R) {k : K}
    (hno : NeverErased C.log R.hist k) : NotBehind C.log R k := by
  refine h.induct (P := fun log _ R => NeverErased log R.hist k → NotBehind log R k)
    ?_ ?_ ?_ ?_ i R hR hno
  · intro C i _ _ reg _ m hm
    exact absurd hm (Finset.notMem_empty m)
  · intro C i op hC _ ih j R hR hno
    exact (ih j R hR (hno.of_append hC fun m hm => hC.hist_lt hR hm)).append hC hR _
  · intro C i op hC hstep ih hno
    have hno' : NeverErased C.log (C.node i).hist k :=
      (hno.mono (Finset.subset_insert _ _)).of_append hC fun m hm => hC.hist_lt .now hm
    have hnot := ih i _ .now hno'
    by_cases hput : ∃ w, op = .put k w
    · obtain ⟨w, rfl⟩ := hput
      exact hnot.put hG hGR hC hstep hno'
    · exact hnot.updated_of_ne hC fun w hw => hput ⟨w, hw⟩
  · intro C i n q Q hC _ hQ ihR ihQ hno
    have hnoR := hno.mono (H := (C.node i).hist) Finset.subset_union_left
    have hnoQ := hno.mono (H := Q.hist) Finset.subset_union_right
    exact NotBehind.merged hGR hC (hasState_sent hQ) hnoR hnoQ (ihR hnoR) (ihQ hnoQ)

/-! ## Puts outrank the puts they follow -/

/-- A put draws a number past those of the puts it follows, when no remove among these erased one of
their registers. -/
theorem seqNumber_lt_of_mem_past (hG : Counts G) (hGR : ∀ C a, G C a → NoReuse C a)
    (h : replicated.Reachable G C) {n : ℕ} {ev : UpdateEvent ℕ (MapOp K V) (Map K V)} {k : K}
    {v : V} (hev : C.log[n]? = some ev) (hop : ev.op = .put k v)
    (hno : NeverErased C.log ev.past k) {m : ℕ} (hm : m ∈ ev.past)
    {ev' : UpdateEvent ℕ (MapOp K V) (Map K V)} {w : V}
    (hev' : C.log[m]? = some ev') (hop' : ev'.op = .put k w) :
    (putTimestamp ev' k).seqNumber < (putTimestamp ev k).seqNumber := by
  obtain ⟨C', hC', -, hlog, hpast, hreg⟩ := put_step hG h hev hop
  -- the replica as the put found it
  have hsplit : C.log = C'.log ++ C.log.drop n := by rw [hlog, List.take_append_drop]
  have hlt : ∀ m ∈ (C'.node ev.site).hist, m < C'.log.length := fun m hm => hC'.hist_lt .now hm
  rw [hpast] at hno hm
  rw [hsplit, List.getElem?_append_left (hlt m hm)] at hev'
  rw [hsplit] at hno
  have hno' := hno.of_append hC' hlt
  obtain ⟨old, hold⟩ := exists_register_of_put (hC'.mono hGR) .now hno' hm hev' hop'
  have hnot := register_not_behind hG hGR hC' .now hno' old hold m hm ev' w hev' hop'
  rw [putTimestamp_of_lookup hreg]
  simp only [seqNumber, hold, Option.map_some, Option.getD_some, Timestamp.lt_def] at hnot ⊢
  omega

/-- No counter wraps, and no replica restarts after a put. -/
def CountersFit (C : Config ℕ (MapOp K V) (Map K V)) (a : ReplicaAction ℕ (MapOp K V)) : Prop :=
  NoReuse C a ∧ ∀ i k v, a = .update i (.put k v) → (C.node i).state.seqNumber k + 1 < 2 ^ 64

omit [Inhabited V] in
theorem counts_countersFit : Counts (CountersFit (K := K) (V := V)) :=
  fun _ i k v h => h.2 i k v rfl

/-- **Every put outranks the puts it follows**, when its history holds no remove of the key that
follows a put of it, and no merge replaces its value by that of a put it follows. -/
theorem put_outranks (h : replicated.Reachable CountersFit C) {n : ℕ}
    {ev : UpdateEvent ℕ (MapOp K V) (Map K V)} {k : K} {v : V} (hev : C.log[n]? = some ev)
    (hop : ev.op = .put k v) (hno : NeverErased C.log ev.past k) :
    (∀ m ∈ ev.past, ∀ ev' w, C.log[m]? = some ev' → ev'.op = .put k w →
        putTimestamp ev' k < putTimestamp ev k) ∧
      ∀ i q R Q, C.HasState i R → C.HasState q Q → ∀ reg reg',
        R.state.registers.lookup k = some reg → Wrote ev k reg →
        (R.state.merge Q.state).registers.lookup k = some reg' → reg' ≠ reg →
        (∃ m ∈ Q.hist, ∃ ev', C.log[m]? = some ev' ∧ Wrote ev' k reg') ∧
          ∀ m ev', C.log[m]? = some ev' → Wrote ev' k reg' → m ∉ ev.past := by
  have hdraws : ∀ m ∈ ev.past, ∀ ev' w, C.log[m]? = some ev' → ev'.op = .put k w →
      (putTimestamp ev' k).seqNumber < (putTimestamp ev k).seqNumber :=
    fun m hm ev' w hev' hop' =>
      seqNumber_lt_of_mem_past counts_countersFit (fun _ _ h => h.1) h hev hop hno hm hev' hop'
  refine ⟨fun m hm ev' w hev' hop' => Or.inl (hdraws m hm ev' w hev' hop'),
    fun i q R Q hR hQ reg reg' hreg hw hreg' hne => ?_⟩
  rcases (consistent_of_reachable h hR).register_merge hreg' with
    ⟨localReg, remoteReg, hlocal, hremote, rfl⟩ | ⟨hlocal, -⟩ | ⟨remoteReg, hlocal, -, -⟩
  · -- replaced by a register with a greater stamp
    obtain rfl : reg = localReg := Option.some.inj (hreg.symm.trans hlocal)
    have hlt : reg.timestamp < remoteReg.timestamp := by
      by_contra hnot
      exact hne (LWWRegister.merge_of_not_lt hnot)
    rw [LWWRegister.merge_of_lt hlt]
    constructor
    · obtain ⟨m, hm, ev', hev', hw'⟩ := exists_wrote counts_countersFit h hQ hremote
      exact ⟨m, hm, ev', hev', hw'.congr rfl rfl⟩
    · intro m ev' hev' hw' hm
      have hdraw := hdraws m hm ev' _ hev' hw'.1
      have hpos := (uid_putTimestamp counts_countersFit h hev' hw'.1).2
      have hge := hw.not_lt
      have hstamp := hw'.2
      -- only sequence number 1 is ever drawn in a merge, and this put drew a later one
      simp only [Timestamp.stamp, Prod.mk.injEq, Timestamp.lt_def, Timestamp.seqNumber_copy,
        Timestamp.uid_copy] at hge hstamp hlt
      omega
  · exact absurd (Option.some.inj (hlocal.symm.trans hreg)) hne
  · rw [hreg] at hlocal
    cases hlocal

/-- Replica 0 puts a key twice. -/
def putTwice : List (ReplicaAction ℕ (MapOp String String)) :=
  [.update 0 (.put "k" "old"), .update 0 (.put "k" "new")]

theorem put_outranks_putTwice :
    ∃ ev ev', (replicated.exec replicated.start putTwice).log[0]? = some ev ∧
      (replicated.exec replicated.start putTwice).log[1]? = some ev' ∧
      putTimestamp ev "k" < putTimestamp ev' "k" := by
  have hsteps : replicated.Steps CountersFit replicated.start putTwice :=
    ⟨⟨by decide, fun i k v h => by cases h; decide⟩,
      ⟨by decide, fun i k v h => by cases h; decide⟩, trivial⟩
  refine ⟨_, _, rfl, rfl,
    (put_outranks (Reachable.start.exec hsteps) (n := 1) rfl rfl ?_).1 0 (by decide) _ _ rfl rfl⟩
  -- the history is the first put
  intro m hm ev hev hop
  obtain rfl : m = 0 := by simpa using (show m ∈ ({0} : Finset ℕ) from hm)
  cases hev
  cases hop

/-- The second put of replica 0 starts at sequence number 1 again. -/
def putAfterRemove : Config ℕ (MapOp String String) (Map String String) :=
  replicated.exec replicated.start
    [.update 0 (.put "k" "old"), .update 0 (.remove "k"), .update 0 (.put "k" "new")]

theorem put_not_outranks :
    replicated.Reachable NoReuse putAfterRemove ∧
      ∃ ev ev', putAfterRemove.log[0]? = some ev ∧ ev.op = .put "k" "old" ∧
        putAfterRemove.log[2]? = some ev' ∧ ev'.op = .put "k" "new" ∧ 0 ∈ ev'.past ∧
        ¬ putTimestamp ev "k" < putTimestamp ev' "k" := by
  exact ⟨Reachable.start.exec (by decide), _, _, rfl, rfl, rfl, rfl, by decide, by decide⟩

end Map

end CrdtStore
