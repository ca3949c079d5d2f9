import CrdtStore.Deployment

/-!
# Client sessions

A client that stops and starts again under the same id builds a fresh map. The sync of its
constructor is to bring back the version counter of its id, so that the puts of the new session
draw versions nobody has seen (`FreshPuts`). It brings back what the server contacted knows. The
session is fresh exactly when nobody, and no message that may still arrive, knows a newer version
of the id (`CaughtUp`, `freshPuts_iff`).
-/

namespace CrdtStore

open ReplicatedType Config

namespace Map

variable {K V : Type*} [DecidableEq K] [Inhabited V]
  {server : ℕ → Bool} {C : Config ℕ (MapOp K V) (Map K V)}

/-- The newest version of replica `j` that the map has seen. -/
def seen (m : Map K V) (j : ℕ) : ℕ := m.keys.seen j

/-- No version counter wraps. -/
def NoWrap (C : Config ℕ (MapOp K V) (Map K V)) : ReplicaAction ℕ (MapOp K V) → Prop
  | .update i (.put _ _) => (C.node i).state.seen i + 1 < 2 ^ 64
  | _ => True

/-- The steps of the deployed system, with restarts of clients and servers. -/
def Restarting (server : ℕ → Bool) (C : Config ℕ (MapOp K V) (Map K V))
    (a : ReplicaAction ℕ (MapOp K V)) : Prop :=
  ClientServer server (fun m => m.keys.synced server) C a ∧ NoWrap C a

instance (C : Config ℕ (MapOp K V) (Map K V)) (a : ReplicaAction ℕ (MapOp K V)) :
    Decidable (NoWrap C a) :=
  match a with
  | .update i (.put _ _) => inferInstanceAs (Decidable ((C.node i).state.seen i + 1 < 2 ^ 64))
  | .update _ (.remove _) => isTrue trivial
  | .update _ (.get _) => isTrue trivial
  | .send _ => isTrue trivial
  | .deliver _ _ => isTrue trivial
  | .restart _ => isTrue trivial

instance (server : ℕ → Bool) (C : Config ℕ (MapOp K V) (Map K V))
    (a : ReplicaAction ℕ (MapOp K V)) : Decidable (Restarting server C a) :=
  inferInstanceAs (Decidable (_ ∧ _))

/-- The steps of a session of client `i`: all but its restart. -/
def InSession (server : ℕ → Bool) (i : ℕ) (C : Config ℕ (MapOp K V) (Map K V))
    (a : ReplicaAction ℕ (MapOp K V)) : Prop :=
  Restarting server C a ∧ a ≠ .restart i

/-- Every put of `i` in the session that starts in `C` draws a version newer than what any other
replica knows of `i` at that moment. -/
def FreshPuts (server : ℕ → Bool) (i : ℕ) (C : Config ℕ (MapOp K V) (Map K V)) : Prop :=
  ∀ as, replicated.Steps (InSession server i) C as → ∀ key val,
    Restarting server (replicated.exec C as) (.update i (.put key val)) →
    ∀ j, j ≠ i → ((replicated.exec C as).node j).state.seen i <
      (((replicated.exec C as).node i).state.put key val).seen i

/-- No other replica and no message knows a newer version of `i` than the map `reply`. -/
def CaughtUp (i : ℕ) (reply : Map K V) (C : Config ℕ (MapOp K V) (Map K V)) : Prop :=
  (∀ j, j ≠ i → (C.node j).state.seen i ≤ reply.seen i) ∧
    ∀ p ∈ C.sent, p.2.state.seen i ≤ reply.seen i

/-! ## Versions seen -/

omit [DecidableEq K] [Inhabited V] in
theorem seen_new (i j : ℕ) : (new i : Map K V).seen j = 0 := ORSet.seen_new i j

theorem wellFormed_of_restarting (h : replicated.Reachable (Restarting server) C) {i : ℕ}
    {R : Replica (Map K V)} (hR : C.HasState i R) :
    ORSet.WellFormed i R.state.keys ∧ ∀ j, R.state.seen j < 2 ^ 64 := by
  refine h.induct (P := fun _ i R => ORSet.WellFormed i R.state.keys ∧ ∀ j, R.state.seen j < 2 ^ 64)
    ?_ ?_ ?_ ?_ i R hR
  · intro C i _
    refine ⟨ORSet.WellFormed.new i, fun j => ?_⟩
    show (new i : Map K V).seen j < 2 ^ 64
    rw [seen_new]
    omega
  · intro C i op _ _ ih j R hR
    exact ih j R hR
  · intro C i op _ hstep ih
    obtain ⟨hwf, hlt⟩ := ih i _ .now
    cases op with
    | put key val =>
      have hwrap : (C.node i).state.keys.seen i + 1 < 2 ^ 64 := hstep.2
      refine ⟨hwf.add hwrap key, fun j => ?_⟩
      show ((C.node i).state.keys.add key).seen j < 2 ^ 64
      rw [hwf.seen_add hwrap]
      split
      · exact hwrap
      · exact hlt j
    | remove key => exact ⟨hwf.remove key, hlt⟩
    | get key =>
      show ORSet.WellFormed i ((C.node i).state.get key).2.keys ∧
        ∀ j, ((C.node i).state.get key).2.keys.seen j < 2 ^ 64
      rw [keys_get]
      exact ⟨hwf, hlt⟩
  · intro C i n q Q _ _ _ hR hQ
    refine ⟨hR.1.merge hQ.1, fun j => ?_⟩
    show ((C.node i).state.keys.merge Q.state.keys).seen j < 2 ^ 64
    rw [ORSet.seen_merge hR.1 hQ.1]
    exact max_lt (hR.2 j) (hQ.2 j)

section Step

variable {i j q : ℕ} {R Q : Replica (Map K V)}

theorem seen_merged (h : replicated.Reachable (Restarting server) C) (hR : C.HasState i R)
    (hQ : C.HasState q Q) (j : ℕ) :
    (R.state.merge Q.state).seen j = max (R.state.seen j) (Q.state.seen j) :=
  ORSet.seen_merge (wellFormed_of_restarting h hR).1 (wellFormed_of_restarting h hQ).1 j

theorem seen_put (h : replicated.Reachable (Restarting server) C) {key : K} {val : V}
    (hstep : Restarting server C (.update i (.put key val))) (j : ℕ) :
    ((C.node i).state.put key val).seen j =
      if j = i then (C.node i).state.seen i + 1 else (C.node i).state.seen j :=
  (wellFormed_of_restarting h .now).1.seen_add hstep.2 key j

/-- An update draws versions of its own replica only. -/
theorem seen_updated (h : replicated.Reachable (Restarting server) C) {op : MapOp K V}
    (hstep : Restarting server C (.update i op)) (j : ℕ) :
    (C.node i).state.seen j ≤ (replicated.apply op (C.node i).state).seen j ∧
      (j ≠ i → (replicated.apply op (C.node i).state).seen j = (C.node i).state.seen j) := by
  cases op with
  | put key val =>
    show _ ≤ ((C.node i).state.put key val).seen j ∧
      (j ≠ i → ((C.node i).state.put key val).seen j = _)
    rw [seen_put h hstep]
    split
    · next hj =>
      rw [hj]
      exact ⟨Nat.le_succ _, fun hne => absurd rfl hne⟩
    · exact ⟨le_rfl, fun _ => rfl⟩
  | remove key => exact ⟨le_rfl, fun _ => rfl⟩
  | get key =>
    show _ ≤ ((C.node i).state.get key).2.keys.seen j ∧
      (j ≠ i → ((C.node i).state.get key).2.keys.seen j = _)
    rw [keys_get]
    exact ⟨le_rfl, fun _ => rfl⟩

/-! ## A session that starts caught up stays so -/

/-- What a merge makes the receiver of message `n` know. -/
theorem seen_deliver (h : replicated.Reachable (Restarting server) C) {n : ℕ}
    (hQ : C.sent[n]? = some (q, Q)) (k : ℕ) :
    ((replicated.next C (.deliver i n)).node i).state.seen k =
      max ((C.node i).state.seen k) (Q.state.seen k) := by
  rw [node_deliver_self hQ]
  exact seen_merged h .now (hasState_sent hQ) k

/-- In its session a replica forgets none of its versions. -/
theorem seen_le_next (h : replicated.Reachable (Restarting server) C)
    {a : ReplicaAction ℕ (MapOp K V)} (ha : InSession server i C a) :
    (C.node i).state.seen i ≤ ((replicated.next C a).node i).state.seen i := by
  cases a with
  | update k op =>
    by_cases hk : i = k
    · subst hk
      rw [node_update_self]
      exact (seen_updated h ha.1 i).1
    · rw [node_update_of_ne op hk]
  | send k => exact le_rfl
  | deliver k n =>
    by_cases hk : i = k
    · subst hk
      cases hQ : C.sent[n]? with
      | none => rw [next, hQ]
      | some p =>
        rw [seen_deliver h hQ]
        exact le_max_left _ _
    · rw [node_deliver_of_ne hk]
  | restart k => rw [node_restart_of_ne fun hk => ha.2 (by rw [hk])]

/-- The others learn of `i` no more than `i` itself knew. -/
theorem CaughtUp.seen_next_le (h : replicated.Reachable (Restarting server) C)
    {a : ReplicaAction ℕ (MapOp K V)} (ha : InSession server i C a)
    (hc : CaughtUp i (C.node i).state C) (hj : j ≠ i) :
    ((replicated.next C a).node j).state.seen i ≤ (C.node i).state.seen i := by
  have hold := hc.1 j hj
  cases a with
  | update k op =>
    by_cases hk : j = k
    · subst hk
      rw [node_update_self]
      show (replicated.apply op (C.node j).state).seen i ≤ _
      rw [(seen_updated h ha.1 i).2 hj.symm]
      exact hold
    · rw [node_update_of_ne op hk]
      exact hold
  | send k => exact hold
  | deliver k n =>
    by_cases hk : j = k
    · subst hk
      cases hQ : C.sent[n]? with
      | none =>
        rw [next, hQ]
        exact hold
      | some p =>
        rw [seen_deliver h hQ]
        exact max_le hold (hc.2 p (List.mem_of_getElem? hQ))
    · rw [node_deliver_of_ne hk]
      exact hold
  | restart k =>
    by_cases hk : j = k
    · subst hk
      rw [node_restart_self]
      show (new j : Map K V).seen i ≤ _
      rw [seen_new]
      exact Nat.zero_le _
    · rw [node_restart_of_ne hk]
      exact hold

/-- No message tells more of `i` than `i` knew when it was sent. -/
theorem CaughtUp.sent_next_le {a : ReplicaAction ℕ (MapOp K V)}
    (hc : CaughtUp i (C.node i).state C) {p : ℕ × Replica (Map K V)}
    (hp : p ∈ (replicated.next C a).sent) : p.2.state.seen i ≤ (C.node i).state.seen i := by
  cases a with
  | update k op => exact hc.2 p hp
  | send k =>
    rcases List.mem_append.mp hp with hp | hp
    · exact hc.2 p hp
    · obtain rfl : p = (k, C.node k) := by simpa using hp
      by_cases hk : k = i
      · rw [hk]
      · exact hc.1 k hk
  | deliver k n =>
    rw [sent_deliver] at hp
    exact hc.2 p hp
  | restart k => exact hc.2 p hp

theorem CaughtUp.next (h : replicated.Reachable (Restarting server) C)
    {a : ReplicaAction ℕ (MapOp K V)} (ha : InSession server i C a)
    (hc : CaughtUp i (C.node i).state C) :
    CaughtUp i ((replicated.next C a).node i).state (replicated.next C a) :=
  ⟨fun _ hj => (hc.seen_next_le h ha hj).trans (seen_le_next h ha),
    fun _ hp => (hc.sent_next_le hp).trans (seen_le_next h ha)⟩

end Step

theorem CaughtUp.exec {i : ℕ} (h : replicated.Reachable (Restarting server) C)
    {as : List (ReplicaAction ℕ (MapOp K V))} (has : replicated.Steps (InSession server i) C as)
    (hc : CaughtUp i (C.node i).state C) :
    CaughtUp i ((replicated.exec C as).node i).state (replicated.exec C as) := by
  induction as generalizing C with
  | nil => exact hc
  | cons a as ih => exact ih (.step h has.1.1) has.2 (hc.next h has.1)

/-- The next put is fresh only where no other replica is ahead. -/
theorem seen_le_of_fresh [Inhabited K] (h : replicated.Reachable (Restarting server) C) {i : ℕ}
    (hi : server i = false) (hsync : (C.node i).state.keys.synced server = true)
    (hfresh : ∀ key val, Restarting server C (.update i (.put key val)) → ∀ j, j ≠ i →
      (C.node j).state.seen i < ((C.node i).state.put key val).seen i) {j : ℕ} (hj : j ≠ i) :
    (C.node j).state.seen i ≤ (C.node i).state.seen i := by
  by_cases hwrap : (C.node i).state.seen i + 1 < 2 ^ 64
  · have hstep : Restarting server C (.update i (.put default default)) := ⟨⟨hi, hsync⟩, hwrap⟩
    have hlt := hfresh default default hstep j hj
    rw [seen_put h hstep, if_pos rfl] at hlt
    omega
  · -- at the last version nobody can be ahead
    have hlt := (wellFormed_of_restarting h (.now : C.HasState j (C.node j))).2 i
    omega

/-! ## The first sync of a session -/

section Sync

variable {i n q : ℕ} {reply : Replica (Map K V)}

omit [DecidableEq K] [Inhabited V] in
theorem restarting_deliver (hreply : C.sent[n]? = some (q, reply)) (hq : server q = true) :
    Restarting server C (.deliver i n) := by
  refine ⟨Or.inr fun p hp => ?_, trivial⟩
  obtain rfl : (q, reply) = p := Option.some.inj (hreply.symm.trans hp)
  exact hq

/-- The fresh map knows of its id what the reply knows. -/
theorem seen_sync (h : replicated.Reachable (Restarting server) C)
    (hnew : (C.node i).state = new i) (hreply : C.sent[n]? = some (q, reply)) :
    ((replicated.next C (.deliver i n)).node i).state.seen i = reply.state.seen i := by
  rw [seen_deliver h hreply, hnew, seen_new]
  exact Nat.zero_max _

theorem synced_sync (h : replicated.Reachable (Restarting server) C)
    (hreply : C.sent[n]? = some (q, reply)) (hq : server q = true) :
    ((replicated.next C (.deliver i n)).node i).state.keys.synced server = true := by
  rw [node_deliver_self hreply]
  have hwf := (wellFormed_of_restarting h (hasState_sent hreply)).1
  exact ORSet.synced_merge (Or.inr (ORSet.synced_of_server hwf hq))

theorem CaughtUp.freshPuts (h : replicated.Reachable (Restarting server) C)
    (hnew : (C.node i).state = new i) (hreply : C.sent[n]? = some (q, reply))
    (hq : server q = true) (hc : CaughtUp i reply.state C) :
    FreshPuts server i (replicated.next C (.deliver i n)) := by
  intro as has key val hput j hj
  have hnext := Reachable.step h (restarting_deliver (i := i) hreply hq)
  have hstart : CaughtUp i ((replicated.next C (.deliver i n)).node i).state
      (replicated.next C (.deliver i n)) := by
    refine ⟨fun j hj => ?_, fun p hp => ?_⟩
    · rw [seen_sync h hnew hreply, node_deliver_of_ne hj]
      exact hc.1 j hj
    · rw [seen_sync h hnew hreply]
      exact hc.2 p (by rwa [sent_deliver] at hp)
  have hreach : replicated.Reachable (Restarting server)
      (replicated.exec (replicated.next C (.deliver i n)) as) :=
    hnext.exec (has.mono fun _ _ h => h.1)
  have hle := (hstart.exec hnext has).1 j hj
  rw [seen_put hreach hput, if_pos rfl]
  omega

theorem CaughtUp.of_freshPuts [Inhabited K] (h : replicated.Reachable (Restarting server) C)
    (hi : server i = false) (hnew : (C.node i).state = new i)
    (hreply : C.sent[n]? = some (q, reply)) (hq : server q = true)
    (hfresh : FreshPuts server i (replicated.next C (.deliver i n))) :
    CaughtUp i reply.state C := by
  have hnext := Reachable.step h (restarting_deliver (i := i) hreply hq)
  have hsync := synced_sync (i := i) h hreply hq
  refine ⟨fun j hj => ?_, fun p hp => ?_⟩
  · rw [← seen_sync h hnew hreply, ← node_deliver_of_ne (C := C) (n := n) hj]
    exact seen_le_of_fresh hnext hi hsync (hfresh [] trivial) hj
  · -- the message may arrive at the server that replied, before the next put
    obtain ⟨m, hm⟩ := List.mem_iff_getElem?.mp hp
    have hne : q ≠ i := by
      rintro rfl
      rw [hi] at hq
      cases hq
    have hdeliver : InSession server i (replicated.next C (.deliver i n)) (.deliver q m) :=
      ⟨⟨Or.inl hq, trivial⟩, nofun⟩
    have hkept : (replicated.next (replicated.next C (.deliver i n)) (.deliver q m)).node i =
        (replicated.next C (.deliver i n)).node i := node_deliver_of_ne hne.symm
    have hle := seen_le_of_fresh (.step hnext hdeliver.1) hi (by rw [hkept]; exact hsync)
      (hfresh [.deliver q m] ⟨hdeliver, trivial⟩) hne
    rw [hkept, seen_sync h hnew hreply,
      seen_deliver hnext (by rw [sent_deliver]; exact hm)] at hle
    exact (le_max_right _ _).trans hle

end Sync

/-- **The puts of a new session are fresh** exactly when no server, other client or message in
flight knows a newer version of the id than the reply to the first sync. -/
theorem freshPuts_iff [Inhabited K] (h : replicated.Reachable (Restarting server) C) {i n q : ℕ}
    {reply : Replica (Map K V)} (hi : server i = false) (hnew : (C.node i).state = new i)
    (hreply : C.sent[n]? = some (q, reply)) (hq : server q = true) :
    FreshPuts server i (replicated.next C (.deliver i n)) ↔ CaughtUp i reply.state C :=
  ⟨CaughtUp.of_freshPuts h hi hnew hreply hq, CaughtUp.freshPuts h hnew hreply hq⟩

/-- Client 5 puts a key and syncs with server 0, stops, and starts again with a sync with server 2,
which the broadcast of server 0 did not reach; server 2 has replied. -/
def restartElsewhere : Config ℕ (MapOp String String) (Map String String) :=
  replicated.exec replicated.start
    (syncRound 5 0 1 0 ++ .update 5 (.put "k" "v") :: syncRound 5 0 1 2 ++
      [.restart 5, .send 5, .deliver 2 4, .send 2, .deliver 3 5])

theorem reachable_restartElsewhere : replicated.Reachable (Restarting isServer) restartElsewhere :=
  Reachable.start.exec (by decide)

/-- The first put of the new session draws the version that servers 0 and 1 have seen; they take its
key for one that was removed. -/
theorem new_session_reuses_version :
    replicated.Reachable (Restarting isServer) restartElsewhere ∧
      (restartElsewhere.node 5).state = new 5 ∧
      ¬ FreshPuts isServer 5 (replicated.next restartElsewhere (.deliver 5 5)) ∧
      ((restartElsewhere.node 0).state.merge
        (((replicated.next restartElsewhere (.deliver 5 5)).node 5).state.put "l" "w")).contains "l"
          = false := by
  refine ⟨reachable_restartElsewhere, rfl, fun h => ?_, by decide⟩
  have hlt := h [] trivial "l" "w" (by decide) 0 (by decide)
  revert hlt
  decide

theorem not_caughtUp_restartElsewhere :
    ∃ reply, restartElsewhere.sent[5]? = some (2, reply) ∧
      ¬ CaughtUp 5 reply.state restartElsewhere := by
  refine ⟨_, rfl, fun hc => ?_⟩
  have hfresh := (freshPuts_iff reachable_restartElsewhere rfl rfl (n := 5) rfl rfl).mpr hc
  have hlt := hfresh [] trivial "l" "w" (by decide) 0 (by decide)
  revert hlt
  decide

end Map

end CrdtStore
