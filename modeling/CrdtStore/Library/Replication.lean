import Mathlib.Data.Finset.Basic
import Mathlib.Logic.Function.Basic

/-!
# State-based replication with causal histories

Replicas of a data type are updated locally, send their whole state and merge the states they
receive. A `Config` is a global state of such a system. Besides the replicas and the states sent so
far it carries ghost data that no operation reads: the log of all updates and, with every state,
the set of updates (positions in the log) that reached it, its causal history.

A sent state stays available for ever, so that it may be delivered late, more than once, out of
order, or never. Sending changes no replica: a replica may send any of its states.

* `ReplicatedType.Reachable G` are the global states of the runs all of whose steps satisfy `G`;
* `Reachable.induct` is the invariant rule for the states of the replicas of a run;
* `Reachable.rel_absorbed` is the rule for relations of a replica to the states it was in or merged;
* `ReplicatedType.Simulation` carries runs of one data type to runs of another.
-/

universe u v w

/-- A data type with an initial state for each replica, local updates and a merge. -/
structure ReplicatedType (ι : Type u) (Op : Type v) (S : Type w) where
  init : ι → S
  apply : Op → S → S
  merge : S → S → S

/-- A state of a replica together with the updates that reached it. -/
structure Replica (S : Type w) where
  state : S
  hist : Finset ℕ

/-- An update in the log: where it was executed, what the replica had seen, the state it left. -/
structure UpdateEvent (ι : Type u) (Op : Type v) (S : Type w) where
  site : ι
  op : Op
  past : Finset ℕ
  state : S

/-- A global state: all updates so far, the replicas, the states sent so far with their senders. -/
structure Config (ι : Type u) (Op : Type v) (S : Type w) where
  log : List (UpdateEvent ι Op S)
  node : ι → Replica S
  sent : List (ι × Replica S)

/-- A step of a run. `deliver i n` merges the `n`-th sent state into replica `i`; `restart i`
replaces the replica by a fresh one. -/
inductive ReplicaAction (ι : Type u) (Op : Type v) where
  | update (i : ι) (op : Op)
  | send (i : ι)
  | deliver (i : ι) (n : ℕ)
  | restart (i : ι)

variable {ι : Type u} {Op : Type v} {S : Type w}

/-- The replica that takes the step. -/
def ReplicaAction.site : ReplicaAction ι Op → ι
  | .update i _ => i
  | .send i => i
  | .deliver i _ => i
  | .restart i => i

namespace Config

/-- The states a replica is known to be or to have been in: its current state, the states it sent
and the states its updates left. -/
inductive HasState (C : Config ι Op S) (i : ι) : Replica S → Prop
  | now : HasState C i (C.node i)
  | sent {R : Replica S} (h : (i, R) ∈ C.sent) : HasState C i R
  | left {n : ℕ} {e : UpdateEvent ι Op S} (h : C.log[n]? = some e) (hi : e.site = i) :
      HasState C i ⟨e.state, insert n e.past⟩

/-- Update `n` is in the history of `R`, and no update satisfying `removes` in that history had
seen it. -/
def Live (log : List (UpdateEvent ι Op S)) (removes : Op → Prop) (R : Replica S) (n : ℕ) : Prop :=
  n ∈ R.hist ∧ ∀ m ∈ R.hist, ∀ e, log[m]? = some e → removes e.op → n ∉ e.past

instance (log : List (UpdateEvent ι Op S)) (removes : Op → Prop) [DecidablePred removes]
    (R : Replica S) (n : ℕ) : Decidable (Live log removes R n) :=
  decidable_of_iff (n ∈ R.hist ∧ ∀ m ∈ R.hist, ∀ e ∈ log[m]?, removes e.op → n ∉ e.past) Iff.rfl

/-- An update satisfying `removes` in the history of `R` had seen update `n`. -/
def Removed (log : List (UpdateEvent ι Op S)) (removes : Op → Prop) (R : Replica S) (n : ℕ) :
    Prop :=
  ∃ m ∈ R.hist, ∃ e, log[m]? = some e ∧ removes e.op ∧ n ∈ e.past

instance (log : List (UpdateEvent ι Op S)) (removes : Op → Prop) [DecidablePred removes]
    (R : Replica S) (n : ℕ) : Decidable (Removed log removes R n) :=
  decidable_of_iff (∃ m ∈ R.hist, ∃ e ∈ log[m]?, removes e.op ∧ n ∈ e.past) Iff.rfl

theorem Live.not_removed {log : List (UpdateEvent ι Op S)} {removes : Op → Prop} {R : Replica S}
    {n : ℕ} (h : Live log removes R n) : ¬ Removed log removes R n := by
  intro hrem
  obtain ⟨m, hm, e, he, hop, hpast⟩ := hrem
  exact h.2 m hm e he hop hpast

theorem Removed.of_not_live {log : List (UpdateEvent ι Op S)} {removes : Op → Prop}
    {R : Replica S} {n : ℕ} (hn : n ∈ R.hist) (h : ¬ Live log removes R n) :
    Removed log removes R n := by
  by_contra hrem
  refine h ⟨hn, fun m hm e he hop hpast => ?_⟩
  exact hrem ⟨m, hm, e, he, hop, hpast⟩

end Config

namespace ReplicatedType

variable [DecidableEq ι] (D : ReplicatedType ι Op S)

/-- The global state before the first step. -/
def start : Config ι Op S := ⟨[], fun i => ⟨D.init i, ∅⟩, []⟩

/-- The log entry of an update at replica `i`. -/
def event (C : Config ι Op S) (i : ι) (op : Op) : UpdateEvent ι Op S :=
  ⟨i, op, (C.node i).hist, D.apply op (C.node i).state⟩

/-- Replica `i` after an update. -/
def updated (C : Config ι Op S) (i : ι) (op : Op) : Replica S :=
  ⟨D.apply op (C.node i).state, insert C.log.length (C.node i).hist⟩

/-- The state `R` after merging the state `Q`. -/
def merged (R Q : Replica S) : Replica S := ⟨D.merge R.state Q.state, R.hist ∪ Q.hist⟩

/-- One step of a run. -/
def next (C : Config ι Op S) : ReplicaAction ι Op → Config ι Op S
  | .update i op =>
    { C with
      log := C.log ++ [D.event C i op]
      node := Function.update C.node i (D.updated C i op) }
  | .send i => { C with sent := C.sent ++ [(i, C.node i)] }
  | .deliver i n =>
    match C.sent[n]? with
    | some (_, Q) => { C with node := Function.update C.node i (D.merged (C.node i) Q) }
    | none => C
  | .restart i => { C with node := Function.update C.node i ⟨D.init i, ∅⟩ }

/-! What a step leaves at a replica and in the messages sent. -/

section Frame

variable {D} {C : Config ι Op S} {i j q : ι} {n : ℕ} {Q : Replica S}

theorem node_update_self (op : Op) : (D.next C (.update i op)).node i = D.updated C i op :=
  Function.update_self ..

theorem node_update_of_ne (op : Op) (h : j ≠ i) : (D.next C (.update i op)).node j = C.node j :=
  Function.update_of_ne h ..

theorem node_deliver_self (h : C.sent[n]? = some (q, Q)) :
    (D.next C (.deliver i n)).node i = D.merged (C.node i) Q := by
  rw [next, h]
  exact Function.update_self ..

theorem node_deliver_of_ne (h : j ≠ i) : (D.next C (.deliver i n)).node j = C.node j := by
  rw [next]
  split
  · exact Function.update_of_ne h ..
  · rfl

theorem sent_deliver : (D.next C (.deliver i n)).sent = C.sent := by
  rw [next]
  split <;> rfl

theorem node_restart_self : (D.next C (.restart i)).node i = ⟨D.init i, ∅⟩ :=
  Function.update_self ..

theorem node_restart_of_ne (h : j ≠ i) : (D.next C (.restart i)).node j = C.node j :=
  Function.update_of_ne h ..

end Frame

/-- The global states reached by steps that satisfy `G`. -/
inductive Reachable (G : Config ι Op S → ReplicaAction ι Op → Prop) : Config ι Op S → Prop
  | start : Reachable G D.start
  | step {C : Config ι Op S} {a : ReplicaAction ι Op} (h : Reachable G C) (ha : G C a) :
      Reachable G (D.next C a)

variable {D} {G G' : Config ι Op S → ReplicaAction ι Op → Prop} {C : Config ι Op S}

theorem Reachable.mono (hG : ∀ C a, G C a → G' C a) (h : D.Reachable G C) : D.Reachable G' C := by
  induction h with
  | start => exact .start
  | step _ ha ih => exact .step ih (hG _ _ ha)

/-! ## Runs as lists of steps -/

variable (D) in
/-- The global state after the steps `as`. -/
def exec (C : Config ι Op S) (as : List (ReplicaAction ι Op)) : Config ι Op S :=
  as.foldl D.next C

variable (D) in
/-- Every step of the run `as` from `C` satisfies `G`. -/
def Steps (G : Config ι Op S → ReplicaAction ι Op → Prop) :
    Config ι Op S → List (ReplicaAction ι Op) → Prop
  | _, [] => True
  | C, a :: as => G C a ∧ Steps G (D.next C a) as

instance Steps.decidable (G : Config ι Op S → ReplicaAction ι Op → Prop)
    [∀ C a, Decidable (G C a)] (C : Config ι Op S) :
    (as : List (ReplicaAction ι Op)) → Decidable (D.Steps G C as)
  | [] => isTrue trivial
  | a :: as =>
    have : Decidable (D.Steps G (D.next C a) as) := Steps.decidable G (D.next C a) as
    inferInstanceAs (Decidable (G C a ∧ D.Steps G (D.next C a) as))

variable {as : List (ReplicaAction ι Op)}

theorem Reachable.exec (h : D.Reachable G C) (has : D.Steps G C as) :
    D.Reachable G (D.exec C as) := by
  induction as generalizing C with
  | nil => exact h
  | cons a as ih => exact ih (.step h has.1) has.2

theorem Steps.mono (hG : ∀ C a, G C a → G' C a) (h : D.Steps G C as) : D.Steps G' C as := by
  induction as generalizing C with
  | nil => trivial
  | cons a as ih => exact ⟨hG C a h.1, ih h.2⟩

theorem Steps.and (h : D.Steps G C as) (h' : D.Steps G' C as) :
    D.Steps (fun C a => G C a ∧ G' C a) C as := by
  induction as generalizing C with
  | nil => trivial
  | cons a as ih => exact ⟨⟨h.1, h'.1⟩, ih h.2 h'.2⟩

theorem Steps.of_initial {as' : List (ReplicaAction ι Op)} (h : D.Steps G C as) (hp : as' <+: as) :
    D.Steps G C as' := by
  induction as' generalizing C as with
  | nil => trivial
  | cons a as' ih =>
    obtain ⟨t, rfl⟩ := hp
    exact ⟨h.1, ih h.2 ⟨t, rfl⟩⟩

/-- When `P` fails after any step that violates `G'`, a run all of whose states satisfy `P` has only
steps that satisfy `G'`. -/
theorem Steps.of_forall_initial {P : Config ι Op S → Prop}
    (hP : ∀ C a, D.Reachable G C → G C a → P (D.next C a) → G' C a) (h : D.Reachable G C)
    (has : D.Steps G C as) (hall : ∀ as', as' <+: as → P (D.exec C as')) : D.Steps G' C as := by
  induction as generalizing C with
  | nil => trivial
  | cons a as ih =>
    refine ⟨hP C a h has.1 (hall [a] ⟨as, rfl⟩), ih (.step h has.1) has.2 fun as' hp => ?_⟩
    obtain ⟨t, rfl⟩ := hp
    exact hall (a :: as') ⟨t, rfl⟩

theorem log_next_of_not_update {a : ReplicaAction ι Op} (ha : ∀ i op, a ≠ .update i op) :
    (D.next C a).log = C.log := by
  cases a with
  | update i op => exact absurd rfl (ha i op)
  | send i => rfl
  | deliver i n =>
    rw [next]
    split <;> rfl
  | restart i => rfl

/-- An entry of a list that has grown is an old one or the new one. -/
theorem of_getElem?_concat {β : Type*} {l : List β} {x y : β} {n : ℕ}
    (h : (l ++ [x])[n]? = some y) : l[n]? = some y ∨ (n = l.length ∧ x = y) := by
  rw [List.getElem?_append] at h
  split at h
  · exact Or.inl h
  · next hn =>
    rw [List.getElem?_singleton] at h
    split at h
    · exact Or.inr ⟨by omega, Option.some.inj h⟩
    · cases h

/-! ## The states of a replica after one step -/

theorem hasState_update {C : Config ι Op S} {i j : ι} {op : Op} {R : Replica S}
    (h : (D.next C (.update i op)).HasState j R) :
    C.HasState j R ∨ (j = i ∧ R = D.updated C i op) := by
  cases h with
  | now =>
    by_cases hj : j = i
    · subst hj
      exact Or.inr ⟨rfl, node_update_self op⟩
    · left
      rw [node_update_of_ne op hj]
      exact .now
  | sent h => exact Or.inl (.sent h)
  | @left n e h hi =>
    rcases of_getElem?_concat h with h | ⟨rfl, rfl⟩
    · exact Or.inl (.left h hi)
    · exact Or.inr ⟨hi.symm, rfl⟩

theorem hasState_send {C : Config ι Op S} {i j : ι} {R : Replica S}
    (h : (D.next C (.send i)).HasState j R) : C.HasState j R := by
  cases h with
  | now => exact .now
  | sent h =>
    rcases List.mem_append.mp h with h | h
    · exact .sent h
    · obtain ⟨rfl, rfl⟩ : j = i ∧ R = C.node i := by simpa using h
      exact .now
  | left h hi => exact .left h hi

theorem hasState_deliver {C : Config ι Op S} {i j : ι} {n : ℕ} {R : Replica S}
    (h : (D.next C (.deliver i n)).HasState j R) :
    C.HasState j R ∨
      (j = i ∧ ∃ q Q, C.sent[n]? = some (q, Q) ∧ R = D.merged (C.node i) Q) := by
  cases h with
  | now =>
    by_cases hj : j = i
    · subst hj
      cases hn : C.sent[n]? with
      | none =>
        rw [next, hn]
        exact Or.inl .now
      | some p => exact Or.inr ⟨rfl, p.1, p.2, rfl, node_deliver_self hn⟩
    · left
      rw [node_deliver_of_ne hj]
      exact .now
  | sent h => exact Or.inl (.sent (sent_deliver (D := D) ▸ h))
  | left h hi =>
    rw [log_next_of_not_update (by simp)] at h
    exact Or.inl (.left h hi)

theorem hasState_restart {C : Config ι Op S} {i j : ι} {R : Replica S}
    (h : (D.next C (.restart i)).HasState j R) :
    C.HasState j R ∨ (j = i ∧ R = ⟨D.init i, ∅⟩) := by
  cases h with
  | now =>
    by_cases hj : j = i
    · subst hj
      exact Or.inr ⟨rfl, node_restart_self⟩
    · left
      rw [node_restart_of_ne hj]
      exact .now
  | sent h => exact Or.inl (.sent h)
  | left h hi => exact Or.inl (.left h hi)

omit [DecidableEq ι] in
theorem hasState_sent {n : ℕ} {q : ι} {Q : Replica S} (h : C.sent[n]? = some (q, Q)) :
    C.HasState q Q := .sent (List.mem_of_getElem? h)

/-- Every log entry was a step of the run. -/
theorem Reachable.exists_event (h : D.Reachable G C) {n : ℕ} {e : UpdateEvent ι Op S}
    (he : C.log[n]? = some e) :
    ∃ C', D.Reachable G C' ∧ G C' (.update e.site e.op) ∧ D.event C' e.site e.op = e ∧
      C'.log = C.log.take n := by
  induction h with
  | start => cases he
  | @step C a hC ha ih =>
    by_cases hup : ∃ i op, a = .update i op
    · obtain ⟨i, op, rfl⟩ := hup
      show ∃ C' : Config ι Op S, _ ∧ _ ∧ _ ∧ C'.log = (C.log ++ [D.event C i op]).take n
      rcases of_getElem?_concat he with he | ⟨rfl, rfl⟩
      · have hn : n < C.log.length := (List.getElem?_eq_some_iff.mp he).1
        rw [List.take_append_of_le_length hn.le]
        exact ih he
      · refine ⟨C, hC, ha, rfl, ?_⟩
        rw [List.take_left]
    · rw [log_next_of_not_update fun i op h => hup ⟨i, op, h⟩] at he ⊢
      exact ih he

/-- Every sent state was sent in a step of the run. -/
theorem Reachable.exists_send (h : D.Reachable G C) {n : ℕ} {q : ι} {Q : Replica S}
    (hn : C.sent[n]? = some (q, Q)) : ∃ C', D.Reachable G C' ∧ G C' (.send q) := by
  induction h with
  | start => cases hn
  | @step C a hC ha ih =>
    cases a with
    | update i op => exact ih hn
    | send i =>
      rcases of_getElem?_concat hn with hn | ⟨-, heq⟩
      · exact ih hn
      · cases heq
        exact ⟨C, hC, ha⟩
    | deliver i m =>
      rw [sent_deliver] at hn
      exact ih hn
    | restart i => exact ih hn

/-- The invariant rule. A property of the states of a run, relative to the log, holds of all of them
when it holds of fresh states and survives one update at its replica, an update logged elsewhere,
and one merge. -/
theorem Reachable.induct {P : List (UpdateEvent ι Op S) → ι → Replica S → Prop}
    (hinit : ∀ C i, D.Reachable G C → P C.log i ⟨D.init i, ∅⟩)
    (hlog : ∀ C i op, D.Reachable G C → G C (.update i op) → (∀ j R, C.HasState j R → P C.log j R) →
      ∀ j R, C.HasState j R → P (C.log ++ [D.event C i op]) j R)
    (hupdate : ∀ C i op, D.Reachable G C → G C (.update i op) →
      (∀ j R, C.HasState j R → P C.log j R) →
      P (C.log ++ [D.event C i op]) i (D.updated C i op))
    (hmerge : ∀ C i n q Q, D.Reachable G C → G C (.deliver i n) → C.sent[n]? = some (q, Q) →
      P C.log i (C.node i) → P C.log q Q → P C.log i (D.merged (C.node i) Q))
    (h : D.Reachable G C) : ∀ i R, C.HasState i R → P C.log i R := by
  induction h with
  | start =>
    intro i R hR
    cases hR with
    | now => exact hinit D.start i .start
    | sent h => cases h
    | left h => cases h
  | @step C a hC ha ih =>
    intro j R hR
    cases a with
    | update i op =>
      rcases hasState_update hR with hR | ⟨rfl, rfl⟩
      · exact hlog C i op hC ha ih j R hR
      · exact hupdate C j op hC ha ih
    | send i => exact ih j R (hasState_send hR)
    | deliver i n =>
      rw [log_next_of_not_update (by simp)]
      rcases hasState_deliver hR with hR | ⟨rfl, q, Q, hQ, rfl⟩
      · exact ih j R hR
      · exact hmerge C j n q Q hC ha hQ (ih j _ .now) (ih q Q (hasState_sent hQ))
    | restart i =>
      rcases hasState_restart hR with hR | ⟨rfl, rfl⟩
      · exact ih j R hR
      · exact hinit C j hC

/-! ## Causal histories -/

/-- Histories contain logged updates only. -/
theorem Reachable.hist_lt (h : D.Reachable G C) {i : ι} {R : Replica S} (hR : C.HasState i R)
    {n : ℕ} (hn : n ∈ R.hist) : n < C.log.length := by
  revert n
  refine h.induct (P := fun log _ R => ∀ {n}, n ∈ R.hist → n < log.length) ?_ ?_ ?_ ?_ i R hR
  · intro C i _ n hn
    cases hn
  · intro C i op _ _ ih j R hR n hn
    have := ih j R hR hn
    simp only [List.length_append, List.length_singleton]
    omega
  · intro C i op _ _ ih n hn
    simp only [List.length_append, List.length_singleton]
    rcases Finset.mem_insert.mp hn with rfl | hn
    · omega
    · have := ih i _ .now hn
      omega
  · intro C i n q Q _ _ _ ihR ihQ m hm
    rcases Finset.mem_union.mp hm with hm | hm
    · exact ihR hm
    · exact ihQ hm

/-- Looking a history up in the log is not affected by later updates. -/
theorem Reachable.log_append (h : D.Reachable G C) {i : ι} {R : Replica S} (hR : C.HasState i R)
    {n : ℕ} (hn : n ∈ R.hist) (l : List (UpdateEvent ι Op S)) :
    (C.log ++ l)[n]? = C.log[n]? :=
  List.getElem?_append_left (h.hist_lt hR hn)

/-- Histories are causally closed: with an update they contain all its replica had seen. -/
theorem Reachable.past_subset (h : D.Reachable G C) {i : ι} {R : Replica S} (hR : C.HasState i R)
    {n : ℕ} (hn : n ∈ R.hist) {e : UpdateEvent ι Op S} (he : C.log[n]? = some e) :
    e.past ⊆ R.hist := by
  revert n e
  refine h.induct (P := fun log _ R => ∀ {n}, n ∈ R.hist → ∀ {e}, log[n]? = some e →
    e.past ⊆ R.hist) ?_ ?_ ?_ ?_ i R hR
  · intro C i _ n hn
    cases hn
  · intro C i op hC _ ih j R hR n hn e he
    rw [hC.log_append hR hn] at he
    exact ih j R hR hn he
  · intro C i op hC _ ih n hn e he
    rcases Finset.mem_insert.mp hn with rfl | hn
    · obtain rfl : D.event C i op = e := by simpa using he
      exact Finset.subset_insert _ _
    · rw [hC.log_append .now hn] at he
      exact (ih i _ .now hn he).trans (Finset.subset_insert _ _)
  · intro C i n q Q _ _ _ ihR ihQ m hm e he
    rcases Finset.mem_union.mp hm with hm | hm
    · exact (ihR hm he).trans Finset.subset_union_left
    · exact (ihQ hm he).trans Finset.subset_union_right

/-- An update has seen only updates logged before it. -/
theorem Reachable.past_lt (h : D.Reachable G C) {n : ℕ} {e : UpdateEvent ι Op S}
    (he : C.log[n]? = some e) {m : ℕ} (hm : m ∈ e.past) : m < n := by
  induction h generalizing n with
  | start => cases he
  | @step C a hC ha ih =>
    by_cases hup : ∃ i op, a = .update i op
    · obtain ⟨i, op, rfl⟩ := hup
      rcases of_getElem?_concat he with he | ⟨rfl, rfl⟩
      · exact ih he
      · exact hC.hist_lt .now hm
    · rw [log_next_of_not_update fun i op h => hup ⟨i, op, h⟩] at he
      exact ih he

/-- What an update has seen is causally closed too. -/
theorem Reachable.past_trans (h : D.Reachable G C) {m n : ℕ} {e e' : UpdateEvent ι Op S}
    (he : C.log[n]? = some e) (hm : m ∈ e.past) (he' : C.log[m]? = some e') :
    e'.past ⊆ e.past := by
  obtain ⟨C', hC', -, hevent, hlog⟩ := h.exists_event he
  have hold : C'.log[m]? = some e' := by
    rw [hlog, List.getElem?_take_of_lt (h.past_lt he hm)]
    exact he'
  rw [← hevent] at hm ⊢
  show e'.past ⊆ (C'.node e.site).hist
  exact hC'.past_subset .now hm hold

/-- A replica that is restarted only before its first update satisfying `K` has all its own
such updates in its history. -/
theorem Reachable.own_hist {K : Op → Prop}
    (hG : ∀ C i, G C (.restart i) → ∀ e ∈ C.log, e.site = i → ¬ K e.op)
    (h : D.Reachable G C) {n : ℕ} {e : UpdateEvent ι Op S} (he : C.log[n]? = some e)
    (hop : K e.op) : n ∈ (C.node e.site).hist := by
  induction h generalizing n e with
  | start => cases he
  | @step C a hC ha ih =>
    cases a with
    | update i op =>
      rcases of_getElem?_concat he with he | ⟨rfl, rfl⟩
      · by_cases hi : e.site = i
        · rw [hi, node_update_self]
          exact Finset.mem_insert_of_mem (hi ▸ ih he hop)
        · rw [node_update_of_ne op hi]
          exact ih he hop
      · -- the new update joins the history of its own replica
        show C.log.length ∈ ((D.next C (.update i op)).node i).hist
        rw [node_update_self]
        exact Finset.mem_insert_self _ _
    | send i => exact ih he hop
    | deliver i m =>
      rw [log_next_of_not_update (by simp)] at he
      have hold := ih he hop
      by_cases hi : e.site = i
      · cases hm : C.sent[m]? with
        | none =>
          rw [next, hm]
          exact hold
        | some p =>
          rw [hi, node_deliver_self hm]
          exact Finset.mem_union_left _ (hi ▸ hold)
      · rw [node_deliver_of_ne hi]
        exact hold
    | restart i =>
      -- the guard keeps replicas with such an update from restarting
      have hne : e.site ≠ i := fun hi => hG C i ha e (List.mem_of_getElem? he) hi hop
      rw [node_restart_of_ne hne]
      exact ih he hop

/-- An update satisfying `K` has seen all earlier ones of its replica. -/
theorem Reachable.own_past {K : Op → Prop}
    (hG : ∀ C i, G C (.restart i) → ∀ e ∈ C.log, e.site = i → ¬ K e.op)
    (h : D.Reachable G C) {m n : ℕ} {e e' : UpdateEvent ι Op S} (hlt : m < n)
    (he : C.log[m]? = some e) (he' : C.log[n]? = some e') (hsite : e.site = e'.site)
    (hop : K e.op) : m ∈ e'.past := by
  obtain ⟨C', hC', -, hevent, hlog⟩ := h.exists_event he'
  have hold : C'.log[m]? = some e := by
    rw [hlog, List.getElem?_take_of_lt hlt]
    exact he
  rw [← hevent]
  show m ∈ (C'.node e'.site).hist
  rw [← hsite]
  exact hC'.own_hist hG hold hop

/-- Of the updates of one replica satisfying `K`, two histories contain initial segments. -/
theorem Reachable.own_chain {K : Op → Prop}
    (hG : ∀ C i, G C (.restart i) → ∀ e ∈ C.log, e.site = i → ¬ K e.op)
    (h : D.Reachable G C) {i q : ι} {R Q : Replica S} (hR : C.HasState i R)
    (hQ : C.HasState q Q) (j : ι) :
    (∀ n ∈ R.hist, ∀ e, C.log[n]? = some e → e.site = j → K e.op → n ∈ Q.hist) ∨
      ∀ n ∈ Q.hist, ∀ e, C.log[n]? = some e → e.site = j → K e.op → n ∈ R.hist := by
  by_contra hboth
  simp only [not_or, not_forall] at hboth
  obtain ⟨⟨m, hm, e, he, hj, hop, hmQ⟩, n, hn, e', he', hj', hop', hnR⟩ := hboth
  -- the later of the two updates had seen the earlier one
  rcases Nat.lt_trichotomy m n with hlt | rfl | hlt
  · have hpast := h.own_past hG hlt he he' (hj.trans hj'.symm) hop
    exact hmQ (h.past_subset hQ hn he' hpast)
  · exact hmQ hn
  · have hpast := h.own_past hG hlt he' he (hj'.trans hj.symm) hop'
    exact hnR (h.past_subset hR hm he hpast)

/-! ## States a replica has absorbed -/

variable (D) in
/-- The states that replica `i` is in or merges in a run from `C`. -/
def absorbed (i : ι) (C : Config ι Op S) : List (ReplicaAction ι Op) → List S
  | [] => [(C.node i).state]
  | a :: as =>
    let received :=
      match a with
      | .deliver j n => if j = i then (C.sent[n]?.map fun p => p.2.state).toList else []
      | _ => []
    (C.node i).state :: received ++ absorbed i (D.next C a) as

section Absorbed

variable {P : S → S → Prop} {i : ι}

/-- The states a replica is in during a run include those between the steps. -/
theorem mem_absorbed_append (C : Config ι Op S) (as as' : List (ReplicaAction ι Op)) :
    ((D.exec C as).node i).state ∈ D.absorbed i C (as ++ as') := by
  induction as generalizing C with
  | nil =>
    cases as' with
    | nil => exact List.mem_singleton_self _
    | cons a as' => exact List.mem_cons_self
  | cons a as ih => exact List.mem_append_right _ (ih (D.next C a))

/-- A relation of a state to the later states of a replica that keeps its memory. -/
theorem Reachable.rel_exec
    (hupdate : ∀ C op B, D.Reachable G C → G C (.update i op) → P B (C.node i).state →
      P B (D.apply op (C.node i).state))
    (hmerge : ∀ (C : Config ι Op S) (n : ℕ) (q : ι) (Q : Replica S) (B : S), D.Reachable G C →
      C.sent[n]? = some (q, Q) → P B (C.node i).state →
      P B (D.merge (C.node i).state Q.state))
    (h : D.Reachable G C) {as : List (ReplicaAction ι Op)}
    (has : D.Steps (fun C a => G C a ∧ a ≠ .restart i) C as) {B : S} (hB : P B (C.node i).state) :
    P B ((D.exec C as).node i).state := by
  induction as generalizing C with
  | nil => exact hB
  | cons a as ih =>
    refine ih (.step h has.1.1) has.2 ?_
    cases a with
    | update j op =>
      by_cases hi : i = j
      · subst hi
        rw [node_update_self]
        exact hupdate C op B h has.1.1 hB
      · rw [node_update_of_ne op hi]
        exact hB
    | send j => exact hB
    | deliver j n =>
      by_cases hi : i = j
      · subst hi
        cases hQ : C.sent[n]? with
        | none =>
          rw [next, hQ]
          exact hB
        | some p =>
          rw [node_deliver_self hQ]
          exact hmerge C n p.1 p.2 B h hQ hB
      · rw [node_deliver_of_ne hi]
        exact hB
    | restart j =>
      have hi : i ≠ j := fun hi => has.1.2 (by rw [hi])
      rw [node_restart_of_ne hi]
      exact hB

/-- The rule for absorbed states: a relation that holds of a state and itself and of a merged state
and the result, and survives updates and merges, holds of all a replica has absorbed and its
state. -/
theorem Reachable.rel_absorbed
    (hrefl : ∀ C, D.Reachable G C → P (C.node i).state (C.node i).state)
    (hmerged : ∀ (C : Config ι Op S) (n : ℕ) (q : ι) (Q : Replica S), D.Reachable G C →
      C.sent[n]? = some (q, Q) → P Q.state (D.merge (C.node i).state Q.state))
    (hupdate : ∀ C op B, D.Reachable G C → G C (.update i op) → P B (C.node i).state →
      P B (D.apply op (C.node i).state))
    (hmerge : ∀ (C : Config ι Op S) (n : ℕ) (q : ι) (Q : Replica S) (B : S), D.Reachable G C →
      C.sent[n]? = some (q, Q) → P B (C.node i).state →
      P B (D.merge (C.node i).state Q.state))
    (h : D.Reachable G C) {as : List (ReplicaAction ι Op)}
    (has : D.Steps (fun C a => G C a ∧ a ≠ .restart i) C as) {B : S}
    (hB : B ∈ D.absorbed i C as) : P B ((D.exec C as).node i).state := by
  induction as generalizing C with
  | nil =>
    obtain rfl : B = (C.node i).state := List.mem_singleton.mp hB
    exact hrefl C h
  | cons a as ih =>
    rcases List.mem_append.mp hB with hfirst | hB
    · rcases List.mem_cons.mp hfirst with rfl | hreceived
      · exact h.rel_exec hupdate hmerge has (hrefl C h)
      · -- merged in this step
        cases a with
        | update j op => cases hreceived
        | send j => cases hreceived
        | restart j => cases hreceived
        | deliver j n =>
          simp only at hreceived
          split at hreceived
          · next hj =>
            subst hj
            rw [Option.mem_toList, Option.map_eq_some_iff] at hreceived
            obtain ⟨p, hp, rfl⟩ := hreceived
            refine Reachable.rel_exec (C := D.next C (.deliver j n)) hupdate hmerge
              (.step h has.1.1) has.2 ?_
            rw [node_deliver_self hp]
            exact hmerged C n p.1 p.2 h hp
          · cases hreceived
    · exact ih (.step h has.1.1) has.2 hB

end Absorbed

/-! ## Live updates -/

section Live

variable {removes : Op → Prop}

open Config

/-- What is live after a merge: what is live on one side and not known to be removed on the
other. -/
theorem Reachable.live_merged (h : D.Reachable G C) {i q : ι} {R Q : Replica S}
    (hR : C.HasState i R) (hQ : C.HasState q Q) (n : ℕ) :
    Live C.log removes (D.merged R Q) n ↔
      (n ∈ R.hist ∨ n ∈ Q.hist) ∧ (n ∈ R.hist → Live C.log removes R n) ∧
        (n ∈ Q.hist → Live C.log removes Q n) := by
  constructor
  · rintro ⟨hn, hrem⟩
    refine ⟨Finset.mem_union.mp hn, fun hnR => ⟨hnR, fun m hm => ?_⟩,
      fun hnQ => ⟨hnQ, fun m hm => ?_⟩⟩
    · exact hrem m (Finset.mem_union_left _ hm)
    · exact hrem m (Finset.mem_union_right _ hm)
  · rintro ⟨hn, hlR, hlQ⟩
    refine ⟨Finset.mem_union.mpr hn, fun m hm e he hr hpast => ?_⟩
    -- the side that holds the remove also holds what the remove had seen
    rcases Finset.mem_union.mp hm with hm | hm
    · exact (hlR (h.past_subset hR hm he hpast)).2 m hm e he hr hpast
    · exact (hlQ (h.past_subset hQ hm he hpast)).2 m hm e he hr hpast

/-- Later updates elsewhere change nothing for a state. -/
theorem Reachable.live_append (h : D.Reachable G C) {i : ι} {R : Replica S}
    (hR : C.HasState i R) (l : List (UpdateEvent ι Op S)) (n : ℕ) :
    Live (C.log ++ l) removes R n ↔ Live C.log removes R n := by
  unfold Live
  refine and_congr_right fun _ => forall₂_congr fun m hm => ?_
  rw [h.log_append hR hm]

/-- What is live after a local update. -/
theorem Reachable.live_updated (h : D.Reachable G C) {i : ι} {op : Op} (n : ℕ) :
    Live (C.log ++ [D.event C i op]) removes (D.updated C i op) n ↔
      n = C.log.length ∨ (¬ removes op ∧ Live C.log removes (C.node i) n) := by
  have hnew : (C.log ++ [D.event C i op])[C.log.length]? = some (D.event C i op) := by simp
  constructor
  · rintro ⟨hn, hrem⟩
    rcases Finset.mem_insert.mp hn with rfl | hn
    · exact Or.inl rfl
    · refine Or.inr ⟨fun hr => ?_, hn, fun m hm e he => ?_⟩
      · exact hrem _ (Finset.mem_insert_self _ _) _ hnew hr hn
      · exact hrem m (Finset.mem_insert_of_mem hm) e (h.log_append .now hm _ ▸ he)
  · rintro (rfl | ⟨hop, hn, hrem⟩)
    · refine ⟨Finset.mem_insert_self _ _, fun m hm e he _ hpast => ?_⟩
      -- the update is newer than everything any update in the history had seen
      rcases Finset.mem_insert.mp hm with rfl | hm
      · rw [hnew] at he
        cases he
        exact absurd (h.hist_lt .now hpast) (lt_irrefl _)
      · rw [h.log_append .now hm] at he
        have hlt := h.hist_lt .now (h.past_subset .now hm he hpast)
        exact absurd hlt (lt_irrefl _)
    · refine ⟨Finset.mem_insert_of_mem hn, fun m hm e he hr => ?_⟩
      rcases Finset.mem_insert.mp hm with rfl | hm
      · rw [hnew] at he
        cases he
        exact absurd hr hop
      · rw [h.log_append .now hm] at he
        exact hrem m hm e he hr

end Live

end ReplicatedType

/-! ## Clients and servers -/

/-- Servers merge what anyone sends. The others, the clients, merge what servers send, and execute
updates once they are `ready`. -/
def ReplicatedType.ClientServer (server : ι → Bool) (ready : S → Bool) (C : Config ι Op S) :
    ReplicaAction ι Op → Prop
  | .update i _ => server i = false ∧ ready (C.node i).state = true
  | .deliver i n => server i = true ∨ ∀ p ∈ C.sent[n]?, server p.1 = true
  | _ => True

instance (server : ι → Bool) (ready : S → Bool) (C : Config ι Op S) (a : ReplicaAction ι Op) :
    Decidable (ReplicatedType.ClientServer server ready C a) :=
  match a with
  | .update i _ => inferInstanceAs (Decidable (server i = false ∧ ready (C.node i).state = true))
  | .deliver i n =>
    inferInstanceAs (Decidable (server i = true ∨ ∀ p ∈ C.sent[n]?, server p.1 = true))
  | .send _ => isTrue trivial
  | .restart _ => isTrue trivial

/-! ## Simulations -/

section Simulation

universe v' w'

variable {Op' : Type v'} {S' : Type w'}

/-- A replica through a view of its state. -/
def Replica.map (f : S → S') (R : Replica S) : Replica S' := ⟨f R.state, R.hist⟩

/-- An update through a view of states and updates. -/
def UpdateEvent.map (f : S → S') (g : Op → Op') (e : UpdateEvent ι Op S) : UpdateEvent ι Op' S' :=
  ⟨e.site, g e.op, e.past, f e.state⟩

/-- A global state through a view of states and updates. -/
def Config.map (f : S → S') (g : Op → Op') (C : Config ι Op S) : Config ι Op' S' where
  log := C.log.map (UpdateEvent.map f g)
  node i := (C.node i).map f
  sent := C.sent.map fun p => (p.1, p.2.map f)

/-- A step through a view of updates. -/
def ReplicaAction.map (g : Op → Op') : ReplicaAction ι Op → ReplicaAction ι Op'
  | .update i op => .update i (g op)
  | .send i => .send i
  | .deliver i n => .deliver i n
  | .restart i => .restart i

theorem Config.getElem?_log_map (f : S → S') (g : Op → Op') (C : Config ι Op S) (n : ℕ) :
    (C.map f g).log[n]? = C.log[n]?.map (UpdateEvent.map f g) := List.getElem?_map ..

theorem Config.getElem?_sent_map (f : S → S') (g : Op → Op') (C : Config ι Op S) (n : ℕ) :
    (C.map f g).sent[n]? = C.sent[n]?.map fun p => (p.1, p.2.map f) := List.getElem?_map ..

theorem Config.HasState.map (f : S → S') (g : Op → Op') {C : Config ι Op S} {i : ι} {R : Replica S}
    (h : C.HasState i R) : (C.map f g).HasState i (R.map f) := by
  cases h with
  | now => exact .now
  | sent h => exact .sent (List.mem_map.mpr ⟨_, h, rfl⟩)
  | @left n e h hi =>
    refine Config.HasState.left (C := C.map f g) (n := n) (e := e.map f g) ?_ hi
    rw [getElem?_log_map, h]
    rfl

/-- Updates live in the view are live, when the view shows every remove as one. -/
theorem Config.Live.map (f : S → S') (g : Op → Op') {C : Config ι Op S} {p : Op → Prop}
    {q : Op' → Prop} (hpq : ∀ op, q (g op) → p op) {R : Replica S} {n : ℕ}
    (h : Config.Live C.log p R n) : Config.Live (C.map f g).log q (R.map f) n := by
  refine ⟨h.1, fun m hm e he hop => ?_⟩
  rw [getElem?_log_map] at he
  obtain ⟨e', he', rfl⟩ := Option.map_eq_some_iff.mp he
  exact h.2 m hm e' he' (hpq _ hop)

/-- Updates live in the state seen through the view are live, when the view shows only removes as
removes. -/
theorem Config.Live.of_map (f : S → S') (g : Op → Op') {C : Config ι Op S} {p : Op → Prop}
    {q : Op' → Prop} (hpq : ∀ op, p op → q (g op)) {R : Replica S} {n : ℕ}
    (h : Config.Live (C.map f g).log q (R.map f) n) : Config.Live C.log p R n := by
  refine ⟨h.1, fun m hm e he hop => ?_⟩
  refine h.2 m hm (e.map f g) ?_ (hpq _ hop)
  rw [getElem?_log_map, he]
  rfl

theorem ReplicatedType.ClientServer.map {server : ι → Bool} {f : S → S'} {g : Op → Op'}
    {ready : S' → Bool} {C : Config ι Op S} {a : ReplicaAction ι Op}
    (h : ClientServer server (fun s => ready (f s)) C a) :
    ClientServer server ready (C.map f g) (a.map g) := by
  cases a with
  | update i op => exact h
  | send i => trivial
  | deliver i n =>
    refine h.imp_right fun hsent p hp => ?_
    rw [Config.getElem?_sent_map] at hp
    obtain ⟨p', hp', rfl⟩ := Option.map_eq_some_iff.mp hp
    exact hsent p' hp'
  | restart i => trivial

namespace ReplicatedType

/-- A view of the states and updates of `D` as those of `E` that respects all operations. -/
structure Simulation (D : ReplicatedType ι Op S) (E : ReplicatedType ι Op' S') where
  state : S → S'
  op : Op → Op'
  init : ∀ i, state (D.init i) = E.init i
  apply : ∀ o s, state (D.apply o s) = E.apply (op o) (state s)
  merge : ∀ s t, state (D.merge s t) = E.merge (state s) (state t)

variable [DecidableEq ι] {D : ReplicatedType ι Op S} {E : ReplicatedType ι Op' S'}

theorem Simulation.map_update (F : Simulation D E) (C : Config ι Op S) (i : ι) (R : Replica S) :
    (fun j => (Function.update C.node i R j).map F.state) =
      Function.update (fun j => (C.node j).map F.state) i (R.map F.state) := by
  funext j
  by_cases hj : j = i
  · rw [hj, Function.update_self, Function.update_self]
  · rw [Function.update_of_ne hj, Function.update_of_ne hj]

theorem Simulation.map_next (F : Simulation D E) (C : Config ι Op S) (a : ReplicaAction ι Op) :
    (D.next C a).map F.state F.op = E.next (C.map F.state F.op) (a.map F.op) := by
  cases a with
  | update i op =>
    simp only [next, Config.map, ReplicaAction.map, List.map_append, List.map_cons, List.map_nil,
      F.map_update]
    simp only [event, updated, UpdateEvent.map, Replica.map, F.apply, List.length_map]
  | send i => simp only [next, Config.map, ReplicaAction.map, List.map_append, List.map_cons,
      List.map_nil]
  | deliver i n =>
    simp only [next, ReplicaAction.map]
    rw [Config.getElem?_sent_map]
    cases C.sent[n]? with
    | none => rfl
    | some p =>
      simp only [Config.map, Option.map_some, F.map_update]
      simp only [merged, Replica.map, F.merge]
  | restart i =>
    simp only [next, Config.map, ReplicaAction.map, F.map_update]
    simp only [Replica.map, F.init]

omit [DecidableEq ι] in
theorem Simulation.map_start (F : Simulation D E) : D.start.map F.state F.op = E.start := by
  simp only [start, Config.map, List.map_nil, Replica.map, F.init]

/-- A run of `D` seen through the view is a run of `E`. -/
theorem Simulation.reachable (F : Simulation D E) {G : Config ι Op S → ReplicaAction ι Op → Prop}
    {H : Config ι Op' S' → ReplicaAction ι Op' → Prop}
    (hGH : ∀ C a, G C a → H (C.map F.state F.op) (a.map F.op)) {C : Config ι Op S}
    (h : D.Reachable G C) : E.Reachable H (C.map F.state F.op) := by
  induction h with
  | start =>
    rw [F.map_start]
    exact .start
  | step _ ha ih =>
    rw [F.map_next]
    exact .step ih (hGH _ _ ha)

end ReplicatedType

end Simulation
