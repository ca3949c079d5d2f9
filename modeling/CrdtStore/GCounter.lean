import Mathlib.Algebra.BigOperators.Ring.Finset
import Mathlib.Algebra.Order.Ring.Cast
import Mathlib.Algebra.Order.Ring.Nat
import CrdtStore.Library.Replication
import CrdtStore.Library.UnorderedMap

/-!
# Grow-only counters

`statebased/gcounter.hh`: each replica counts its own increments in its entry of `_counters`, and
merges take the greater of two entries. `increment` is read as its body, without its `const`, and
the counts are exact: `V` is any ordered ring or semiring of integers in place of the machine's.

In a run, the entry of replica `j` is the number of its increments in the history (`Counts`).
-/

namespace CrdtStore

open ReplicatedType Config

/-- `_replica_id` and `_counters`. -/
structure GCounter (V : Type*) where
  replicaId : ℕ
  counters : UnorderedMap ℕ V

/-- The calls of a `GCounter` other than `merge` that change it. -/
inductive CounterOp where
  | increment
deriving DecidableEq

namespace GCounter

variable {V : Type*} [CommSemiring V] [LinearOrder V]

/-- A `GCounter` after `replica_id(uint64_t)`. -/
def new (replicaId : ℕ) : GCounter V := ⟨replicaId, ∅⟩

/-- `_counters[id]`: absent entries are inserted as 0. -/
def count (cnt : GCounter V) (id : ℕ) : V := (cnt.counters.lookup id).getD 0

/-- `GCounter::value`. -/
def value (cnt : GCounter V) : V := cnt.counters.foldl (fun re _ c => re + c) 0

/-- `GCounter::increment`. -/
def increment (cnt : GCounter V) : GCounter V :=
  { cnt with counters := cnt.counters.insert cnt.replicaId (cnt.count cnt.replicaId + 1) }

/-- `GCounter::merge`. -/
def merge (cnt remote : GCounter V) : GCounter V :=
  { cnt with
    counters := remote.counters.foldl
      (fun counters id c => counters.insert id (max ((counters.lookup id).getD 0) c))
      cnt.counters }

omit [LinearOrder V] in
theorem lookup_increment (cnt : GCounter V) (id : ℕ) :
    cnt.increment.counters.lookup id =
      if id = cnt.replicaId then some (cnt.count id + 1) else cnt.counters.lookup id := by
  rw [increment, UnorderedMap.lookup_insert_eq]
  split
  · next h => rw [h]
  · rfl

theorem lookup_merge (cnt remote : GCounter V) (id : ℕ) :
    (cnt.merge remote).counters.lookup id =
      (remote.counters.lookup id).elim (cnt.counters.lookup id)
        fun c => some (max (cnt.count id) c) := by
  rw [merge, UnorderedMap.lookup_foldl (g := fun _ c o => some (max (o.getD 0) c))]
  · rfl
  · intro counters id' c id''
    exact UnorderedMap.lookup_insert_eq ..

/-- No entry is negative. -/
def NonNeg (cnt : GCounter V) : Prop := ∀ id, 0 ≤ cnt.count id

theorem count_merge {cnt remote : GCounter V} (h : cnt.NonNeg) (id : ℕ) :
    (cnt.merge remote).count id = max (cnt.count id) (remote.count id) := by
  unfold count
  rw [lookup_merge]
  cases remote.counters.lookup id with
  | none => exact (max_eq_left (h id)).symm
  | some c => rfl

theorem mem_merge (cnt remote : GCounter V) (id : ℕ) :
    id ∈ (cnt.merge remote).counters ↔ id ∈ cnt.counters ∨ id ∈ remote.counters := by
  simp only [UnorderedMap.mem_iff_lookup, lookup_merge]
  cases remote.counters.lookup id <;> simp

omit [LinearOrder V] in
/-- Counters with the same entries are the same where their counts are. -/
theorem same_of_count {a b : GCounter V} (hmem : ∀ id, id ∈ a.counters ↔ id ∈ b.counters)
    (hcount : ∀ id, a.count id = b.count id) : UnorderedMap.Same a.counters b.counters := by
  intro id
  have hid := hmem id
  have hc := hcount id
  unfold count at hc
  rw [UnorderedMap.mem_iff_lookup, UnorderedMap.mem_iff_lookup] at hid
  cases ha : a.counters.lookup id <;> cases hb : b.counters.lookup id <;> simp_all

theorem NonNeg.merge {cnt remote : GCounter V} (h : cnt.NonNeg) : (cnt.merge remote).NonNeg := by
  intro id
  rw [count_merge h]
  exact (h id).trans (le_max_left _ _)

theorem merge_comm {a b : GCounter V} (ha : a.NonNeg) (hb : b.NonNeg) :
    UnorderedMap.Same (a.merge b).counters (b.merge a).counters := by
  apply same_of_count
  · intro id
    rw [mem_merge, mem_merge, or_comm]
  · intro id
    rw [count_merge ha, count_merge hb, max_comm]

theorem merge_assoc {a b : GCounter V} (ha : a.NonNeg) (hb : b.NonNeg) (c : GCounter V) :
    UnorderedMap.Same ((a.merge b).merge c).counters (a.merge (b.merge c)).counters := by
  apply same_of_count
  · intro id
    rw [mem_merge, mem_merge, mem_merge, mem_merge, or_assoc]
  · intro id
    rw [count_merge ha.merge, count_merge ha, count_merge ha, count_merge hb, max_assoc]

theorem merge_self {a : GCounter V} (ha : a.NonNeg) :
    UnorderedMap.Same (a.merge a).counters a.counters := by
  apply same_of_count
  · intro id
    rw [mem_merge, or_self]
  · intro id
    rw [count_merge ha, max_self]

/-! ## Runs -/

/-- Counters, each given its id before use. -/
def replicated : ReplicatedType ℕ CounterOp (GCounter V) where
  init := new
  apply op cnt :=
    match op with
    | .increment => cnt.increment
  merge := merge

/-- No counter starts again after an increment. -/
def NoReuse (C : Config ℕ CounterOp (GCounter V)) : ReplicaAction ℕ CounterOp → Prop
  | .restart i => ∀ ev ∈ C.log, ev.site ≠ i
  | _ => True

/-- The increments of replica `j` in a history. -/
def incrementsOf (log : List (UpdateEvent ℕ CounterOp (GCounter V))) (hist : Finset ℕ) (j : ℕ) :
    Finset ℕ := hist.filter fun n => log[n]?.map UpdateEvent.site = some j

/-- Each entry counts the increments of its replica in the history. -/
structure Counts (log : List (UpdateEvent ℕ CounterOp (GCounter V))) (i : ℕ)
    (R : Replica (GCounter V)) : Prop where
  replicaId : R.state.replicaId = i
  count_eq : ∀ j, R.state.count j = ((incrementsOf log R.hist j).card : V)

variable {C : Config ℕ CounterOp (GCounter V)} {i q : ℕ} {R Q : Replica (GCounter V)}

omit [CommSemiring V] [LinearOrder V] in
theorem mem_incrementsOf {log : List (UpdateEvent ℕ CounterOp (GCounter V))} {hist : Finset ℕ}
    {j n : ℕ} : n ∈ incrementsOf log hist j ↔ n ∈ hist ∧ ∃ ev, log[n]? = some ev ∧ ev.site = j := by
  rw [incrementsOf, Finset.mem_filter, Option.map_eq_some_iff]

omit [CommSemiring V] [LinearOrder V] in
theorem incrementsOf_union (log : List (UpdateEvent ℕ CounterOp (GCounter V))) (s t : Finset ℕ)
    (j : ℕ) : incrementsOf log (s ∪ t) j = incrementsOf log s j ∪ incrementsOf log t j :=
  Finset.filter_union ..

theorem incrementsOf_append (h : replicated.Reachable NoReuse C) (hR : C.HasState i R)
    (l : List (UpdateEvent ℕ CounterOp (GCounter V))) (j : ℕ) :
    incrementsOf (C.log ++ l) R.hist j = incrementsOf C.log R.hist j := by
  refine Finset.filter_congr fun n hn => ?_
  rw [h.log_append hR hn]

/-- An increment joins the increments of its replica. -/
theorem incrementsOf_updated (h : replicated.Reachable NoReuse C) (op : CounterOp) (j : ℕ) :
    incrementsOf (C.log ++ [replicated.event C i op]) (replicated.updated C i op).hist j =
      if i = j then insert C.log.length (incrementsOf C.log (C.node i).hist j)
      else incrementsOf C.log (C.node i).hist j := by
  have hlast : (C.log ++ [replicated.event C i op])[C.log.length]? =
      some (replicated.event C i op) := by simp
  show Finset.filter _ (insert C.log.length (C.node i).hist) = _
  rw [Finset.filter_insert, hlast]
  have hold := incrementsOf_append h (.now : C.HasState i _) [replicated.event C i op] j
  unfold incrementsOf at hold ⊢
  rw [hold]
  by_cases hij : i = j
  · rw [if_pos hij, if_pos (by rw [Option.map_some, Option.some_inj]; exact hij)]
  · rw [if_neg hij, if_neg (by rw [Option.map_some, Option.some_inj]; exact hij)]

theorem Counts.updated (h : replicated.Reachable NoReuse C) {op : CounterOp}
    (hcounts : Counts C.log i (C.node i)) :
    Counts (C.log ++ [replicated.event C i op]) i (replicated.updated C i op) := by
  cases op with
  | increment =>
    constructor
    · exact hcounts.replicaId
    · intro j
      show (((C.node i).state.increment.counters.lookup j).getD 0 : V) = _
      have hfresh : C.log.length ∉ incrementsOf C.log (C.node i).hist j := fun hmem =>
        absurd (h.hist_lt .now (mem_incrementsOf.mp hmem).1) (lt_irrefl _)
      rw [incrementsOf_updated h, lookup_increment, hcounts.replicaId]
      by_cases hij : i = j
      · rw [if_pos hij.symm, if_pos hij, Option.getD_some, hcounts.count_eq,
          Finset.card_insert_of_notMem hfresh, Nat.cast_succ]
      · rw [if_neg (Ne.symm hij), if_neg hij, ← hcounts.count_eq]
        rfl

variable [IsStrictOrderedRing V]

theorem Counts.nonNeg {log : List (UpdateEvent ℕ CounterOp (GCounter V))}
    (hcounts : Counts log i R) : R.state.NonNeg := by
  intro j
  rw [hcounts.count_eq]
  exact Nat.cast_nonneg _

omit [CommSemiring V] [LinearOrder V] [IsStrictOrderedRing V] in
theorem restart_without_increment (C : Config ℕ CounterOp (GCounter V)) (i : ℕ)
    (h : NoReuse C (.restart i)) : ∀ ev ∈ C.log, ev.site = i → ¬ True := by
  intro ev hev hsite
  exact absurd hsite (h ev hev)

/-- No increment is counted twice: of the increments of a replica, one side knows all that the
other knows. -/
theorem Counts.merged (h : replicated.Reachable NoReuse C) (hRs : C.HasState i R)
    (hQs : C.HasState q Q) (hR : Counts C.log i R) (hQ : Counts C.log q Q) :
    Counts C.log i (replicated.merged R Q) where
  replicaId := hR.replicaId
  count_eq j := by
    show (R.state.merge Q.state).count j = ((incrementsOf C.log (R.hist ∪ Q.hist) j).card : V)
    rw [count_merge hR.nonNeg, hR.count_eq, hQ.count_eq, incrementsOf_union, ← Nat.cast_max]
    have hchain := h.own_chain (K := fun _ => True) restart_without_increment hRs hQs j
    rcases hchain with hsub | hsub
    · have hle : incrementsOf C.log R.hist j ⊆ incrementsOf C.log Q.hist j := by
        intro n hn
        obtain ⟨hhist, ev, hev, hj⟩ := mem_incrementsOf.mp hn
        exact mem_incrementsOf.mpr ⟨hsub n hhist ev hev hj trivial, ev, hev, hj⟩
      rw [Finset.union_eq_right.mpr hle, max_eq_right (Finset.card_le_card hle)]
    · have hle : incrementsOf C.log Q.hist j ⊆ incrementsOf C.log R.hist j := by
        intro n hn
        obtain ⟨hhist, ev, hev, hj⟩ := mem_incrementsOf.mp hn
        exact mem_incrementsOf.mpr ⟨hsub n hhist ev hev hj trivial, ev, hev, hj⟩
      rw [Finset.union_eq_left.mpr hle, max_eq_left (Finset.card_le_card hle)]

theorem counts_of_reachable (h : replicated.Reachable NoReuse C) (hR : C.HasState i R) :
    Counts C.log i R := by
  refine (h.induct (P := fun log i R => Counts log i R) ?_ ?_ ?_ ?_ i R hR)
  · intro C i _
    exact ⟨rfl, fun j => Nat.cast_zero.symm⟩
  · intro C i op hC _ ih j R hR
    have hold := ih j R hR
    refine ⟨hold.replicaId, fun k => ?_⟩
    rw [incrementsOf_append hC hR]
    exact hold.count_eq k
  · intro C i op hC _ ih
    have hold := ih i _ .now
    exact hold.updated hC
  · intro C i n q Q hC _ hsent hR hQ
    exact hR.merged hC .now (hasState_sent hsent) hQ

/-- The value of a counter is the number of increments in its history. -/
theorem value_eq_card (h : replicated.Reachable NoReuse C) (hR : C.HasState i R) :
    R.state.value = (R.hist.card : V) := by
  have hcounts := counts_of_reachable h hR
  have hsite : ∀ n ∈ R.hist, (C.log[n]?.map UpdateEvent.site).getD 0 ∈
      R.state.counters.keys.toFinset := by
    intro n hn
    obtain ⟨ev, hev⟩ : ∃ ev, C.log[n]? = some ev :=
      ⟨_, List.getElem?_eq_getElem (h.hist_lt hR hn)⟩
    rw [hev, Option.map_some, Option.getD_some, List.mem_toFinset]
    show ev.site ∈ R.state.counters
    -- its replica has counted this increment
    by_contra habsent
    have hzero : R.state.count ev.site = 0 := by
      rw [count, UnorderedMap.not_mem_iff_lookup.mp habsent]
      rfl
    rw [hcounts.count_eq, Nat.cast_eq_zero, Finset.card_eq_zero] at hzero
    have hmem : n ∈ incrementsOf C.log R.hist ev.site := mem_incrementsOf.mpr ⟨hn, ev, hev, rfl⟩
    rw [hzero] at hmem
    exact Finset.notMem_empty n hmem
  rw [value, UnorderedMap.foldl_add, zero_add, Finset.card_eq_sum_card_fiberwise hsite,
    Nat.cast_sum]
  refine Finset.sum_congr rfl fun j _ => ?_
  show R.state.count j = _
  rw [hcounts.count_eq]
  congr 2
  refine Finset.filter_congr fun n hn => ?_
  rw [List.getElem?_eq_getElem (h.hist_lt hR hn), Option.map_some, Option.some_inj,
    Option.getD_some]

/-- Counters in a run count every increment once, and it does not matter in which order, how often
and how grouped they are merged. -/
theorem counts_increments_once (h : replicated.Reachable NoReuse C) :
    (∀ i R, C.HasState i R → R.state.value = (R.hist.card : V)) ∧
    (∀ i j R Q, C.HasState i R → C.HasState j Q →
      UnorderedMap.Same (R.state.merge Q.state).counters (Q.state.merge R.state).counters) ∧
    (∀ i j k R Q T, C.HasState i R → C.HasState j Q → C.HasState k T →
      UnorderedMap.Same ((R.state.merge Q.state).merge T.state).counters
        (R.state.merge (Q.state.merge T.state)).counters) ∧
    ∀ i R, C.HasState i R →
      UnorderedMap.Same (R.state.merge R.state).counters R.state.counters := by
  refine ⟨?_, ?_, ?_, ?_⟩
  · intro i R hR
    exact value_eq_card h hR
  · intro i j R Q hR hQ
    exact merge_comm (counts_of_reachable h hR).nonNeg (counts_of_reachable h hQ).nonNeg
  · intro i j k R Q T hR hQ _
    exact merge_assoc (counts_of_reachable h hR).nonNeg (counts_of_reachable h hQ).nonNeg _
  · intro i R hR
    exact merge_self (counts_of_reachable h hR).nonNeg

/-- Replica 2 receives an increment of replica 0 twice, once by way of replica 1. -/
def twoPaths : Config ℕ CounterOp (GCounter ℤ) :=
  replicated.exec replicated.start [.update 0 .increment, .send 0, .deliver 1 0,
    .update 1 .increment, .send 1, .deliver 2 0, .deliver 2 1]

theorem value_twoPaths : (twoPaths.node 2).state.value = 2 := by
  have hsteps : (replicated (V := ℤ)).Steps NoReuse replicated.start
      [.update 0 .increment, .send 0, .deliver 1 0, .update 1 .increment, .send 1, .deliver 2 0,
        .deliver 2 1] := ⟨trivial, trivial, trivial, trivial, trivial, trivial, trivial, trivial⟩
  have hvalue := (counts_increments_once (Reachable.start.exec hsteps)).1 2 _ .now
  have hcard : (twoPaths.node 2).hist.card = 2 := by decide
  show (twoPaths.node 2).state.value = ((2 : ℕ) : ℤ)
  rw [← hcard]
  exact hvalue

end GCounter

end CrdtStore
