import CrdtStore.Deployment
import CrdtStore.IterationOrder
import CrdtStore.Library.SyncRounds
import CrdtStore.MapLastWriter

/-!
# Convergence

Clients stop updating, and each syncs in two rounds, the first of which uses every server; every
broadcast arrives. Then clients and servers agree: on the keys, in runs of clean merges
(`keys_converge`), and on the values of keys that are never removed, in runs that keep the stamps
received (`values_converge`).
-/

namespace CrdtStore

open ReplicatedType Config

namespace Map

variable {K V : Type*} [DecidableEq K] [Inhabited V]
  {server : ℕ → Bool} {C : Config ℕ (MapOp K V) (Map K V)} {k : K} {servers : List ℕ}
  {ps qs : List (ℕ × ℕ)}

omit [DecidableEq K] [Inhabited V] in
theorem put_of_keyOp {op : MapOp K V} (h : keyOp op = .add k) : ∃ v, op = .put k v := by
  cases op with
  | put key val =>
    cases h
    exact ⟨val, rfl⟩
  | remove key => cases h
  | get key => cases h

/-- In runs of clean merges a map contains just the keys with a live put. -/
theorem contains_iff_live (h : replicated.Reachable (CleanlyDeployed server k) C) {i : ℕ}
    {R : Replica (Map K V)} (hR : C.HasState i R) :
    R.state.contains k = true ↔ ∃ n ev v, C.log[n]? = some ev ∧ ev.op = .put k v ∧
      Live C.log (· = .remove k) R n := by
  constructor
  · intro hk
    obtain ⟨n, ev, hev, hop, hlive⟩ := (ORSet.contains_iff_live (reachable_keysView_cleanly h)
      (hR.map keys keyOp)).mp hk
    rw [getElem?_log_map] at hev
    obtain ⟨ev', hev', rfl⟩ := Option.map_eq_some_iff.mp hev
    obtain ⟨v, hput⟩ := put_of_keyOp hop
    exact ⟨n, ev', v, hev', hput, hlive.of_map keys keyOp fun op hop => by rw [hop]; rfl⟩
  · rintro ⟨n, ev, v, hev, hop, hlive⟩
    refine (ORSet.contains_iff_live (reachable_keysView_cleanly h) (hR.map keys keyOp)).mpr
      ⟨n, ev.map keys keyOp, ?_, ?_, hlive.map keys keyOp remove_of_keyOp⟩
    · rw [getElem?_log_map, hev]
      rfl
    · show keyOp ev.op = .add k
      rw [hop]
      rfl

/-- Client 6 puts a key after its first sync. -/
def beforeRounds : Config ℕ (MapOp String String) (Map String String) :=
  replicated.exec replicated.start (syncRound 6 1 0 0 ++ [.update 6 (.put "k" "v")])

/-- Clients 5 and 6 sync with servers 0 and 1. -/
def pairs : List (ℕ × ℕ) := [(5, 0), (6, 1)]

/-- Of the puts of `k` in `hist`, the one with the greatest timestamp put `v`. -/
def LatestPut (log : List (UpdateEvent ℕ (MapOp K V) (Map K V))) (hist : Finset ℕ) (k : K) (v : V) :
    Prop :=
  ∃ n ∈ hist, ∃ ev, log[n]? = some ev ∧ ev.op = .put k v ∧
    ∀ m ∈ hist, ∀ ev' w, log[m]? = some ev' → ev'.op = .put k w → m ≠ n →
      putTimestamp ev' k < putTimestamp ev k

instance (k : K) (C : Config ℕ (MapOp K V) (Map K V)) (a : ReplicaAction ℕ (MapOp K V)) :
    Decidable (NeverRemoved k C a) :=
  match a with
  | .update i (.put key _) =>
    inferInstanceAs (Decidable ((C.node i).state.keys.seen i + 1 < 2 ^ 64 ∧
      (C.node i).state.seqNumber key + 1 < 2 ^ 64))
  | .update _ (.remove key) => inferInstanceAs (Decidable (key ≠ k))
  | .restart i =>
    inferInstanceAs (Decidable (∀ ev ∈ C.log, ev.site = i → ∀ key val, ev.op ≠ .put key val))
  | .update _ (.get _) => isTrue trivial
  | .send _ => isTrue trivial
  | .deliver _ _ => isTrue trivial

instance (k : K) (C : Config ℕ (MapOp K V) (Map K V)) (a : ReplicaAction ℕ (MapOp K V)) :
    Decidable (KeepsStamp k C a) :=
  match a with
  | .deliver i n =>
    decidable_of_iff
      (∀ p ∈ C.sent[n]?, (C.node i).state.registers.lookup k = none →
        ∀ remoteReg ∈ p.2.state.registers.lookup k, ¬ remoteReg.timestamp < ⟨1, i, i⟩)
      ⟨fun h q Q remoteReg hQ hnone hreg => h (q, Q) hQ hnone remoteReg hreg,
        fun h p hp hnone remoteReg hreg => h p.1 p.2 remoteReg hp hnone hreg⟩
  | .update _ _ => isTrue trivial
  | .send _ => isTrue trivial
  | .restart _ => isTrue trivial

section NeverRemoved

variable (h : replicated.Reachable (fun C a => NeverRemoved k C a ∧ KeepsStamp k C a) C) {i : ℕ}
  {R : Replica (Map K V)} (hR : C.HasState i R)

include h hR

theorem latestPut_get (hk : R.state.contains k = true) :
    LatestPut C.log R.hist k (R.state.get k).1 := by
  obtain ⟨reg, hreg, n, hn, ev, hev, hop, -, hlatest⟩ := lastWriter_of_keepsStamp h hR hk
  have hvalue : (R.state.get k).1 = reg.value := by
    rw [value_get, if_pos hk, hreg]
    rfl
  rw [hvalue]
  exact ⟨n, hn, ev, hev, hop, hlatest⟩

/-- A key that is never removed is there once a put of it is known. -/
theorem contains_iff_put : R.state.contains k = true ↔
    ∃ n ∈ R.hist, ∃ ev v, C.log[n]? = some ev ∧ ev.op = .put k v := by
  have hnever : replicated.Reachable (NeverRemoved k) C := h.mono fun _ _ h => h.1
  constructor
  · intro hk
    obtain ⟨n, hn, ev, hev, hop, -⟩ := latestPut_get h hR hk
    exact ⟨n, hn, ev, _, hev, hop⟩
  · rintro ⟨n, hn, ev, v, hev, hop⟩
    obtain ⟨reg, hreg⟩ := exists_register_of_put (hnever.mono NeverRemoved.noReuse) hR
      (neverErased hnever _) hn hev hop
    exact (consistent_of_reachable h hR).contains_of_lookup hreg

end NeverRemoved

end Map

end CrdtStore
