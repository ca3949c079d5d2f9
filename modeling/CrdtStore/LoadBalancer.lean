import CrdtStore.Library.WrappingCounter
import CrdtStore.RequestUtilities

/-!
# The load balancer

`src/load_balancer.cpp`: clients are sent to the replicas in turn, by a 32-bit counter of the
requests so far modulo the number of replicas.

The counter wraps at `2 ^ 32`, where the turn jumps back to the first replica. So the balance lasts
for ever only when the number of replicas divides `2 ^ 32`; `balanced_iff` is the exact range
otherwise.
-/

namespace CrdtStore

/-- The fields of `resJson`. -/
structure ReplicaInformation where
  replicaId : ℤ
  ipAddress : String
  port : ℤ

/-- `numClientConnections` and `replicaConfigs`. -/
structure LoadBalancer where
  numClientConnections : ℕ
  replicaConfigs : List ReplicaConfig

namespace LoadBalancer

open WrappingCounter

/-- `LoadBalancer::LoadBalancer`, with the replicas read from the properties. -/
def new (replicaConfigs : List ReplicaConfig) : LoadBalancer := ⟨0, replicaConfigs⟩

/-- The `int replicaId` of the next request. -/
def replicaId (lb : LoadBalancer) : ℤ :=
  Int.bmod (lb.numClientConnections % lb.replicaConfigs.length : ℕ) (2 ^ 32)

/-- `LoadBalancer::get_replica_information`: the reply, none where the code reads past the end of
`replicaConfigs`. -/
def getReplicaInformation (lb : LoadBalancer) : Option ReplicaInformation × LoadBalancer :=
  let replicaId := lb.replicaId
  let lb := { lb with numClientConnections := (lb.numClientConnections + 1) % 2 ^ 32 }
  (lb.replicaConfigs[toUInt64 replicaId]?.map fun config =>
    ⟨replicaId, config.ipAddress, config.port⟩, lb)

variable (replicaConfigs : List ReplicaConfig)

/-- The load balancer after `n` requests. -/
def served (n : ℕ) : LoadBalancer :=
  (fun lb => lb.getReplicaInformation.2)^[n] (new replicaConfigs)

/-- How many of the first `n` clients were sent to replica `i`. -/
def clients (n i : ℕ) : ℕ := n.count fun k => (served replicaConfigs k).replicaId = i

/-- Every index chosen for the first `n` clients is within the list, and no replica is ahead of
another by two of them. -/
def Balanced (n : ℕ) : Prop :=
  (∀ k < n, 0 ≤ (served replicaConfigs k).replicaId ∧
    (served replicaConfigs k).replicaId < replicaConfigs.length) ∧
  ∀ i < replicaConfigs.length, ∀ j < replicaConfigs.length,
    clients replicaConfigs n i ≤ clients replicaConfigs n j + 1

variable {replicaConfigs}

theorem served_eq (n : ℕ) : served replicaConfigs n = ⟨n % 2 ^ 32, replicaConfigs⟩ := by
  induction n with
  | zero => rfl
  | succ n ih =>
    rw [served, Function.iterate_succ_apply']
    show (served replicaConfigs n).getReplicaInformation.2 = _
    rw [ih]
    show (⟨(n % 2 ^ 32 + 1) % 2 ^ 32, replicaConfigs⟩ : LoadBalancer) = _
    rw [Nat.mod_add_mod]

theorem replicaId_served (n : ℕ) :
    (served replicaConfigs n).replicaId =
      Int.bmod (n % 2 ^ 32 % replicaConfigs.length : ℕ) (2 ^ 32) := by
  unfold replicaId
  rw [served_eq]

/-- Indices below `2 ^ 31` survive the conversion to `int`. -/
theorem replicaId_served_of_lt {n : ℕ} (h : n % 2 ^ 32 % replicaConfigs.length < 2 ^ 31) :
    (served replicaConfigs n).replicaId = (n % 2 ^ 32 % replicaConfigs.length : ℕ) := by
  rw [replicaId_served, Int.bmod]
  split <;> omega

/-- While the indices are small, they are the residues. -/
theorem clients_eq_count {n : ℕ}
    (h : ∀ k < n, k % 2 ^ 32 % replicaConfigs.length < 2 ^ 31) (i : ℕ) :
    clients replicaConfigs n i =
      n.count fun k => k % 2 ^ 32 % replicaConfigs.length = i := by
  rw [clients, Nat.count_eq_card_filter_range, Nat.count_eq_card_filter_range]
  refine congrArg Finset.card (Finset.filter_congr fun k hk => ?_)
  rw [replicaId_served_of_lt (h k (Finset.mem_range.mp hk)), Nat.cast_inj]

theorem balanced_iff_of_lt (hne : replicaConfigs ≠ []) {n : ℕ}
    (h : ∀ k < n, k % 2 ^ 32 % replicaConfigs.length < 2 ^ 31) :
    Balanced replicaConfigs n ↔ 2 ^ 32 % replicaConfigs.length = 0 ∨ n / 2 ^ 32 = 0 ∨
      (n / 2 ^ 32 = 1 ∧ n % 2 ^ 32 % replicaConfigs.length = 0) := by
  have hL : 0 < replicaConfigs.length := List.length_pos_iff.mpr hne
  rw [← count_wrapping_balanced_iff hL, Balanced]
  simp only [clients_eq_count h]
  refine and_iff_right fun k hk => ?_
  rw [replicaId_served_of_lt (h k hk)]
  have := Nat.mod_lt (k % 2 ^ 32) hL
  omega

/-- The index of a list with more than `2 ^ 31` entries becomes negative. -/
theorem not_balanced_of_large (hL : 2 ^ 31 < replicaConfigs.length) {n : ℕ} (hn : 2 ^ 31 < n) :
    ¬ Balanced replicaConfigs n := by
  intro h
  have hnonneg := (h.1 (2 ^ 31) hn).1
  rw [replicaId_served, Nat.mod_eq_of_lt (by decide : 2 ^ 31 < 2 ^ 32), Nat.mod_eq_of_lt hL]
    at hnonneg
  exact absurd hnonneg (by decide)

/-- The replicas are balanced after `n` requests exactly when no index has left the range of `int`
and either the number of replicas divides `2 ^ 32`, or the counter has not wrapped, or it has
wrapped once and every replica has had as many clients since. -/
theorem balanced_iff (hne : replicaConfigs ≠ []) (n : ℕ) :
    Balanced replicaConfigs n ↔
      n ≤ 2 ^ 31 ∨ (replicaConfigs.length ≤ 2 ^ 31 ∧ (replicaConfigs.length ∣ 2 ^ 32 ∨
        n < 2 ^ 32 ∨ (n < 2 ^ 33 ∧ replicaConfigs.length ∣ n - 2 ^ 32))) := by
  have hL : 0 < replicaConfigs.length := List.length_pos_iff.mpr hne
  by_cases hn : n ≤ 2 ^ 31
  · have hsmall : ∀ k < n, k % 2 ^ 32 % replicaConfigs.length < 2 ^ 31 := by
      intro k hk
      have hle : k % 2 ^ 32 % replicaConfigs.length ≤ k % 2 ^ 32 := Nat.mod_le _ _
      omega
    rw [balanced_iff_of_lt hne hsmall]
    exact iff_of_true (Or.inr (Or.inl (Nat.div_eq_of_lt (by omega)))) (Or.inl hn)
  by_cases hlarge : replicaConfigs.length ≤ 2 ^ 31
  · have hsmall : ∀ k < n, k % 2 ^ 32 % replicaConfigs.length < 2 ^ 31 := by
      intro k _
      exact (Nat.mod_lt _ hL).trans_le hlarge
    rw [balanced_iff_of_lt hne hsmall, ← Nat.dvd_iff_mod_eq_zero, ← Nat.dvd_iff_mod_eq_zero,
      Nat.div_eq_zero_iff_lt (by decide)]
    -- a second round: the counter has wrapped once
    have hround : (n / 2 ^ 32 = 1 ∧ replicaConfigs.length ∣ n % 2 ^ 32) ↔
        2 ^ 32 ≤ n ∧ n < 2 ^ 33 ∧ replicaConfigs.length ∣ n - 2 ^ 32 := by
      constructor
      · intro h
        obtain ⟨hdiv, hdvd⟩ := h
        have hmod : n % 2 ^ 32 = n - 2 ^ 32 := by omega
        exact ⟨by omega, by omega, hmod ▸ hdvd⟩
      · intro h
        obtain ⟨hle, hlt, hdvd⟩ := h
        have hmod : n % 2 ^ 32 = n - 2 ^ 32 := by omega
        exact ⟨by omega, hmod ▸ hdvd⟩
    rw [hround]
    constructor
    · intro h
      exact Or.inr ⟨hlarge, h.imp_right (Or.imp_right And.right)⟩
    · intro h
      obtain ⟨-, h⟩ := h.resolve_left hn
      refine h.imp_right fun h => ?_
      by_cases hwrap : n < 2 ^ 32
      · exact Or.inl hwrap
      · exact Or.inr ⟨not_lt.mp hwrap, h.resolve_left hwrap⟩
  · exact iff_of_false (not_balanced_of_large (by omega) (by omega)) (by tauto)

/-- The replicas of `server_properties.txt`. -/
def deployed : List ReplicaConfig :=
  [⟨0, "127.0.0.1", 8080⟩, ⟨1, "127.0.0.1", 8081⟩, ⟨2, "127.0.0.1", 8082⟩,
    ⟨3, "127.0.0.1", 8083⟩, ⟨4, "127.0.0.1", 8084⟩]

theorem balanced_deployed : Balanced deployed (2 ^ 32 - 1) :=
  (balanced_iff (by decide) _).mpr (Or.inr ⟨by decide, Or.inr (Or.inl (by decide))⟩)

/-- With five replicas, the first request after the counter has wrapped goes to the replica that
was already ahead. -/
theorem not_balanced_after_wrap : ¬ Balanced deployed (2 ^ 32 + 1) := by
  have hsmall : ∀ k < 2 ^ 32 + 1, k % 2 ^ 32 % deployed.length < 2 ^ 31 := by
    intro k _
    exact (Nat.mod_lt _ (by decide : 0 < deployed.length)).trans (by decide)
  rw [balanced_iff_of_lt (by decide) hsmall]
  decide

/-- Balance that lasts for ever. -/
theorem forall_balanced_iff (hne : replicaConfigs ≠ []) :
    (∀ n, Balanced replicaConfigs n) ↔
      replicaConfigs.length ≤ 2 ^ 31 ∧ replicaConfigs.length ∣ 2 ^ 32 := by
  have hL : 0 < replicaConfigs.length := List.length_pos_iff.mpr hne
  constructor
  · intro h
    have hle : replicaConfigs.length ≤ 2 ^ 31 := by
      by_contra hlarge
      exact not_balanced_of_large (by omega) (Nat.lt_succ_self _) (h _)
    have hsmall : ∀ k < 2 ^ 33, k % 2 ^ 32 % replicaConfigs.length < 2 ^ 31 := by
      intro k _
      exact (Nat.mod_lt _ hL).trans_le hle
    rcases (balanced_iff_of_lt hne hsmall).mp (h (2 ^ 33)) with hdvd | hzero | ⟨hone, -⟩
    · exact ⟨hle, Nat.dvd_of_mod_eq_zero hdvd⟩
    · exact absurd hzero (by decide)
    · exact absurd hone (by decide)
  · intro h n
    obtain ⟨hle, hdvd⟩ := h
    refine (balanced_iff_of_lt hne fun k _ => (Nat.mod_lt _ hL).trans_le hle).mpr (Or.inl ?_)
    exact Nat.mod_eq_zero_of_dvd hdvd

end LoadBalancer

end CrdtStore
