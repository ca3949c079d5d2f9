import CrdtStore.Client

/-!
# Finding a replica

The wait loop of `Client::sync` against `LoadBalancer::get_replica_information`. The reply names the
replica whose turn it is, and a client that is refused asks again: `connect_requests` is the whole
loop, for the requests of a client among those of others.

A client that is alone finds a live replica in time, even across the wrap of the counter. Clients
that wait together, each served every `d` requests, need `d` and the number of replicas to be
coprime.
-/

namespace CrdtStore

open RequestUtilities WrappingCounter

namespace Client

variable (configs : List ReplicaConfig) (replica : String → ℤ → HttpResult)

/-- The attempt whose request the load balancer serves after `k` others. -/
def attemptAt (k : ℕ) : Attempt where
  loadBalancer := (LoadBalancer.served configs k).getReplicaInformation.1.elim .exception
    fun info => .response statusOk (some (replyJson info))
  replica := replica

/-- The replica whose turn request `k` is. -/
def turn (k : ℕ) : Option ReplicaConfig := configs[k % 2 ^ 32 % configs.length]?

/-- The replica at `config` answers a GET. -/
def Live (config : ReplicaConfig) : Bool := Answers replica config.ipAddress config.port

variable {configs replica} {lines : Option (List String)} {c : Client}

theorem getReplicaInformation_served {k : ℕ} (hne : configs ≠ [])
    (hlen : configs.length ≤ 2 ^ 31) :
    (LoadBalancer.served configs k).getReplicaInformation.1 =
      (turn configs k).map fun config =>
        ⟨(k % 2 ^ 32 % configs.length : ℕ), config.ipAddress, config.port⟩ := by
  have hlt : k % 2 ^ 32 % configs.length < configs.length :=
    Nat.mod_lt _ (List.length_pos_iff.mpr hne)
  have hid : (LoadBalancer.served configs k).replicaId = (k % 2 ^ 32 % configs.length : ℕ) :=
    LoadBalancer.replicaId_served_of_lt (by omega)
  show (LoadBalancer.served configs k).replicaConfigs[toUInt64
    (LoadBalancer.served configs k).replicaId]?.map _ = _
  rw [hid, LoadBalancer.served_eq, turn]
  have hindex : toUInt64 ((k % 2 ^ 32 % configs.length : ℕ) : ℤ) = k % 2 ^ 32 % configs.length := by
    rw [toUInt64]
    omega
  rw [hindex]

theorem exists_turn_eq (hne : configs ≠ []) (k : ℕ) : ∃ config, turn configs k = some config :=
  ⟨_, List.getElem?_eq_getElem (Nat.mod_lt _ (List.length_pos_iff.mpr hne))⟩

theorem mem_of_turn {k : ℕ} {config : ReplicaConfig} (h : turn configs k = some config) :
    config ∈ configs := List.mem_of_getElem? h

/-- The reply of the load balancer sets the client's replica to the one whose turn it is. -/
theorem initializeMyReplica_attemptAt
    (h : retrieveReplicaConfigsFromProperties lines = .ok configs)
    (hlen : configs.length ≤ 2 ^ 31) {k : ℕ} {config : ReplicaConfig}
    (hturn : turn configs k = some config) :
    c.initializeMyReplica (attemptAt configs replica k).loadBalancer =
      ⟨{ c with myReplicaConfig := config }, false⟩ := by
  have hne : configs ≠ [] := List.ne_nil_of_mem (mem_of_turn hturn)
  have hlt : k % 2 ^ 32 % configs.length < configs.length :=
    Nat.mod_lt _ (List.length_pos_iff.mpr hne)
  have hid : config.replicaId = k % 2 ^ 32 % configs.length := replicaId_getElem? h hturn
  rw [attemptAt, getReplicaInformation_served hne hlen, hturn]
  show c.initializeMyReplica (.response statusOk (some (replyJson _))) = _
  rw [initializeMyReplica_ok, readReplica_replyJson c (by dsimp only; omega)
    (port_retrieveReplicaConfigs h config (mem_of_turn hturn))]
  have hindex : toUInt64 ((k % 2 ^ 32 % configs.length : ℕ) : ℤ) = config.replicaId := by
    rw [toUInt64]
    omega
  dsimp only
  rw [hindex]

theorem canConnectToReplica_attemptAt
    (h : retrieveReplicaConfigsFromProperties lines = .ok configs)
    (hlen : configs.length ≤ 2 ^ 31) {k : ℕ} {config : ReplicaConfig}
    (hturn : turn configs k = some config) :
    c.canConnectToReplica (attemptAt configs replica k) =
      (⟨{ c with myReplicaConfig := config }, false⟩, Live replica config) := by
  rw [canConnectToReplica, initializeMyReplica_attemptAt h hlen hturn]
  rfl

/-- The loop ends at the first request whose turn is a live replica's. -/
theorem connect_requests (h : retrieveReplicaConfigsFromProperties lines = .ok configs)
    (hne : configs ≠ []) (hlen : configs.length ≤ 2 ^ 31) (ks : List ℕ) :
    c.connect (ks.map (attemptAt configs replica)) =
      ((ks.filterMap (turn configs)).find? (Live replica)).map fun config =>
        ⟨{ c with myReplicaConfig := config }, false⟩ := by
  induction ks generalizing c with
  | nil => rfl
  | cons k ks ih =>
    obtain ⟨config, hturn⟩ := exists_turn_eq hne k
    rw [List.map_cons, connect_cons, canConnectToReplica_attemptAt h hlen hturn,
      List.filterMap_cons_some hturn]
    cases hlive : Live replica config with
    | true =>
      rw [List.find?_cons_of_pos hlive]
      rfl
    | false =>
      rw [List.find?_cons_of_neg (by rw [hlive]; exact Bool.false_ne_true)]
      exact ih

theorem connect_eq_none_iff (h : retrieveReplicaConfigsFromProperties lines = .ok configs)
    (hne : configs ≠ []) (hlen : configs.length ≤ 2 ^ 31) (ks : List ℕ) :
    c.connect (ks.map (attemptAt configs replica)) = none ↔
      ∀ k ∈ ks, ∀ config, turn configs k = some config → Live replica config = false := by
  rw [connect_requests h hne hlen, Option.map_eq_none_iff, List.find?_eq_none]
  simp only [List.mem_filterMap, Bool.not_eq_true]
  constructor
  · intro hall k hk config hturn
    exact hall config ⟨k, hk, hturn⟩
  · rintro hall config ⟨k, hk, hturn⟩
    exact hall k hk config hturn

/-- A live configured replica is found once its turn is among the requests. -/
theorem exists_connect (h : retrieveReplicaConfigsFromProperties lines = .ok configs)
    (hlen : configs.length ≤ 2 ^ 31) {ks : List ℕ} {k : ℕ} (hk : k ∈ ks)
    {live : ReplicaConfig} (hturn : turn configs k = some live) (hlive : Live replica live = true) :
    ∃ config ∈ configs, Live replica config = true ∧
      c.connect (ks.map (attemptAt configs replica)) =
        some ⟨{ c with myReplicaConfig := config }, false⟩ := by
  have hne : configs ≠ [] := List.ne_nil_of_mem (mem_of_turn hturn)
  rw [connect_requests h hne hlen]
  cases hfind : (ks.filterMap (turn configs)).find? (Live replica) with
  | none =>
    have hnot := List.find?_eq_none.mp hfind live (List.mem_filterMap.mpr ⟨k, hk, hturn⟩)
    exact absurd hlive hnot
  | some config =>
    obtain ⟨k', -, hturn'⟩ := List.mem_filterMap.mp (List.mem_of_find?_eq_some hfind)
    exact ⟨config, mem_of_turn hturn', List.find?_some hfind, rfl⟩

theorem map_attemptAt (js : List ℕ) (f : ℕ → ℕ) :
    (js.map f).map (attemptAt configs replica) = js.map fun j => attemptAt configs replica (f j) :=
  List.map_map

/-- Only the replica at an address answers. -/
def onlyAt (ipAddress : String) (port : ℤ) : String → ℤ → HttpResult := fun ipAddress' port' =>
  if ipAddress' = ipAddress ∧ port' = port then .response statusOk (some (.object []))
  else .exception

theorem live_onlyAt {ipAddress : String} {port : ℤ} (config : ReplicaConfig) :
    Live (onlyAt ipAddress port) config = true ↔
      config.ipAddress = ipAddress ∧ config.port = port := by
  rw [Live, Answers, onlyAt]
  split
  · next h => exact iff_of_true rfl h
  · next h => exact iff_of_false Bool.false_ne_true h

/-- **A client alone finds a live replica.** However many requests were served before, and across a
wrap of the counter, it asks fewer than twice as often as there are replicas, and connects to a
configured replica that answers. -/
theorem connect_alone (h : retrieveReplicaConfigsFromProperties lines = .ok configs)
    (hlen : configs.length ≤ 2 ^ 31) (hlive : ∃ config ∈ configs, Live replica config = true)
    (c : Client) (n : ℕ) :
    ∃ config ∈ configs, Live replica config = true ∧
      c.connect ((List.range (2 * configs.length - 1)).map fun j =>
        attemptAt configs replica (n + j)) =
          some ⟨{ c with myReplicaConfig := config }, false⟩ := by
  obtain ⟨live, hmem, hlive⟩ := hlive
  obtain ⟨i, hi, hget⟩ := List.getElem_of_mem hmem
  obtain ⟨j, hj, hmod⟩ := exists_turn hi (M := 2 ^ 32) (by omega) n
  have hturn : turn configs (n + j) = some live := by
    rw [turn, hmod, List.getElem?_eq_getElem hi, hget]
  rw [← map_attemptAt]
  exact exists_connect h hlen (List.mem_map.mpr ⟨j, List.mem_range.mpr hj, rfl⟩) hturn hlive

/-- The first request of client 5 is the last but one before the counter wraps, and only server 1
is up. -/
theorem connect_before_wrap : ∃ config ∈ LoadBalancer.deployed,
    Live (onlyAt "127.0.0.1" 8081) config = true ∧
      connect ⟨Map.new 5, 5, ⟨0, "", 0⟩⟩
        ((List.range (2 * LoadBalancer.deployed.length - 1)).map fun j =>
          attemptAt LoadBalancer.deployed (onlyAt "127.0.0.1" 8081) (2 ^ 32 - 2 + j)) =
        some ⟨⟨Map.new 5, 5, config⟩, false⟩ := by
  have h : retrieveReplicaConfigsFromProperties
      (some ["127.0.0.1 127.0.0.1 127.0.0.1 127.0.0.1 127.0.0.1", "8080 8081 8082 8083 8084"]) =
        .ok LoadBalancer.deployed := rfl
  exact connect_alone h (by decide)
    ⟨⟨1, "127.0.0.1", 8081⟩, by decide, (live_onlyAt _).mpr ⟨rfl, rfl⟩⟩ _ _

/-- Replicas at distinct addresses are told apart by them. -/
theorem index_eq_of_address (haddresses :
    (configs.map fun config => (config.ipAddress, config.port)).Nodup) {i j : ℕ}
    {config config' : ReplicaConfig} (hi : configs[i]? = some config)
    (hj : configs[j]? = some config') (hip : config.ipAddress = config'.ipAddress)
    (hport : config.port = config'.port) : i = j := by
  have hlt : i < (configs.map fun config => (config.ipAddress, config.port)).length := by
    rw [List.length_map]
    exact (List.getElem?_eq_some_iff.mp hi).1
  refine (List.getElem?_inj hlt haddresses).mp ?_
  rw [List.getElem?_map, List.getElem?_map, hi, hj, Option.map_some, Option.map_some, hip, hport]

/-- **Clients that wait together.** A client that is served every `d` requests finds a live replica,
whichever are live, exactly when `d` and the number of replicas are coprime. -/
theorem connect_spaced_iff (h : retrieveReplicaConfigsFromProperties lines = .ok configs)
    (hne : configs ≠ []) (hlen : configs.length ≤ 2 ^ 31)
    (haddresses : (configs.map fun config => (config.ipAddress, config.port)).Nodup)
    (c : Client) {n d : ℕ} (hd : 0 < d) (hwrap : n + configs.length * d ≤ 2 ^ 32) :
    (∀ replica, (∃ config ∈ configs, Live replica config = true) →
      ∃ attempts, n + attempts * d ≤ 2 ^ 32 ∧
        c.connect ((List.range attempts).map fun j => attemptAt configs replica (n + j * d)) ≠
          none) ↔ d.Coprime configs.length := by
  have hL : 0 < configs.length := List.length_pos_iff.mpr hne
  have hturn : ∀ attempts, n + attempts * d ≤ 2 ^ 32 → ∀ j < attempts,
      turn configs (n + j * d) = configs[(n + j * d) % configs.length]? := by
    intro attempts hle j hj
    have hlt : j * d < attempts * d := Nat.mul_lt_mul_of_pos_right hj hd
    rw [turn, Nat.mod_eq_of_lt (by omega : n + j * d < 2 ^ 32)]
  constructor
  · intro hall
    by_contra hcoprime
    obtain ⟨i, hi, hmissed⟩ := exists_missed hcoprime hL n
    -- only the replica whose turn never comes is live
    have hget : configs[i]? = some configs[i] := List.getElem?_eq_getElem hi
    obtain ⟨attempts, hle, hconnect⟩ := hall (onlyAt configs[i].ipAddress configs[i].port)
      ⟨configs[i], List.getElem_mem hi, (live_onlyAt _).mpr ⟨rfl, rfl⟩⟩
    refine hconnect ?_
    rw [← map_attemptAt, connect_eq_none_iff h hne hlen]
    intro k hk config hconfig
    obtain ⟨j, hj, rfl⟩ := List.mem_map.mp hk
    rw [hturn attempts hle j (List.mem_range.mp hj)] at hconfig
    rw [← Bool.not_eq_true, live_onlyAt]
    rintro ⟨hip, hport⟩
    exact hmissed j (index_eq_of_address haddresses hconfig hget hip hport)
  · rintro hcoprime replica ⟨live, hmem, hlive⟩
    -- as many requests as there are replicas come to all turns
    obtain ⟨i, hi, hget⟩ := List.getElem_of_mem hmem
    obtain ⟨j, hj, hmod⟩ := exists_spaced hcoprime hi n
    have hlive' : turn configs (n + j * d) = some live := by
      rw [hturn configs.length hwrap j hj, hmod, List.getElem?_eq_getElem hi, hget]
    have hrequest : n + j * d ∈ (List.range configs.length).map fun j => n + j * d :=
      List.mem_map.mpr ⟨j, List.mem_range.mpr hj, rfl⟩
    obtain ⟨config, -, -, hconnect⟩ := exists_connect (c := c) h hlen hrequest hlive' hlive
    refine ⟨configs.length, hwrap, ?_⟩
    rw [← map_attemptAt, hconnect]
    exact Option.some_ne_none _

/-- Of two clients that take turns asking, the first finds server 3 when only that is up. -/
theorem connect_by_turns : ∃ attempts, 0 + attempts * 2 ≤ 2 ^ 32 ∧
    connect ⟨Map.new 5, 5, ⟨0, "", 0⟩⟩ ((List.range attempts).map fun j =>
      attemptAt LoadBalancer.deployed (onlyAt "127.0.0.1" 8083) (0 + j * 2)) ≠ none := by
  have h : retrieveReplicaConfigsFromProperties
      (some ["127.0.0.1 127.0.0.1 127.0.0.1 127.0.0.1 127.0.0.1", "8080 8081 8082 8083 8084"]) =
        .ok LoadBalancer.deployed := rfl
  exact (connect_spaced_iff h (by decide) (by decide) (by decide) _ (by decide)
    (by decide)).mpr (by decide) _
      ⟨⟨3, "127.0.0.1", 8083⟩, by decide, (live_onlyAt _).mpr ⟨rfl, rfl⟩⟩

end Client

end CrdtStore
