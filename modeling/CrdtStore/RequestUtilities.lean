import CrdtStore.Library.Json
import Mathlib.Data.List.Range

/-!
# Reading the configuration

`utility/request_utilities.cpp`: the replicas that the properties file lists, their ids being their
positions in the list.
-/

namespace CrdtStore

/-- `replicaId`, `ipAddress` and `port`. -/
structure ReplicaConfig where
  replicaId : ℕ
  ipAddress : String
  port : ℤ
deriving DecidableEq, Repr

namespace RequestUtilities

/-- `RequestUtilities::splitString`: what `getline` reads up to each blank, and no token after a
blank that ends the line. -/
def splitString (line : String) : List String :=
  let tokens := line.toList.splitOn ' '
  let tokens := if tokens.getLast? = some [] then tokens.dropLast else tokens
  tokens.map String.ofList

/-- `std::stoi`. -/
def stoi (s : String) : Except Thrown ℤ :=
  let (negative, chars) := readSign (s.toList.dropWhile isSpace)
  match chars.takeWhile Char.isDigit with
  | [] => .error (.invalidArgument "stoi")
  | digits =>
    let n : ℤ := Nat.ofDigitChars 10 digits 0
    let n := if negative then -n else n
    if n < -2 ^ 31 ∨ 2 ^ 31 ≤ n then .error (.outOfRange "stoi") else .ok n

/-- The loop of `retrieveReplicaConfigsFromProperties` from index `i` on. -/
def pushConfigs (i : ℕ) : List String → List String → Except Thrown (List ReplicaConfig)
  | ipAddress :: ipAddresses, port :: ports => do
    let port ← stoi port
    let replicaConfigs ← pushConfigs (i + 1) ipAddresses ports
    return ⟨i, ipAddress, port⟩ :: replicaConfigs
  | _, _ => .ok []

/-- `RequestUtilities::retrieveReplicaConfigsFromProperties` on the lines of the file, or on a file
that does not open: addresses in the first line, ports in the last of the others. -/
def retrieveReplicaConfigsFromProperties :
    Option (List String) → Except Thrown (List ReplicaConfig)
  | none => .ok []
  | some lines =>
    -- each later line replaces the ports read before
    let ipAddresses := (lines.head?.map splitString).getD []
    let ports := (lines.tail.getLast?.map splitString).getD []
    if ipAddresses.length > 0 ∧ ports.length > 0 ∧ ipAddresses.length = ports.length then
      pushConfigs 0 ipAddresses ports
    else .ok []

theorem pushConfigs_replicaId {i : ℕ} {ipAddresses ports : List String}
    {configs : List ReplicaConfig} (h : pushConfigs i ipAddresses ports = .ok configs) :
    configs.map ReplicaConfig.replicaId = List.range' i configs.length := by
  induction ipAddresses generalizing i ports configs with
  | nil =>
    cases h
    rfl
  | cons ipAddress ipAddresses ih =>
    cases ports with
    | nil =>
      cases h
      rfl
    | cons port ports =>
      obtain ⟨n, -, h⟩ := exists_of_bind_eq_ok h
      obtain ⟨rest, hrest, h⟩ := exists_of_bind_eq_ok h
      cases h
      simp [ih hrest, List.range'_succ]

/-- The ids of the configured replicas are the first natural numbers. -/
theorem replicaId_retrieveReplicaConfigs {lines : Option (List String)}
    {configs : List ReplicaConfig} (h : retrieveReplicaConfigsFromProperties lines = .ok configs) :
    configs.map ReplicaConfig.replicaId = List.range configs.length := by
  rw [List.range_eq_range']
  cases lines with
  | none =>
    cases h
    rfl
  | some lines =>
    simp only [retrieveReplicaConfigsFromProperties] at h
    split at h
    · exact pushConfigs_replicaId h
    · cases h
      rfl

/-- What `stoi` gives fits in an `int`. -/
theorem stoi_range {s : String} {n : ℤ} (h : stoi s = .ok n) : -2 ^ 31 ≤ n ∧ n < 2 ^ 31 := by
  unfold stoi at h
  generalize readSign (s.toList.dropWhile isSpace) = sign at h
  obtain ⟨negative, chars⟩ := sign
  simp only at h
  split at h
  · cases h
  · generalize (if negative = true then _ else _ : ℤ) = z at h
    split at h
    · cases h
    · next hrange =>
      cases h
      omega

theorem pushConfigs_port {i : ℕ} {ipAddresses ports : List String}
    {configs : List ReplicaConfig} (h : pushConfigs i ipAddresses ports = .ok configs) :
    ∀ config ∈ configs, -2 ^ 31 ≤ config.port ∧ config.port < 2 ^ 31 := by
  induction ipAddresses generalizing i ports configs with
  | nil =>
    cases h
    intro config hconfig
    cases hconfig
  | cons ipAddress ipAddresses ih =>
    cases ports with
    | nil =>
      cases h
      intro config hconfig
      cases hconfig
    | cons port ports =>
      obtain ⟨n, hn, h⟩ := exists_of_bind_eq_ok h
      obtain ⟨rest, hrest, h⟩ := exists_of_bind_eq_ok h
      cases h
      intro config hconfig
      cases hconfig with
      | head => exact stoi_range hn
      | tail _ hmem => exact ih hrest config hmem

/-- The ports of the configured replicas fit in an `int`. -/
theorem port_retrieveReplicaConfigs {lines : Option (List String)}
    {configs : List ReplicaConfig} (h : retrieveReplicaConfigsFromProperties lines = .ok configs) :
    ∀ config ∈ configs, -2 ^ 31 ≤ config.port ∧ config.port < 2 ^ 31 := by
  cases lines with
  | none =>
    cases h
    intro config hconfig
    cases hconfig
  | some lines =>
    simp only [retrieveReplicaConfigsFromProperties] at h
    split at h
    · exact pushConfigs_port h
    · cases h
      intro config hconfig
      cases hconfig

/-- A configured replica has its index as its id. -/
theorem replicaId_getElem? {lines : Option (List String)} {configs : List ReplicaConfig}
    (h : retrieveReplicaConfigsFromProperties lines = .ok configs) {i : ℕ}
    {config : ReplicaConfig} (hi : configs[i]? = some config) : config.replicaId = i := by
  have hid : (configs.map ReplicaConfig.replicaId)[i]? = some config.replicaId := by
    rw [List.getElem?_map, hi]
    rfl
  rw [replicaId_retrieveReplicaConfigs h, List.getElem?_range
    (List.getElem?_eq_some_iff.mp hi).1] at hid
  exact (Option.some.inj hid).symm

/-- No two configured replicas have the same id. -/
theorem nodup_replicaId {lines : Option (List String)} {configs : List ReplicaConfig}
    (h : retrieveReplicaConfigsFromProperties lines = .ok configs) :
    (configs.map ReplicaConfig.replicaId).Nodup := by
  rw [replicaId_retrieveReplicaConfigs h]
  exact List.nodup_range

/-- The configured replicas are those of the loop. -/
theorem pushConfigs_getElem? {i : ℕ} {ipAddresses ports : List String}
    {configs : List ReplicaConfig} (h : pushConfigs i ipAddresses ports = .ok configs) {k : ℕ}
    {ipAddress port : String} (hip : ipAddresses[k]? = some ipAddress)
    (hport : ports[k]? = some port) :
    ∃ n, stoi port = .ok n ∧ configs[k]? = some ⟨i + k, ipAddress, n⟩ := by
  induction ipAddresses generalizing i k ports configs with
  | nil => cases hip
  | cons ipAddress' ipAddresses ih =>
    cases ports with
    | nil => cases hport
    | cons port' ports =>
      obtain ⟨n, hn, h⟩ := exists_of_bind_eq_ok h
      obtain ⟨rest, hrest, h⟩ := exists_of_bind_eq_ok h
      cases h
      cases k with
      | zero =>
        cases hip
        cases hport
        exact ⟨n, hn, rfl⟩
      | succ k =>
        obtain ⟨m, hm, hk⟩ := ih hrest hip hport
        exact ⟨m, hm, by rw [List.getElem?_cons_succ, hk, Nat.add_assoc i 1 k, Nat.add_comm 1 k]⟩

/-- A valid configuration comes from a line of addresses and a last line of ports. -/
theorem exists_of_configs_ne_nil {file : Option (List String)} {configs : List ReplicaConfig}
    (h : retrieveReplicaConfigsFromProperties file = .ok configs) (hne : configs ≠ []) :
    ∃ ipLine lines portLine, file = some (ipLine :: lines) ∧ lines.getLast? = some portLine ∧
      pushConfigs 0 (splitString ipLine) (splitString portLine) = .ok configs := by
  cases file with
  | none =>
    cases h
    exact absurd rfl hne
  | some lines =>
    simp only [retrieveReplicaConfigsFromProperties] at h
    split at h
    · next hlen =>
      cases lines with
      | nil => exact absurd hlen.1 (lt_irrefl 0)
      | cons ipLine lines =>
        cases hlast : lines.getLast? with
        | none =>
          rw [List.tail_cons, hlast] at hlen
          exact absurd hlen.2.1 (lt_irrefl 0)
        | some portLine =>
          rw [List.tail_cons, hlast] at h
          exact ⟨ipLine, lines, portLine, rfl, hlast, h⟩
    · cases h
      exact absurd rfl hne

end RequestUtilities

end CrdtStore
