import CrdtStore.RequestUtilities

/-!
# Starting the programs

`main.cpp`: the arguments choose the program and the id of its node, and the properties files give
the address it listens at.

Servers read the same file for their own address as for the replicas they broadcast to, so a server
that starts is one of these replicas (`server_configured`). The ids of servers count up from 0 and
those of clients from 5, in two files that nothing compares, and a client whose file has no line
takes any id. `shared_id_iff` says when a server and a client can have the same one.
-/

namespace CrdtStore

open RequestUtilities (splitString stoi retrieveReplicaConfigsFromProperties pushConfigs)

/-- The programs that the first argument chooses from. -/
inductive Role where
  | client
  | server
  | loadBalancer
deriving DecidableEq, Repr

/-- The properties files, as lines, none for one that does not open. -/
structure Properties where
  server : Option (List String)
  client : Option (List String)
  loadBalancer : Option (List String)

/-- `address` and `port`, with their defaults. -/
structure Endpoint where
  address : String := "http://127.0.0.1:"
  port : String := "34568"
deriving DecidableEq, Repr

/-- The program, with the arguments of `on_initialize_server` and its siblings. -/
structure Startup where
  role : Role
  address : String
  nodeId : ℤ
deriving DecidableEq, Repr

namespace Startup

/-- `isServer` and `isLoadBalancer`, from an `int` that a `uint8_t` is initialized with. -/
def readRole (arg : String) : Except Thrown Role := do
  let n ← stoi arg
  let isServer := n % 2 ^ 8
  return if isServer = 2 then .loadBalancer else if isServer ≠ 0 then .server else .client

/-- The loop over the lines of a file, from line `lineNum` on. `read` is the text it takes from a
line. -/
def readLines (read : String → Option String) (e : Endpoint) (lineNum : ℕ) :
    List String → Option Endpoint
  | [] => some e
  | line :: lines => do
    let text ← read line
    let e := if lineNum = 0 then { e with address := "http://" ++ text ++ ":" }
      else { e with port := text }
    readLines read e (lineNum + 1) lines

/-- `splitString(line)[nodeIndex]`. -/
def entry (nodeIndex : ℤ) (line : String) : Option String :=
  -- as a `size_t`, a negative index is past the end of every vector
  if nodeIndex < 0 then none else (splitString line)[nodeIndex.toNat]?

/-- The program that starts at the address that a file gives. -/
def onInitialize (role : Role) (nodeId : ℤ) (read : String → Option String)
    (file : Option (List String)) : Option Startup :=
  -- the loop does nothing when the file does not open
  (readLines read {} 0 (file.getD [])).map fun e => ⟨role, e.address ++ e.port, nodeId⟩

/-- `main` up to `on_initialize_server` and its siblings, on the arguments after the program's name.
`none` where it reads past the end of `argv` or of a vector. -/
def main (properties : Properties) : List String → Except Thrown (Option Startup)
  | [] => .ok none
  | arg :: args => do
    let role ← readRole arg
    match role, args with
    | .server, [arg] =>
      let nodeId ← stoi arg
      return onInitialize .server nodeId (entry nodeId) properties.server
    | .client, [arg] =>
      let nodeId ← stoi arg
      return onInitialize .client nodeId (entry (nodeId - 5)) properties.client
    -- without an id, servers and clients start as node 0 at the load balancer's address
    | role, _ => return onInitialize role 0 some properties.loadBalancer

variable {properties : Properties} {s : Startup}

/-! ## What starts -/

/-- With an id, a server and a client read the entry of their node, and the load balancer the whole
lines of its own file. -/
theorem onInitialize_of_main {args : List String} (hid : args.length = 2)
    (h : main properties args = .ok (some s)) :
    (∃ nodeId, onInitialize .server nodeId (entry nodeId) properties.server = some s) ∨
    (∃ nodeId, onInitialize .client nodeId (entry (nodeId - 5)) properties.client = some s) ∨
    onInitialize .loadBalancer 0 some properties.loadBalancer = some s := by
  obtain ⟨arg, id, rfl⟩ := List.length_eq_two.mp hid
  obtain ⟨role, -, h⟩ := exists_of_bind_eq_ok h
  cases role with
  | server =>
    obtain ⟨nodeId, -, h⟩ := exists_of_bind_eq_ok h
    exact Or.inl ⟨nodeId, Except.ok.inj h⟩
  | client =>
    obtain ⟨nodeId, -, h⟩ := exists_of_bind_eq_ok h
    exact Or.inr (Or.inl ⟨nodeId, Except.ok.inj h⟩)
  | loadBalancer => exact Or.inr (Or.inr (Except.ok.inj h))

theorem onInitialize_eq_some {role : Role} {nodeId : ℤ} {read : String → Option String}
    {file : Option (List String)} (h : onInitialize role nodeId read file = some s) :
    s.role = role ∧ s.nodeId = nodeId ∧
      ∃ e, readLines read {} 0 (file.getD []) = some e ∧ s.address = e.address ++ e.port := by
  obtain ⟨e, he, rfl⟩ := Option.map_eq_some_iff.mp h
  exact ⟨rfl, rfl, e, he, rfl⟩

/-- A server started with an id reads its entries at this id. -/
theorem server_of_main {args : List String} (hid : args.length = 2)
    (h : main properties args = .ok (some s)) (hrole : s.role = .server) :
    onInitialize .server s.nodeId (entry s.nodeId) properties.server = some s := by
  rcases onInitialize_of_main hid h with ⟨nodeId, h⟩ | ⟨nodeId, h⟩ | h
  · obtain ⟨-, hnodeId, -⟩ := onInitialize_eq_some h
    rw [hnodeId]
    exact h
  · exact absurd (hrole.symm.trans (onInitialize_eq_some h).1) nofun
  · exact absurd (hrole.symm.trans (onInitialize_eq_some h).1) nofun

/-- A client started with an id reads its entries at 5 less. -/
theorem client_of_main {args : List String} (hid : args.length = 2)
    (h : main properties args = .ok (some s)) (hrole : s.role = .client) :
    onInitialize .client s.nodeId (entry (s.nodeId - 5)) properties.client = some s := by
  rcases onInitialize_of_main hid h with ⟨nodeId, h⟩ | ⟨nodeId, h⟩ | h
  · exact absurd (hrole.symm.trans (onInitialize_eq_some h).1) nofun
  · obtain ⟨-, hnodeId, -⟩ := onInitialize_eq_some h
    rw [hnodeId]
    exact h
  · exact absurd (hrole.symm.trans (onInitialize_eq_some h).1) nofun

theorem main_server {arg : String} {nodeId : ℤ} (h : stoi arg = .ok nodeId) :
    main properties ["1", arg] =
      .ok (onInitialize .server nodeId (entry nodeId) properties.server) := by
  have hrole : readRole "1" = .ok .server := rfl
  rw [main, hrole]
  show (stoi arg >>= _) = _
  rw [h]
  rfl

theorem main_client {arg : String} {nodeId : ℤ} (h : stoi arg = .ok nodeId) :
    main properties ["0", arg] =
      .ok (onInitialize .client nodeId (entry (nodeId - 5)) properties.client) := by
  have hrole : readRole "0" = .ok .client := rfl
  rw [main, hrole]
  show (stoi arg >>= _) = _
  rw [h]
  rfl

theorem isSome_entry_iff {nodeIndex : ℤ} {line : String} :
    (entry nodeIndex line).isSome ↔ 0 ≤ nodeIndex ∧ nodeIndex < (splitString line).length := by
  rw [entry]
  split
  · next hneg =>
    refine iff_of_false Bool.false_ne_true fun h => ?_
    omega
  · next hnonneg =>
    rw [Option.isSome_iff_ne_none, ne_eq, List.getElem?_eq_none_iff]
    omega

theorem getElem?_of_entry {nodeIndex : ℤ} {line text : String}
    (h : entry nodeIndex line = some text) :
    0 ≤ nodeIndex ∧ (splitString line)[nodeIndex.toNat]? = some text := by
  rw [entry] at h
  split at h
  · cases h
  · next hnonneg => exact ⟨not_lt.mp hnonneg, h⟩

/-- The loop ends unless an entry is missing. -/
theorem isSome_readLines_iff {read : String → Option String} {lines : List String} {e : Endpoint}
    {lineNum : ℕ} : (readLines read e lineNum lines).isSome ↔
      ∀ line ∈ lines, (read line).isSome := by
  induction lines generalizing e lineNum with
  | nil => exact iff_of_true rfl nofun
  | cons line lines ih =>
    rw [readLines, List.forall_mem_cons]
    cases hread : read line with
    | none => exact iff_of_false Bool.false_ne_true fun h => Bool.false_ne_true h.1
    | some text => exact ih.trans (and_iff_right rfl).symm

/-- Lines after the first leave the address as it is, and the last of them gives the port. -/
theorem readLines_rest {read : String → Option String} {lines : List String} {e e' : Endpoint}
    {lineNum : ℕ} (h : readLines read e (lineNum + 1) lines = some e') :
    e'.address = e.address ∧ ∀ line, lines.getLast? = some line → read line = some e'.port := by
  induction lines generalizing e lineNum with
  | nil =>
    cases h
    exact ⟨rfl, nofun⟩
  | cons line lines ih =>
    obtain ⟨text, hread, h⟩ := Option.bind_eq_some_iff.mp h
    obtain ⟨haddress, hport⟩ := ih h
    refine ⟨haddress, fun last hlast => ?_⟩
    cases lines with
    | nil =>
      cases h
      cases hlast
      exact hread
    | cons line' lines => exact hport last (List.getLast?_cons_cons.symm.trans hlast)

/-! ## The address of a server -/

/-- A server that starts from a valid configuration is one of its replicas. -/
theorem exists_config {configs : List ReplicaConfig}
    (h : retrieveReplicaConfigsFromProperties properties.server = .ok configs) (hne : configs ≠ [])
    {nodeId : ℤ} (hs : onInitialize .server nodeId (entry nodeId) properties.server = some s) :
    ∃ config ∈ configs, s.nodeId = config.replicaId ∧
      ∃ port, stoi port = .ok config.port ∧
        s.address = "http://" ++ config.ipAddress ++ ":" ++ port := by
  obtain ⟨ipLine, rest, portLine, hfile, hlast, hpush⟩ :=
    RequestUtilities.exists_of_configs_ne_nil h hne
  obtain ⟨-, hnodeId, e, he, haddress⟩ := onInitialize_eq_some hs
  rw [hfile] at he
  obtain ⟨ipAddress, hip, he⟩ := Option.bind_eq_some_iff.mp he
  obtain ⟨headdress, heport⟩ := readLines_rest he
  have hport := heport portLine hlast
  obtain ⟨hnonneg, hip⟩ := getElem?_of_entry hip
  obtain ⟨-, hport⟩ := getElem?_of_entry hport
  obtain ⟨port, hstoi, hconfig⟩ := RequestUtilities.pushConfigs_getElem? hpush hip hport
  refine ⟨_, List.mem_of_getElem? hconfig, ?_, e.port, hstoi, ?_⟩
  · rw [hnodeId, Nat.zero_add, Int.toNat_of_nonneg hnonneg]
  · rw [haddress, headdress]
    rfl

/-- **A server is the replica it is configured as**: the id and the address that it starts with are
those of one entry of the list it broadcasts to. -/
theorem server_configured {configs : List ReplicaConfig}
    (h : retrieveReplicaConfigsFromProperties properties.server = .ok configs) (hne : configs ≠ [])
    {args : List String} (hid : args.length = 2) (hs : main properties args = .ok (some s))
    (hrole : s.role = .server) :
    ∃ config ∈ configs, s.nodeId = config.replicaId ∧
      ∃ port, stoi port = .ok config.port ∧
        s.address = "http://" ++ config.ipAddress ++ ":" ++ port :=
  exists_config h hne (server_of_main hid hs hrole)

/-- The five servers of the repository. -/
def fiveServers : Properties where
  server := some ["127.0.0.1 127.0.0.1 127.0.0.1 127.0.0.1 127.0.0.1", "8080 8081 8082 8083 8084"]
  client := some ["127.0.0.1 127.0.0.1 127.0.0.1 127.0.0.1", "29900 29901 29902 29903"]
  loadBalancer := some ["127.0.0.1", "30000"]

theorem server_configured_fiveServers :
    ∃ config ∈ [⟨0, "127.0.0.1", 8080⟩, ⟨1, "127.0.0.1", 8081⟩, ⟨2, "127.0.0.1", 8082⟩,
        ⟨3, "127.0.0.1", 8083⟩, (⟨4, "127.0.0.1", 8084⟩ : ReplicaConfig)],
      (3 : ℤ) = config.replicaId ∧
        ∃ port, stoi port = .ok config.port ∧
          "http://127.0.0.1:8083" = "http://" ++ config.ipAddress ++ ":" ++ port :=
  @server_configured fiveServers ⟨.server, "http://127.0.0.1:8083", 3⟩ _ rfl (List.cons_ne_nil _ _)
    ["1", "3"] rfl (by decide) rfl

/-! ## Ids of servers and clients -/

/-- A node starts when every line of its file has its entry. -/
theorem isSome_onInitialize_iff {role : Role} {nodeId nodeIndex : ℤ} {file : Option (List String)} :
    (onInitialize role nodeId (entry nodeIndex) file).isSome ↔
      ∀ line ∈ file.getD [], 0 ≤ nodeIndex ∧ nodeIndex < (splitString line).length := by
  rw [onInitialize, Option.isSome_map, isSome_readLines_iff]
  simp only [isSome_entry_iff]

/-- The first id that a client can have: its index is 5 less, unless its file has no line. -/
def firstClientId (properties : Properties) : ℤ := if properties.client.getD [] = [] then 0 else 5

/-- A client that reads a line has an id of at least 5. -/
theorem firstClientId_le {nodeId : ℤ} (hid : 0 ≤ nodeId)
    (h : (onInitialize .client nodeId (entry (nodeId - 5)) properties.client).isSome) :
    firstClientId properties ≤ nodeId := by
  rw [firstClientId]
  split
  · exact hid
  · next hne =>
    obtain ⟨line, hmem⟩ := List.exists_mem_of_ne_nil _ hne
    have := (isSome_onInitialize_iff.mp h line hmem).1
    omega

/-- Under that id it starts as soon as no line is empty. -/
theorem isSome_onInitialize_firstClientId
    (h : ∀ line ∈ properties.client.getD [], 0 < (splitString line).length) :
    (onInitialize .client (firstClientId properties) (entry (firstClientId properties - 5))
      properties.client).isSome := by
  rw [isSome_onInitialize_iff, firstClientId]
  intro line hmem
  have hline := h line hmem
  rw [if_neg (List.ne_nil_of_mem hmem)]
  omega

/-- **Exactly when a server and a client can share an id**: when a server can start under the first
id that a client can have, and no line of the clients' file is empty. -/
theorem shared_id_iff (properties : Properties) :
    (∃ sargs cargs s c, sargs.length = 2 ∧ cargs.length = 2 ∧
      main properties sargs = .ok (some s) ∧ main properties cargs = .ok (some c) ∧
      s.role = .server ∧ c.role = .client ∧ s.nodeId = c.nodeId) ↔
    (∀ line ∈ properties.server.getD [], firstClientId properties < (splitString line).length) ∧
      ∀ line ∈ properties.client.getD [], 0 < (splitString line).length := by
  constructor
  · rintro ⟨sargs, cargs, s, c, hsid, hcid, hs, hc, hsrole, hcrole, hsame⟩
    have hs := isSome_onInitialize_iff.mp
      (Option.isSome_of_eq_some (server_of_main hsid hs hsrole))
    have hc := Option.isSome_of_eq_some (client_of_main hcid hc hcrole)
    refine ⟨fun line hline => ?_, fun line hline => ?_⟩
    · obtain ⟨hnonneg, hlt⟩ := hs line hline
      exact (firstClientId_le (hsame ▸ hnonneg) hc).trans_lt (hsame ▸ hlt)
    · have := isSome_onInitialize_iff.mp hc line hline
      omega
  · rintro ⟨hs, hc⟩
    have hnonneg : 0 ≤ firstClientId properties := by
      rw [firstClientId]
      split <;> decide
    have hs : (onInitialize .server (firstClientId properties) (entry (firstClientId properties))
        properties.server).isSome :=
      isSome_onInitialize_iff.mpr fun line hline => ⟨hnonneg, hs line hline⟩
    obtain ⟨s, hs⟩ := Option.isSome_iff_exists.mp hs
    obtain ⟨c, hc⟩ := Option.isSome_iff_exists.mp (isSome_onInitialize_firstClientId hc)
    obtain ⟨hsrole, hsid, -⟩ := onInitialize_eq_some hs
    obtain ⟨hcrole, hcid, -⟩ := onInitialize_eq_some hc
    obtain ⟨arg, hstoi⟩ : ∃ arg, stoi arg = .ok (firstClientId properties) := by
      rw [firstClientId]
      split
      · exact ⟨"0", rfl⟩
      · exact ⟨"5", rfl⟩
    refine ⟨["1", arg], ["0", arg], s, c, rfl, rfl, ?_, ?_, hsrole, hcrole, hsid.trans hcid.symm⟩
    · rw [main_server hstoi, hs]
    · rw [main_client hstoi, hc]

/-- Six servers and four clients. -/
theorem shared_id_six : ∃ sargs cargs s c, sargs.length = 2 ∧ cargs.length = 2 ∧
    main ⟨some ["a b c d e f", "1 2 3 4 5 6"], some ["w x y z", "1 2 3 4"], none⟩ sargs =
      .ok (some s) ∧
    main ⟨some ["a b c d e f", "1 2 3 4 5 6"], some ["w x y z", "1 2 3 4"], none⟩ cargs =
      .ok (some c) ∧
    s.role = .server ∧ c.role = .client ∧ s.nodeId = c.nodeId :=
  (shared_id_iff _).mpr (by decide)

/-- Without an id there is always a clash: both start as node 0, at one address. -/
theorem shared_id_without_id (properties : Properties) : ∃ s c,
    main properties ["1"] = .ok (some s) ∧ main properties ["0"] = .ok (some c) ∧
      s.role = .server ∧ c.role = .client ∧ s.nodeId = c.nodeId ∧ s.address = c.address := by
  have hread : (readLines some {} 0 (properties.loadBalancer.getD [])).isSome :=
    isSome_readLines_iff.mpr fun _ _ => rfl
  obtain ⟨e, he⟩ := Option.isSome_iff_exists.mp hread
  have hstart : ∀ role, onInitialize role 0 some properties.loadBalancer =
      some ⟨role, e.address ++ e.port, 0⟩ := fun role => by rw [onInitialize, he, Option.map_some]
  exact ⟨_, _, congrArg Except.ok (hstart .server), congrArg Except.ok (hstart .client), rfl, rfl,
    rfl, rfl⟩

end Startup

end CrdtStore
