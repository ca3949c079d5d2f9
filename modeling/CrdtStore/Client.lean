import CrdtStore.Broadcast
import CrdtStore.Codec
import CrdtStore.LoadBalancer

/-!
# Clients

`src/client.cpp`. A client asks the load balancer for a replica until one answers a GET, posts its
map there and merges the map it gets back; whatever is thrown on the way ends the sync.

The answers of the network are parameters: what the load balancer gives to each attempt, and what a
replica at an address gives to a GET and to a POST.
-/

namespace CrdtStore

/-- What a request gives: the call throws, or a response whose body is none when it is not JSON. -/
inductive HttpResult where
  | exception
  | response (statusCode : ℕ) (body : Option Json)

/-- `m`, `clientId` and `myReplicaConfig`. -/
structure Client where
  m : Map String String
  clientId : ℤ
  myReplicaConfig : ReplicaConfig

namespace Client

/-- The client after a member function, and whether it threw. -/
structure After where
  client : Client
  threw : Bool

/-- `Client::get_state`; the `NULL` it returns on every failure is the number 0. -/
def getState : HttpResult → Json
  | .response statusCode (some json) => if statusCode = statusOk then json else .number 0
  | _ => .number 0

def withReplicaId (c : Client) (replicaId : ℤ) : Client :=
  { c with myReplicaConfig := { c.myReplicaConfig with replicaId := toUInt64 replicaId } }

def withIpAddress (c : Client) (ipAddress : String) : Client :=
  { c with myReplicaConfig := { c.myReplicaConfig with ipAddress := ipAddress } }

def withPort (c : Client) (port : ℤ) : Client :=
  { c with myReplicaConfig := { c.myReplicaConfig with port := port } }

/-- The assignments of `initialize_my_replica`. -/
def readReplica (c : Client) (json : Json) : After :=
  match json.atField "replicaId" >>= Json.asInteger with
  | .error _ => ⟨c, true⟩
  | .ok replicaId =>
    -- a field that throws leaves the members assigned before it
    match json.atField "ipAddress" >>= Json.asString with
    | .error _ => ⟨c.withReplicaId replicaId, true⟩
    | .ok ipAddress =>
      match json.atField "port" >>= Json.asInteger with
      | .error _ => ⟨(c.withReplicaId replicaId).withIpAddress ipAddress, true⟩
      | .ok port => ⟨((c.withReplicaId replicaId).withIpAddress ipAddress).withPort port, false⟩

/-- `Client::initialize_my_replica`, on the answer of the load balancer. -/
def initializeMyReplica (c : Client) : HttpResult → After
  | .exception => ⟨c, true⟩
  | .response statusCode body =>
    -- on another status the old configuration stays
    if statusCode ≠ statusOk then ⟨c, false⟩
    else
      match body with
      | none => ⟨c, true⟩
      | some json => c.readReplica json

/-- One turn of the wait loop: the answer of the load balancer, and what the replica at an address
and port answers to a GET. -/
structure Attempt where
  loadBalancer : HttpResult
  replica : String → ℤ → HttpResult

/-- `res != NULL` for the state of the replica at an address. -/
def Answers (replica : String → ℤ → HttpResult) (ipAddress : String) (port : ℤ) : Bool :=
  !(getState (replica ipAddress port)).valueEq (.number 0)

/-- `Client::can_connect_to_replica`. -/
def canConnectToReplica (c : Client) (attempt : Attempt) : After × Bool :=
  let after := c.initializeMyReplica attempt.loadBalancer
  let config := after.client.myReplicaConfig
  (after, !after.threw && Answers attempt.replica config.ipAddress config.port)

/-- `while (!can_connect_to_replica())`, none when it is still waiting after these attempts. -/
def connect (c : Client) : List Attempt → Option After
  | [] => none
  | attempt :: attempts =>
    let (after, connected) := c.canConnectToReplica attempt
    if after.threw || connected then some after else after.client.connect attempts

/-- The map after the response to the POST; an exception of the decoder is swallowed. -/
def mergeResponse (m : Map String String) : HttpResult → Map String String
  | .response statusCode (some json) =>
    if statusCode = statusOk then
      match Map.ofJson json with
      | .ok updatedMap => m.merge updatedMap
      | .error _ => m
    else m
  | _ => m

/-- `Client::sync`, on the attempts of its loop and the response a POST gets. -/
def sync (c : Client) (attempts : List Attempt) (post : String → ℤ → Json → HttpResult) :
    Option Client :=
  (c.connect attempts).map fun after =>
    let c := after.client
    if after.threw then c
    else
      let config := c.myReplicaConfig
      { c with m := mergeResponse c.m (post config.ipAddress config.port c.m.toJson) }

/-! ## What a sync can change -/

section Frame

variable {c : Client}

theorem m_readReplica (json : Json) : (c.readReplica json).client.m = c.m := by
  rw [readReplica]
  split
  · rfl
  split
  · rfl
  split <;> rfl

theorem m_initializeMyReplica (result : HttpResult) :
    (c.initializeMyReplica result).client.m = c.m := by
  cases result with
  | exception => rfl
  | response statusCode body =>
    by_cases hok : statusCode = statusOk
    · cases body with
      | none => simp [initializeMyReplica, hok]
      | some json => simp [initializeMyReplica, hok, m_readReplica]
    · simp [initializeMyReplica, hok]

theorem connect_cons (attempt : Attempt) (attempts : List Attempt) :
    c.connect (attempt :: attempts) =
      if ((c.canConnectToReplica attempt).1.threw || (c.canConnectToReplica attempt).2) = true
      then some (c.canConnectToReplica attempt).1
      else (c.canConnectToReplica attempt).1.client.connect attempts := rfl

theorem m_connect {attempts : List Attempt} {after : After}
    (h : c.connect attempts = some after) : after.client.m = c.m := by
  induction attempts generalizing c with
  | nil => cases h
  | cons attempt attempts ih =>
    have hm := m_initializeMyReplica (c := c) attempt.loadBalancer
    rw [connect_cons] at h
    split at h
    · cases h
      exact hm
    · rw [ih h]
      exact hm

end Frame

/-! ## The reply of the load balancer -/

theorem initializeMyReplica_ok (c : Client) (json : Json) :
    c.initializeMyReplica (.response statusOk (some json)) = c.readReplica json := by
  simp [initializeMyReplica]

/-- `resJson` of `LoadBalancer::get_replica_information`. -/
def replyJson (info : ReplicaInformation) : Json :=
  .object [⟨"port", .ofInt info.port⟩, ⟨"ipAddress", .string info.ipAddress⟩,
    ⟨"replicaId", .ofInt info.replicaId⟩]

theorem readReplica_replyJson (c : Client) {info : ReplicaInformation}
    (hid : -2 ^ 31 ≤ info.replicaId ∧ info.replicaId < 2 ^ 31)
    (hport : -2 ^ 31 ≤ info.port ∧ info.port < 2 ^ 31) :
    c.readReplica (replyJson info) =
      ⟨{ c with myReplicaConfig := ⟨toUInt64 info.replicaId, info.ipAddress, info.port⟩ }, false⟩ :=
    by
  have hreplicaId : (replyJson info).atField "replicaId" = .ok (.ofInt info.replicaId) := rfl
  have hipAddress : (replyJson info).atField "ipAddress" = .ok (.string info.ipAddress) := rfl
  have hportField : (replyJson info).atField "port" = .ok (.ofInt info.port) := rfl
  have hidInt : (do Json.asInteger (← (replyJson info).atField "replicaId")) =
      .ok info.replicaId := by
    rw [hreplicaId]
    exact Json.asInteger_ofInt hid.1 hid.2
  have hportInt : (do Json.asInteger (← (replyJson info).atField "port")) = .ok info.port := by
    rw [hportField]
    exact Json.asInteger_ofInt hport.1 hport.2
  have hip : (do Json.asString (← (replyJson info).atField "ipAddress")) = .ok info.ipAddress := by
    rw [hipAddress]
    rfl
  rw [readReplica, hidInt, hip, hportInt]
  rfl

end Client

end CrdtStore
