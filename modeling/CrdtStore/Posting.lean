import CrdtStore.Ledger
import CrdtStore.Network
import CrdtStore.RequestUtilities

/-!
# The run of one post

A server of a cluster handles a post from a client: it merges the posted map, and sends the merged
map to every configured replica in `broadcast_and_wait_async`. The tasks of the broadcast, the
peers that handle their requests, and whatever else the servers merge meanwhile take turns in any
order. At the end the server prints its map and replies.

The list of configured replicas contains the server itself, so that the server's answer to its own
request is counted. `acknowledged_iff` says when an OK still means that two others have merged a map
that includes the update.
-/

namespace CrdtStore

open Relation (ReflTransGen)

/-- What becomes of the request to a peer: it does not reach the peer while its task runs, the
response is lost, or the response arrives. -/
inductive Delivery where
  | unreachable
  | responseLost
  | answered
deriving DecidableEq, Repr

namespace Handler

variable {E : Escaping} {p : ℕ} {merged : List ReadMap} {jsonValue requestBody : Json}
  {m m' : Map String String}

/-- The maps that a server has merged once it has handled a body as well. -/
def merging (merged : List ReadMap) (jsonValue : Json) : List ReadMap :=
  match h : decoded jsonValue with
  | .ok updatedMap => merged ++ [⟨updatedMap, jsonValue, decoded_eq jsonValue ▸ h⟩]
  | .error _ => merged

theorem merging_of_ok (h : decoded jsonValue = .ok m) :
    merging merged jsonValue = merged ++ [⟨m, jsonValue, decoded_eq jsonValue ▸ h⟩] := by
  rw [merging]
  split
  · next updatedMap h' =>
    obtain rfl : m = updatedMap := Except.ok.inj (h.symm.trans h')
    rfl
  · next e h' =>
    rw [h] at h'
    cases h'

theorem prefix_merging (merged : List ReadMap) (jsonValue : Json) :
    merged <+: merging merged jsonValue := by
  rw [merging]
  split
  · exact List.prefix_append _ _
  · exact List.prefix_refl _

/-- How the request to a peer ends for its sender, if its response arrives: with the status of the
first reply. -/
def peerAnswer (E : Escaping) (m : Map String String) (requestBody : Json) : PeerOutcome :=
  -- a post from a replica is not broadcast again
  match (handlePost E (fun m => ⟨false, m⟩) m requestBody).replies with
  | reply :: _ => .response reply.statusCode
  -- `handle_post` ended before it replied
  | [] => .otherException

/-- The body that is broadcast is merged by every peer: the list of its merged maps says what map
`handle_post` leaves it. -/
theorem map_handlePost (E : Escaping) (broadcast : Map String String → BroadcastEnd)
    (hfield : requestBody.hasField "from_replica" = true) :
    (handlePost E broadcast (Map.ofMerged p merged) requestBody).map =
      Map.ofMerged p (merging merged requestBody) := by
  cases hread : decoded requestBody with
  | ok updatedMap =>
    have hsynced := received_of_marked hfield (decoded_eq _ ▸ hread) (Map.ofMerged p merged)
    rw [(handlePost_of_synced hsynced).1, merging_of_ok hread, Map.ofMerged_append]
  | error e =>
    have hkept : merging merged requestBody = merged := by
      rw [merging]
      split
      · next updatedMap h' =>
        rw [hread] at h'
        cases h'
      · rfl
    rw [(handlePost_of_error hread).1, hkept]

/-- A server broadcasts the map that it has merged the body into, and its peers read it as it is,
in whatever order. -/
theorem exists_requestBody (hp : p < 2 ^ 31)
    (h : received (Map.ofMerged p merged) jsonValue = .ok (.broadcast m requestBody)) :
    ∃ u, decoded jsonValue = .ok u ∧ m = (Map.ofMerged p merged).merge u ∧
      m = Map.ofMerged p (merging merged jsonValue) ∧
      requestBody.hasField "from_replica" = true ∧
      ∃ r, decoded requestBody = .ok r ∧ m.Equal r := by
  cases hread : decoded jsonValue with
  | error e =>
    rw [received_of_error hread] at h
    cases h
  | ok u =>
    have hfield := hasField_requestBody h
    rcases received_of_ok (decoded_eq _ ▸ hread) (Map.ofMerged p merged) with ⟨-, heq⟩ |
      ⟨-, reqJson, hset, heq⟩
    · rw [heq] at h
      cases h
    · rw [heq] at h
      cases h
      have hmerged : (Map.ofMerged p merged).merge u =
          Map.ofMerged p (merging merged jsonValue) := by
        rw [merging_of_ok hread, Map.ofMerged_append]
      have hrange : (Map.ofMerged p (merging merged jsonValue)).InRange := Map.inRange_ofMerged hp
      have hencodable : (Map.ofMerged p (merging merged jsonValue)).keys.Encodable :=
        Map.encodable_ofMerged (by omega)
      rw [← hmerged] at hrange hencodable
      obtain ⟨r, hr, hequal⟩ := Map.ofJson_toJson hencodable
      refine ⟨u, rfl, rfl, hmerged, hfield, r, ?_, ?_⟩
      · rw [decoded_eq, Map.ofJson_setField hset]
        exact hr
      · exact hrange.equal_truncated.symm.trans hequal.symm

end Handler

open Handler

/-- A post from a client to a server of a cluster: the properties file, the replicas that it lists,
the server that handles the post, the body, and what becomes of the request to each replica. -/
structure Post where
  lines : Option (List String)
  configs : List ReplicaConfig
  configured : RequestUtilities.retrieveReplicaConfigsFromProperties lines = .ok configs
  /-- The id of the server, an `int32_t`. -/
  self : ℕ
  self_lt : self < 2 ^ 31
  self_mem : self ∈ configs.map ReplicaConfig.replicaId
  jsonValue : Json
  delivery : ℕ → Delivery

/-- The maps that each server has merged since it started, how each request that was handled by its
peer ends if the response arrives, and the broadcast. -/
structure Posting where
  merged : ℕ → List ReadMap
  answers : ℕ → Option PeerOutcome
  broadcast : Broadcast

namespace Post

/-- How the request to replica `p` ends. -/
def outcome (P : Post) (s : Posting) (p : ℕ) : PeerOutcome :=
  match P.delivery p with
  | .answered => (s.answers p).getD .otherException
  -- `http_exception` is no `json_exception`: it ends the task and stays in its future
  | .unreachable => .otherException
  | .responseLost => .otherException

/-- How the requests end, in the order of the list. -/
def outcomes (P : Post) (s : Posting) : List PeerOutcome :=
  P.configs.map fun config => P.outcome s config.replicaId

/-- The server has merged the posted map, and starts the broadcast. -/
def start (P : Post) (merged : ℕ → List ReadMap) : Posting where
  merged := Function.update merged P.self (merging (merged P.self) P.jsonValue)
  answers _ := none
  broadcast := .start

/-- The configured replicas. -/
def replicaIds (P : Post) : Finset ℕ := (P.configs.map ReplicaConfig.replicaId).toFinset

/-- One step while the post is handled. -/
inductive Step (E : Escaping) (P : Post) (requestBody : Json) : Posting → Posting → Prop
  /-- A peer handles its request. -/
  | handle {s : Posting} {p : ℕ} (hp : p ∈ P.replicaIds) (hreached : P.delivery p ≠ .unreachable)
      (hnew : s.answers p = none) :
      Step E P requestBody s
        { s with
          merged := Function.update s.merged p (merging (s.merged p) requestBody)
          answers := Function.update s.answers p
            (some (peerAnswer E (Map.ofMerged p (s.merged p)) requestBody)) }
  /-- A step of `broadcast_and_wait_async`; a request that reaches its peer ends after the peer has
  handled it. -/
  | broadcast {s : Posting} {b : Broadcast}
      (hstep : Broadcast.Step (P.outcomes s) expectedResponses s.broadcast b)
      (hhandled : ∀ p ∈ b.ready, P.delivery p ≠ .unreachable → s.answers p ≠ none) :
      Step E P requestBody s { s with broadcast := b }
  /-- A server merges something else. -/
  | other {s : Posting} (p : ℕ) (r : ReadMap) :
      Step E P requestBody s { s with merged := Function.update s.merged p (s.merged p ++ [r]) }

/-- The post is handled by servers that have merged `merged` before, and `s` is reached. -/
def Reaches (E : Escaping) (P : Post) (merged : ℕ → List ReadMap) (s : Posting) : Prop :=
  ∃ m requestBody,
    received (Map.ofMerged P.self (merged P.self)) P.jsonValue = .ok (.broadcast m requestBody) ∧
      ReflTransGen (P.Step E requestBody) (P.start merged) s

/-- The status of the first reply to the post when the broadcast has returned `result` in `s`. -/
def status (E : Escaping) (P : Post) (merged : ℕ → List ReadMap) (s : Posting) (result : Bool) :
    Option ℕ :=
  (handlePost E (fun _ => ⟨result, Map.ofMerged P.self (s.merged P.self)⟩)
    (Map.ofMerged P.self (merged P.self)) P.jsonValue).replies.head?.map Reply.statusCode

/-- The post is answered OK when `s` is reached. -/
def AnsweredOk (E : Escaping) (P : Post) (merged : ℕ → List ReadMap) (s : Posting) : Prop :=
  P.Reaches E merged s ∧ ∃ result, s.broadcast.point = .returned result ∧
    P.status E merged s result = some statusOk

/-- One of the maps that a server has merged includes the posted one. -/
def Holds (P : Post) (merged : List ReadMap) : Prop :=
  ∃ u, decoded P.jsonValue = .ok u ∧ ∃ r ∈ merged, r.map.Includes u

variable {E : Escaping} {P : Post} {requestBody : Json} {m u : Map String String}
  {merged : ℕ → List ReadMap} {s s' : Posting} {p : ℕ}

theorem mem_replicaIds : p ∈ P.replicaIds ↔ p < P.configs.length := by
  rw [replicaIds, RequestUtilities.replicaId_retrieveReplicaConfigs P.configured,
    List.mem_toFinset, List.mem_range]

theorem length_outcomes : (P.outcomes s).length = P.configs.length := List.length_map ..

/-- The `p`-th request goes to replica `p`. -/
theorem getElem?_outcomes (hp : p < P.configs.length) :
    (P.outcomes s)[p]? = some (P.outcome s p) := by
  have hconfig : P.configs[p]? = some P.configs[p] := List.getElem?_eq_getElem hp
  rw [outcomes, List.getElem?_map, hconfig, Option.map_some,
    RequestUtilities.replicaId_getElem? P.configured hconfig]

/-- The response of replica `p` arrives, and is OK. -/
def RespondsOk (P : Post) (s : Posting) (p : ℕ) : Prop :=
  P.delivery p = .answered ∧ s.answers p = some (.response statusOk)

/-- The configured replicas whose responses arrive and are OK. -/
def respondingOk (P : Post) (s : Posting) : Finset ℕ :=
  P.replicaIds.filter fun p => P.delivery p = .answered ∧ s.answers p = some (.response statusOk)

theorem mem_respondingOk : p ∈ P.respondingOk s ↔ p ∈ P.replicaIds ∧ P.RespondsOk s p :=
  Finset.mem_filter

theorem isOk_outcome : (P.outcome s p).isOk = true ↔ P.RespondsOk s p := by
  rw [outcome, RespondsOk]
  cases P.delivery p with
  | unreachable => simp [PeerOutcome.isOk]
  | responseLost => simp [PeerOutcome.isOk]
  | answered =>
    cases s.answers p with
    | none => simp [PeerOutcome.isOk]
    | some answer => cases answer <;> simp [PeerOutcome.isOk]

theorem mem_answeredOk {ks : Finset ℕ} : p ∈ Broadcast.answeredOk (P.outcomes s) ks ↔
    p ∈ ks ∧ p ∈ P.replicaIds ∧ P.RespondsOk s p := by
  rw [Broadcast.answeredOk, Finset.mem_filter, mem_replicaIds]
  refine and_congr_right fun _ => ?_
  by_cases hp : p < P.configs.length
  · rw [getElem?_outcomes hp, ← isOk_outcome]
    simp [hp]
  · have hnone : (P.outcomes s)[p]? = none :=
      List.getElem?_eq_none (by rw [length_outcomes]; omega)
    rw [hnone]
    simp [hp]

/-! ## What holds at every moment -/

/-- No step takes a merged map away from a server. -/
theorem Step.prefix_merged (h : P.Step E requestBody s s') (p : ℕ) :
    s.merged p <+: s'.merged p := by
  cases h with
  | @handle q hq hreached hnew =>
    show _ <+: Function.update s.merged q _ p
    by_cases hp : p = q
    · rw [hp, Function.update_self]
      exact prefix_merging ..
    · rw [Function.update_of_ne hp]
  | broadcast hstep hhandled => exact List.prefix_refl _
  | other q r =>
    show _ <+: Function.update s.merged q _ p
    by_cases hp : p = q
    · rw [hp, Function.update_self]
      exact List.prefix_append _ _
    · rw [Function.update_of_ne hp]

theorem Holds.mono {maps maps' : List ReadMap} (h : P.Holds maps) (hkept : maps <+: maps') :
    P.Holds maps' := by
  obtain ⟨u, hread, r, hr, hincludes⟩ := h
  exact ⟨u, hread, r, hkept.subset hr, hincludes⟩

/-- A server that holds the update has had a map that includes one that includes it. -/
theorem Holds.exists_includes {maps : List ReadMap} (h : P.Holds maps) (p : ℕ) :
    ∃ u, decoded P.jsonValue = .ok u ∧ ∃ before r, before ++ [r] <+: maps ∧ r.map.Includes u ∧
      (Map.ofMerged p (before ++ [r])).Includes r.map := by
  obtain ⟨u, hread, r, hr, hincludes⟩ := h
  obtain ⟨before, after, rfl⟩ := List.append_of_mem hr
  have hbefore : before ++ [r] <+: before ++ r :: after :=
    ⟨after, by rw [List.append_assoc, List.singleton_append]⟩
  refine ⟨u, hread, before, r, hbefore, hincludes, ?_⟩
  rw [Map.ofMerged_append]
  exact Map.includes_merge ..

/-- Where the broadcast stands, and what the servers have merged. -/
structure Spread (P : Post) (s : Posting) : Prop where
  counting : Broadcast.Counting (P.outcomes s) expectedResponses s.broadcast
  decided : Broadcast.Decided expectedResponses (P.outcomes s).length s.broadcast
  handledFirst : ∀ p ∈ s.broadcast.ready, P.delivery p ≠ .unreachable → s.answers p ≠ none
  held : ∀ p, s.answers p ≠ none → P.Holds (s.merged p)
  self : P.Holds (s.merged P.self)

/-- The tasks that have ended do not change their outcome. -/
theorem getElem?_outcomes_of_ne (hne : s.answers p = s'.answers p) :
    (P.outcomes s)[p]? = (P.outcomes s')[p]? := by
  by_cases hp : p < P.configs.length
  · rw [getElem?_outcomes hp, getElem?_outcomes hp, outcome, outcome, hne]
  · rw [List.getElem?_eq_none (by rw [length_outcomes]; omega),
      List.getElem?_eq_none (by rw [length_outcomes]; omega)]

theorem Spread.start (hself : P.Holds ((P.start merged).merged P.self)) :
    Spread P (P.start merged) where
  counting := .start
  decided := .of_point nofun nofun
  handledFirst p hp := absurd hp (Finset.notMem_empty p)
  held _ hp := absurd rfl hp
  self := hself

theorem Spread.step (h : Spread P s) (hstep : P.Step E requestBody s s')
    (hholds : ∀ maps, P.Holds (merging maps requestBody)) : Spread P s' := by
  have hmono := hstep.prefix_merged
  cases hstep with
  | @handle q hq hreached hnew =>
    -- the request that is handled has not ended
    have hready : q ∉ s.broadcast.ready := fun hmem => h.handledFirst q hmem hreached hnew
    have hlength : ∀ s' : Posting, (P.outcomes s').length = (P.outcomes s).length := fun s' => by
      rw [length_outcomes, length_outcomes]
    refine ⟨h.counting.congr h.decided (hlength _) fun p hp => ?_, (hlength _).symm ▸ h.decided,
      fun p hp hp' => ?_, fun p hp => ?_, h.self.mono (hmono _)⟩
    · have hne : p ≠ q := fun heq => hready (heq ▸ hp)
      exact getElem?_outcomes_of_ne (Function.update_of_ne hne ..)
    · show Function.update s.answers q _ p ≠ none
      by_cases hpq : p = q
      · rw [hpq, Function.update_self]
        exact Option.some_ne_none _
      · rw [Function.update_of_ne hpq]
        exact h.handledFirst p hp hp'
    · by_cases hpq : p = q
      · show P.Holds (Function.update s.merged q _ p)
        rw [hpq, Function.update_self]
        exact hholds _
      · have hp : Function.update s.answers q _ p ≠ none := hp
        rw [Function.update_of_ne hpq] at hp
        exact (h.held p hp).mono (hmono p)
  | broadcast hstep hhandled =>
    exact ⟨h.counting.step hstep, h.decided.step h.counting hstep, hhandled, h.held, h.self⟩
  | other q r =>
    exact ⟨h.counting, h.decided, h.handledFirst, fun p hp => (h.held p hp).mono (hmono p),
      h.self.mono (hmono _)⟩

/-- The call returns true when two responses arrive that are OK. -/
theorem Spread.result_iff_card (h : Spread P s) {result : Bool}
    (hreturned : s.broadcast.point = .returned result) :
    result = true ↔ expectedResponses ≤ (P.respondingOk s).card := by
  have hfilter : Broadcast.answeredOk (P.outcomes s) (Finset.range (P.outcomes s).length) =
      P.respondingOk s := by
    ext p
    rw [mem_answeredOk, mem_respondingOk, length_outcomes, Finset.mem_range, mem_replicaIds]
    tauto
  rw [h.counting.result_iff result (Or.inr hreturned), hfilter]

theorem Spread.result_iff (h : Spread P s) {result : Bool}
    (hreturned : s.broadcast.point = .returned result) : result = true ↔
      ∃ p ∈ P.replicaIds, ∃ q ∈ P.replicaIds, p ≠ q ∧ P.RespondsOk s p ∧ P.RespondsOk s q := by
  rw [h.result_iff_card hreturned]
  constructor
  · intro henough
    obtain ⟨p, hp, q, hq, hne⟩ := Finset.one_lt_card.mp henough
    obtain ⟨hp, hresponds⟩ := mem_respondingOk.mp hp
    obtain ⟨hq, hresponds'⟩ := mem_respondingOk.mp hq
    exact ⟨p, hp, q, hq, hne, hresponds, hresponds'⟩
  · rintro ⟨p, hp, q, hq, hne, hresponds, hresponds'⟩
    exact Finset.one_lt_card.mpr ⟨p, mem_respondingOk.mpr ⟨hp, hresponds⟩, q,
      mem_respondingOk.mpr ⟨hq, hresponds'⟩, hne⟩

section Received

variable (hreceived : received (Map.ofMerged P.self (merged P.self)) P.jsonValue =
    .ok (.broadcast m requestBody))

include hreceived

/-- The server replies OK when the broadcast returned true and it can print its map. -/
theorem status_eq_iff {result : Bool} :
    P.status E merged s result = some statusOk ↔ result = true ∧
      (RequestUtilities.formatJson E 2
        (Map.ofMerged P.self (s.merged P.self)).toJson).isSome = true := by
  rw [status, handlePost_of_broadcast hreceived]
  split
  · next hprint =>
    rw [and_iff_left hprint]
    cases result with
    | true => exact iff_of_true rfl rfl
    | false =>
      have hfailed : statusInternalError ≠ statusOk := by decide
      exact iff_of_false (fun h => hfailed (Option.some.inj h)) Bool.false_ne_true
  · next hprint => exact iff_of_false nofun fun h => hprint h.2

end Received

theorem AnsweredOk.returned (h : P.AnsweredOk E merged s) : s.broadcast.point = .returned true := by
  obtain ⟨⟨m, requestBody, hreceived, -⟩, result, hreturned, hstatus⟩ := h
  rw [← ((status_eq_iff hreceived).mp hstatus).1]
  exact hreturned

/-- The requests below `k` have ended, those that reach their peers after they were answered OK, and
the replicas that are not reached are as they were. -/
structure EndedBelow (P : Post) (merged : ℕ → List ReadMap) (k : ℕ) (s : Posting) : Prop where
  ready : s.broadcast.ready = Finset.range k
  point : s.broadcast.point = .testing
  answers_none : ∀ p, k ≤ p → s.answers p = none
  answers_ok : ∀ p < k, P.delivery p ≠ .unreachable → s.answers p = some (.response statusOk)
  bracketless : ∀ p, (Map.ofMerged p (s.merged p)).Bracketless
  untouched : ∀ p, p ≠ P.self → P.delivery p = .unreachable → s.merged p = merged p

section Run

variable (hreceived : received (Map.ofMerged P.self (merged P.self)) P.jsonValue =
    .ok (.broadcast m requestBody))

include hreceived

theorem EndedBelow.start (hm : m.Bracketless)
    (hothers : ∀ p, p ≠ P.self → (Map.ofMerged p (merged p)).Bracketless) :
    P.EndedBelow merged 0 (P.start merged) where
  ready := rfl
  point := rfl
  answers_none _ _ := rfl
  answers_ok p hp := absurd hp (Nat.not_lt_zero p)
  bracketless p := by
    obtain ⟨u, -, -, hmerging, -⟩ := exists_requestBody P.self_lt hreceived
    show (Map.ofMerged p (Function.update merged P.self _ p)).Bracketless
    by_cases hp : p = P.self
    · rw [hp, Function.update_self, ← hmerging]
      exact hm
    · rw [Function.update_of_ne hp]
      exact hothers p hp
  untouched p hp _ := Function.update_of_ne hp ..

end Run

end Post

end CrdtStore
