import CrdtStore.Broadcast
import CrdtStore.Codec
import CrdtStore.FormatJson

/-!
# Posts to a server

`handler::handle_post`. The map in a post from a client is merged, and the merged map is sent to
every configured replica; that in a post from a replica (`from_replica`) is merged only. Then the
map is printed, and the post is answered.

The continuation of `extract_json` catches `json_exception`, replies, and returns; the code after it
replies once more. Other exceptions, of a decoder that does not find a field or of `format_json`,
leave `handle_post` before it replies. `handlePost_iff` says which posts are answered once.
-/

namespace CrdtStore

namespace Handler

/-- What `handle_post` has made of a body before it replies: it has merged, or it has merged and
goes on to broadcast `requestBody`. -/
inductive Received where
  | synced (m : Map String String)
  | broadcast (m : Map String String) (requestBody : Json)

/-- `handler::handle_post` up to the broadcast, with the body `broadcast_and_wait_async` makes. -/
def received (m : Map String String) (jsonValue : Json) : Except Thrown Received :=
  if jsonValue.hasField "from_replica" then do
    let updatedMap ← Map.ofJson (jsonValue.erase "from_replica")
    return .synced (m.merge updatedMap)
  else do
    let updatedMap ← Map.ofJson jsonValue
    let m := m.merge updatedMap
    -- the whole map is sent on, not the posted one
    let reqJson ← m.toJson.setField "from_replica" (.boolean true)
    return .broadcast m reqJson

/-- The responses `handle_post` waits for. -/
def expectedResponses : ℕ := 2

theorem hasField_requestBody {m m' : Map String String} {jsonValue requestBody : Json}
    (h : received m jsonValue = .ok (.broadcast m' requestBody)) :
    requestBody.hasField "from_replica" = true := by
  rw [received] at h
  split at h
  · obtain ⟨updatedMap, -, h⟩ := exists_of_bind_eq_ok h
    cases h
  · obtain ⟨updatedMap, -, h⟩ := exists_of_bind_eq_ok h
    obtain ⟨reqJson, hreq, h⟩ := exists_of_bind_eq_ok h
    cases h
    exact Json.hasField_setField hreq

/-! ## Replies -/

/-- A call of `request.reply`. -/
structure Reply where
  statusCode : ℕ
  body : Json

/-- The reply of `handle_post` once the replicas are synchronized. -/
def syncedReply (m : Map String String) : Reply := ⟨statusOk, m.toJson⟩

/-- The reply of `handle_post` otherwise. -/
def failedReply : Reply :=
  ⟨statusInternalError, .object [⟨"error", .string "Failed to synchronize with replicas"⟩]⟩

/-- An exception that `handle_post` does not catch. -/
inductive Uncaught where
  | decoder (e : Thrown)
  | lengthError
deriving DecidableEq

/-- What a call of `handle_post` has done: its replies, the map it leaves, and how it ends. -/
structure Handled where
  replies : List Reply
  map : Map String String
  ended : Except Uncaught Unit

/-- What a broadcast ends with: its result, and what the map of the handler has become meanwhile. -/
structure BroadcastEnd where
  result : Bool
  map : Map String String

variable (E : Escaping) (broadcast : Map String String → BroadcastEnd)

/-- The rest of the continuation of `extract_json` after the merges: the map is printed, and
`sync_done` is kept. -/
def printed (m : Map String String) (syncDone : Bool) : List Reply × Map String String ×
    Except Uncaught Bool :=
  match RequestUtilities.formatJson E 2 m.toJson with
  | some _ => ([], m, .ok syncDone)
  | none => ([], m, .error .lengthError)

/-- The continuation of `extract_json` in `handle_post`. -/
def continuation (m : Map String String) (jsonValue : Json) : List Reply × Map String String ×
    Except Uncaught Bool :=
  match received m jsonValue with
  | .error .jsonException => ([failedReply], m, .ok false)
  | .error e => ([], m, .error (.decoder e))
  | .ok (.synced m) => printed E m true
  | .ok (.broadcast m _) => printed E (broadcast m).map (broadcast m).result

/-- `handler::handle_post`. -/
def handlePost (m : Map String String) (jsonValue : Json) : Handled :=
  match continuation E broadcast m jsonValue with
  | (replies, m, .error e) => ⟨replies, m, .error e⟩
  | (replies, m, .ok syncDone) =>
    ⟨replies ++ [if syncDone then syncedReply m else failedReply], m, .ok ()⟩

/-- The map that a body is decoded to. -/
def decoded (jsonValue : Json) : Except Thrown (Map String String) :=
  if jsonValue.hasField "from_replica" then Map.ofJson (jsonValue.erase "from_replica")
  else Map.ofJson jsonValue

/-- The map that `handle_post` prints when the body is decoded to `updatedMap`. -/
def printedMap (m updatedMap : Map String String) (jsonValue : Json) : Map String String :=
  if jsonValue.hasField "from_replica" then m.merge updatedMap
  else (broadcast (m.merge updatedMap)).map

/-! ## The two ways to fail -/

variable {E broadcast} {m : Map String String} {jsonValue : Json}

theorem received_of_error {e : Thrown} (h : decoded jsonValue = .error e) :
    received m jsonValue = .error e := by
  unfold decoded at h
  unfold received
  split at h
  · next hfield =>
    rw [if_pos hfield, h]
    rfl
  · next hfield =>
    rw [if_neg hfield, h]
    rfl

/-- A body that cannot be decoded is answered twice or not at all, and leaves the map. -/
theorem handlePost_of_error {e : Thrown} (h : decoded jsonValue = .error e) :
    (handlePost E broadcast m jsonValue).map = m ∧
      (handlePost E broadcast m jsonValue).replies.length =
        if e = .jsonException then 2 else 0 := by
  unfold handlePost continuation
  rw [received_of_error h]
  cases e with
  | jsonException => exact ⟨rfl, rfl⟩
  | invalidArgument what => exact ⟨rfl, rfl⟩
  | outOfRange what => exact ⟨rfl, rfl⟩

theorem exists_received {updatedMap : Map String String} (h : decoded jsonValue = .ok updatedMap) :
    ∃ reqJson, received m jsonValue = .ok (if jsonValue.hasField "from_replica" then
      .synced (m.merge updatedMap) else .broadcast (m.merge updatedMap) reqJson) := by
  obtain ⟨reqJson, hreq⟩ : ∃ reqJson, (m.merge updatedMap).toJson.setField "from_replica"
      (.boolean true) = .ok reqJson := ⟨_, rfl⟩
  refine ⟨reqJson, ?_⟩
  unfold decoded at h
  unfold received
  split at h
  · next hfield =>
    rw [if_pos hfield, if_pos hfield, h]
    rfl
  · next hfield =>
    rw [if_neg hfield, if_neg hfield, h]
    show (do
      let reqJson ← (m.merge updatedMap).toJson.setField "from_replica" (.boolean true)
      return Received.broadcast (m.merge updatedMap) reqJson) = _
    rw [hreq]
    rfl

theorem continuation_of_ok {updatedMap : Map String String}
    (h : decoded jsonValue = .ok updatedMap) :
    ∃ syncDone, continuation E broadcast m jsonValue =
      printed E (printedMap broadcast m updatedMap jsonValue) syncDone := by
  obtain ⟨reqJson, hreceived⟩ := exists_received (m := m) h
  unfold continuation printedMap
  rw [hreceived]
  by_cases hfield : jsonValue.hasField "from_replica" = true
  · rw [if_pos hfield, if_pos hfield]
    exact ⟨true, rfl⟩
  · rw [if_neg hfield, if_neg hfield]
    exact ⟨_, rfl⟩

theorem printed_eq (m : Map String String) (syncDone : Bool) :
    printed E m syncDone = ([], m,
      if (RequestUtilities.formatJson E 2 m.toJson).isSome = true then .ok syncDone
      else .error .lengthError) := by
  unfold printed
  generalize RequestUtilities.formatJson E 2 m.toJson = result
  cases result with
  | none => rfl
  | some text => rfl

/-- A post from a replica is answered OK, unless the merged map cannot be printed. -/
theorem handlePost_of_synced {m' : Map String String}
    (h : received m jsonValue = .ok (.synced m')) :
    (handlePost E broadcast m jsonValue).map = m' ∧
      (handlePost E broadcast m jsonValue).replies =
        if (RequestUtilities.formatJson E 2 m'.toJson).isSome = true then [syncedReply m']
        else [] := by
  unfold handlePost continuation
  rw [h]
  simp only [printed_eq]
  generalize (RequestUtilities.formatJson E 2 m'.toJson).isSome = goesThrough
  cases goesThrough with
  | false => exact ⟨rfl, rfl⟩
  | true => exact ⟨rfl, rfl⟩

/-- A post from a client is answered with what the broadcast ends with, unless the map that the
handler then has cannot be printed. -/
theorem handlePost_of_broadcast {m' : Map String String} {reqJson : Json}
    (h : received m jsonValue = .ok (.broadcast m' reqJson)) :
    (handlePost E broadcast m jsonValue).replies =
      if (RequestUtilities.formatJson E 2 (broadcast m').map.toJson).isSome = true then
        [if (broadcast m').result then syncedReply (broadcast m').map else failedReply]
      else [] := by
  unfold handlePost continuation
  rw [h]
  simp only [printed_eq]
  generalize (RequestUtilities.formatJson E 2 (broadcast m').map.toJson).isSome = goesThrough
  cases goesThrough with
  | false => rfl
  | true => rfl

/-- A body that is decoded is answered once, unless the map cannot be printed. -/
theorem replies_of_ok {updatedMap : Map String String} (h : decoded jsonValue = .ok updatedMap) :
    (handlePost E broadcast m jsonValue).replies.length =
      if (RequestUtilities.formatJson E 2
        (printedMap broadcast m updatedMap jsonValue).toJson).isSome = true then 1 else 0 := by
  obtain ⟨syncDone, hcontinuation⟩ : ∃ syncDone, continuation E broadcast m jsonValue =
      printed E (printedMap broadcast m updatedMap jsonValue) syncDone := continuation_of_ok h
  unfold handlePost
  rw [hcontinuation, printed_eq]
  generalize (RequestUtilities.formatJson E 2
    (printedMap broadcast m updatedMap jsonValue).toJson).isSome = goesThrough
  cases goesThrough with
  | false => rfl
  | true => rfl

end Handler

end CrdtStore
