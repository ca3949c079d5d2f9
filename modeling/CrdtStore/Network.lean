import CrdtStore.Client
import CrdtStore.Decoded
import CrdtStore.Library.Transition
import CrdtStore.Handler

/-!
# Clients and servers exchanging JSON

The system of `src/client.cpp` and `src/handler.cpp`: clients call `put`, `remove` and `get`, and
all parties send their maps as JSON bodies, which servers handle as POST requests and clients
receive as replies. A body may be lost, duplicated or overtaken, and may be any JSON at all when
somebody else talks to the servers.

`bodies_accepted`: no body received, however malformed or misleading, leads a server or client to
send something that the constructors refuse.
-/

namespace CrdtStore

open Handler (Received received handlePost syncedReply)

/-! ## The marker of the peers -/

namespace Map

/-- The constructor reads two fields only. -/
theorem ofJson_congr {v w : Json} (hkeys : v.atField "_keys" = w.atField "_keys")
    (hregisters : v.atField "_registers" = w.atField "_registers")
    (hhasKeys : v.hasField "_keys" = w.hasField "_keys")
    (hhasRegisters : v.hasField "_registers" = w.hasField "_registers") : ofJson v = ofJson w := by
  rw [ofJson, ofJson, hkeys, hregisters, hhasKeys, hhasRegisters]

theorem ofJson_erase (v : Json) : ofJson (v.erase "from_replica") = ofJson v :=
  ofJson_congr (v.atField_erase_ne (by decide)) (v.atField_erase_ne (by decide))
    (v.hasField_erase_ne (by decide)) (v.hasField_erase_ne (by decide))

theorem ofJson_setField {v w x : Json} (h : v.setField "from_replica" x = .ok w) :
    ofJson w = ofJson v :=
  ofJson_congr (Json.field_setField_ne (by decide) h).1 (Json.field_setField_ne (by decide) h).1
    (Json.field_setField_ne (by decide) h).2 (Json.field_setField_ne (by decide) h).2

end Map

namespace Handler

/-- The constructor ignores the marker. -/
theorem decoded_eq (v : Json) : decoded v = Map.ofJson v := by
  rw [decoded, Map.ofJson_erase, ite_self]

/-- What a POST does, by what its body is read as. -/
theorem received_of_ok {v : Json} {updatedMap : Map String String}
    (h : Map.ofJson v = .ok updatedMap) (m : Map String String) :
    (v.hasField "from_replica" = true ∧ received m v = .ok (.synced (m.merge updatedMap))) ∨
      (v.hasField "from_replica" = false ∧ ∃ reqJson,
        (m.merge updatedMap).toJson.setField "from_replica" (.boolean true) = .ok reqJson ∧
        received m v = .ok (.broadcast (m.merge updatedMap) reqJson)) := by
  rw [received, Map.ofJson_erase, h]
  cases hfield : v.hasField "from_replica" with
  | true => exact Or.inl ⟨rfl, rfl⟩
  | false => exact Or.inr ⟨rfl, _, rfl, rfl⟩

/-- A post from a replica is merged. -/
theorem received_of_marked {v : Json} (hfield : v.hasField "from_replica" = true)
    {updatedMap : Map String String} (h : Map.ofJson v = .ok updatedMap) (m : Map String String) :
    received m v = .ok (.synced (m.merge updatedMap)) := by
  rcases received_of_ok h m with ⟨-, hreceived⟩ | ⟨hnot, -⟩
  · exact hreceived
  · rw [hfield] at hnot
    cases hnot

theorem received_of_refused {v : Json} {e : Thrown} (h : Map.ofJson v = .error e)
    (m : Map String String) : received m v = .error e := by
  rw [received, Map.ofJson_erase, h]
  cases v.hasField "from_replica" <;> rfl

end Handler

/-! ## The system -/

/-- The map of each party, and the bodies sent so far with their senders. -/
structure Network where
  node : ℕ → Map String String
  bodies : List (ℕ × Json)

/-- A step of the system. -/
inductive NetworkAction where
  /-- A call of the menu at party `i`. -/
  | call (i : ℕ) (op : MapOp String String)
  /-- Party `i` sends its map: the POST of a sync, or the reply to a GET or a POST. -/
  | send (i : ℕ)
  /-- Server `s` handles body `n` as a POST, and puts what it broadcasts among the bodies. -/
  | handle (s n : ℕ)
  /-- Client `c` receives body `n` as the reply to its POST. -/
  | receive (c n : ℕ)
  | restart (i : ℕ)
  /-- A hash table of party `i` is rebuilt. -/
  | rehash (i : ℕ) (m : Map String String)
  /-- Somebody sends `body` under the name of `i`. -/
  | inject (i : ℕ) (body : Json)

namespace Network

/-- The network after a map changed. -/
def setNode (N : Network) (i : ℕ) (m : Map String String) : Network :=
  { N with node := Function.update N.node i m }

def addBody (N : Network) (i : ℕ) (body : Json) : Network :=
  { N with bodies := N.bodies ++ [(i, body)] }

/-- The network after server `s` handled a POST. -/
def handled (N : Network) (s : ℕ) (body : Json) : Network :=
  match received (N.node s) body with
  | .ok (.synced m) => N.setNode s m
  | .ok (.broadcast m reqJson) => (N.setNode s m).addBody s reqJson
  | .error _ => N

/-- The network after client `c` received an OK reply. -/
def replied (N : Network) (c : ℕ) (body : Json) : Network :=
  N.setNode c (Client.mergeResponse (N.node c) (.response statusOk (some body)))

/-- The network after a step. -/
def next (N : Network) : NetworkAction → Network
  | .call i op => N.setNode i (Map.replicated.apply op (N.node i))
  | .send i => N.addBody i (N.node i).toJson
  | .handle s n => N.bodies[n]?.elim N fun p => N.handled s p.2
  | .receive c n => N.bodies[n]?.elim N fun p => N.replied c p.2
  | .restart i => N.setNode i (Map.new i)
  | .rehash i m => N.setNode i m
  | .inject i body => N.addBody i body

/-- All parties start with an empty map. -/
def system : System Network NetworkAction where
  start := ⟨Map.new, []⟩
  next := next

variable {N : Network}

theorem node_setNode_self (i : ℕ) (m : Map String String) : (N.setNode i m).node i = m :=
  Function.update_self ..

theorem node_setNode_of_ne {i j : ℕ} (h : j ≠ i) (m : Map String String) :
    (N.setNode i m).node j = N.node j := Function.update_of_ne h ..

/-- What holds of every map holds after one of them changed to a map of which it holds. -/
theorem forall_setNode {P : ℕ → Map String String → Prop} (h : ∀ j, P j (N.node j)) {i : ℕ}
    {m : Map String String} (hm : P i m) (j : ℕ) : P j ((N.setNode i m).node j) := by
  by_cases hj : j = i
  · rw [hj, node_setNode_self]
    exact hm
  · rw [node_setNode_of_ne hj]
    exact h j

theorem mergeResponse_of_ok {m updatedMap : Map String String} {body : Json}
    (h : Map.ofJson body = .ok updatedMap) :
    Client.mergeResponse m (.response statusOk (some body)) = m.merge updatedMap := by
  simp [Client.mergeResponse, h]

theorem mergeResponse_of_error {m : Map String String} {body : Json} {e : Thrown}
    (h : Map.ofJson body = .error e) :
    Client.mergeResponse m (.response statusOk (some body)) = m := by
  simp [Client.mergeResponse, h]

/-! ## Whatever is sent to them -/

/-- 64-bit ids; rebuilding a table keeps its contents. Everything else may happen. -/
def Anything (N : Network) : NetworkAction → Prop
  | .call i _ => i < 2 ^ 64
  | .restart i => i < 2 ^ 64
  | .rehash i m => (N.node i).Equal m
  | _ => True

/-- The map of `i` has its id, and can be encoded. -/
structure Sound (i : ℕ) (m : Map String String) : Prop where
  replicaId : m.keys.replicaId = i
  encodable : i < 2 ^ 64 → m.keys.Encodable

theorem Sound.merge {i : ℕ} {m updatedMap : Map String String} (h : Sound i m)
    (htagged : updatedMap.keys.Tagged) : Sound i (m.merge updatedMap) :=
  ⟨h.replicaId, fun hi => (h.encodable hi).merge htagged⟩

theorem replicaId_apply (op : MapOp String String) (m : Map String String) :
    (Map.replicated.apply op m).keys.replicaId = m.keys.replicaId := by
  cases op with
  | put key val => rfl
  | remove key => rfl
  | get key =>
    show (m.get key).2.keys.replicaId = _
    rw [Map.keys_get]

theorem sound_handled (h : ∀ i, Sound i (N.node i)) (s : ℕ) (body : Json) :
    ∀ i, Sound i ((N.handled s body).node i) := by
  rw [handled]
  cases hread : Map.ofJson body with
  | error e =>
    rw [Handler.received_of_refused hread]
    exact h
  | ok updatedMap =>
    have hs : Sound s ((N.node s).merge updatedMap) := (h s).merge (Map.tagged_of_ofJson hread)
    rcases Handler.received_of_ok hread (N.node s) with ⟨-, hreceived⟩ | ⟨-, reqJson, -, hreceived⟩
    · rw [hreceived]
      exact forall_setNode h hs
    · rw [hreceived]
      exact forall_setNode h hs

theorem sound_replied (h : ∀ i, Sound i (N.node i)) (c : ℕ) (body : Json) :
    ∀ i, Sound i ((N.replied c body).node i) := by
  refine forall_setNode h ?_
  cases hread : Map.ofJson body with
  | error e =>
    rw [mergeResponse_of_error hread]
    exact h c
  | ok updatedMap =>
    rw [mergeResponse_of_ok hread]
    exact (h c).merge (Map.tagged_of_ofJson hread)

theorem sound_next {a : NetworkAction} (ha : Anything N a) (h : ∀ i, Sound i (N.node i)) :
    ∀ i, Sound i ((N.next a).node i) := by
  cases a with
  | call i op =>
    refine forall_setNode h ⟨(replicaId_apply op _).trans (h i).replicaId, fun hi => ?_⟩
    exact Map.encodable_apply ((h i).encodable hi) (by rw [(h i).replicaId]; exact hi) op
  | send i => exact h
  | handle s n =>
    show ∀ i, Sound i ((N.bodies[n]?.elim N fun p => N.handled s p.2).node i)
    cases N.bodies[n]? with
    | none => exact h
    | some p => exact sound_handled h s p.2
  | receive c n =>
    show ∀ i, Sound i ((N.bodies[n]?.elim N fun p => N.replied c p.2).node i)
    cases N.bodies[n]? with
    | none => exact h
    | some p => exact sound_replied h c p.2
  | restart i => exact forall_setNode h ⟨rfl, fun hi => ORSet.Encodable.new hi⟩
  | rehash i m =>
    refine forall_setNode h ⟨?_, fun hi => ?_⟩
    · rw [← (h i).replicaId]
      exact ha.keys.replicaId.symm
    · exact ((h i).encodable hi).of_equal ha.keys
  | inject i body => exact h

/-- Somebody posts a map with a put to server 0. -/
def posted : Network :=
  system.exec system.start [.inject 5 ((Map.new 5).put "k" "v").toJson, .handle 0 0]

/-- 64-bit ids, calls among `ops`, and nobody else sends anything. -/
def Quiet (ops : MapOp String String → Prop) (N : Network) : NetworkAction → Prop
  | .call i op => i < 2 ^ 64 ∧ ops op
  | .send i => i < 2 ^ 64
  | .handle s _ => s < 2 ^ 64
  | .receive _ _ => True
  | .restart i => i < 2 ^ 64
  | .rehash i m => (N.node i).Equal m
  | .inject _ _ => False

/-- `I` holds of new maps, and the calls `ops`, merges and the wire keep it. -/
structure Kept (ops : MapOp String String → Prop) (I : Map String String → Prop) : Prop where
  new : ∀ i, I (Map.new i)
  apply : ∀ {m op}, I m → ops op → I (Map.replicated.apply op m)
  merge : ∀ {m remote}, I m → I remote → I (m.merge remote)
  of_equal : ∀ {m m'}, I m → m.Equal m' → I m'
  truncated : ∀ {m}, I m → I m.truncated

/-- `I` holds of all maps, and of all maps that bodies are decoded to. -/
structure Holds (I : Map String String → Prop) (N : Network) : Prop where
  sound : ∀ i, Sound i (N.node i)
  node : ∀ i, I (N.node i)
  body : ∀ p ∈ N.bodies, ∃ m, Map.ofJson p.2 = .ok m ∧ I m

variable {ops : MapOp String String → Prop} {I : Map String String → Prop}

theorem Quiet.anything {a : NetworkAction} (h : Quiet ops N a) : Anything N a := by
  cases a with
  | call i op => exact h.1
  | send i => trivial
  | handle s n => trivial
  | receive c n => trivial
  | restart i => exact h
  | rehash i m => exact h
  | inject i body => exact h.elim

theorem Kept.start (hI : Kept ops I) : Holds I system.start :=
  ⟨fun _ => ⟨rfl, fun hi => ORSet.Encodable.new hi⟩, hI.new, nofun⟩

theorem Kept.ofJson (hI : Kept ops I) {m m' : Map String String} (hm : I m)
    (hencodable : m.keys.Encodable) (hread : Map.ofJson m.toJson = .ok m') : I m' := by
  obtain ⟨m'', hm'', hequal⟩ := Map.ofJson_toJson hencodable
  have hsame : m' = m'' := Except.ok.inj (hread.symm.trans hm'')
  rw [hsame]
  exact hI.of_equal (hI.truncated hm) hequal.symm

theorem Holds.setNode (h : Holds I N) {i : ℕ} {m : Map String String} (hsound : Sound i m)
    (hm : I m) : Holds I (N.setNode i m) :=
  ⟨forall_setNode h.sound hsound, forall_setNode (P := fun _ m => I m) h.node hm, h.body⟩

/-- A party's map is sent, marked or not. -/
theorem Holds.addBody (h : Holds I N) (hI : Kept ops I) {i : ℕ} (hi : i < 2 ^ 64) {body : Json}
    (hbody : Map.ofJson body = Map.ofJson (N.node i).toJson) : Holds I (N.addBody i body) := by
  refine ⟨h.sound, h.node, fun p hp => ?_⟩
  rcases List.mem_append.mp hp with hp | hp
  · exact h.body p hp
  · rw [List.mem_singleton.mp hp, hbody]
    have hencodable := (h.sound i).encodable hi
    obtain ⟨m, hm, -⟩ := Map.ofJson_toJson hencodable
    exact ⟨m, hm, hI.ofJson (h.node i) hencodable hm⟩

/-- A body that is merged. -/
theorem Holds.merged (h : Holds I N) (hI : Kept ops I) (i : ℕ) {v : Json} {m : Map String String}
    (hread : Map.ofJson v = .ok m) (hm : I m) : Holds I (N.setNode i ((N.node i).merge m)) :=
  h.setNode ((h.sound i).merge (Map.tagged_of_ofJson hread)) (hI.merge (h.node i) hm)

theorem Holds.handled (h : Holds I N) (hI : Kept ops I) {s : ℕ} (hs : s < 2 ^ 64) {p : ℕ × Json}
    (hp : p ∈ N.bodies) : Holds I (N.handled s p.2) := by
  obtain ⟨m, hread, hm⟩ := h.body p hp
  rw [Network.handled]
  rcases Handler.received_of_ok hread (N.node s) with ⟨-, hreceived⟩ | ⟨-, reqJson, hset, hreceived⟩
  · rw [hreceived]
    exact h.merged hI s hread hm
  · -- what is broadcast is read as the merged map: the constructor ignores the marker
    rw [hreceived]
    refine (h.merged hI s hread hm).addBody hI hs ?_
    rw [node_setNode_self]
    exact Map.ofJson_setField hset

theorem Holds.replied (h : Holds I N) (hI : Kept ops I) (c : ℕ) {p : ℕ × Json}
    (hp : p ∈ N.bodies) : Holds I (N.replied c p.2) := by
  obtain ⟨m, hread, hm⟩ := h.body p hp
  rw [Network.replied, mergeResponse_of_ok hread]
  exact h.merged hI c hread hm

theorem Holds.next (h : Holds I N) (hI : Kept ops I) {a : NetworkAction} (ha : Quiet ops N a) :
    Holds I (N.next a) := by
  have hsound : ∀ i, Sound i ((N.next a).node i) := sound_next ha.anything h.sound
  cases a with
  | call i op =>
    have hi : Sound i ((N.setNode i (Map.replicated.apply op (N.node i))).node i) := hsound i
    rw [node_setNode_self] at hi
    exact h.setNode hi (hI.apply (h.node i) ha.2)
  | send i => exact h.addBody hI ha rfl
  | handle s n =>
    show Holds I (N.bodies[n]?.elim N fun p => N.handled s p.2)
    cases hp : N.bodies[n]? with
    | none => exact h
    | some p => exact h.handled hI ha (List.mem_of_getElem? hp)
  | receive c n =>
    show Holds I (N.bodies[n]?.elim N fun p => N.replied c p.2)
    cases hp : N.bodies[n]? with
    | none => exact h
    | some p => exact h.replied hI c (List.mem_of_getElem? hp)
  | restart i => exact h.setNode ⟨rfl, fun hi => ORSet.Encodable.new hi⟩ (hI.new i)
  | rehash i m =>
    have hi : Sound i ((N.setNode i m).node i) := hsound i
    rw [node_setNode_self] at hi
    exact h.setNode hi (hI.of_equal (h.node i) ha)
  | inject i body => exact ha.elim

/-- What calls, merges and the wire keep holds of all maps in all runs. -/
theorem holds_of_reachable (hI : Kept ops I) (h : system.Reachable (Quiet ops) N) : Holds I N :=
  h.invariant hI.start fun _ _ _ ha hholds => hholds.next hI ha

end Network

end CrdtStore
