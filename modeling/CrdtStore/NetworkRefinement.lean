import CrdtStore.Network
import CrdtStore.SmallNumbers

/-!
# The JSON system refines the replicated map

Every run of the system of JSON bodies, with non-negative 32-bit ids and clocks below `2 ^ 31`, is a
run of the replicated map that the other modules are about: handling a POST is a delivery, followed
by a send when it is broadcast; receiving a reply is a delivery; rebuilding a hash table is nothing.
Each party's map has the contents of its replica, so what holds of all runs of the replicated map
holds of the clients and servers.
-/

namespace CrdtStore

open ReplicatedType Config
open Handler (received)

namespace Network

/-- What the parties do: clients call and receive replies of servers, servers handle POST requests
and restart, nobody else sends anything. Clients call when `ready`, and count below `2 ^ 31`. -/
def Proper (server : ℕ → Bool) (ready : Map String String → Bool) (N : Network) :
    NetworkAction → Prop
  | .call i op => i < 2 ^ 31 ∧ server i = false ∧ ready (N.node i) = true ∧
      ∀ key val, op = .put key val →
        (N.node i).keys.seen i + 1 < 2 ^ 31 ∧ (N.node i).seqNumber key + 1 < 2 ^ 31
  | .send i => i < 2 ^ 31
  | .handle s _ => s < 2 ^ 31 ∧ server s = true
  | .receive c n => c < 2 ^ 31 ∧ server c = false ∧ ∀ p ∈ N.bodies[n]?, server p.1 = true
  | .restart i => i < 2 ^ 31 ∧ server i = true
  | .rehash i m => (N.node i).Equal m
  | .inject _ _ => False

/-- The runs of the replicated map that are matched. -/
def Matched (server : ℕ → Bool) (ready : Map String String → Bool)
    (C : Config ℕ (MapOp String String) (Map String String))
    (a : ReplicaAction ℕ (MapOp String String)) : Prop :=
  ClientServer server ready C a ∧ Map.NoReuse C a ∧ Map.Int32Ids C a ∧ Map.Small (2 ^ 31) C a

/-- The body is the encoding of a map with these contents, marked or not. -/
def Carries (m : Map String String) (body : Json) : Prop :=
  ∃ m₁, m.Equal m₁ ∧
    (body = m₁.toJson ∨ m₁.toJson.setField "from_replica" (.boolean true) = .ok body)

/-- Party by party and body by body, the same contents. -/
structure Refines (N : Network) (C : Config ℕ (MapOp String String) (Map String String)) :
    Prop where
  node : ∀ i, (C.node i).state.Equal (N.node i)
  length_eq : N.bodies.length = C.sent.length
  body : ∀ (n : ℕ) p R, N.bodies[n]? = some p → C.sent[n]? = some R →
    p.1 = R.1 ∧ Carries R.2.state p.2

variable {server : ℕ → Bool} {ready : Map String String → Bool} {N : Network}
  {C : Config ℕ (MapOp String String) (Map String String)}

theorem Refines.start : Refines system.start Map.replicated.start where
  node i := Map.Equal.refl (Map.new i)
  length_eq := rfl
  body n p R hp := by cases hp

/-- One map changes on both sides. -/
theorem Refines.setNode (h : Refines N C) {i : ℕ} {m : Map String String}
    {C' : Config ℕ (MapOp String String) (Map String String)} {R : Replica (Map String String)}
    (hnode : C'.node = Function.update C.node i R) (hsent : C'.sent = C.sent)
    (hm : R.state.Equal m) : Refines (N.setNode i m) C' where
  node j := by
    rw [hnode]
    by_cases hj : j = i
    · rw [hj, node_setNode_self, Function.update_self]
      exact hm
    · rw [node_setNode_of_ne hj, Function.update_of_ne hj]
      exact h.node j
  length_eq := by
    rw [hsent]
    exact h.length_eq
  body n p R hp hR := by
    rw [hsent] at hR
    exact h.body n p R hp hR

/-- A body is sent on both sides. -/
theorem Refines.addBody (h : Refines N C) {i : ℕ} {body : Json}
    (hbody : Carries (C.node i).state body) :
    Refines (N.addBody i body) (Map.replicated.next C (.send i)) where
  node := h.node
  length_eq := by
    show (N.bodies ++ [(i, body)]).length = (C.sent ++ [(i, C.node i)]).length
    rw [List.length_append, List.length_append, h.length_eq]
    rfl
  body n p R hp hR := by
    have hlen := h.length_eq
    rcases of_getElem?_concat hp with hp | ⟨hn, rfl⟩
    · rcases of_getElem?_concat hR with hR | ⟨hn', -⟩
      · exact h.body n p R hp hR
      · have hlt := (List.getElem?_eq_some_iff.mp hp).1
        omega
    · rcases of_getElem?_concat hR with hR | ⟨-, rfl⟩
      · have hlt := (List.getElem?_eq_some_iff.mp hR).1
        omega
      · exact ⟨rfl, hbody⟩

section Matched

variable (hC : Map.replicated.Reachable (Matched server ready) C)

include hC

theorem signExtended_of_matched {i : ℕ} {R : Replica (Map String String)} (hR : C.HasState i R) :
    R.state.SignExtended :=
  (Map.below_of_reachable (by norm_num) (hC.mono fun _ _ h => h.2.2.2) hR).signExtended

/-- What is sent is read back with its contents. -/
theorem exists_read {n q : ℕ} {R : Replica (Map String String)} (hsent : C.sent[n]? = some (q, R))
    {body : Json} (hbody : Carries R.state body) :
    ∃ m, Map.ofJson body = .ok m ∧ R.state.Equal m := by
  obtain ⟨m₁, hequal, hbody⟩ := hbody
  obtain ⟨C', -, hsend⟩ := hC.exists_send hsent
  have hq : q < 2 ^ 31 := hsend.2.2.1
  have hfits : R.state.Fits :=
    Map.fits_of_reachable (hC.mono fun _ _ h => h.2.2.1) hq (hasState_sent hsent)
  obtain ⟨m, hm, hread⟩ := Map.exists_decoded_of_equal hfits
    (signExtended_of_matched hC (hasState_sent hsent)) hequal
  rcases hbody with rfl | hset
  · exact ⟨m, hm, hread⟩
  · exact ⟨m, (Map.ofJson_setField hset).trans hm, hread⟩

/-- Updates are the clients'. -/
theorem site_of_log {ev : UpdateEvent ℕ (MapOp String String) (Map String String)}
    (hev : ev ∈ C.log) : server ev.site = false := by
  obtain ⟨n, hn⟩ := List.mem_iff_getElem?.mp hev
  obtain ⟨C', -, hstep, -⟩ := hC.exists_event hn
  exact hstep.1.1

end Matched

/-- The other side of a step. -/
def Followed (server : ℕ → Bool) (ready : Map String String → Bool) (N : Network) : Prop :=
  ∃ C, Map.replicated.Reachable (Matched server ready) C ∧ Refines N C

section Step

variable (hC : Map.replicated.Reachable (Matched server ready) C) (h : Refines N C)

include hC h

theorem Refines.call (hready : ∀ m m' : Map String String, m.Equal m' → ready m = ready m') {i : ℕ}
    {op : MapOp String String} (ha : Proper server ready N (.call i op)) :
    Followed server ready (N.next (.call i op)) := by
  obtain ⟨hi, hclient, hr, hsmall⟩ := ha
  have hnode := h.node i
  refine ⟨_, hC.step (a := .update i op) ⟨⟨hclient, ?_⟩, ?_, hi, ?_⟩,
    h.setNode rfl rfl (hnode.apply op)⟩
  · rw [hready _ _ hnode]
    exact hr
  · cases op with
    | put key val =>
      have hseen := (hsmall key val rfl).1
      show (C.node i).state.keys.seen i + 1 < 2 ^ 64
      rw [hnode.keys.seen_eq]
      omega
    | remove key => trivial
    | get key => trivial
  · cases op with
    | put key val =>
      have hseq : (C.node i).state.seqNumber key = (N.node i).seqNumber key := by
        rw [Map.seqNumber, Map.seqNumber, hnode.registers key]
      show (C.node i).state.keys.seen i + 1 < 2 ^ 31 ∧ (C.node i).state.seqNumber key + 1 < 2 ^ 31
      rw [hnode.keys.seen_eq, hseq]
      exact hsmall key val rfl
    | remove key => trivial
    | get key => trivial

theorem Refines.sent {i : ℕ} (hi : i < 2 ^ 31) {m₁ : Map String String} {body : Json}
    (hequal : (C.node i).state.Equal m₁)
    (hbody : body = m₁.toJson ∨ m₁.toJson.setField "from_replica" (.boolean true) = .ok body) :
    Followed server ready (N.addBody i body) :=
  ⟨_, hC.step (a := .send i) ⟨trivial, trivial, hi, trivial⟩, h.addBody ⟨m₁, hequal, hbody⟩⟩

/-- A body that is merged is a delivery. -/
theorem Refines.merged {i n : ℕ} {p : ℕ × Json} (hi : i < 2 ^ 31) (hp : N.bodies[n]? = some p)
    (htopology : server i = true ∨ server p.1 = true) :
    ∃ m C', Map.ofJson p.2 = .ok m ∧ Map.replicated.Reachable (Matched server ready) C' ∧
      Refines (N.setNode i ((N.node i).merge m)) C' ∧
      (C'.node i).state.Equal ((N.node i).merge m) := by
  have hlt : n < C.sent.length := h.length_eq ▸ (List.getElem?_eq_some_iff.mp hp).1
  obtain ⟨⟨q, R⟩, hR⟩ : ∃ R, C.sent[n]? = some R := ⟨_, List.getElem?_eq_getElem hlt⟩
  obtain ⟨hsender, hbody⟩ := h.body n p (q, R) hp hR
  obtain ⟨m, hm, hequal⟩ := exists_read hC hR hbody
  have hmerged : (Map.replicated.merged (C.node i) R).state.Equal ((N.node i).merge m) :=
    (h.node i).merge hequal
  have hnext : Map.replicated.next C (.deliver i n) =
      { C with node := Function.update C.node i (Map.replicated.merged (C.node i) R) } := by
    rw [ReplicatedType.next, hR]
  refine ⟨m, Map.replicated.next C (.deliver i n), hm,
    hC.step ⟨?_, trivial, hi, trivial⟩, ?_, ?_⟩
  · rcases htopology with hs | hs
    · exact Or.inl hs
    · refine Or.inr fun p' hp' => ?_
      rw [hR] at hp'
      cases hp'
      rw [← hsender]
      exact hs
  · exact h.setNode (by rw [hnext]) (by rw [hnext]) hmerged
  · rw [node_deliver_self hR]
    exact hmerged

theorem Refines.handle {s n : ℕ} (ha : Proper server ready N (.handle s n)) :
    Followed server ready (N.next (.handle s n)) := by
  obtain ⟨hs, hserver⟩ := ha
  show Followed server ready (N.bodies[n]?.elim N fun p => N.handled s p.2)
  cases hp : N.bodies[n]? with
  | none => exact ⟨C, hC, h⟩
  | some p =>
    obtain ⟨m, C', hm, hC', hrefines, hequal⟩ := h.merged hC hs hp (Or.inl hserver)
    show Followed server ready (N.handled s p.2)
    rw [handled]
    rcases Handler.received_of_ok hm (N.node s) with ⟨-, hreceived⟩ | ⟨-, reqJson, hset, hreceived⟩
    · rw [hreceived]
      exact ⟨C', hC', hrefines⟩
    · -- the broadcast puts the merged map among the bodies
      rw [hreceived]
      exact hrefines.sent hC' hs hequal (Or.inr hset)

theorem Refines.receive {c n : ℕ} (ha : Proper server ready N (.receive c n)) :
    Followed server ready (N.next (.receive c n)) := by
  obtain ⟨hc, -, hsender⟩ := ha
  show Followed server ready (N.bodies[n]?.elim N fun p => N.replied c p.2)
  cases hp : N.bodies[n]? with
  | none => exact ⟨C, hC, h⟩
  | some p =>
    obtain ⟨m, C', hm, hC', hrefines, -⟩ := h.merged hC hc hp (Or.inr (hsender p hp))
    refine ⟨C', hC', ?_⟩
    show Refines (N.replied c p.2) C'
    rw [replied, mergeResponse_of_ok hm]
    exact hrefines

theorem Refines.restart {i : ℕ} (ha : Proper server ready N (.restart i)) :
    Followed server ready (N.next (.restart i)) := by
  obtain ⟨hi, hserver⟩ := ha
  refine ⟨_, hC.step (a := .restart i) ⟨trivial, ?_, hi, trivial⟩,
    h.setNode rfl rfl (Map.Equal.refl (Map.new i))⟩
  intro ev hev hsite
  have hclient := site_of_log hC hev
  rw [hsite, hserver] at hclient
  cases hclient

end Step

/-- **The JSON system refines the replicated map.** In every run of clients and servers exchanging
JSON, with 32-bit ids and clocks, the parties hold the contents that the replicas hold in a run of
the replicated map. -/
theorem refines_of_reachable
    (hready : ∀ m m' : Map String String, m.Equal m' → ready m = ready m')
    (h : system.Reachable (Proper server ready) N) :
    ∃ C, Map.replicated.Reachable (Matched server ready) C ∧ Refines N C := by
  refine h.invariant (I := Followed server ready) ⟨_, .start, Refines.start⟩ ?_
  rintro N a - ha ⟨C, hC, hrefines⟩
  cases a with
  | call i op => exact hrefines.call hC hready ha
  | send i => exact hrefines.sent hC ha (hrefines.node i) (Or.inl rfl)
  | handle s n => exact hrefines.handle hC ha
  | receive c n => exact hrefines.receive hC ha
  | restart i => exact hrefines.restart hC ha
  | rehash i m =>
    refine ⟨C, hC, hrefines.setNode (Function.update_eq_self i C.node).symm rfl ?_⟩
    exact (hrefines.node i).trans ha
  | inject i body => exact ha.elim

/-- Client 5 puts and sends its map, and server 0 handles it. -/
def firstSync : Network :=
  system.exec system.start [.call 5 (.put "k" "v"), .send 5, .handle 0 0]

theorem refines_firstSync : ∃ C,
    Map.replicated.Reachable (Matched (fun i => decide (i < 5)) fun _ => true) C ∧
      Refines firstSync C := by
  refine refines_of_reachable (fun _ _ _ => rfl) (System.Reachable.start.exec ?_)
  have hcall : ∀ key val, MapOp.put "k" "v" = MapOp.put key val →
      (system.start.node 5).keys.seen 5 + 1 < 2 ^ 31 ∧
        (system.start.node 5).seqNumber key + 1 < 2 ^ 31 := by
    intro key val _
    exact ⟨by decide, (by decide : 0 + 1 < 2 ^ 31)⟩
  exact ⟨⟨by decide, rfl, rfl, hcall⟩, (by decide : 5 < 2 ^ 31), ⟨by decide, rfl⟩, trivial⟩

end Network

end CrdtStore
