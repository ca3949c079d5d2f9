import CrdtStore.BracketFree
import CrdtStore.Menu
import CrdtStore.NetworkRefinement

/-!
# Replies to gets

`handler::handle_get` prints the map before it sends it, so that a map that `format_json` goes wrong
on is not sent. While no key or value contains a bracket, servers answer every GET, and every POST
once (`always_answered`), and option 6 of the menu counts the servers that hold the registers of the
client (`countNodes_iff`).
-/

namespace CrdtStore

open Handler (handlePost BroadcastEnd)
open RequestUtilities (BracketFree)

namespace Handler

/-- `handler::handle_get`, none when printing the map throws before the reply. -/
def handleGet (E : Escaping) (m : Map String String) : Option Reply :=
  (RequestUtilities.formatJson E 2 m.toJson).map fun _ => ⟨statusOk, m.toJson⟩

theorem handleGet_of_bracketless (E : Escaping) {m : Map String String} (h : m.Bracketless) :
    handleGet E m = some ⟨statusOk, m.toJson⟩ := by
  obtain ⟨text, htext⟩ := Option.isSome_iff_exists.mp (h.formatJson_isSome E)
  exact Option.map_eq_some_iff.mpr ⟨text, htext, rfl⟩

end Handler

namespace Network

/-! ## Servers that always answer -/

/-- 64-bit ids, nothing put contains a bracket, and nobody else sends anything. -/
def Polite (N : Network) : NetworkAction → Prop
  | .call i op => i < 2 ^ 64 ∧ ∀ key val, op = .put key val → BracketFree key ∧ BracketFree val
  | .send i => i < 2 ^ 64
  | .handle s _ => s < 2 ^ 64
  | .receive _ _ => True
  | .restart i => i < 2 ^ 64
  | .rehash i m => (N.node i).Equal m
  | .inject _ _ => False

variable {N : Network}

theorem kept_bracketless : Kept (fun op => ∀ key val, op = .put key val →
    BracketFree key ∧ BracketFree val) Map.Bracketless where
  new := .new
  apply h hop := h.apply hop
  merge h hr := h.merge hr
  of_equal h heq := h.of_equal heq
  truncated h := h.truncated

theorem Polite.quiet {a : NetworkAction} (h : Polite N a) : Quiet (fun op =>
    ∀ key val, op = .put key val → BracketFree key ∧ BracketFree val) N a := by
  cases a <;> exact h

/-- All maps, and all maps that bodies are decoded to, can be printed. -/
theorem holds_of_polite (h : system.Reachable Polite N) : Holds Map.Bracketless N :=
  holds_of_reachable kept_bracketless (h.mono fun _ _ ha => ha.quiet)

/-- **Servers that nobody sends brackets always answer.** A GET is answered OK with the whole map,
and every body that was ever sent is answered exactly once when it is posted, whatever the server
merges while it broadcasts. -/
theorem always_answered (h : system.Reachable Polite N) (E : Escaping) (s : ℕ) :
    Handler.handleGet E (N.node s) = some ⟨statusOk, (N.node s).toJson⟩ ∧
      ∀ p ∈ N.bodies, ∀ broadcast : Map String String → BroadcastEnd,
        (∀ m, ∃ N', system.Reachable Polite N' ∧ (broadcast m).map = N'.node s) →
        (handlePost E broadcast (N.node s) p.2).replies.length = 1 := by
  have hholds := holds_of_polite h
  refine ⟨Handler.handleGet_of_bracketless E (hholds.node s), fun p hp broadcast hlater => ?_⟩
  obtain ⟨m, hread, hm⟩ := hholds.body p hp
  have hprinted : (Handler.printedMap broadcast (N.node s) m p.2).Bracketless := by
    rw [Handler.printedMap]
    split
    · exact (hholds.node s).merge hm
    · -- a broadcast may have taken long, and the map is printed as it is then
      obtain ⟨N', hN', hmap⟩ := hlater ((N.node s).merge m)
      rw [hmap]
      exact (holds_of_polite hN').node s
  rw [Handler.replies_of_ok ((Handler.decoded_eq p.2).trans hread),
    if_pos (hprinted.formatJson_isSome E)]

theorem polite_firstSync : system.Reachable Polite firstSync := by
  refine System.Reachable.start.exec ⟨⟨by decide, fun key val hput => ?_⟩, ?_, ?_, trivial⟩
  · cases hput
    exact ⟨by decide, by decide⟩
  · show 5 < 2 ^ 64
    decide
  · show 0 < 2 ^ 64
    decide

theorem always_answered_firstSync :
    Handler.handleGet .hex (firstSync.node 0) = some ⟨statusOk, (firstSync.node 0).toJson⟩ ∧
      ∀ p ∈ firstSync.bodies, ∀ broadcast : Map String String → BroadcastEnd,
        (∀ m, ∃ N', system.Reachable Polite N' ∧ (broadcast m).map = N'.node 0) →
        (handlePost .hex broadcast (firstSync.node 0) p.2).replies.length = 1 :=
  always_answered polite_firstSync .hex 0

end Network

/-! ## Option 6 -/

/-- What a GET to a server with this map comes to. -/
def getResult (E : Escaping) (unanswered : HttpResult) (m : Map String String) : HttpResult :=
  (Handler.handleGet E m).elim unanswered fun reply => .response reply.statusCode (some reply.body)

namespace Menu

section Count

variable {around : Surroundings} {c : Client} {p : String → Bool}

/-- What option 6 prints about the ports that are not counted. -/
def outOfSync (ps : List String) (text : String) : String :=
  ps.foldl (fun text port => text ++ "Client is out of sync with " ++ port ++ "\n") text

/-- A loop that counts some ports and prints about the others. -/
theorem foldl_count {f : ℕ × String → String → ℕ × String} {ps : List String}
    (hf : ∀ port ∈ ps, ∀ acc, f acc port =
      if p port then (acc.1 + 1, acc.2) else (acc.1, outOfSync [port] acc.2))
    (count : ℕ) (text : String) :
    ps.foldl f (count, text) =
      (count + ps.countP p, outOfSync (ps.filter fun port => !p port) text) := by
  induction ps generalizing count text with
  | nil => rfl
  | cons port ps ih =>
    obtain ⟨hport, hps⟩ := List.forall_mem_cons.mp hf
    rw [List.foldl_cons, hport]
    cases hp : p port with
    | true =>
      rw [if_pos rfl, ih hps, List.countP_cons_of_pos hp, List.filter_cons_of_neg (by simp [hp])]
      congr 1
      omega
    | false =>
      rw [if_neg Bool.false_ne_true, ih hps, List.countP_cons_of_neg (by simp [hp]),
        List.filter_cons_of_pos (by simp [hp])]
      rfl

/-- When no check throws, option 6 counts the ports in sync and reports the others. -/
theorem countNodes_eq (h : ∀ port ∈ ports, inSync around c port = .ok (p port)) :
    countNodes around c = (ports.countP p, outOfSync (ports.filter fun port => !p port) "") := by
  rw [countNodes, foldl_count (p := p), Nat.zero_add]
  intro port hport acc
  rw [h port hport]
  cases p port <;> rfl

end Count

section Servers

variable {E : Escaping} {unanswered : HttpResult} {around : Surroundings} {c : Client}

theorem getState_getResult {m : Map String String} (h : m.Bracketless) :
    Client.getState (getResult E unanswered m) = m.toJson := by
  simp [getResult, Handler.handleGet_of_bracketless E h, Client.getState]

theorem inSync_of_server {port : String} {m : Map String String} (h : m.Bracketless)
    (hget : around.get port = getResult E unanswered m) :
    ∃ result, inSync around c port = .ok result ∧
      (result = true ↔ (∃ key, key ∈ m.registers) ∧ m.SameRegisters c.m) := by
  obtain ⟨result, hcompare, hresult⟩ := m.exists_compareRegisters c.m
  refine ⟨result, ?_, hresult⟩
  rw [inSync, hget, getState_getResult h]
  exact (if_neg Bool.false_ne_true).trans hcompare

theorem inSync_of_unanswered {port : String}
    (h : Client.getState (around.get port) = .number 0) : inSync around c port = .ok false := by
  rw [inSync, h]
  rfl

/-- The servers at the ports that are up, and their maps: option 6 counts the ones with the
registers of the client, at least one, and reports the other ports. -/
theorem exists_countNodes {maps : String → Option (Map String String)}
    (hmaps : ∀ port m, maps port = some m → m.Bracketless)
    (hunanswered : Client.getState unanswered = .number 0)
    (hget : ∀ port, around.get port = (maps port).elim unanswered (getResult E unanswered)) :
    ∃ p : String → Bool,
      (∀ port, p port = true ↔ ∃ m, maps port = some m ∧ (∃ key, key ∈ m.registers) ∧
        m.SameRegisters c.m) ∧
      countNodes around c = (ports.countP p, outOfSync (ports.filter fun port => !p port) "") := by
  have hport : ∀ port, ∃ result, inSync around c port = .ok result ∧
      (result = true ↔ ∃ m, maps port = some m ∧ (∃ key, key ∈ m.registers) ∧
        m.SameRegisters c.m) := by
    intro port
    have hthis := hget port
    cases hm : maps port with
    | none =>
      rw [hm] at hthis
      exact ⟨false, inSync_of_unanswered (hthis ▸ hunanswered), by simp⟩
    | some m =>
      rw [hm] at hthis
      obtain ⟨result, hcheck, hresult⟩ := inSync_of_server (c := c) (hmaps port m hm) hthis
      exact ⟨result, hcheck, by simp [hresult]⟩
  choose p hcheck hp using hport
  exact ⟨p, hp, countNodes_eq fun port _ => hcheck port⟩

end Servers

end Menu

namespace Network

variable {N : Network}

/-- **Option 6 is exact** while nobody sends brackets: it counts the ports whose server is up and
holds the registers of the client, at least one, and prints a line for each other port. -/
theorem countNodes_iff (h : system.Reachable Polite N) {E : Escaping} {unanswered : HttpResult}
    (hunanswered : Client.getState unanswered = .number 0) {server : String → Option ℕ}
    {around : Surroundings}
    (hget : ∀ port, around.get port =
      (server port).elim unanswered fun s => getResult E unanswered (N.node s)) (c : Client) :
    ∃ p : String → Bool,
      (∀ port, p port = true ↔ ∃ s, server port = some s ∧
        (∃ key, key ∈ (N.node s).registers) ∧ (N.node s).SameRegisters c.m) ∧
      Menu.countNodes around c = (Menu.ports.countP p,
        Menu.outOfSync (Menu.ports.filter fun port => !p port) "") := by
  have hmaps : ∀ port m, (server port).map N.node = some m → m.Bracketless := by
    intro port m hm
    obtain ⟨s, -, rfl⟩ := Option.map_eq_some_iff.mp hm
    exact (holds_of_polite h).node s
  obtain ⟨p, hp, hcount⟩ := Menu.exists_countNodes (c := c) hmaps hunanswered fun port => by
    rw [hget port]
    cases server port <;> rfl
  refine ⟨p, fun port => ?_, hcount⟩
  rw [hp port]
  cases server port <;> simp

/-- Server 0 is up, at the first port of option 6. -/
def serverAt (port : String) : Option ℕ := if port = "8080" then some 0 else none

def oneServer : Surroundings where
  attempts := []
  post _ _ _ := .exception
  get port := (serverAt port).elim .exception fun s => getResult .hex .exception (firstSync.node s)

theorem countNodes_firstSync :
    ∃ p : String → Bool,
      (∀ port, p port = true ↔ ∃ s, serverAt port = some s ∧
        (∃ key, key ∈ (firstSync.node s).registers) ∧
          (firstSync.node s).SameRegisters (firstSync.node 5)) ∧
      Menu.countNodes oneServer ⟨firstSync.node 5, 5, ⟨0, "", 0⟩⟩ = (Menu.ports.countP p,
        Menu.outOfSync (Menu.ports.filter fun port => !p port) "") :=
  countNodes_iff polite_firstSync rfl (fun _ => rfl) ⟨firstSync.node 5, 5, ⟨0, "", 0⟩⟩

end Network

end CrdtStore
