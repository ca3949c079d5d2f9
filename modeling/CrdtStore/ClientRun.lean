import CrdtStore.GetState

/-!
# Running the client program

The client program and the servers are the system of `Network`. A sync is a POST, its handling and
its reply (`sync_exchanges`), and whatever is typed into the menu, and whatever the others do
meanwhile, the map of the client and those of the servers are the ones of a run of that system
(`clientRun_reachable`). What holds in all its runs holds while the programs run.
-/

namespace CrdtStore

open InputStream (extractInt extractWord)
open Handler (Handled BroadcastEnd handlePost)
open RequestUtilities (BracketFree isBracket)

namespace Menu

/-! ## What one round does to the client -/

variable {around : Surroundings} {menu menu' : Menu}

theorem mem_of_mem_readString {input : List Char} {c : Char}
    (h : c ∈ (readString input).1.toList) : c ∈ input := by
  rw [readString, String.toList_ofList] at h
  cases hword : (extractWord input).1 with
  | none =>
    rw [hword] at h
    cases h
  | some word =>
    rw [hword] at h
    exact InputStream.mem_of_mem_extractWord hword c h

/-- The client is asked to sync. -/
def syncs (menu : Menu) : Bool := (extractInt menu.input).1 == some 5

theorem client_run {command : Command} {rest : List Char}
    (h : menu.run around command rest = .again menu') :
    ∃ text, command.perform around menu.client = some (text, menu'.client) := by
  rw [run] at h
  split at h
  · next text client hperform =>
    cases h
    exact ⟨text, hperform⟩
  · cases h

/-- What a call does to the client. -/
theorem client_call {op : MapOp String String} {c client : Client} {text : String}
    (h : (Command.call op).perform around c = some (text, client)) :
    client = { c with m := Map.replicated.apply op c.m } := by
  cases op with
  | put key value =>
    cases h
    rfl
  | remove key =>
    cases h
    rfl
  | get key =>
    have hclient : (if c.checkContains key then
        ("Enter key to get value: " ++ (c.getKeyFromMap key).1 ++ "\n", (c.getKeyFromMap key).2)
      else
        ("Enter key to get value: " ++ ("Key: " ++ key ++ " does not exist in K-V store") ++ "\n",
          c)) = (text, client) := Option.some.inj h
    show client = { c with m := (c.m.get key).2 }
    -- the menu gets only what is there; to get something else would not change the map
    by_cases hkey : c.checkContains key = true
    · rw [if_pos hkey] at hclient
      cases hclient
      rfl
    · have hcontains : ¬ c.m.contains key = true := hkey
      rw [if_neg hkey] at hclient
      cases hclient
      rw [Map.get, if_neg hcontains]

/-- What a choice does to the client: nothing, a call with what was typed, or a sync. -/
theorem client_choose {choice : ℤ} {rest : List Char}
    (h : menu.choose around choice rest = .again menu') :
    (choice ≠ 5 ∧ menu'.client = menu.client) ∨
      (choice ≠ 5 ∧ ∃ op : MapOp String String,
        (∀ key val, op = .put key val →
          (∀ c ∈ key.toList, c ∈ rest) ∧ ∀ c ∈ val.toList, c ∈ rest) ∧
        menu'.client = { menu.client with m := Map.replicated.apply op menu.client.m }) ∨
      (choice = 5 ∧ menu.client.sync around.attempts around.post = some menu'.client) := by
  have hkey : (readString rest).2 <:+ rest := readString_suffix rest
  -- the cases of the `switch`, in its order
  unfold choose at h
  split at h
  · obtain ⟨text, hperform⟩ := client_run h
    refine Or.inr (Or.inl ⟨by decide, _, fun key val hput => ?_, client_call hperform⟩)
    cases hput
    exact ⟨fun c hc => mem_of_mem_readString hc,
      fun c hc => hkey.subset (mem_of_mem_readString hc)⟩
  · obtain ⟨text, hperform⟩ := client_run h
    exact Or.inr (Or.inl ⟨by decide, .get (readString rest).1, nofun, client_call hperform⟩)
  · obtain ⟨text, hperform⟩ := client_run h
    exact Or.inr (Or.inl ⟨by decide, .remove (readString rest).1, nofun, client_call hperform⟩)
  · obtain ⟨text, hperform⟩ := client_run h
    obtain ⟨-, hclient⟩ := Prod.mk.inj (Option.some.inj hperform)
    exact Or.inl ⟨by decide, hclient.symm⟩
  · obtain ⟨text, hperform⟩ := client_run h
    obtain ⟨client, hsync, hclient⟩ := Option.map_eq_some_iff.mp hperform
    cases hclient
    exact Or.inr (Or.inr ⟨rfl, hsync⟩)
  · obtain ⟨text, hperform⟩ := client_run h
    obtain ⟨-, hclient⟩ := Prod.mk.inj (Option.some.inj hperform)
    exact Or.inl ⟨by decide, hclient.symm⟩
  · cases h
  · next hfive _ _ =>
    cases h
    exact Or.inl ⟨hfive, rfl⟩

theorem client_round (h : menu.round around = .again menu') :
    (menu.syncs = false ∧ menu'.client = menu.client) ∨
      (menu.syncs = false ∧ ∃ op : MapOp String String,
        (∀ key val, op = .put key val →
          (∀ c ∈ key.toList, c ∈ menu.input) ∧ ∀ c ∈ val.toList, c ∈ menu.input) ∧
        menu'.client = { menu.client with m := Map.replicated.apply op menu.client.m }) ∨
      (menu.syncs = true ∧ menu.client.sync around.attempts around.post = some menu'.client) := by
  cases hextract : extractInt menu.input with
  | mk choice rest =>
    have hsyncs : menu.syncs = (choice == some 5) := by
      rw [syncs, hextract]
    have hrest : rest <:+ menu.input := by
      have hsuffix := InputStream.extractInt_suffix menu.input
      rw [hextract] at hsuffix
      exact hsuffix
    rw [hsyncs]
    cases choice with
    | none =>
      rw [round_of_not_number hextract] at h
      cases h
      exact Or.inl ⟨rfl, rfl⟩
    | some choice =>
      rw [round_of_number hextract] at h
      rcases client_choose h with ⟨hne, hclient⟩ | ⟨hne, op, hop, hclient⟩ | ⟨rfl, hsync⟩
      · exact Or.inl ⟨by simpa using hne, hclient⟩
      · refine Or.inr (Or.inl ⟨by simpa using hne, op, fun key val hput => ?_, hclient⟩)
        obtain ⟨hkey, hval⟩ := hop key val hput
        exact ⟨fun c hc => hrest.subset (hkey c hc), fun c hc => hrest.subset (hval c hc)⟩
      · exact Or.inr (Or.inr ⟨rfl, hsync⟩)

/-- A round does not put anything back. -/
theorem input_round (h : menu.round around = .again menu') : menu'.input <:+ menu.input := by
  have hsuffix := InputStream.extractInt_suffix menu.input
  cases hextract : extractInt menu.input with
  | mk choice rest =>
    rw [hextract] at hsuffix
    cases choice with
    | none =>
      rw [round_of_not_number hextract] at h
      cases h
      exact (InputStream.ignoreLine_suffix rest).trans hsuffix
    | some choice =>
      rw [round_of_number hextract] at h
      exact (input_choose h).trans hsuffix

end Menu

namespace Handler

/-- What the client receives: the first reply. -/
def Handled.response (handled : Handled) : HttpResult :=
  match handled.replies with
  | [] => .exception
  | reply :: _ => .response reply.statusCode (some reply.body)

/-- A post from a client whose map can be decoded, at a server whose map can be printed. -/
theorem handlePost_of_client {E : Escaping} {broadcast : Map String String → BroadcastEnd}
    {m updatedMap : Map String String} {v : Json} (h : Map.ofJson v = .ok updatedMap)
    (hfield : v.hasField "from_replica" = false)
    (hprint : (broadcast (m.merge updatedMap)).map.Bracketless) :
    handlePost E broadcast m v =
      ⟨[if (broadcast (m.merge updatedMap)).result then
          syncedReply (broadcast (m.merge updatedMap)).map else failedReply],
        (broadcast (m.merge updatedMap)).map, .ok ()⟩ := by
  obtain ⟨reqJson, hreceived⟩ := exists_received (m := m) ((decoded_eq v).trans h)
  rw [if_neg (by rw [hfield]; exact Bool.false_ne_true)] at hreceived
  rw [handlePost, continuation, hreceived]
  simp only [printed_eq, hprint.formatJson_isSome E, if_true]
  rfl

end Handler

namespace Network

/-! ## Posts of a client -/

/-- The network when server `s` has merged the map that client `c` posted. -/
def posting (N : Network) (c s : ℕ) : Network :=
  (N.next (.send c)).next (.handle s N.bodies.length)

/-- How a POST of a client goes. -/
inductive Posted where
  /-- No server handles it while the client waits. -/
  | lost
  /-- Server `s` handles it. The others take the steps `meanwhile` during the broadcast, which ends
  with `result`; then the reply arrives or not. -/
  | handled (s : ℕ) (meanwhile : List NetworkAction) (result arrives : Bool)

namespace Posted

/-- The steps of the servers, the reply included. -/
def actions (N : Network) (c : ℕ) : Posted → List NetworkAction
  | lost => [.send c]
  | handled s meanwhile result _ =>
    [.send c, .handle s N.bodies.length] ++ meanwhile ++ if result then [.send s] else []

/-- What the client gets for its POST. -/
def answer (E : Escaping) (N : Network) (c : ℕ) (posted : Posted) (body : Json) : HttpResult :=
  match posted with
  | lost => .exception
  | handled s meanwhile result arrives =>
    let ended := system.exec (N.posting c s) meanwhile
    if arrives then (handlePost E (fun _ => ⟨result, ended.node s⟩) (N.node s) body).response
    else .exception

/-- What the others may do. -/
def Goes (N : Network) (c : ℕ) : Posted → Prop
  | lost => True
  | handled s meanwhile _ _ =>
    s < 2 ^ 64 ∧ system.Steps Polite (N.posting c s) meanwhile ∧
      (system.exec (N.posting c s) meanwhile).node c = N.node c

end Posted

variable {E : Escaping} {N : Network} {c : ℕ} {posted : Posted}

theorem setNode_self (N : Network) (i : ℕ) : N.setNode i (N.node i) = N := by
  rw [setNode, Function.update_eq_self]

theorem posting_eq (N : Network) (c s : ℕ) : N.posting c s =
    (N.addBody c (N.node c).toJson).handled s (N.node c).toJson := by
  have hbody : (N.addBody c (N.node c).toJson).bodies[N.bodies.length]? =
      some (c, (N.node c).toJson) := List.getElem?_concat_length
  show ((N.addBody c (N.node c).toJson).bodies[N.bodies.length]?.elim _ _) = _
  rw [hbody]
  rfl

theorem steps_posting (hc : c < 2 ^ 64) {s : ℕ} (hs : s < 2 ^ 64) :
    system.Steps Polite N [.send c, .handle s N.bodies.length] := ⟨hc, hs, trivial⟩

theorem Posted.Goes.steps (hc : c < 2 ^ 64) (h : posted.Goes N c) :
    system.Steps Polite N (posted.actions N c) := by
  cases posted with
  | lost => exact ⟨hc, trivial⟩
  | handled s meanwhile result arrives =>
    obtain ⟨hs, hmeanwhile, -⟩ := h
    refine ((steps_posting hc hs).append hmeanwhile).append ?_
    cases result with
    | true => exact ⟨hs, trivial⟩
    | false => trivial

/-- The response of a server that has handled the POST. -/
theorem answer_handled (h : system.Reachable Polite N) (hc : c < 2 ^ 64) {s : ℕ}
    {meanwhile : List NetworkAction} {result : Bool}
    (hgoes : (Posted.handled s meanwhile result true).Goes N c) :
    (Posted.handled s meanwhile result true).answer E N c (N.node c).toJson =
      if result then
        .response statusOk (some ((system.exec (N.posting c s) meanwhile).node s).toJson)
      else .response statusInternalError (some Handler.failedReply.body) := by
  obtain ⟨hs, hmeanwhile, -⟩ := hgoes
  have hended : system.Reachable Polite (system.exec (N.posting c s) meanwhile) :=
    (h.exec (steps_posting hc hs)).exec hmeanwhile
  have hencodable : (N.node c).keys.Encodable := ((holds_of_polite h).sound c).encodable hc
  obtain ⟨m, hm, -⟩ := Map.ofJson_toJson hencodable
  have hprint : ((system.exec (N.posting c s) meanwhile).node s).Bracketless :=
    (holds_of_polite hended).node s
  show (handlePost E _ (N.node s) _).response = _
  rw [Handler.handlePost_of_client hm rfl hprint]
  cases result <;> rfl

/-- Without an OK the client keeps its map. -/
theorem mergeResponse_failed (h : system.Reachable Polite N) (hc : c < 2 ^ 64) {s : ℕ}
    {meanwhile : List NetworkAction} {result arrives : Bool}
    (hgoes : (Posted.handled s meanwhile result arrives).Goes N c)
    (hreply : ¬ (arrives = true ∧ result = true)) :
    Client.mergeResponse (N.node c) ((Posted.handled s meanwhile result arrives).answer E N c
      (N.node c).toJson) = N.node c := by
  cases arrives with
  | false => rfl
  | true =>
    rw [answer_handled h hc hgoes, if_neg fun hresult => hreply ⟨rfl, hresult⟩]
    rfl

/-- The reply of a server is a step of the network. -/
theorem reachable_posted (h : system.Reachable Polite N) (hc : c < 2 ^ 64)
    (hgoes : posted.Goes N c) :
    system.Reachable Polite ((system.exec N (posted.actions N c)).setNode c
      (Client.mergeResponse (N.node c) (posted.answer E N c (N.node c).toJson))) := by
  have hactions : system.Reachable Polite (system.exec N (posted.actions N c)) :=
    h.exec (hgoes.steps hc)
  cases posted with
  | lost =>
    have hnode : (N.addBody c (N.node c).toJson).setNode c (N.node c) =
        N.addBody c (N.node c).toJson := setNode_self (N.addBody c (N.node c).toJson) c
    exact hnode ▸ hactions
  | handled s meanwhile result arrives =>
    have hquiet : (system.exec (N.posting c s) meanwhile).node c = N.node c := hgoes.2.2
    set ended := system.exec (N.posting c s) meanwhile with hended
    have hexec : system.exec N ((Posted.handled s meanwhile result arrives).actions N c) =
        system.exec ended (if result then [.send s] else []) := System.exec_append ..
    rw [hexec] at hactions ⊢
    have hkept : (system.exec ended (if result then [.send s] else [])).node c = N.node c := by
      cases result <;> exact hquiet
    by_cases hreply : arrives = true ∧ result = true
    · -- the reply is the last body, and the client receives it
      obtain ⟨rfl, rfl⟩ := hreply
      have hbody : (ended.addBody s (ended.node s).toJson).bodies[ended.bodies.length]? =
          some (s, (ended.node s).toJson) := List.getElem?_concat_length
      have hreceived : (ended.addBody s (ended.node s).toJson).next
          (.receive c ended.bodies.length) = (ended.addBody s (ended.node s).toJson).setNode c
            (Client.mergeResponse (N.node c)
              (.response statusOk (some (ended.node s).toJson))) := by
        show ((ended.addBody s (ended.node s).toJson).bodies[ended.bodies.length]?.elim _ _) = _
        rw [hbody, ← hquiet]
        rfl
      have hpolite : Polite (ended.addBody s (ended.node s).toJson)
          (.receive c ended.bodies.length) := trivial
      rw [answer_handled h hc hgoes, ← hended, if_pos rfl, if_pos rfl]
      rw [if_pos rfl] at hactions
      exact hreceived ▸ hactions.step hpolite
    · -- the servers went on, the client has nothing to merge
      rw [mergeResponse_failed h hc hgoes hreply, ← hkept, setNode_self]
      exact hactions

end Network

/-- A sync with these attempts comes to its POST. -/
def Client.posts (c : Client) (attempts : List Client.Attempt) : Bool :=
  (c.connect attempts).any fun after => !after.threw

/-- The map after a sync. -/
theorem Client.m_sync {c client : Client} {attempts : List Client.Attempt}
    {post : String → ℤ → Json → HttpResult} (h : c.sync attempts post = some client) :
    (c.posts attempts = false ∧ client.m = c.m) ∨
      (c.posts attempts = true ∧ ∃ ipAddress port,
        client.m = Client.mergeResponse c.m (post ipAddress port c.m.toJson)) := by
  obtain ⟨after, hconnect, hclient⟩ := Option.map_eq_some_iff.mp h
  have hm : after.client.m = c.m := m_connect hconnect
  have hposts : c.posts attempts = !after.threw := by
    rw [posts, hconnect]
    rfl
  rw [hposts]
  cases hthrew : after.threw with
  | true =>
    rw [if_pos hthrew] at hclient
    subst hclient
    exact Or.inl ⟨rfl, hm⟩
  | false =>
    rw [if_neg (by rw [hthrew]; exact Bool.false_ne_true)] at hclient
    subst hclient
    refine Or.inr ⟨rfl, after.client.myReplicaConfig.ipAddress,
      after.client.myReplicaConfig.port, ?_⟩
    rw [hm]

namespace Network

variable {E : Escaping} {N : Network} {c : ℕ} {posted : Posted}

/-- The network when client `c` has map `m`, after a POST or without one. -/
def afterSync (N : Network) (c : ℕ) (posted : Posted) (posts : Bool) (m : Map String String) :
    Network :=
  (if posts then system.exec N (posted.actions N c) else N).setNode c m

theorem afterSync_false (N : Network) (c : ℕ) (posted : Posted) (m : Map String String) :
    N.afterSync c posted false m = N.setNode c m := rfl

/-- A sync is a run of the network. -/
theorem sync_reachable (h : system.Reachable Polite N) (hc : c < 2 ^ 64)
    (hgoes : posted.Goes N c) {client client' : Client} {attempts : List Client.Attempt}
    (hm : client.m = N.node c)
    (hsync : client.sync attempts (fun _ _ => posted.answer E N c) = some client') :
    system.Reachable Polite (N.afterSync c posted (client.posts attempts) client'.m) := by
  rcases Client.m_sync hsync with ⟨hposts, hmap⟩ | ⟨hposts, ipAddress, port, hmap⟩
  · rw [hposts, afterSync_false, hmap, hm, setNode_self]
    exact h
  · rw [hposts, hmap, hm]
    exact reachable_posted h hc hgoes

/-- The server merges what the client posts. -/
theorem node_posting {s : ℕ} (hencodable : (N.node c).keys.Encodable) :
    ∃ updatedMap, updatedMap.Equal (N.node c).truncated ∧
      (N.posting c s).node s = (N.node s).merge updatedMap := by
  obtain ⟨updatedMap, hread, hequal⟩ := Map.ofJson_toJson hencodable
  refine ⟨updatedMap, hequal, ?_⟩
  rw [posting_eq, handled]
  rcases Handler.received_of_ok hread ((N.addBody c (N.node c).toJson).node s) with
    ⟨hfield, -⟩ | ⟨-, reqJson, -, hreceived⟩
  · exact absurd hfield Bool.false_ne_true
  · rw [hreceived]
    exact node_setNode_self ..

/-- **What a sync exchanges.** The server that handles the POST merges the map of the client; the
client merges the map that the server has at the end of its broadcast, exactly when the broadcast
ends well and the reply arrives. -/
theorem sync_exchanges (h : system.Reachable Polite N) (hc : c < 2 ^ 64) {s : ℕ}
    {meanwhile : List NetworkAction} {result arrives : Bool}
    (hgoes : (Posted.handled s meanwhile result arrives).Goes N c) {client client' : Client}
    {attempts : List Client.Attempt} (hm : client.m = N.node c)
    (hsync : client.sync attempts (fun _ _ =>
      (Posted.handled s meanwhile result arrives).answer E N c) = some client')
    (hposts : client.posts attempts = true) :
    (∃ updatedMap, updatedMap.Equal client.m.truncated ∧
      (N.posting c s).node s = (N.node s).merge updatedMap) ∧
    if arrives = true ∧ result = true then
      ∃ updatedMap, client'.m = client.m.merge updatedMap ∧
        updatedMap.Equal ((system.exec (N.posting c s) meanwhile).node s).truncated
    else client'.m = client.m := by
  have hended : system.Reachable Polite (system.exec (N.posting c s) meanwhile) :=
    (h.exec (steps_posting hc hgoes.1)).exec hgoes.2.1
  obtain ⟨ipAddress, port, hmap⟩ : ∃ ipAddress port, client'.m = Client.mergeResponse client.m
      ((Posted.handled s meanwhile result arrives).answer E N c client.m.toJson) := by
    rcases Client.m_sync hsync with ⟨hnone, -⟩ | ⟨-, hmap⟩
    · rw [hposts] at hnone
      cases hnone
    · exact hmap
  rw [hm] at hmap ⊢
  refine ⟨node_posting (((holds_of_polite h).sound c).encodable hc), ?_⟩
  split
  · next hreply =>
    obtain ⟨rfl, rfl⟩ := hreply
    obtain ⟨updatedMap, hread, hequal⟩ :=
      Map.ofJson_toJson (((holds_of_polite hended).sound s).encodable hgoes.1)
    rw [answer_handled h hc hgoes, if_pos rfl, mergeResponse_of_ok hread] at hmap
    exact ⟨updatedMap, hmap, hequal⟩
  · next hreply =>
    rw [hmap]
    exact mergeResponse_failed h hc hgoes hreply

/-- The load balancer names server 0, which answers. -/
def answering : Client.Attempt where
  loadBalancer := .response statusOk (some (Client.replyJson ⟨0, "127.0.0.1", 8080⟩))
  replica _ _ := .response statusOk (some (Map.new 0 : Map String String).toJson)

/-- Client 5 has put something. -/
def oncePut : Network := system.exec system.start [.call 5 (.put "k" "v")]

def putClient : Client := ⟨oncePut.node 5, 5, ⟨0, "", 0⟩⟩

/-- Server 0 handles the POST alone, and enough replicas answer. -/
def acknowledged : Posted := .handled 0 [] true true

theorem sync_exchanges_oncePut : ∃ client' : Client,
    (∃ updatedMap, updatedMap.Equal putClient.m.truncated ∧
      (oncePut.posting 5 0).node 0 = (oncePut.node 0).merge updatedMap) ∧
    if true = true ∧ true = true then
      ∃ updatedMap, client'.m = putClient.m.merge updatedMap ∧
        updatedMap.Equal ((system.exec (oncePut.posting 5 0) []).node 0).truncated
    else client'.m = putClient.m := by
  have h : system.Reachable Polite oncePut := by
    refine System.Reachable.start.exec ⟨⟨by decide, fun key val hput => ?_⟩, trivial⟩
    cases hput
    exact ⟨by decide, by decide⟩
  have hgoes : acknowledged.Goes oncePut 5 := ⟨by decide, trivial, rfl⟩
  obtain ⟨client', hsync⟩ := Option.isSome_iff_exists.mp
    (rfl : (putClient.sync [answering] fun _ _ => acknowledged.answer .hex oncePut 5).isSome = true)
  exact ⟨client', sync_exchanges h (by decide) hgoes rfl hsync rfl⟩

/-! ## The program -/

/-- The client program of client `c` and the network, from the constructor of the client on. -/
inductive ClientRun (E : Escaping) (c : ℕ) : Network → Menu → Prop
  /-- The constructor syncs before the menu is shown. -/
  | opened {N : Network} {posted : Posted} {client client' : Client} {input : List Char}
      {attempts : List Client.Attempt} (h : system.Reachable Polite N)
      (hnew : N.node c = Map.new c) (hm : client.m = Map.new c) (hgoes : posted.Goes N c)
      (hinput : ∀ ch ∈ input, isBracket ch = false)
      (hsync : client.sync attempts (fun _ _ => posted.answer E N c) = some client') :
      ClientRun E c (N.afterSync c posted (client.posts attempts) client'.m) ⟨client', input, ""⟩
  /-- The others take a step. -/
  | other {N : Network} {menu : Menu} {a : NetworkAction} (h : ClientRun E c N menu)
      (ha : Polite N a) (hother : (N.next a).node c = N.node c) : ClientRun E c (N.next a) menu
  /-- One round of the menu, in which the servers answer a POST. -/
  | round {N : Network} {menu menu' : Menu} {posted : Posted} {around : Surroundings}
      (h : ClientRun E c N menu) (hgoes : posted.Goes N c)
      (hpost : around.post = fun _ _ => posted.answer E N c)
      (hround : menu.round around = .again menu') :
      ClientRun E c (N.afterSync c posted (menu.syncs && menu.client.posts around.attempts)
        menu'.client.m) menu'

/-- **The programs are the network.** Whatever is typed, without brackets, and whatever the others
do meanwhile, the map of the client and those of the servers are those of a run of the network. -/
theorem clientRun_reachable {menu : Menu} (hc : c < 2 ^ 64) (h : ClientRun E c N menu) :
    system.Reachable Polite N ∧ N.node c = menu.client.m ∧
      ∀ ch ∈ menu.input, isBracket ch = false := by
  induction h with
  | opened h hnew hm hgoes hinput hsync =>
    exact ⟨sync_reachable h hc hgoes (hm.trans hnew.symm) hsync, node_setNode_self .., hinput⟩
  | other _ ha hother ih => exact ⟨ih.1.step ha, hother.trans ih.2.1, ih.2.2⟩
  | @round N menu menu' posted around _ hgoes hpost hround ih =>
    obtain ⟨hreachable, hnode, hinput⟩ := ih
    have hsuffix := Menu.input_round hround
    refine ⟨?_, node_setNode_self .., fun ch hch => hinput ch (hsuffix.subset hch)⟩
    -- the round left the client as it was, made a call, or synced
    rcases Menu.client_round hround with ⟨hsyncs, hclient⟩ | ⟨hsyncs, op, hop, hclient⟩ |
      ⟨hsyncs, hsync⟩
    · rw [hsyncs, Bool.false_and, afterSync_false, hclient, ← hnode, setNode_self]
      exact hreachable
    · have hpolite : Polite N (.call c op) := by
        refine ⟨hc, fun key val hput => ?_⟩
        obtain ⟨hkey, hval⟩ := hop key val hput
        exact ⟨fun ch hch => hinput ch (hkey ch hch), fun ch hch => hinput ch (hval ch hch)⟩
      rw [hsyncs, Bool.false_and, afterSync_false, hclient, ← hnode]
      exact hreachable.step hpolite
    · rw [hsyncs, Bool.true_and]
      exact sync_reachable hreachable hc hgoes hnode.symm (hpost ▸ hsync)

/-- Client 5 starts with a sync, then something is put. -/
theorem clientRun_typed : ∃ N menu, ClientRun .hex 5 N menu ∧ system.Reachable Polite N ∧
    N.node 5 = menu.client.m ∧ ∀ ch ∈ menu.input, isBracket ch = false := by
  have hgoes : acknowledged.Goes system.start 5 := ⟨by decide, trivial, rfl⟩
  obtain ⟨client, hsync⟩ := Option.isSome_iff_exists.mp
    (rfl : ((Menu.typed "").client.sync [answering] fun _ _ =>
      acknowledged.answer .hex system.start 5).isSome = true)
  have hinput : BracketFree "1 k v" := by decide
  have hopened : ClientRun .hex 5 (system.start.afterSync 5 acknowledged
      ((Menu.typed "").client.posts [answering]) client.m) ⟨client, "1 k v".toList, ""⟩ :=
    .opened .start rfl rfl hgoes hinput hsync
  have htyped : InputStream.words "1 k v".toList =
      (Menu.Command.call (.put "k" "v")).words ++ [] := by decide
  have hwords : InputStream.words (⟨client, "1 k v".toList, ""⟩ : Menu).input =
      (Menu.Command.call (.put "k" "v")).words ++ [] := htyped
  obtain ⟨rest, output, hround⟩ : ∃ rest output, (⟨client, "1 k v".toList, ""⟩ : Menu).round
      Menu.offline = .again ⟨client.putKvInMap "k" "v", rest, output⟩ := by
    obtain ⟨rest, hround, -⟩ := Menu.round_of_words Menu.offline hwords
    exact ⟨rest, _, hround.trans (Menu.run_of_some _ rfl)⟩
  have hlost : ∀ N : Network, Posted.lost.Goes N 5 ∧
      Menu.offline.post = fun _ _ => Posted.lost.answer .hex N 5 := fun _ => ⟨trivial, rfl⟩
  have hrun := hopened.round (hlost _).1 (hlost _).2 hround
  exact ⟨_, _, hrun, clientRun_reachable (by decide) hrun⟩

end Network

end CrdtStore
