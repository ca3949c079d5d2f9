import CrdtStore.Client
import CrdtStore.Library.InputStream
import CrdtStore.PlainMap
import CrdtStore.StateCheck

/-!
# The menu of the client program

`on_initialize_client` in `main.cpp` reads choices from the standard input in a loop, and calls the
client. `rounds_script` says that commands are carried out as they are written, in any layout;
`rounds_plain` that between syncs the user sees a plain map; `rounds_end` that the loop is left
while there is input, or never. The output is that of the loop; what a sync prints is left out.
-/

namespace CrdtStore

open InputStream

namespace Client

/-- `Client::put_kv_in_map`. -/
def putKvInMap (c : Client) (key value : String) : Client := { c with m := c.m.put key value }

/-- `Client::get_key_from_map`. -/
def getKeyFromMap (c : Client) (key : String) : String × Client :=
  ((c.m.get key).1, { c with m := (c.m.get key).2 })

/-- `Client::check_contains`. -/
def checkContains (c : Client) (key : String) : Bool := c.m.contains key

/-- `Client::remove_key_from_map`. -/
def removeKeyFromMap (c : Client) (key : String) : Client := { c with m := c.m.remove key }

end Client

/-- What the requests of the client come to in one round: those of a sync, and the GET requests to
the ports of option 6. -/
structure Surroundings where
  attempts : List Client.Attempt
  post : String → ℤ → Json → HttpResult
  get : String → HttpResult

/-- The loop in `on_initialize_client`: the client, what is left of the input, and the output. -/
structure Menu where
  client : Client
  input : List Char
  output : String

namespace Menu

/-- What a round ends in. In a sync that connects to no replica the program stays for ever. -/
inductive Outcome where
  | again (menu : Menu)
  | exited (menu : Menu)
  | connecting

def print (menu : Menu) (text : String) : Menu := { menu with output := menu.output ++ text }

def options : String :=
  "Menu Options:\n1. Map Put\n2. Map Get\n3. Map Remove\n4. Map Contains\n5. Sync with remote\n" ++
    "6. Get state of nodes \n7. Exit\nEnter your choice: "

/-- `std::cin >> key` for a new string, which stays empty at the end of the input. -/
def readString (input : List Char) : String × List Char :=
  (String.ofList ((extractWord input).1.getD []), (extractWord input).2)

/-- The ports of option 6. -/
def ports : List String := ["8080", "8081", "8082", "8083", "8084"]

/-- The condition that option 6 counts. -/
def inSync (around : Surroundings) (c : Client) (port : String) : Except Thrown Bool :=
  let serverJson := Client.getState (around.get port)
  if serverJson.valueEq (.number 0) then .ok false
  else RequestUtilities.compareRegisters serverJson c.m.toJson

/-- The loop of option 6: the count, and what it prints. -/
def countNodes (around : Surroundings) (c : Client) : ℕ × String :=
  ports.foldl (fun acc port =>
    match inSync around c port with
    | .ok true => (acc.1 + 1, acc.2)
    | .ok false => (acc.1, acc.2 ++ "Client is out of sync with " ++ port ++ "\n")
    -- the exception is reported on `std::cerr`
    | .error _ => acc) (0, "")

/-- What the menu can be asked for, besides leaving it. -/
inductive Command where
  | call (op : MapOp String String)
  | contains (key : String)
  | sync
  | nodes

namespace Command

/-- What a command prints, and the client it leaves, unless it does not come back. -/
def perform (around : Surroundings) (c : Client) : Command → Option (String × Client)
  | call (.put key value) =>
    some ("Enter key and value (separated by space): ", c.putKvInMap key value)
  | call (.get key) =>
    some <|
      if c.checkContains key then
        ("Enter key to get value: " ++ (c.getKeyFromMap key).1 ++ "\n", (c.getKeyFromMap key).2)
      else
        ("Enter key to get value: " ++ ("Key: " ++ key ++ " does not exist in K-V store") ++ "\n",
          c)
  | call (.remove key) => some ("Enter key to remove: ", c.removeKeyFromMap key)
  | contains key =>
    some ("Enter key to check: " ++ (if c.checkContains key then "1" else "0") ++ "\n", c)
  | sync => (c.sync around.attempts around.post).map fun c => ("", c)
  | nodes =>
    let (count, text) := countNodes around c
    some (text ++ "\nTotal sync node with client " ++ numberText count ++ "\n", c)

end Command

/-- A command is carried out, with `rest` left of the input. -/
def run (around : Surroundings) (menu : Menu) (command : Command) (rest : List Char) : Outcome :=
  match command.perform around menu.client with
  | some (text, client) => .again ⟨client, rest, menu.output ++ text⟩
  | none => .connecting

/-- The `switch` on the choice, with `rest` left of the input. -/
def choose (around : Surroundings) (menu : Menu) (choice : ℤ) (rest : List Char) : Outcome :=
  match choice with
  | 1 =>
    let (key, rest) := readString rest
    let (value, rest) := readString rest
    menu.run around (.call (.put key value)) rest
  | 2 =>
    let (key, rest) := readString rest
    menu.run around (.call (.get key)) rest
  | 3 =>
    let (key, rest) := readString rest
    menu.run around (.call (.remove key)) rest
  | 4 =>
    let (key, rest) := readString rest
    menu.run around (.contains key) rest
  | 5 => menu.run around .sync rest
  | 6 => menu.run around .nodes rest
  | 7 => .exited { menu with input := rest }
  | _ => .again ({ menu with input := rest }.print "Invalid choice. Please try again.\n")

/-- One round of the loop. -/
def round (around : Surroundings) (menu : Menu) : Outcome :=
  let menu := menu.print options
  match extractInt menu.input with
  | (none, rest) =>
    .again ({ menu with input := ignoreLine rest }.print
      "Invalid input. Please enter a number.\n")
  | (some choice, rest) => menu.choose around choice rest

/-- Rounds one after the other, each in its surroundings. -/
def rounds : List Surroundings → Menu → Outcome
  | [], menu => .again menu
  | around :: arounds, menu =>
    match menu.round around with
    | .again menu => rounds arounds menu
    | outcome => outcome

/-! ## Commands in the input -/

namespace Command

def choice : Command → ℕ
  | call (.put _ _) => 1
  | call (.get _) => 2
  | call (.remove _) => 3
  | contains _ => 4
  | sync => 5
  | nodes => 6

def arguments : Command → List String
  | call (.put key value) => [key, value]
  | call (.get key) => [key]
  | call (.remove key) => [key]
  | contains key => [key]
  | sync => []
  | nodes => []

/-- The words that ask for a command. -/
def words (command : Command) : List (List Char) :=
  (numberText command.choice).toList :: command.arguments.map String.toList

end Command

variable {around : Surroundings} {menu : Menu} {ws : List (List Char)}

theorem readString_of_words {input : List Char} {argument : String}
    (h : words input = argument.toList :: ws) :
    ∃ rest, readString input = (argument, rest) ∧ words rest = ws := by
  obtain ⟨rest, hextract, hws⟩ := extractWord_of_words h
  refine ⟨rest, ?_, hws⟩
  rw [readString, hextract]
  exact congrArg (·, rest) String.ofList_toList

/-- The `switch` reads the arguments of a command and carries it out. -/
theorem choose_of_words (around : Surroundings) (menu : Menu) {input : List Char}
    (command : Command)
    (h : words input = command.arguments.map String.toList ++ ws) :
    ∃ rest, menu.choose around command.choice input = menu.run around command rest ∧
      words rest = ws := by
  have hone : ∀ argument : String, words input = [argument].map String.toList ++ ws →
      ∃ rest, readString input = (argument, rest) ∧ words rest = ws :=
    fun argument h => readString_of_words h
  match command with
  | .call (.put key value) =>
    have hkey : words input = key.toList :: value.toList :: ws := h
    obtain ⟨rest, hkey, hrest⟩ := readString_of_words hkey
    obtain ⟨rest', hvalue, hws⟩ := readString_of_words hrest
    refine ⟨rest', ?_, hws⟩
    show menu.choose around 1 input = _
    simp only [choose, hkey, hvalue]
  | .call (.get key) =>
    obtain ⟨rest, hkey, hws⟩ := hone key h
    refine ⟨rest, ?_, hws⟩
    show menu.choose around 2 input = _
    simp only [choose, hkey]
  | .call (.remove key) =>
    obtain ⟨rest, hkey, hws⟩ := hone key h
    refine ⟨rest, ?_, hws⟩
    show menu.choose around 3 input = _
    simp only [choose, hkey]
  | .contains key =>
    obtain ⟨rest, hkey, hws⟩ := hone key h
    refine ⟨rest, ?_, hws⟩
    show menu.choose around 4 input = _
    simp only [choose, hkey]
  | .sync => exact ⟨input, rfl, h⟩
  | .nodes => exact ⟨input, rfl, h⟩

theorem choice_lt (command : Command) : command.choice < 2 ^ 31 := by
  match command with
  | .call (.put _ _) => exact (by norm_num : 1 < 2 ^ 31)
  | .call (.get _) => exact (by norm_num : 2 < 2 ^ 31)
  | .call (.remove _) => exact (by norm_num : 3 < 2 ^ 31)
  | .contains _ => exact (by norm_num : 4 < 2 ^ 31)
  | .sync => exact (by norm_num : 5 < 2 ^ 31)
  | .nodes => exact (by norm_num : 6 < 2 ^ 31)

theorem round_of_number {choice : ℤ} {rest : List Char}
    (h : extractInt menu.input = (some choice, rest)) :
    menu.round around = (menu.print options).choose around choice rest := by
  have h : extractInt (menu.print options).input = (some choice, rest) := h
  rw [round, h]

theorem round_of_not_number {rest : List Char} (h : extractInt menu.input = (none, rest)) :
    menu.round around = .again ⟨menu.client, ignoreLine rest,
      menu.output ++ options ++ "Invalid input. Please enter a number.\n"⟩ := by
  have h : extractInt (menu.print options).input = (none, rest) := h
  rw [round, h]
  rfl

theorem run_of_some (menu : Menu) {command : Command} {rest : List Char} {text : String}
    {client : Client} (h : command.perform around menu.client = some (text, client)) :
    menu.run around command rest = .again ⟨client, rest, menu.output ++ text⟩ := by
  rw [run, h]

theorem run_of_none (menu : Menu) {command : Command} {rest : List Char}
    (h : command.perform around menu.client = none) :
    menu.run around command rest = .connecting := by
  rw [run, h]

/-- One command. -/
theorem round_of_words (around : Surroundings) {command : Command}
    (h : words menu.input = command.words ++ ws) :
    ∃ rest, menu.round around = (menu.print options).run around command rest ∧
      words rest = ws := by
  obtain ⟨input, hextract, hwords⟩ := extractInt_of_words h (choice_lt command)
  obtain ⟨rest, hchoose, hws⟩ := choose_of_words around (menu.print options) command hwords
  exact ⟨rest, (round_of_number hextract).trans hchoose, hws⟩

/-- The choice to leave. -/
theorem round_of_seven (around : Surroundings) (menu : Menu)
    (h : words menu.input = (numberText 7).toList :: ws) :
    ∃ rest, menu.round around = .exited ⟨menu.client, rest, menu.output ++ options⟩ ∧
      words rest = ws := by
  obtain ⟨rest, hextract, hws⟩ := extractInt_of_words h (by norm_num)
  exact ⟨rest, round_of_number hextract, hws⟩

/-- Commands one after the other: all that the menu prints, and the client it leaves. -/
def performAll : List (Surroundings × Command) → Client → Option (String × Client)
  | [], c => some ("", c)
  | (around, command) :: script, c => do
    let (text, c) ← command.perform around c
    let (texts, c) ← performAll script c
    return (options ++ text ++ texts, c)

/-- Commands in the input, however laid out, are carried out one after the other. -/
theorem rounds_of_words (menu : Menu) {script : List (Surroundings × Command)}
    (h : words menu.input = script.flatMap (fun p => p.2.words) ++ ws) :
    (performAll script menu.client = none → rounds (script.map Prod.fst) menu = .connecting) ∧
      ∀ text client, performAll script menu.client = some (text, client) →
        ∃ rest, rounds (script.map Prod.fst) menu = .again ⟨client, rest, menu.output ++ text⟩ ∧
          words rest = ws := by
  induction script generalizing menu with
  | nil =>
    refine ⟨nofun, fun text client hperform => ?_⟩
    cases hperform
    exact ⟨menu.input, by rw [String.append_empty]; rfl, h⟩
  | cons p script ih =>
    obtain ⟨around, command⟩ := p
    rw [List.flatMap_cons, List.append_assoc] at h
    obtain ⟨input, hround, hwords⟩ := round_of_words around h
    rw [List.map_cons, rounds, performAll]
    cases hperform : command.perform around menu.client with
    | none =>
      -- the loop stays in this sync, and what follows is not read
      rw [hround.trans (run_of_none (menu.print options) hperform)]
      exact ⟨fun _ => rfl, nofun⟩
    | some result =>
      obtain ⟨text, client⟩ := result
      rw [hround.trans (run_of_some (menu.print options) hperform)]
      obtain ⟨hnone, hsome⟩ := ih ⟨client, input, menu.output ++ options ++ text⟩ hwords
      simp only [Option.bind_eq_bind, Option.bind_some]
      cases hscript : performAll script client with
      | none => exact ⟨fun _ => hnone hscript, nofun⟩
      | some result' =>
        obtain ⟨texts, client'⟩ := result'
        refine ⟨nofun, fun all final hall => ?_⟩
        cases hall
        obtain ⟨rest, hrounds, hws⟩ := hsome texts client' hscript
        refine ⟨rest, ?_, hws⟩
        rw [← String.append_assoc, ← String.append_assoc]
        exact hrounds

theorem rounds_append (arounds arounds' : List Surroundings) (menu : Menu) :
    rounds (arounds ++ arounds') menu =
      match rounds arounds menu with
      | .again menu => rounds arounds' menu
      | outcome => outcome := by
  induction arounds generalizing menu with
  | nil => rfl
  | cons around arounds ih =>
    rw [List.cons_append, rounds, rounds]
    cases menu.round around with
    | again menu => exact ih menu
    | exited menu => rfl
    | connecting => rfl

/-- **Scripts are carried out as they are written**, in whatever way their words are laid out: the
commands one after the other, then the program leaves the loop with the rest of the input unread; or
it stays in a sync. -/
theorem rounds_script {script : List (Surroundings × Command)}
    (h : words menu.input =
      script.flatMap (fun p => p.2.words) ++ (numberText 7).toList :: ws) :
    (performAll script menu.client = none →
      rounds (script.map Prod.fst ++ [around]) menu = .connecting) ∧
    ∀ text client, performAll script menu.client = some (text, client) →
      ∃ rest, rounds (script.map Prod.fst ++ [around]) menu =
        .exited ⟨client, rest, menu.output ++ text ++ options⟩ ∧ words rest = ws := by
  obtain ⟨hnone, hsome⟩ := rounds_of_words menu h
  rw [rounds_append]
  refine ⟨fun hperform => ?_, fun text client hperform => ?_⟩
  · rw [hnone hperform]
  · obtain ⟨input, hrounds, hwords⟩ := hsome text client hperform
    obtain ⟨rest, hround, hws⟩ :=
      round_of_seven around ⟨client, input, menu.output ++ text⟩ hwords
    refine ⟨rest, ?_, hws⟩
    rw [hrounds]
    show rounds [around] _ = _
    rw [rounds, hround]

/-- Nobody answers. -/
def offline : Surroundings := ⟨[], fun _ _ _ => .exception, fun _ => .exception⟩

/-- Client 5 before its first sync, with something typed in. -/
def typed (input : String) : Menu := ⟨⟨Map.new 5, 5, ⟨0, "", 0⟩⟩, input.toList, ""⟩

/-- A put, the check whether the key is there, and the exit, on two lines. -/
def putAndCheck : List (Surroundings × Command) :=
  [(offline, .call (.put "k" "v")), (offline, .contains "k")]

theorem rounds_putAndCheck :
    (performAll putAndCheck (typed "1 k v 4\n\tk 7").client = none →
      rounds (putAndCheck.map Prod.fst ++ [offline]) (typed "1 k v 4\n\tk 7") = .connecting) ∧
    ∀ text client, performAll putAndCheck (typed "1 k v 4\n\tk 7").client = some (text, client) →
      ∃ rest, rounds (putAndCheck.map Prod.fst ++ [offline]) (typed "1 k v 4\n\tk 7") =
        .exited ⟨client, rest, (typed "1 k v 4\n\tk 7").output ++ text ++ options⟩ ∧
          words rest = [] :=
  rounds_script (by decide)

/-! ## The plain map behind the menu -/

/-- What a command prints and does when the store is a plain finite map; there is no plain map to
sync with or to compare with others. -/
def Command.onPlain (pairs : UnorderedMap String String) :
    Command → Option (String × UnorderedMap String String)
  | call (.put key value) =>
    some ("Enter key and value (separated by space): ", pairs.insert key value)
  | call (.get key) =>
    some ("Enter key to get value: " ++
      ((pairs.lookup key).getD ("Key: " ++ key ++ " does not exist in K-V store")) ++ "\n", pairs)
  | call (.remove key) => some ("Enter key to remove: ", pairs.erase key)
  | contains key =>
    some ("Enter key to check: " ++ (if (pairs.lookup key).isSome then "1" else "0") ++ "\n", pairs)
  | sync => none
  | nodes => none

/-- Commands on a plain map one after the other. -/
def plainAll : List Command → UnorderedMap String String →
    Option (String × UnorderedMap String String)
  | [], pairs => some ("", pairs)
  | command :: commands, pairs => do
    let (text, pairs) ← command.onPlain pairs
    let (texts, pairs) ← plainAll commands pairs
    return (options ++ text ++ texts, pairs)

open Map (Shows)

variable {i : ℕ} {c : Client} {pairs : UnorderedMap String String}

theorem checkContains_eq (h : Shows i c.m pairs) (key : String) :
    c.checkContains key = (pairs.lookup key).isSome := by
  rw [Bool.eq_iff_iff, Client.checkContains, h.contains_iff, AList.lookup_isSome]

/-- A command on a client whose map shows a plain map. -/
theorem perform_of_onPlain (around : Surroundings) (h : Shows i c.m pairs) {command : Command}
    {text : String} {pairs' : UnorderedMap String String}
    (hplain : command.onPlain pairs = some (text, pairs')) :
    ∃ m, command.perform around c = some (text, { c with m := m }) ∧ Shows i m pairs' := by
  match command with
  | .call (.put key value) =>
    cases hplain
    exact ⟨_, rfl, h.put key value⟩
  | .call (.get key) =>
    cases hplain
    refine ⟨(c.m.get key).2, ?_, ?_⟩
    · show some (if c.checkContains key then _ else _) = _
      rw [checkContains_eq h]
      cases hv : pairs.lookup key with
      | some v =>
        have hget : (c.getKeyFromMap key).1 = v := h.get_eq hv
        rw [hget]
        rfl
      | none =>
        have hget : (c.m.get key).2 = c.m := h.consistent.get key
        rw [hget]
        rfl
    · rw [h.consistent.get]
      exact h
  | .call (.remove key) =>
    cases hplain
    exact ⟨_, rfl, h.remove key⟩
  | .contains key =>
    cases hplain
    refine ⟨c.m, ?_, h⟩
    show some (_ ++ (if c.checkContains key then "1" else "0") ++ _, c) = _
    rw [checkContains_eq h]

theorem performAll_of_plainAll (c : Client) (h : Shows i c.m pairs)
    {script : List (Surroundings × Command)} {text : String}
    {pairs' : UnorderedMap String String}
    (hplain : plainAll (script.map Prod.snd) pairs = some (text, pairs')) :
    ∃ m, performAll script c = some (text, { c with m := m }) ∧ Shows i m pairs' := by
  induction script generalizing c pairs text with
  | nil =>
    cases hplain
    exact ⟨c.m, rfl, h⟩
  | cons p script ih =>
    obtain ⟨around, command⟩ := p
    rw [List.map_cons, plainAll] at hplain
    obtain ⟨⟨text₁, pairs₁⟩, hcommand, hplain⟩ := Option.bind_eq_some_iff.mp hplain
    obtain ⟨⟨texts, pairs₂⟩, hscript, hplain⟩ := Option.bind_eq_some_iff.mp hplain
    cases hplain
    obtain ⟨m₁, hperform, hshows₁⟩ := perform_of_onPlain around h hcommand
    obtain ⟨m₂, hperformAll, hshows₂⟩ := ih { c with m := m₁ } hshows₁ hscript
    refine ⟨m₂, ?_, hshows₂⟩
    rw [performAll, hperform]
    show (performAll script { c with m := m₁ }).bind _ = _
    rw [hperformAll]
    rfl

/-- **Between syncs the user sees a plain map.** A script of commands other than syncs and state
checks prints what it prints on a plain finite map that starts with the pairs of the client, and the
client shows the pairs that the plain map ends with. -/
theorem rounds_plain (h : Map.Consistent i menu.client.m)
    (script : List (Surroundings × Command)) (hwords : words menu.input =
      script.flatMap (fun p => p.2.words) ++ (numberText 7).toList :: ws) {text : String}
    {pairs' : UnorderedMap String String}
    (hplain : plainAll (script.map Prod.snd) menu.client.m.keyValuePairs = some (text, pairs')) :
    ∃ m rest, rounds (script.map Prod.fst ++ [around]) menu =
        .exited ⟨{ menu.client with m := m }, rest, menu.output ++ text ++ options⟩ ∧
      words rest = ws ∧ Shows i m pairs' := by
  obtain ⟨m, hperform, hshows⟩ := performAll_of_plainAll menu.client h.shows hplain
  obtain ⟨input, hrounds, hinput⟩ := (rounds_of_words menu hwords).2 text _ hperform
  obtain ⟨rest, hround, hws⟩ :=
    round_of_seven around ⟨{ menu.client with m := m }, input, menu.output ++ text⟩ hinput
  refine ⟨m, rest, ?_, hws, hshows⟩
  rw [rounds_append, hrounds]
  show rounds [around] _ = _
  rw [rounds, hround]

theorem rounds_plain_putAndCheck : ∃ text pairs' m rest,
    rounds (putAndCheck.map Prod.fst ++ [offline]) (typed "1 k v 4\n\tk 7") =
      .exited ⟨{ (typed "1 k v 4\n\tk 7").client with m := m }, rest,
        (typed "1 k v 4\n\tk 7").output ++ text ++ options⟩ ∧
    words rest = [] ∧ Shows 5 m pairs' :=
  ⟨_, _, rounds_plain (Map.Consistent.new 5) putAndCheck (by decide) rfl⟩

/-! ## The end of the input -/

theorem readString_suffix (input : List Char) : (readString input).2 <:+ input :=
  extractWord_suffix input

/-- The `switch` does not put anything back. -/
theorem input_choose {choice : ℤ} {rest : List Char} {menu' : Menu}
    (h : menu.choose around choice rest = .again menu') : menu'.input <:+ rest := by
  have hrun : ∀ command input, menu.run around command input = .again menu' →
      menu'.input = input := by
    intro command input h
    rw [run] at h
    split at h
    · cases h
      rfl
    · cases h
  have hkey : (readString rest).2 <:+ rest := readString_suffix rest
  unfold choose at h
  split at h
  · rw [hrun _ _ h]
    exact (readString_suffix _).trans hkey
  · rw [hrun _ _ h]
    exact hkey
  · rw [hrun _ _ h]
    exact hkey
  · rw [hrun _ _ h]
    exact hkey
  · rw [hrun _ _ h]
  · rw [hrun _ _ h]
  · cases h
  · cases h
    exact List.suffix_refl _

/-- As long as there is input, a round takes some of it. -/
theorem length_input_round {menu' : Menu} (h : menu.round around = .again menu')
    (hne : menu.input ≠ []) : menu'.input.length < menu.input.length := by
  cases hextract : extractInt menu.input with
  | mk choice rest =>
    have hrest : rest.length ≤ menu.input.length := by
      have hsuffix := extractInt_suffix menu.input
      rw [hextract] at hsuffix
      exact hsuffix.length_le
    cases choice with
    | none =>
      rw [round_of_not_number hextract] at h
      cases h
      -- the failed reading may have consumed all; otherwise the line is ignored
      by_cases hnil : rest = []
      · rw [hnil]
        exact List.length_pos_iff.mpr hne
      · exact (length_ignoreLine_lt hnil).trans_le hrest
    | some choice =>
      rw [round_of_number hextract] at h
      have hlt := length_extractInt_lt (congrArg Prod.fst hextract)
      rw [hextract] at hlt
      exact (input_choose h).length_le.trans_lt hlt

/-- At the end of the input a round asks again. -/
theorem round_at_end (h : menu.input = []) : menu.round around =
    .again ⟨menu.client, [],
      menu.output ++ options ++ "Invalid input. Please enter a number.\n"⟩ := by
  have hextract : extractInt menu.input = (none, []) := by
    rw [h]
    rfl
  exact round_of_not_number hextract

/-- What `n` rounds print that find no number. -/
def askedAgain : ℕ → String
  | 0 => ""
  | n + 1 => options ++ "Invalid input. Please enter a number.\n" ++ askedAgain n

theorem rounds_at_end (arounds : List Surroundings) (client : Client) (output : String) :
    rounds arounds ⟨client, [], output⟩ =
      .again ⟨client, [], output ++ askedAgain arounds.length⟩ := by
  induction arounds generalizing output with
  | nil =>
    rw [List.length_nil, askedAgain, String.append_empty]
    rfl
  | cons around arounds ih =>
    rw [rounds, round_at_end rfl, List.length_cons, askedAgain]
    simp only [← String.append_assoc]
    exact ih _

/-- After as many rounds as there are characters, nothing is left. -/
theorem input_rounds {arounds : List Surroundings} {menu' : Menu}
    (h : rounds arounds menu = .again menu') (hlen : menu.input.length ≤ arounds.length) :
    menu'.input = [] := by
  induction arounds generalizing menu with
  | nil =>
    cases h
    exact List.eq_nil_of_length_eq_zero (Nat.le_zero.mp hlen)
  | cons around arounds ih =>
    by_cases hne : menu.input = []
    · obtain ⟨client, input, output⟩ := menu
      obtain rfl : input = [] := hne
      rw [rounds_at_end] at h
      cases h
      rfl
    · rw [rounds] at h
      cases hround : menu.round around with
      | again menu₁ =>
        rw [hround] at h
        have hlt := length_input_round hround hne
        rw [List.length_cons] at hlen
        exact ih h (by omega)
      | exited menu₁ =>
        rw [hround] at h
        cases h
      | connecting =>
        rw [hround] at h
        cases h

/-- **The menu is left while there is input, or never.** Within as many rounds as the input has
characters the loop ends, or it stays in a sync, or it goes round for ever: it prints the options
and asks for a number again, and does not touch the client. -/
theorem rounds_end (menu : Menu) (arounds : List Surroundings)
    (hlen : menu.input.length ≤ arounds.length) :
    (∃ menu', rounds arounds menu = .exited menu') ∨ rounds arounds menu = .connecting ∨
      ∃ client output, ∀ more, rounds (arounds ++ more) menu =
        .again ⟨client, [], output ++ askedAgain more.length⟩ := by
  cases hrounds : rounds arounds menu with
  | exited menu' => exact Or.inl ⟨menu', rfl⟩
  | connecting => exact Or.inr (Or.inl rfl)
  | again menu' =>
    refine Or.inr (Or.inr ⟨menu'.client, menu'.output, fun more => ?_⟩)
    have hinput : menu' = ⟨menu'.client, [], menu'.output⟩ := by
      rw [← input_rounds hrounds hlen]
    rw [rounds_append, hrounds, hinput]
    exact rounds_at_end more _ _

theorem rounds_end_without_exit :
    (∃ menu', rounds [offline, offline] (typed "1x") = .exited menu') ∨
      rounds [offline, offline] (typed "1x") = .connecting ∨
      ∃ client output, ∀ more, rounds ([offline, offline] ++ more) (typed "1x") =
        .again ⟨client, [], output ++ askedAgain more.length⟩ :=
  rounds_end _ _ (by decide)

end Menu

end CrdtStore
