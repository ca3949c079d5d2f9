import CrdtStore.Codec

/-!
# The order of the buckets

The containers of `statebased/orset.hh` and `statebased/map.hh` are unordered: which entry a loop
visits first is up to the hash table. `Equal` identifies states with the same contents, and every
operation of the two classes keeps it, so that no sequence of calls and merges can tell two orders
apart.
-/

namespace CrdtStore

open UnorderedMap (Same lookup_insert_eq lookup_erase_eq)

namespace ORSet

variable {α : Type*} [DecidableEq α] {A A' B B' : ORSet α}

theorem Equal.refl (A : ORSet α) : A.Equal A where
  elements e := by
    cases A.elements.lookup e with
    | none => exact .none
    | some adds => exact .some (Same.refl adds)
  versions := Same.refl _
  replicaId := rfl

/-- The entry of an element on both sides. -/
theorem Equal.lookup_eq_none (h : A.Equal B) {e : α} :
    A.elements.lookup e = none ↔ B.elements.lookup e = none := by
  have hrel := h.elements e
  revert hrel
  generalize A.elements.lookup e = a, B.elements.lookup e = b
  intro hrel
  cases hrel <;> simp

/-- An element of one set is one of the other, with the same tags. -/
theorem Equal.lookup_eq_some (h : A.Equal B) {e : α} {adds : Tags}
    (hadds : A.elements.lookup e = some adds) :
    ∃ adds', B.elements.lookup e = some adds' ∧ Same adds adds' := by
  have hrel := h.elements e
  rw [hadds] at hrel
  revert hrel
  generalize B.elements.lookup e = b
  intro hrel
  cases hrel with
  | some hsame => exact ⟨_, rfl, hsame⟩

theorem Equal.contains_eq (h : A.Equal B) (e : α) : A.contains e = B.contains e := by
  have hmem : e ∈ A.elements ↔ e ∈ B.elements := by
    rw [← not_iff_not, UnorderedMap.not_mem_iff_lookup, UnorderedMap.not_mem_iff_lookup]
    exact h.lookup_eq_none
  simp only [contains, hmem]

/-- Both have seen the same versions of every replica. -/
theorem Equal.seen_eq (h : A.Equal B) (j : ℕ) : A.seen j = B.seen j := by
  rw [seen, seen, h.versions j]

theorem Equal.size_eq (h : A.Equal B) : A.size = B.size := by
  apply UnorderedMap.size_eq_of_mem_iff
  intro e
  rw [← not_iff_not, UnorderedMap.not_mem_iff_lookup, UnorderedMap.not_mem_iff_lookup]
  exact h.lookup_eq_none

/-- Which tags are new does not depend on the order. -/
theorem Equal.unseen_eq (h : A.Equal B) (j : ℕ) (t : Timestamp) : A.unseen j t = B.unseen j t := by
  rw [unseen, unseen, h.versions j]

/-- Tags are updated one by one, each on its own. -/
theorem Equal.updateTags_same (h : A.Equal B) {adds adds' remoteAdds remoteAdds' : Tags}
    (hadds : Same adds adds') (hremote : Same remoteAdds remoteAdds') :
    Same (A.updateTags adds remoteAdds) (B.updateTags adds' remoteAdds') := by
  intro j
  rw [lookup_updateTags, lookup_updateTags, hremote j, hadds j]
  simp only [h.unseen_eq]

/-- Whether one of the tags is newer does not depend on which is looked at first. -/
theorem Equal.newerRemoteRemove_eq (h : A.Equal B) {adds adds' : Tags} (hadds : Same adds adds') :
    newerRemoteRemove A adds = newerRemoteRemove B adds' := by
  have hconcurrent : concurrentAdd A adds = concurrentAdd B adds' := by
    rw [concurrentAdd, concurrentAdd, hadds.any_eq]
    simp only [h.versions _]
  have hevidence : evidence A adds = evidence B adds' := by
    rw [evidence, evidence, h.versions.any_eq]
    simp only [hadds _]
  rw [newerRemoteRemove, newerRemoteRemove, hconcurrent, hevidence]

theorem Equal.any_unseen_eq (h : A.Equal B) {adds adds' : Tags} (hadds : Same adds adds') :
    UnorderedMap.any adds A.unseen = UnorderedMap.any adds' B.unseen := by
  have hfun : A.unseen = B.unseen := funext fun j => funext fun t => h.unseen_eq j t
  rw [hadds.any_eq, hfun]

/-- `add` writes one entry of each map. -/
theorem Equal.add (h : A.Equal B) (e : α) : (A.add e).Equal (B.add e) where
  elements e' := by
    rw [lookup_add, lookup_add, h.replicaId, h.versions B.replicaId]
    split
    · apply Option.Rel.some
      apply Same.insert
      cases hA : A.elements.lookup e with
      | none =>
        rw [h.lookup_eq_none.mp hA]
        exact Same.refl _
      | some adds =>
        obtain ⟨adds', hB, hsame⟩ := h.lookup_eq_some hA
        rw [hB]
        exact hsame
    · exact h.elements e'
  versions j := by
    rw [lookup_versions_add, lookup_versions_add, h.replicaId, h.versions j,
      h.versions B.replicaId]
  replicaId := h.replicaId

theorem Equal.remove (h : A.Equal B) (e : α) : (A.remove e).2.Equal (B.remove e).2 where
  elements e' := by
    rw [lookup_remove, lookup_remove]
    split
    · exact .none
    · exact h.elements e'
  versions := h.versions
  replicaId := h.replicaId

/-- Each pass of `merge` treats the entries one by one. -/
theorem Equal.merge (h : A.Equal A') (hB : B.Equal B') : (A.merge B).Equal (A'.merge B') where
  elements e := by
    rw [lookup_merge, lookup_merge]
    -- on which sides the element is decides what the loops do with it
    cases hA : A.elements.lookup e with
    | none =>
      rw [h.lookup_eq_none.mp hA]
      cases hb : B.elements.lookup e with
      | none =>
        rw [hB.lookup_eq_none.mp hb]
        exact .none
      | some remoteAdds =>
        obtain ⟨remoteAdds', hb', hsame⟩ := hB.lookup_eq_some hb
        rw [hb']
        simp only [h.any_unseen_eq hsame]
        split
        · exact .some hsame
        · exact .none
    | some adds =>
      obtain ⟨adds', hA', hadds⟩ := h.lookup_eq_some hA
      rw [hA']
      cases hb : B.elements.lookup e with
      | none =>
        rw [hB.lookup_eq_none.mp hb]
        simp only [hB.newerRemoteRemove_eq hadds]
        split
        · exact .none
        · exact .some hadds
      | some remoteAdds =>
        obtain ⟨remoteAdds', hb', hsame⟩ := hB.lookup_eq_some hb
        rw [hb']
        exact .some (h.updateTags_same hadds hsame)
  versions j := by
    rw [lookup_versions_merge, lookup_versions_merge, h.versions j, hB.versions j]
  replicaId := h.replicaId

end ORSet

namespace Map

variable {K V : Type*} [DecidableEq K] {m m' remote remote' : Map K V}

theorem Equal.refl (m : Map K V) : m.Equal m := ⟨ORSet.Equal.refl _, Same.refl _⟩

theorem Equal.contains_eq (h : m.Equal m') (k : K) : m.contains k = m'.contains k :=
  h.keys.contains_eq k

/-- The pairs are those of the registers of both. -/
theorem Equal.keyValuePairs_same (h : m.Equal m') : Same m.keyValuePairs m'.keyValuePairs := by
  intro k
  rw [lookup_keyValuePairs, lookup_keyValuePairs, h.registers k]

theorem Equal.remove (h : m.Equal m') (key : K) : (m.remove key).Equal (m'.remove key) :=
  ⟨h.keys.remove key, h.registers.erase key⟩

variable [Inhabited V]

/-- `put` finds the same register, and assigns it under the same timestamp. -/
theorem Equal.put (h : m.Equal m') (key : K) (val : V) : (m.put key val).Equal (m'.put key val) :=
    by
  refine ⟨h.keys.add key, fun k => ?_⟩
  have hid : m.replicaId = m'.replicaId := h.keys.replicaId
  rw [lookup_registers_put, lookup_registers_put, h.registers key, h.registers k, hid]

/-- The register that `get` reads. -/
theorem value_get (m : Map K V) (k : K) :
    (m.get k).1 =
      if m.contains k = true then ((m.registers.lookup k).getD default).value else default := by
  rw [get]
  split
  · rw [UnorderedMap.subscript]
    cases m.registers.lookup k <;> rfl
  · rfl

/-- A `get` of a contained key may create its register, and touches no other. -/
theorem lookup_registers_get (m : Map K V) (key k : K) :
    (m.get key).2.registers.lookup k =
      if m.contains key = true ∧ k = key then some ((m.registers.lookup key).getD default)
      else m.registers.lookup k := by
  rw [get]
  by_cases hkey : m.contains key = true
  · rw [if_pos hkey, UnorderedMap.subscript]
    cases hreg : m.registers.lookup key with
    | some reg =>
      show m.registers.lookup k = _
      by_cases hk : k = key
      · rw [if_pos ⟨hkey, hk⟩, hk, hreg]
        rfl
      · rw [if_neg fun h => hk h.2]
    | none =>
      -- `operator[]` creates the register that it does not find
      show (m.registers.insert key default).lookup k = _
      rw [lookup_insert_eq]
      simp [hkey]
  · rw [if_neg hkey, if_neg fun h => hkey h.1]

theorem Equal.value_get_eq (h : m.Equal m') (k : K) : (m.get k).1 = (m'.get k).1 := by
  rw [value_get, value_get, h.contains_eq k, h.registers k]

/-- `get` leaves both with the same registers. -/
theorem Equal.get (h : m.Equal m') (key : K) : (m.get key).2.Equal (m'.get key).2 := by
  constructor
  · rw [keys_get, keys_get]
    exact h.keys
  · intro k
    rw [lookup_registers_get, lookup_registers_get, h.contains_eq key, h.registers key,
      h.registers k]

/-- Every operation keeps the contents the same. -/
theorem Equal.apply (h : m.Equal m') (op : MapOp K V) :
    (replicated.apply op m).Equal (replicated.apply op m') := by
  cases op with
  | put key val => exact h.put key val
  | remove key => exact h.remove key
  | get key => exact h.get key

/-- The registers are merged key by key. -/
theorem Equal.merge (h : m.Equal m') (hr : remote.Equal remote') :
    (m.merge remote).Equal (m'.merge remote') := by
  have hkeys : (m.keys.merge remote.keys).Equal (m'.keys.merge remote'.keys) :=
    h.keys.merge hr.keys
  refine ⟨hkeys, fun k => ?_⟩
  have herased : (m.eraseRemoved (m.keys.merge remote.keys)).lookup k =
      (m'.eraseRemoved (m'.keys.merge remote'.keys)).lookup k := by
    rw [lookup_eraseRemoved, lookup_eraseRemoved, h.keys.contains_eq k, hkeys.contains_eq k,
      h.registers k]
  have hid : m.replicaId = m'.replicaId := h.keys.replicaId
  rw [lookup_registers_merge, lookup_registers_merge, herased, hr.registers k,
    hkeys.contains_eq k, hid]

/-! ## Programs -/

/-- A turn of one replica: a call, or the merge of a map. -/
inductive Turn (K V : Type*) where
  | call (op : MapOp K V)
  | merge (remote : Map K V)

/-- The same turn, up to the bucket order of the merged map. -/
inductive Turn.Same : Turn K V → Turn K V → Prop
  | call (op : MapOp K V) : Turn.Same (.call op) (.call op)
  | merge {remote remote' : Map K V} (h : remote.Equal remote') :
      Turn.Same (.merge remote) (.merge remote')

/-- The map after a turn. -/
def turn (m : Map K V) : Turn K V → Map K V
  | .call op => replicated.apply op m
  | .merge remote => m.merge remote

/-- The map after a program. -/
def turns (m : Map K V) (ts : List (Turn K V)) : Map K V := ts.foldl turn m

/-- One call. -/
theorem Equal.turn (h : m.Equal m') {t t' : Turn K V} (ht : t.Same t') :
    (m.turn t).Equal (m'.turn t') := by
  cases ht with
  | call op => exact h.apply op
  | merge hr => exact h.merge hr

/-- Any sequence of calls. -/
theorem Equal.turns (h : m.Equal m') {ts ts' : List (Turn K V)}
    (hts : List.Forall₂ Turn.Same ts ts') : (m.turns ts).Equal (m'.turns ts') := by
  induction hts generalizing m m' with
  | nil => exact h
  | cons ht _ ih => exact ih (h.turn ht)

/-- **The bucket order cannot be observed.** Maps with the same contents, put through the same
calls and merges of maps with the same contents, answer every query alike. -/
theorem iteration_order_irrelevant (h : m.Equal m') {ts ts' : List (Turn K V)}
    (hts : List.Forall₂ Turn.Same ts ts') :
    (∀ k, (m.turns ts).contains k = (m'.turns ts').contains k) ∧
      (∀ k, ((m.turns ts).get k).1 = ((m'.turns ts').get k).1) ∧
      (m.turns ts).size = (m'.turns ts').size ∧
      Same (m.turns ts).keyValuePairs (m'.turns ts').keyValuePairs ∧
      Same (m.turns ts).keys.versions (m'.turns ts').keys.versions := by
  have hend : (m.turns ts).Equal (m'.turns ts') := h.turns hts
  exact ⟨hend.contains_eq, hend.value_get_eq, hend.keys.size_eq, hend.keyValuePairs_same,
    hend.keys.versions⟩

/-- Two registers, the one of `k` filed last. -/
def filed (k l : String) : Map String String where
  keys := ORSet.new 0
  registers := AList.insert k ⟨⟨1, 0, 0⟩, "v"⟩ (AList.insert l ⟨⟨1, 0, 0⟩, "v"⟩ ∅)

/-- Two keys can be filed in either order. -/
theorem equal_filed (k l : String) : (filed k l).Equal (filed l k) := by
  refine ⟨ORSet.Equal.refl _, fun x => ?_⟩
  rw [filed, filed]
  simp only [lookup_insert_eq]
  split_ifs <;> rfl

/-- Put and merge after the registers were filed in either order. -/
theorem keyValuePairs_filed :
    Same
      ((filed "k" "l").turns [.call (.put "m" "w"), .merge (filed "l" "k")]).keyValuePairs
      ((filed "l" "k").turns [.call (.put "m" "w"), .merge (filed "k" "l")]).keyValuePairs :=
  (iteration_order_irrelevant (equal_filed "k" "l")
    (.cons (.call _) (.cons (.merge (equal_filed "l" "k")) .nil))).2.2.2.1

end Map

end CrdtStore
