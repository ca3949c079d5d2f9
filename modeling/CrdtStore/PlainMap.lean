import CrdtStore.MapRun

/-!
# Maps between merges

Between merges a `Map` is a plain finite map: whatever run its state comes from, its calls do to
the pairs it shows what insertions and deletions do to a finite map (`Shows`), and each of its
containers answers for that finite map.
-/

namespace CrdtStore

open ReplicatedType Config UnorderedMap

namespace MapOp

variable {K V : Type*} [DecidableEq K]

/-- What a call does to a finite map. -/
def onPairs (pairs : UnorderedMap K V) : MapOp K V → UnorderedMap K V
  | .put key val => pairs.insert key val
  | .remove key => pairs.erase key
  | .get _ => pairs

/-- The key that a call is about. -/
def key : MapOp K V → K
  | .put key _ => key
  | .remove key => key
  | .get key => key

theorem lookup_onPairs_of_ne (pairs : UnorderedMap K V) {op : MapOp K V} {k : K} (h : k ≠ op.key) :
    (op.onPairs pairs).lookup k = pairs.lookup k := by
  cases op with
  | put key val => exact AList.lookup_insert_ne h
  | remove key => exact AList.lookup_erase_ne h
  | get key => rfl

end MapOp

namespace Map

variable {K V : Type*} [DecidableEq K]

/-- The map of replica `i` shows the pairs of a finite map. -/
structure Shows (i : ℕ) (m : Map K V) (pairs : UnorderedMap K V) : Prop where
  consistent : Consistent i m
  same : Same m.keyValuePairs pairs

variable {i : ℕ} {m : Map K V} {pairs : UnorderedMap K V}

theorem Shows.lookup_registers (h : Shows i m pairs) (k : K) :
    (m.registers.lookup k).map LWWRegister.value = pairs.lookup k := by
  rw [← lookup_keyValuePairs]
  exact h.same k

/-! ## What the map answers -/

theorem Shows.contains_iff (h : Shows i m pairs) (k : K) : m.contains k = true ↔ k ∈ pairs := by
  rw [← h.consistent.mem_iff, mem_iff_lookup, mem_iff_lookup, ← h.lookup_registers]
  cases m.registers.lookup k <;> simp

theorem Shows.size_eq (h : Shows i m pairs) : m.size = UnorderedMap.size pairs := by
  rw [← size_keyValuePairs h.consistent]
  exact size_eq_of_mem_iff h.same.mem_iff

variable [Inhabited V]

/-- `get` reads the register of a key that the set contains. -/
theorem Shows.get_eq (h : Shows i m pairs) {k : K} {v : V} (hv : pairs.lookup k = some v) :
    (m.get k).1 = v := by
  have hk : m.contains k = true := (h.contains_iff k).mpr (mem_of_lookup hv)
  obtain ⟨reg, hreg⟩ := h.consistent.exists_register hk
  have hvalue := h.lookup_registers k
  rw [hreg, hv, Option.map_some, Option.some_inj] at hvalue
  rw [get, if_pos hk, subscript_of_lookup hreg]
  exact hvalue

theorem Shows.get_of_not_mem (h : Shows i m pairs) {k : K} (hk : k ∉ pairs) :
    (m.get k).1 = default := by
  have hcontains : ¬ m.contains k = true := mt (h.contains_iff k).mp hk
  rw [get, if_neg hcontains]

/-! ## What the calls do -/

theorem Shows.put (h : Shows i m pairs) (key : K) (val : V) :
    Shows i (m.put key val) (pairs.insert key val) where
  consistent := h.consistent.put key val
  same k := by
    rw [lookup_keyValuePairs, lookup_registers_put, lookup_insert_eq]
    split
    · rfl
    · exact h.lookup_registers k

omit [Inhabited V] in
theorem Shows.remove (h : Shows i m pairs) (key : K) :
    Shows i (m.remove key) (pairs.erase key) where
  consistent := h.consistent.remove key
  same k := by
    rw [lookup_keyValuePairs, lookup_registers_remove, lookup_erase_eq]
    split
    · rfl
    · exact h.lookup_registers k

/-- One call. -/
theorem Shows.apply (h : Shows i m pairs) (op : MapOp K V) :
    Shows i (replicated.apply op m) (op.onPairs pairs) := by
  cases op with
  | put key val => exact h.put key val
  | remove key => exact h.remove key
  | get key =>
    show Shows i (m.get key).2 pairs
    rw [h.consistent.get]
    exact h

/-- The map after some calls. -/
def calls (m : Map K V) (ops : List (MapOp K V)) : Map K V :=
  ops.foldl (fun m op => replicated.apply op m) m

theorem Shows.calls (h : Shows i m pairs) (ops : List (MapOp K V)) :
    Shows i (m.calls ops) (ops.foldl MapOp.onPairs pairs) := by
  induction ops generalizing m pairs with
  | nil => exact h
  | cons op ops ih => exact ih (h.apply op)

/-- A call leaves what is read under other keys alone. -/
theorem Shows.frame (h : Shows i m pairs) {op : MapOp K V} {k : K} (hk : k ≠ op.key) :
    (replicated.apply op m).contains k = m.contains k ∧
      ((replicated.apply op m).get k).1 = (m.get k).1 := by
  have happly := h.apply op
  have hsame := MapOp.lookup_onPairs_of_ne pairs hk
  cases hv : pairs.lookup k with
  | some v =>
    rw [hv] at hsame
    constructor
    · rw [(h.contains_iff k).mpr (mem_of_lookup hv),
        (happly.contains_iff k).mpr (mem_of_lookup hsame)]
    · rw [h.get_eq hv, happly.get_eq hsame]
  | none =>
    rw [hv] at hsame
    have hold : k ∉ pairs := not_mem_iff_lookup.mpr hv
    have hnew : k ∉ op.onPairs pairs := not_mem_iff_lookup.mpr hsame
    constructor
    · rw [Bool.eq_iff_iff, h.contains_iff, happly.contains_iff]
      exact iff_of_false hnew hold
    · rw [h.get_of_not_mem hold, happly.get_of_not_mem hnew]

/-! ## Reachable maps -/

variable {C : Config ℕ (MapOp K V) (Map K V)} {R : Replica (Map K V)}

omit [Inhabited V] in
theorem Consistent.shows {i : ℕ} {m : Map K V} (h : Consistent i m) : Shows i m m.keyValuePairs :=
  ⟨h, Same.refl _⟩

/-- From any state of any run on, calls other than `merge` are those of a plain finite map that
starts with the pairs of the state: keys, values, size and pairs agree after any calls, and no call
is seen under another key. -/
theorem plain_between_merges (h : replicated.Reachable (fun _ _ => True) C) {i : ℕ}
    (hR : C.HasState i R) (ops : List (MapOp K V)) :
    let m := R.state.calls ops
    let pairs := ops.foldl MapOp.onPairs R.state.keyValuePairs
    (∀ k, m.contains k = true ↔ k ∈ pairs) ∧
    (∀ k, m.contains k = true → pairs.lookup k = some (m.get k).1) ∧
    m.size = UnorderedMap.size pairs ∧
    Same m.keyValuePairs pairs ∧
    ∀ op : MapOp K V, ∀ k, k ≠ op.key →
      (replicated.apply op m).contains k = m.contains k ∧
        ((replicated.apply op m).get k).1 = (m.get k).1 := by
  intro m pairs
  have hshows : Shows i m pairs := (consistent_of_reachable h hR).shows.calls ops
  refine ⟨hshows.contains_iff, ?_, hshows.size_eq, hshows.same, fun op k hk => hshows.frame hk⟩
  intro k hk
  obtain ⟨v, hv⟩ := mem_iff_lookup.mp ((hshows.contains_iff k).mp hk)
  rw [hv, hshows.get_eq hv]

/-- Of the key kept by a merge and one put after it, the other is left when the first is removed. -/
theorem size_calls_concurrentPut :
    ((concurrentPut.node 1).state.calls [.put "l" "w", .remove "k"]).size = 1 := by
  have hsize := (plain_between_merges (Reachable.start.exec (by decide))
    (.now : concurrentPut.HasState 1 _) [.put "l" "w", .remove "k"]).2.2.1
  exact hsize.trans (by decide)

end Map

end CrdtStore
