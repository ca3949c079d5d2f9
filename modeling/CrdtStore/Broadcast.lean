import Mathlib.Data.Finset.Card
import Mathlib.Data.Finset.Range
import Mathlib.Logic.Relation

/-!
# Broadcasting and waiting

`handler::broadcast_and_wait_async` sends a request to each configured peer in a task of its own,
waits for the tasks in their order until enough peers have answered OK, and returns whether enough
have. The tasks and the waiting loop take turns in any order; returning destroys the futures, which
waits for the tasks that are still running.

`returns_true_iff` is the outcome of every such execution: the call returns, and it returns true
exactly when enough of the requests are answered OK.
-/

namespace CrdtStore

/-- How the request to a peer ends. -/
inductive PeerOutcome where
  | response (statusCode : ℕ)
  | jsonException
  | otherException
deriving DecidableEq, Repr

/-- `status_codes::OK`. -/
def statusOk : ℕ := 200

/-- `status_codes::InternalError`. -/
def statusInternalError : ℕ := 500

/-- The test of the task before it counts: a response arrived, with status OK. -/
def PeerOutcome.isOk : PeerOutcome → Bool
  | .response statusCode => statusCode == statusOk
  | .jsonException => false
  | .otherException => false

/-- Where the waiting loop stands. -/
inductive WaitPoint where
  | testing
  | waiting
  | sleeping
  | joining (result : Bool)
  | returned (result : Bool)
deriving DecidableEq, Repr

/-- The futures that are ready, `successfulResponses`, `futuresCompleted`, and the waiting loop. -/
structure Broadcast where
  ready : Finset ℕ
  successfulResponses : ℕ
  futuresCompleted : ℕ
  point : WaitPoint
deriving DecidableEq

namespace Broadcast

/-- The tasks are started, and the loop is about to be entered. -/
def start : Broadcast := ⟨∅, 0, 0, .testing⟩

/-- The `k`-th task ends. Under the lock it counts a response with status OK, up to
`expectedResponses`; an exception ends it without counting. -/
def complete (expectedResponses k : ℕ) (outcome : PeerOutcome) (b : Broadcast) : Broadcast :=
  { b with
    ready := insert k b.ready
    successfulResponses :=
      -- the count stops at what the caller waits for
      if outcome.isOk ∧ b.successfulResponses < expectedResponses then b.successfulResponses + 1
      else b.successfulResponses }

/-- The condition of the waiting loop. -/
def test (expectedResponses futures : ℕ) (b : Broadcast) : Broadcast :=
  { b with
    point :=
      if b.futuresCompleted < futures ∧ b.successfulResponses < expectedResponses then .waiting
      else .sleeping }

/-- The body of the waiting loop, once the future it waits for is ready. -/
def wake (b : Broadcast) : Broadcast :=
  { b with futuresCompleted := b.futuresCompleted + 1, point := .testing }

/-- The comparison after the sleep. -/
def check (expectedResponses : ℕ) (b : Broadcast) : Broadcast :=
  { b with point := .joining (expectedResponses ≤ b.successfulResponses) }

/-- One step of one of the tasks or of the waiting loop. -/
inductive Step (outcomes : List PeerOutcome) (expectedResponses : ℕ) :
    Broadcast → Broadcast → Prop
  | complete {b : Broadcast} {k : ℕ} {outcome : PeerOutcome} (hk : outcomes[k]? = some outcome)
      (hready : k ∉ b.ready) :
      Step outcomes expectedResponses b (b.complete expectedResponses k outcome)
  | test {b : Broadcast} (h : b.point = .testing) :
      Step outcomes expectedResponses b (b.test expectedResponses outcomes.length)
  | wake {b : Broadcast} (h : b.point = .waiting) (hready : b.futuresCompleted ∈ b.ready) :
      Step outcomes expectedResponses b b.wake
  | check {b : Broadcast} (h : b.point = .sleeping) :
      Step outcomes expectedResponses b (b.check expectedResponses)
  | join {b : Broadcast} {result : Bool} (h : b.point = .joining result)
      (hready : ∀ k < outcomes.length, k ∈ b.ready) :
      Step outcomes expectedResponses b { b with point := .returned result }

/-- The requests among `ks` that are answered OK. -/
def answeredOk (outcomes : List PeerOutcome) (ks : Finset ℕ) : Finset ℕ :=
  ks.filter fun k => ∃ outcome ∈ outcomes[k]?, outcome.isOk

theorem answeredOk_mono {outcomes : List PeerOutcome} {ks ks' : Finset ℕ} (h : ks ⊆ ks') :
    answeredOk outcomes ks ⊆ answeredOk outcomes ks' := Finset.filter_subset_filter _ h

/-- What holds at every moment of the call. -/
structure Counting (outcomes : List PeerOutcome) (expectedResponses : ℕ) (b : Broadcast) :
    Prop where
  ready_lt : b.ready ⊆ Finset.range outcomes.length
  counted : b.successfulResponses = min expectedResponses (answeredOk outcomes b.ready).card
  waited : Finset.range b.futuresCompleted ⊆ b.ready
  /-- The loop goes on waiting while there is a future left. -/
  waiting : b.point = .waiting → b.futuresCompleted < outcomes.length
  /-- The loop was left because enough responses were counted, or no future was left. -/
  left : b.point = .sleeping →
    expectedResponses ≤ b.successfulResponses ∨ outcomes.length ≤ b.futuresCompleted
  result_iff : ∀ result, b.point = .joining result ∨ b.point = .returned result →
    (result = true ↔
      expectedResponses ≤ (answeredOk outcomes (Finset.range outcomes.length)).card)
  joined : ∀ result, b.point = .returned result → b.ready = Finset.range outcomes.length

variable {outcomes : List PeerOutcome} {expectedResponses : ℕ} {b b' : Broadcast}

theorem Counting.start : Counting outcomes expectedResponses Broadcast.start where
  ready_lt := Finset.empty_subset _
  counted := by simp [Broadcast.start, answeredOk]
  waited := Finset.empty_subset _
  waiting h := by cases h
  left h := by cases h
  result_iff result h := by
    rcases h with h | h <;> cases h
  joined result h := by cases h

theorem answeredOk_insert {k : ℕ} {outcome : PeerOutcome} (hk : outcomes[k]? = some outcome)
    (ks : Finset ℕ) :
    answeredOk outcomes (insert k ks) =
      if outcome.isOk then insert k (answeredOk outcomes ks) else answeredOk outcomes ks := by
  unfold answeredOk
  rw [Finset.filter_insert]
  simp [hk]

/-- A task that ends takes nothing away from the count. -/
theorem successfulResponses_le_complete {k : ℕ} {outcome : PeerOutcome} (b : Broadcast) :
    b.successfulResponses ≤ (b.complete expectedResponses k outcome).successfulResponses := by
  unfold Broadcast.complete
  simp only
  split <;> omega

theorem Counting.complete (h : Counting outcomes expectedResponses b) {k : ℕ}
    {outcome : PeerOutcome} (hk : outcomes[k]? = some outcome) (hready : k ∉ b.ready) :
    Counting outcomes expectedResponses (b.complete expectedResponses k outcome) := by
  have hlt : k < outcomes.length := (List.getElem?_eq_some_iff.mp hk).1
  have hcount := h.counted
  constructor
  · exact Finset.insert_subset (Finset.mem_range.mpr hlt) h.ready_lt
  · have hnew : k ∉ answeredOk outcomes b.ready := fun hmem =>
      hready (Finset.mem_of_mem_filter k hmem)
    show (if outcome.isOk ∧ b.successfulResponses < expectedResponses then _ else _) =
      min expectedResponses (answeredOk outcomes (insert k b.ready)).card
    rw [answeredOk_insert hk]
    cases hok : outcome.isOk
    · simpa using hcount
    · simp only [true_and, if_true, Finset.card_insert_of_notMem hnew]
      split <;> omega
  · exact h.waited.trans (Finset.subset_insert _ _)
  · exact h.waiting
  · intro hpoint
    exact (h.left hpoint).imp_left fun hle => hle.trans (successfulResponses_le_complete b)
  · exact h.result_iff
  · intro result hpoint
    have hall := h.joined result hpoint
    exact absurd (hall ▸ Finset.mem_range.mpr hlt) hready

theorem Counting.test (h : Counting outcomes expectedResponses b) :
    Counting outcomes expectedResponses (b.test expectedResponses outcomes.length) where
  ready_lt := h.ready_lt
  counted := h.counted
  waited := h.waited
  waiting hpoint := by
    simp only [Broadcast.test] at hpoint
    split at hpoint
    · next hcond => exact hcond.1
    · cases hpoint
  left hpoint := by
    simp only [Broadcast.test] at hpoint ⊢
    split at hpoint
    · cases hpoint
    · omega
  result_iff result hpoint := by
    simp only [Broadcast.test] at hpoint
    split at hpoint <;> rcases hpoint with hpoint | hpoint <;> cases hpoint
  joined result hpoint := by
    simp only [Broadcast.test] at hpoint
    split at hpoint <;> cases hpoint

theorem Counting.wake (h : Counting outcomes expectedResponses b)
    (hready : b.futuresCompleted ∈ b.ready) : Counting outcomes expectedResponses b.wake where
  ready_lt := h.ready_lt
  counted := h.counted
  waited := by
    show Finset.range (b.futuresCompleted + 1) ⊆ b.ready
    rw [Finset.range_add_one]
    exact Finset.insert_subset hready h.waited
  waiting hpoint := by cases hpoint
  left hpoint := by cases hpoint
  result_iff result hpoint := by
    rcases hpoint with hpoint | hpoint <;> cases hpoint
  joined result hpoint := by cases hpoint

/-- When the loop has been left, the counter tells whether enough requests are answered OK. -/
theorem Counting.enough_iff (h : Counting outcomes expectedResponses b)
    (hpoint : b.point = .sleeping) : expectedResponses ≤ b.successfulResponses ↔
      expectedResponses ≤ (answeredOk outcomes (Finset.range outcomes.length)).card := by
  have hcount := h.counted
  have hle : (answeredOk outcomes b.ready).card ≤
      (answeredOk outcomes (Finset.range outcomes.length)).card :=
    Finset.card_le_card (answeredOk_mono h.ready_lt)
  rcases h.left hpoint with hleft | hleft
  · omega
  · -- every future is ready, so every response is counted
    have hall : b.ready = Finset.range outcomes.length := by
      apply Finset.Subset.antisymm h.ready_lt
      exact (Finset.range_subset_range.mpr hleft).trans h.waited
    rw [hall] at hcount
    omega

theorem Counting.check (h : Counting outcomes expectedResponses b) (hpoint : b.point = .sleeping) :
    Counting outcomes expectedResponses (b.check expectedResponses) where
  ready_lt := h.ready_lt
  counted := h.counted
  waited := h.waited
  waiting hpoint := by cases hpoint
  left hpoint := by cases hpoint
  result_iff result hresult := by
    rcases hresult with hresult | hresult
    · cases hresult
      rw [decide_eq_true_iff]
      exact h.enough_iff hpoint
    · cases hresult
  joined result hpoint := by cases hpoint

theorem Counting.join (h : Counting outcomes expectedResponses b) {result : Bool}
    (hpoint : b.point = .joining result) (hready : ∀ k < outcomes.length, k ∈ b.ready) :
    Counting outcomes expectedResponses { b with point := .returned result } where
  ready_lt := h.ready_lt
  counted := h.counted
  waited := h.waited
  waiting hpoint := by cases hpoint
  left hpoint := by cases hpoint
  result_iff result' hresult := by
    rcases hresult with hresult | hresult
    · cases hresult
    · cases hresult
      exact h.result_iff result (Or.inl hpoint)
  joined result' _ := by
    apply Finset.Subset.antisymm h.ready_lt
    intro k hk
    exact hready k (Finset.mem_range.mp hk)

theorem Counting.step (h : Counting outcomes expectedResponses b)
    (hstep : Step outcomes expectedResponses b b') : Counting outcomes expectedResponses b' := by
  cases hstep with
  | complete hk hready => exact h.complete hk hready
  | test _ => exact h.test
  | wake _ hready => exact h.wake hready
  | check hpoint => exact h.check hpoint
  | join hpoint hready => exact h.join hpoint hready

theorem Counting.run (h : Counting outcomes expectedResponses b)
    (hrun : Relation.ReflTransGen (Step outcomes expectedResponses) b b') :
    Counting outcomes expectedResponses b' := by
  induction hrun with
  | refl => exact h
  | tail _ hstep ih => exact ih.step hstep

/-- The counting invariant holds in whatever order the tasks and the loop take turns. -/
theorem counting_of_run (h : Relation.ReflTransGen (Step outcomes expectedResponses) start b) :
    Counting outcomes expectedResponses b := Counting.start.run h

/-- How the result came about: enough responses were counted, or every task has ended. -/
structure Decided (expectedResponses futures : ℕ) (b : Broadcast) : Prop where
  enough : b.point = .joining true ∨ b.point = .returned true →
    expectedResponses ≤ b.successfulResponses
  ended : b.point = .joining false ∨ b.point = .returned false → b.ready = Finset.range futures

theorem Decided.of_point {futures : ℕ} (hjoining : ∀ result, b.point ≠ .joining result)
    (hreturned : ∀ result, b.point ≠ .returned result) : Decided expectedResponses futures b where
  enough h := h.elim (fun h => absurd h (hjoining _)) fun h => absurd h (hreturned _)
  ended h := h.elim (fun h => absurd h (hjoining _)) fun h => absurd h (hreturned _)

theorem Decided.complete (h : Decided expectedResponses outcomes.length b) {k : ℕ}
    {outcome : PeerOutcome} (hk : outcomes[k]? = some outcome) (hready : k ∉ b.ready) :
    Decided expectedResponses outcomes.length (b.complete expectedResponses k outcome) where
  enough hpoint := by
    exact (h.enough hpoint).trans (successfulResponses_le_complete b)
  ended hpoint := by
    have hlt : k < outcomes.length := (List.getElem?_eq_some_iff.mp hk).1
    have hall := h.ended hpoint
    exact absurd (hall ▸ Finset.mem_range.mpr hlt) hready

theorem Counting.decided_check (h : Counting outcomes expectedResponses b)
    (hpoint : b.point = .sleeping) :
    Decided expectedResponses outcomes.length (b.check expectedResponses) where
  enough hresult := by
    rcases hresult with hresult | hresult
    · exact of_decide_eq_true (WaitPoint.joining.inj hresult)
    · cases hresult
  ended hresult := by
    rcases hresult with hresult | hresult
    · -- the loop was left because no future was left
      have hnot := of_decide_eq_false (WaitPoint.joining.inj hresult)
      have hall := (h.left hpoint).resolve_left hnot
      exact Finset.Subset.antisymm h.ready_lt
        ((Finset.range_subset_range.mpr hall).trans h.waited)
    · cases hresult

theorem Decided.step (hdecided : Decided expectedResponses outcomes.length b)
    (h : Counting outcomes expectedResponses b) (hstep : Step outcomes expectedResponses b b') :
    Decided expectedResponses outcomes.length b' := by
  cases hstep with
  | complete hk hready => exact hdecided.complete hk hready
  | test _ =>
    apply Decided.of_point <;> intro result hresult <;>
      simp only [Broadcast.test] at hresult <;> split at hresult <;> cases hresult
  | wake _ _ => exact Decided.of_point (fun _ h => by cases h) (fun _ h => by cases h)
  | check hpoint => exact h.decided_check hpoint
  | @join result hpoint _ =>
    constructor <;> rintro (hresult | hresult) <;> cases hresult
    · exact hdecided.enough (Or.inl hpoint)
    · exact hdecided.ended (Or.inl hpoint)

/-- What the tasks that are still running end with does not matter yet. -/
theorem Counting.congr {outcomes' : List PeerOutcome} (h : Counting outcomes expectedResponses b)
    (hdecided : Decided expectedResponses outcomes.length b)
    (hlength : outcomes'.length = outcomes.length)
    (hready : ∀ k ∈ b.ready, outcomes'[k]? = outcomes[k]?) :
    Counting outcomes' expectedResponses b := by
  have hcounted : answeredOk outcomes' b.ready = answeredOk outcomes b.ready :=
    Finset.filter_congr fun k hk => by rw [hready k hk]
  refine ⟨hlength ▸ h.ready_lt, hcounted ▸ h.counted, h.waited, hlength ▸ h.waiting,
    hlength ▸ h.left, fun result hresult => ?_, hlength ▸ h.joined⟩
  have hold := h.result_iff result hresult
  rw [hlength]
  cases result with
  | true =>
    have henough := hdecided.enough hresult
    have hcount := h.counted
    have hle : (answeredOk outcomes' b.ready).card ≤
        (answeredOk outcomes' (Finset.range outcomes.length)).card :=
      Finset.card_le_card (answeredOk_mono h.ready_lt)
    rw [← hcounted] at hcount
    exact iff_of_true rfl (by omega)
  | false =>
    rw [hdecided.ended hresult] at hcounted
    rw [hcounted]
    exact hold

/-- The steps that the loop takes from a point before it waits again. -/
def pointSteps : WaitPoint → ℕ
  | .testing => 3
  | .waiting => 2
  | .sleeping => 2
  | .joining _ => 1
  | .returned _ => 0

/-- How many steps are left at most: one for each task, two for each future, and the last ones. -/
def remaining (futures : ℕ) (b : Broadcast) : ℕ :=
  (futures - b.ready.card) + 2 * (futures - b.futuresCompleted) + pointSteps b.point

theorem pointSteps_test (futures : ℕ) (b : Broadcast) :
    pointSteps (b.test expectedResponses futures).point = 2 := by
  unfold Broadcast.test
  simp only
  split <;> rfl

/-- Every step uses up one that was left. -/
theorem Counting.remaining_lt (h : Counting outcomes expectedResponses b)
    (hstep : Step outcomes expectedResponses b b') :
    b'.remaining outcomes.length < b.remaining outcomes.length := by
  unfold remaining
  cases hstep with
  | @complete k outcome hk hready =>
    have hlt : k < outcomes.length := (List.getElem?_eq_some_iff.mp hk).1
    have hcard : (insert k b.ready).card ≤ outcomes.length := by
      rw [← Finset.card_range outcomes.length]
      exact Finset.card_le_card (Finset.insert_subset (Finset.mem_range.mpr hlt) h.ready_lt)
    show (outcomes.length - (insert k b.ready).card) +
      2 * (outcomes.length - b.futuresCompleted) + pointSteps b.point < _
    rw [Finset.card_insert_of_notMem hready] at hcard ⊢
    omega
  | test hpoint =>
    rw [pointSteps_test, hpoint]
    exact Nat.lt_succ_self _
  | wake hpoint hready =>
    -- one more future is done with, and the loop is tested again
    have hlt := h.waiting hpoint
    rw [hpoint]
    show (outcomes.length - b.ready.card) + 2 * (outcomes.length - (b.futuresCompleted + 1)) + 3 <
      (outcomes.length - b.ready.card) + 2 * (outcomes.length - b.futuresCompleted) + 2
    omega
  | check hpoint =>
    rw [hpoint]
    exact Nat.lt_succ_self _
  | join hpoint hready =>
    rw [hpoint]
    exact Nat.lt_succ_self _

/-- No schedule is longer than the steps left. -/
theorem Counting.length_le (h : Counting outcomes expectedResponses b) {bs : List Broadcast}
    (hbs : List.IsChain (Step outcomes expectedResponses) (b :: bs)) :
    bs.length ≤ b.remaining outcomes.length := by
  induction bs generalizing b with
  | nil => exact Nat.zero_le _
  | cons b' bs ih =>
    rw [List.isChain_cons_cons] at hbs
    have hrest := ih (h.step hbs.1) hbs.2
    have hless := h.remaining_lt hbs.1
    rw [List.length_cons]
    omega

/-- Until the call returns, a task or the loop can take a step. -/
theorem Counting.exists_step (h : Counting outcomes expectedResponses b)
    (hpoint : ∀ result, b.point ≠ .returned result) :
    ∃ b', Step outcomes expectedResponses b b' := by
  by_cases hall : ∀ k < outcomes.length, k ∈ b.ready
  · cases hat : b.point with
    | testing => exact ⟨_, .test hat⟩
    | waiting => exact ⟨_, .wake hat (hall _ (h.waiting hat))⟩
    | sleeping => exact ⟨_, .check hat⟩
    | joining result => exact ⟨_, .join hat hall⟩
    | returned result => exact absurd hat (hpoint result)
  · simp only [not_forall] at hall
    obtain ⟨k, hk, hready⟩ := hall
    exact ⟨_, .complete (List.getElem?_eq_getElem hk) hready⟩

/-- The ack count is exact: in every order of completions the counter stays within
`expectedResponses`, every schedule ends with the call returning, and it returns true exactly when
enough requests are answered OK. -/
theorem returns_true_iff (outcomes : List PeerOutcome) (expectedResponses : ℕ) :
    (∀ b, Relation.ReflTransGen (Step outcomes expectedResponses) start b →
      b.successfulResponses ≤ expectedResponses ∧
      (∀ result, b.point = .returned result → (result = true ↔
        expectedResponses ≤ (answeredOk outcomes (Finset.range outcomes.length)).card)) ∧
      ((∀ result, b.point ≠ .returned result) → ∃ b', Step outcomes expectedResponses b b')) ∧
    ∀ bs, List.IsChain (Step outcomes expectedResponses) (start :: bs) →
      bs.length ≤ 3 * outcomes.length + 3 := by
  constructor
  · intro b hrun
    have h := counting_of_run hrun
    refine ⟨?_, fun result hresult => h.result_iff result (Or.inr hresult), h.exists_step⟩
    rw [h.counted]
    exact min_le_left _ _
  · intro bs hbs
    have hle := Counting.start.length_le hbs
    have hstart : start.remaining outcomes.length = 3 * outcomes.length + 3 := by
      show outcomes.length - 0 + 2 * (outcomes.length - 0) + 3 = _
      omega
    omega

end Broadcast

end CrdtStore
