import Mathlib.Data.List.Basic

/-!
# Transition systems

A `System` takes labelled steps from a start state. `Reachable G` are the states of the runs all of
whose steps satisfy the guard `G`, and `Reachable.invariant` is the rule for what holds in each of
them; with `I s` of the form `∃ t, P t ∧ R s t` it is the rule of forward simulations.
-/

universe u v

/-- Labelled steps on states. -/
structure System (σ : Type u) (α : Type v) where
  start : σ
  next : σ → α → σ

namespace System

variable {σ : Type u} {α : Type v} (S : System σ α) {G G' : σ → α → Prop} {s : σ}

/-- The states of the runs in which every step satisfies `G`. -/
inductive Reachable (G : σ → α → Prop) : σ → Prop
  | start : Reachable G S.start
  | step {s : σ} {a : α} (h : Reachable G s) (ha : G s a) : Reachable G (S.next s a)

/-- The state after the steps `as`. -/
def exec (s : σ) (as : List α) : σ := as.foldl S.next s

/-- Every step of the run `as` from `s` satisfies `G`. -/
def Steps (G : σ → α → Prop) : σ → List α → Prop
  | _, [] => True
  | s, a :: as => G s a ∧ Steps G (S.next s a) as

theorem exec_append (s : σ) (as bs : List α) :
    S.exec s (as ++ bs) = S.exec (S.exec s as) bs := List.foldl_append

variable {S}

theorem Steps.append {as bs : List α} (has : S.Steps G s as) (hbs : S.Steps G (S.exec s as) bs) :
    S.Steps G s (as ++ bs) := by
  induction as generalizing s with
  | nil => exact hbs
  | cons a as ih => exact ⟨has.1, ih has.2 hbs⟩

theorem Steps.mono {as : List α} (has : S.Steps G s as)
    (hG : ∀ s, ∀ a ∈ as, G s a → G' s a) : S.Steps G' s as := by
  induction as generalizing s with
  | nil => trivial
  | cons a as ih =>
    obtain ⟨ha, has⟩ := has
    exact ⟨hG s a List.mem_cons_self ha, ih has fun s b hb => hG s b (List.mem_cons_of_mem a hb)⟩

/-- What holds at the start and is kept by every step holds in every reachable state. -/
theorem Reachable.invariant {I : σ → Prop} (hstart : I S.start)
    (hnext : ∀ s a, S.Reachable G s → G s a → I s → I (S.next s a)) (h : S.Reachable G s) :
    I s := by
  induction h with
  | start => exact hstart
  | step h ha ih => exact hnext _ _ h ha ih

theorem Reachable.mono (hG : ∀ s a, G s a → G' s a) (h : S.Reachable G s) : S.Reachable G' s := by
  induction h with
  | start => exact .start
  | step _ ha ih => exact ih.step (hG _ _ ha)

theorem Reachable.exec (h : S.Reachable G s) {as : List α} (has : S.Steps G s as) :
    S.Reachable G (S.exec s as) := by
  induction as generalizing s with
  | nil => exact h
  | cons a as ih => exact ih (h.step has.1) has.2

end System
