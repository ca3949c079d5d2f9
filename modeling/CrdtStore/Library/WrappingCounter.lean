import Mathlib.Data.Int.CardIntervalMod

/-!
# Counters that wrap

A counter that wraps at `M` is read modulo `L`, in turn after turn. How often each residue is drawn
(`count_wrapping`), and when no residue is ahead of another by two turns
(`count_wrapping_balanced_iff`).
-/

namespace CrdtStore

namespace WrappingCounter

variable {L i : ℕ}

theorem count_mod (hi : i < L) (n : ℕ) :
    n.count (fun k => k % L = i) = n / L + if i < n % L then 1 else 0 := by
  have hcount := Nat.count_modEq_card n (by omega : 0 < L) i
  rw [Nat.mod_eq_of_lt hi] at hcount
  rw [← hcount]
  congr 1
  funext k
  rw [Nat.ModEq, Nat.mod_eq_of_lt hi]

/-- Before the counter wraps it makes no difference. -/
theorem count_mod_mod (hi : i < L) {M n : ℕ} (hn : n ≤ M) :
    n.count (fun k => k % M % L = i) = n / L + if i < n % L then 1 else 0 := by
  rw [← count_mod hi, Nat.count_eq_card_filter_range, Nat.count_eq_card_filter_range]
  congr 1
  refine Finset.filter_congr fun k hk => ?_
  rw [Nat.mod_eq_of_lt ((Finset.mem_range.mp hk).trans_le hn)]

/-- The turns of number `i` among `n` draws of a counter that wraps at `M`: those of `n / M` whole
rounds of the counter and those of the last round. -/
theorem count_wrapping (hi : i < L) (M n : ℕ) :
    n.count (fun k => k % M % L = i) =
      n / M * (M / L + if i < M % L then 1 else 0) +
        (n % M / L + if i < n % M % L then 1 else 0) := by
  rcases Nat.eq_zero_or_pos M with rfl | hM
  · simp only [Nat.mod_zero, Nat.div_zero, zero_mul, zero_add]
    exact count_mod hi n
  have hround : ∀ q m, (M * q + m).count (fun k => k % M % L = i) =
      q * M.count (fun k => k % M % L = i) + m.count (fun k => k % M % L = i) := by
    intro q m
    induction q with
    | zero => rw [Nat.mul_zero, Nat.zero_add, Nat.zero_mul, Nat.zero_add]
    | succ q ih =>
      -- one more round at the beginning
      have hshift : (fun k => (M + k) % M % L = i) = fun k => k % M % L = i := by
        funext k
        rw [Nat.add_mod_left]
      rw [show M * (q + 1) + m = M + (M * q + m) by ring, Nat.count_add]
      simp only [Nat.add_mod_left]
      rw [ih]
      ring
  conv_lhs => rw [← Nat.div_add_mod n M]
  rw [hround, count_mod_mod hi le_rfl, count_mod_mod hi (Nat.mod_lt n hM).le]

/-- No number is ahead of another by two turns: exactly when every whole round is fair, or there
was none, or there was one and the turns since were fair. -/
theorem count_wrapping_balanced_iff (hL : 0 < L) (M n : ℕ) :
    (∀ i < L, ∀ j < L, n.count (fun k => k % M % L = i) ≤ n.count (fun k => k % M % L = j) + 1) ↔
      M % L = 0 ∨ n / M = 0 ∨ (n / M = 1 ∧ n % M % L = 0) := by
  constructor
  · intro h
    -- the first number gains on the last in every round that is not fair
    have hfirst := h 0 hL (L - 1) (by omega)
    rw [count_wrapping hL, count_wrapping (by omega : L - 1 < L)] at hfirst
    have hM : ¬ L - 1 < M % L := by
      have := Nat.mod_lt M hL
      omega
    have hn : ¬ L - 1 < n % M % L := by
      have := Nat.mod_lt (n % M) hL
      omega
    simp only [if_neg hM, if_neg hn, mul_add, Nat.add_zero] at hfirst
    by_contra hnot
    simp only [not_or, not_and] at hnot
    obtain ⟨hM0, hq0, hq1⟩ := hnot
    rw [if_pos (by omega)] at hfirst
    by_cases hq : n / M = 1
    · rw [if_pos (by have := hq1 hq; omega)] at hfirst
      omega
    · omega
  · intro h i hi j hj
    rw [count_wrapping hi, count_wrapping hj]
    rcases h with h | h | ⟨h, h'⟩
    · rw [h, if_neg (Nat.not_lt_zero _), if_neg (Nat.not_lt_zero _)]
      split <;> omega
    · rw [h, zero_mul, zero_mul]
      split <;> omega
    · rw [h, h', if_neg (Nat.not_lt_zero _), if_neg (Nat.not_lt_zero _), one_mul, one_mul]
      split <;> omega

/-! ## Readings of one reader -/

/-- Every residue comes up in `2 * L - 1` turns in a row, also across a wrap. -/
theorem exists_turn (hi : i < L) {M : ℕ} (hM : L ≤ M) (n : ℕ) :
    ∃ k < 2 * L - 1, (n + k) % M % L = i := by
  have hr : n % M < M := Nat.mod_lt n (by omega)
  by_cases hwrap : n % M + L ≤ M
  · -- the next `L` turns do not wrap
    have hn : n % M % L < L := Nat.mod_lt _ (by omega)
    refine ⟨(i + (L - n % M % L)) % L, ?_, ?_⟩
    · have := Nat.mod_lt (i + (L - n % M % L)) (by omega : 0 < L)
      omega
    · have hlt := Nat.mod_lt (i + (L - n % M % L)) (by omega : 0 < L)
      have hmod : (n + (i + (L - n % M % L)) % L) % M = n % M + (i + (L - n % M % L)) % L := by
        rw [← Nat.mod_add_mod, Nat.mod_eq_of_lt (by omega)]
      rw [hmod, Nat.add_mod_mod]
      have hsum : n % M + (i + (L - n % M % L)) = i + L * (n % M / L + 1) := by
        have := Nat.div_add_mod (n % M) L
        rw [mul_add, mul_one]
        omega
      rw [hsum, Nat.add_mul_mod_self_left, Nat.mod_eq_of_lt hi]
  · -- the turn after the wrap is the first residue
    refine ⟨M - n % M + i, by omega, ?_⟩
    have hmod : (n + (M - n % M + i)) % M = i := by
      rw [← Nat.mod_add_mod, show n % M + (M - n % M + i) = M + i by omega, Nat.add_mod_left,
        Nat.mod_eq_of_lt (by omega)]
    rw [hmod, Nat.mod_eq_of_lt hi]

/-- A reader that comes every `d` turns sees every residue when `d` and `L` are coprime. -/
theorem exists_spaced {d : ℕ} (hd : d.Coprime L) (hi : i < L) (n : ℕ) :
    ∃ j < L, (n + j * d) % L = i := by
  have hn : n % L < L := Nat.mod_lt n (by omega)
  obtain ⟨j, hj, hmod⟩ := Nat.exists_mul_mod_eq_of_coprime (i + (L - n % L)) hd (by omega)
  refine ⟨j, hj, ?_⟩
  have hsum : n + (i + (L - n % L)) = i + L * (n / L + 1) := by
    have := Nat.div_add_mod n L
    rw [mul_add, mul_one]
    omega
  rw [mul_comm, Nat.add_mod, hmod, ← Nat.add_mod, hsum, Nat.add_mul_mod_self_left,
    Nat.mod_eq_of_lt hi]

/-- When they are not, a residue is never seen. -/
theorem exists_missed {d : ℕ} (hd : ¬ d.Coprime L) (hL : 0 < L) (n : ℕ) :
    ∃ i < L, ∀ j, (n + j * d) % L ≠ i := by
  refine ⟨(n + 1) % L, Nat.mod_lt _ hL, fun j hj => hd ?_⟩
  have hcongr : j * d ≡ 1 [MOD L] := Nat.ModEq.add_left_cancel' n hj
  have hdvd : d.gcd L ∣ 1 := by
    rw [← (hcongr.of_dvd (Nat.gcd_dvd_right d L)).dvd_iff dvd_rfl]
    exact Dvd.dvd.mul_left (Nat.gcd_dvd_left d L) j
  exact Nat.dvd_one.mp hdvd

end WrappingCounter

end CrdtStore
