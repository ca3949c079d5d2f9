import Mathlib.Algebra.BigOperators.Group.Finset.Basic
import Mathlib.Data.List.AList

/-!
# Unordered maps and loops over them

An `UnorderedMap K V` is Mathlib's association list with unique keys. The order of its entries
stands for the iteration order of a hash map: two maps are the same map when every key looks up
the same value (`Same`), whatever that order is.

Programs fill such maps in loops over another map. `lookup_foldl` is the rule for the loops whose
body, at a key, reads and writes the entry of that key only: one turn of the loop is all a key
ever sees, so the result does not depend on the iteration order.
-/

universe u v w

/-- A map from keys to values, its entries in some iteration order. -/
abbrev UnorderedMap (K : Type u) (V : Type v) := AList (fun _ : K => V)

namespace UnorderedMap

variable {K : Type u} {V : Type v} {W : Type w} [DecidableEq K]

/-- Equality of unordered maps: the same value, or none, at every key. -/
def Same (m₁ m₂ : UnorderedMap K V) : Prop := ∀ k, m₁.lookup k = m₂.lookup k

theorem Same.refl (m : UnorderedMap K V) : Same m m := fun _ => rfl

theorem Same.symm {m₁ m₂ : UnorderedMap K V} (h : Same m₁ m₂) : Same m₂ m₁ := fun k => (h k).symm

theorem Same.trans {m₁ m₂ m₃ : UnorderedMap K V} (h : Same m₁ m₂) (h' : Same m₂ m₃) :
    Same m₁ m₃ := fun k => (h k).trans (h' k)

/-- The number of entries. -/
def size (m : UnorderedMap K V) : ℕ := m.entries.length

theorem mem_iff_lookup {m : UnorderedMap K V} {k : K} : k ∈ m ↔ ∃ v, m.lookup k = some v := by
  rw [← AList.lookup_isSome, Option.isSome_iff_exists]

theorem not_mem_iff_lookup {m : UnorderedMap K V} {k : K} : k ∉ m ↔ m.lookup k = none :=
  AList.lookup_eq_none.symm

theorem mem_of_lookup {m : UnorderedMap K V} {k : K} {v : V} (h : m.lookup k = some v) : k ∈ m :=
  mem_iff_lookup.mpr ⟨v, h⟩

theorem Same.mem_iff {m₁ m₂ : UnorderedMap K V} (h : Same m₁ m₂) (k : K) : k ∈ m₁ ↔ k ∈ m₂ := by
  rw [mem_iff_lookup, mem_iff_lookup, h k]

theorem lookup_insert_eq (m : UnorderedMap K V) (k k' : K) (v : V) :
    (m.insert k v).lookup k' = if k' = k then some v else m.lookup k' := by
  split
  · next h => rw [h, AList.lookup_insert]
  · next h => rw [AList.lookup_insert_ne h]

theorem lookup_erase_eq (m : UnorderedMap K V) (k k' : K) :
    (m.erase k).lookup k' = if k' = k then none else m.lookup k' := by
  split
  · next h => rw [h, AList.lookup_erase]
  · next h => rw [AList.lookup_erase_ne h]

theorem Same.insert {m₁ m₂ : UnorderedMap K V} (h : Same m₁ m₂) (k : K) (v : V) :
    Same (m₁.insert k v) (m₂.insert k v) := by
  intro k'
  rw [lookup_insert_eq, lookup_insert_eq, h k']

theorem Same.erase {m₁ m₂ : UnorderedMap K V} (h : Same m₁ m₂) (k : K) :
    Same (m₁.erase k) (m₂.erase k) := by
  intro k'
  rw [lookup_erase_eq, lookup_erase_eq, h k']

/-- An entry that is not written. -/
theorem lookup_unchanged (m : UnorderedMap K V) (k k' : K) :
    m.lookup k' = if k' = k then m.lookup k else m.lookup k' := by
  split
  · next h => rw [h]
  · rfl

omit [DecidableEq K] in
/-- Maps with the same keys have the same size. -/
theorem size_eq_of_mem_iff {m₁ : UnorderedMap K V} {m₂ : UnorderedMap K W}
    (h : ∀ k, k ∈ m₁ ↔ k ∈ m₂) : size m₁ = size m₂ := by
  have hperm : m₁.keys.Perm m₂.keys :=
    (List.perm_ext_iff_of_nodup m₁.keys_nodup m₂.keys_nodup).mpr h
  simpa [AList.keys, List.keys, size] using hperm.length_eq

theorem Same.size_eq {m₁ m₂ : UnorderedMap K V} (h : Same m₁ m₂) : size m₁ = size m₂ :=
  size_eq_of_mem_iff h.mem_iff

omit [DecidableEq K] in
/-- A map whose keys are among those of a map of the same size has the same keys. -/
theorem mem_iff_of_size_eq {m₁ : UnorderedMap K V} {m₂ : UnorderedMap K W}
    (hsize : size m₁ = size m₂) (h : ∀ k ∈ m₁, k ∈ m₂) (k : K) : k ∈ m₁ ↔ k ∈ m₂ := by
  have hlength : m₂.keys.length ≤ m₁.keys.length := by
    simpa [AList.keys, List.keys, size] using hsize.symm.le
  have hsub : m₁.keys.Subperm m₂.keys := List.Nodup.subperm m₁.keys_nodup h
  exact (hsub.perm_of_length_le hlength).mem_iff

/-! ## Subscripts

`m[k]` inserts the default value under a key that is not there. -/

section Subscript

variable [Inhabited V]

/-- `m[k]` as a value, and the map it leaves. -/
def subscript (m : UnorderedMap K V) (k : K) : V × UnorderedMap K V :=
  match m.lookup k with
  | some v => (v, m)
  | none => (default, m.insert k default)

/-- The map after `m[k]` is changed in place by `f`. -/
def modifyAt (m : UnorderedMap K V) (k : K) (f : V → V) : UnorderedMap K V :=
  m.insert k (f ((m.lookup k).getD default))

theorem subscript_of_lookup {m : UnorderedMap K V} {k : K} {v : V} (h : m.lookup k = some v) :
    m.subscript k = (v, m) := by
  rw [subscript, h]

theorem lookup_modifyAt (m : UnorderedMap K V) (k k' : K) (f : V → V) :
    (m.modifyAt k f).lookup k' =
      if k' = k then some (f ((m.lookup k).getD default)) else m.lookup k' :=
  lookup_insert_eq ..

end Subscript

/-! ## Searching a map -/

/-- A search over the entries that stops at the first one satisfying `p`. -/
def any (m : UnorderedMap K V) (p : K → V → Bool) : Bool :=
  m.entries.any fun entry => p entry.1 entry.2

theorem any_eq_true {m : UnorderedMap K V} {p : K → V → Bool} :
    any m p = true ↔ ∃ k v, m.lookup k = some v ∧ p k v = true := by
  rw [any, List.any_eq_true]
  constructor
  · rintro ⟨⟨k, v⟩, hmem, hp⟩
    exact ⟨k, v, AList.mem_lookup_iff.mpr hmem, hp⟩
  · rintro ⟨k, v, hlook, hp⟩
    exact ⟨⟨k, v⟩, AList.mem_lookup_iff.mp hlook, hp⟩

theorem any_eq_false {m : UnorderedMap K V} {p : K → V → Bool} :
    any m p = false ↔ ∀ k v, m.lookup k = some v → p k v = false := by
  rw [← Bool.not_eq_true, any_eq_true]
  simp only [not_exists, not_and, Bool.not_eq_true]

theorem Same.any_eq {m₁ m₂ : UnorderedMap K V} (h : Same m₁ m₂) (p : K → V → Bool) :
    any m₁ p = any m₂ p := by
  rw [Bool.eq_iff_iff, any_eq_true, any_eq_true]
  simp only [h _]

instance (m : UnorderedMap K V) (p : K → V → Prop) [∀ k v, Decidable (p k v)] :
    Decidable (∀ k v, m.lookup k = some v → p k v) :=
  decidable_of_iff (any m (fun k v => !decide (p k v)) = false) (by
    rw [any_eq_false]
    simp)

/-! ## Loops over a map -/

/-- A loop over an extended map starts with the new entry. -/
theorem foldl_insert {δ : Type*} (f : δ → K → V → δ) (d : δ) {k : K} (v : V)
    {m : UnorderedMap K V} (h : k ∉ m) :
    (m.insert k v).foldl f d = m.foldl f (f d k v) := by
  rw [AList.foldl, AList.entries_insert_of_notMem h]
  rfl

/-- A loop none of whose turns changes anything. -/
theorem foldl_eq_self {δ : Type*} {f : δ → K → V → δ} (m : UnorderedMap K V) {d : δ}
    (hf : ∀ k v, m.lookup k = some v → f d k v = d) : m.foldl f d = d := by
  induction m using AList.insertRec with
  | H0 => rfl
  | IH a b m ha ih =>
    rw [foldl_insert f d b ha, hf a b (AList.lookup_insert _)]
    apply ih
    intro k v hk
    have hne : k ≠ a := fun h => ha (h ▸ mem_of_lookup hk)
    exact hf k v (by rw [AList.lookup_insert_ne hne, hk])

/-- A loop that adds up the entries. -/
theorem foldl_add {M : Type*} [AddCommMonoid M] (m : UnorderedMap K M) (d : M) :
    m.foldl (fun s _ v => s + v) d = d + ∑ k ∈ m.keys.toFinset, (m.lookup k).getD 0 := by
  induction m using AList.insertRec generalizing d with
  | H0 => exact (add_zero d).symm
  | IH a b m ha ih =>
    have hnot : a ∉ m.keys.toFinset := fun h => ha (List.mem_toFinset.mp h)
    have hrest : ∑ k ∈ m.keys.toFinset, ((m.insert a b).lookup k).getD 0 =
        ∑ k ∈ m.keys.toFinset, (m.lookup k).getD 0 := by
      refine Finset.sum_congr rfl fun k hk => ?_
      have hne : k ≠ a := fun heq => hnot (heq ▸ hk)
      rw [AList.lookup_insert_ne hne]
    rw [foldl_insert _ _ b ha, ih, AList.keys_insert, List.erase_of_not_mem ha, List.toFinset_cons,
      Finset.sum_insert hnot, hrest, AList.lookup_insert, Option.getD_some, add_assoc]

/-- The loop rule: when the body at key `k` changes the entry of `k` alone, and to a value that
depends on that entry alone, the loop changes each entry once, at the keys looped over. -/
theorem lookup_foldl {f : UnorderedMap K W → K → V → UnorderedMap K W}
    {g : K → V → Option W → Option W}
    (hf : ∀ d k v k', (f d k v).lookup k' = if k' = k then g k v (d.lookup k) else d.lookup k')
    (m : UnorderedMap K V) (d : UnorderedMap K W) (k : K) :
    (m.foldl f d).lookup k = (m.lookup k).elim (d.lookup k) fun v => g k v (d.lookup k) := by
  induction m using AList.insertRec generalizing d with
  | H0 => rfl
  | IH a b m ha ih =>
    rw [foldl_insert f d b ha, ih (f d a b), hf, lookup_insert_eq]
    by_cases hk : k = a
    · subst hk
      rw [if_pos rfl, if_pos rfl, not_mem_iff_lookup.mp ha]
      rfl
    · rw [if_neg hk, if_neg hk]

/-- A loop that stores a value computed from each entry under the same key. -/
def mapValues (m : UnorderedMap K V) (f : V → W) : UnorderedMap K W :=
  m.foldl (fun d k v => d.insert k (f v)) ∅

theorem lookup_mapValues (m : UnorderedMap K V) (f : V → W) (k : K) :
    (m.mapValues f).lookup k = (m.lookup k).map f := by
  rw [mapValues, lookup_foldl (g := fun _ v _ => some (f v))]
  · cases m.lookup k <;> rfl
  · intro d k v k'
    exact lookup_insert_eq ..

theorem Same.mapValues {m₁ m₂ : UnorderedMap K V} (h : Same m₁ m₂) {f : V → W} :
    Same (m₁.mapValues f) (m₂.mapValues f) := by
  intro k
  rw [lookup_mapValues, lookup_mapValues, h k]

/-! ## Loops that may fail -/

section Fallible

variable {ε : Type*} {δ : Type*}

/-- A loop whose body may fail. -/
def foldlM (m : UnorderedMap K V) (f : δ → K → V → Except ε δ) (d : δ) : Except ε δ :=
  m.entries.foldlM (fun d entry => f d entry.1 entry.2) d

omit [DecidableEq K] in
@[simp] theorem foldlM_empty (f : δ → K → V → Except ε δ) (d : δ) :
    (∅ : UnorderedMap K V).foldlM f d = .ok d := rfl

theorem foldlM_insert (f : δ → K → V → Except ε δ) (d : δ) {k : K} (v : V) {m : UnorderedMap K V}
    (h : k ∉ m) : UnorderedMap.foldlM (m.insert k v) f d = f d k v >>= m.foldlM f := by
  rw [foldlM, AList.entries_insert_of_notMem h]
  rfl

/-- The loop rule for a body that succeeds at each entry and, at key `k`, changes the entry of `k`
alone. -/
theorem foldlM_spec {R : K → V → Option W → Option W → Prop}
    {f : UnorderedMap K W → K → V → Except ε (UnorderedMap K W)} (m : UnorderedMap K V)
    (hf : ∀ d k v, m.lookup k = some v → ∃ d', f d k v = .ok d' ∧
      R k v (d.lookup k) (d'.lookup k) ∧ ∀ k', k' ≠ k → d'.lookup k' = d.lookup k')
    (d : UnorderedMap K W) :
    ∃ d', m.foldlM f d = .ok d' ∧
      (∀ k v, m.lookup k = some v → R k v (d.lookup k) (d'.lookup k)) ∧
      ∀ k, k ∉ m → d'.lookup k = d.lookup k := by
  induction m using AList.insertRec generalizing d with
  | H0 => exact ⟨d, rfl, fun k v hk => (nomatch hk), fun k _ => rfl⟩
  | IH a b m ha ih =>
    obtain ⟨d₁, hfa, hRa, hframe⟩ := hf d a b (AList.lookup_insert _)
    have hm : ∀ k v, m.lookup k = some v → k ≠ a ∧ (m.insert a b).lookup k = some v := by
      intro k v hk
      have hne : k ≠ a := fun h => ha (h ▸ mem_of_lookup hk)
      exact ⟨hne, by rw [AList.lookup_insert_ne hne, hk]⟩
    obtain ⟨d', hloop, hR, hrest⟩ := ih (fun d k v hk => hf d k v (hm k v hk).2) d₁
    refine ⟨d', ?_, fun k v hk => ?_, fun k hk => ?_⟩
    · rw [foldlM_insert f d b ha, hfa]
      exact hloop
    · rw [lookup_insert_eq] at hk
      split at hk
      · next heq =>
        cases hk
        rw [heq, hrest a ha]
        exact hRa
      · next hne =>
        rw [← hframe k hne]
        exact hR k v hk
    · rw [AList.mem_insert, not_or] at hk
      rw [hrest k hk.2, hframe k hk.1]

/-- What a loop starts with and every turn keeps holds of the result, if there is one. -/
theorem foldlM_invariant {f : δ → K → V → Except ε δ} {I : δ → Prop} (m : UnorderedMap K V)
    (hf : ∀ d k v d', m.lookup k = some v → I d → f d k v = .ok d' → I d') {d d' : δ} (hd : I d)
    (h : m.foldlM f d = .ok d') : I d' := by
  induction m using AList.insertRec generalizing d with
  | H0 =>
    cases h
    exact hd
  | IH a b m ha ih =>
    rw [foldlM_insert f d b ha] at h
    cases hfa : f d a b with
    | error err =>
      rw [hfa] at h
      cases h
    | ok d₁ =>
      rw [hfa] at h
      refine ih (fun d k v d' hk => hf d k v d' ?_) (hf d a b d₁ (AList.lookup_insert _) hd hfa) h
      have hne : k ≠ a := fun heq => ha (heq ▸ mem_of_lookup hk)
      rw [AList.lookup_insert_ne hne, hk]

/-- A loop that fails at no entry is one that cannot fail. -/
theorem foldlM_eq_ok {f : δ → K → V → Except ε δ} {g : δ → K → V → δ} (m : UnorderedMap K V)
    (hf : ∀ d k v, f d k v = .ok (g d k v)) (d : δ) : m.foldlM f d = .ok (m.foldl g d) := by
  induction m using AList.insertRec generalizing d with
  | H0 => rfl
  | IH a b m ha ih =>
    rw [foldlM_insert f d b ha, foldl_insert g d b ha, hf]
    exact ih _

/-- A loop over part of a structure, when the body works on that part alone. -/
theorem foldlM_insert_part {f : W → K → V → Except ε W} {K' : Type*} [DecidableEq K'] {y : K'}
    [Inhabited W] {body : UnorderedMap K' W → K → V → Except ε (UnorderedMap K' W)}
    (hbody : ∀ d k v, body d k v = (f ((d.lookup y).getD default) k v).map (d.insert y))
    (m : UnorderedMap K V) (hm : ∃ k, k ∈ m) {d : UnorderedMap K' W} {x : W}
    (hx : m.foldlM f ((d.lookup y).getD default) = .ok x) :
    m.foldlM body d = .ok (d.insert y x) := by
  induction m using AList.insertRec generalizing d with
  | H0 =>
    obtain ⟨k, hk⟩ := hm
    exact absurd hk (AList.notMem_empty k)
  | IH a b m ha ih =>
    rw [foldlM_insert _ _ b ha] at hx ⊢
    rw [hbody]
    cases hfa : f ((d.lookup y).getD default) a b with
    | error err =>
      rw [hfa] at hx
      cases hx
    | ok x₁ =>
      rw [hfa] at hx
      show UnorderedMap.foldlM m body (d.insert y x₁) = _
      by_cases hne : ∃ k, k ∈ m
      · rw [ih hne (d := d.insert y x₁) (by rw [AList.lookup_insert]; exact hx),
          AList.insert_insert]
      · -- the last turn
        have hempty : m = ∅ := by
          apply AList.ext
          exact List.eq_nil_iff_forall_not_mem.mpr fun entry hentry =>
            hne ⟨entry.1, List.mem_map_of_mem hentry⟩
        subst hempty
        cases hx
        rfl

end Fallible

/-! ## Loops that change the keys -/

section Rekey

variable {ε : Type*} {K V K' V' W : Type u} [DecidableEq K] [DecidableEq K']

/-- A loop that stores each entry under another key, one the other keys are not mapped to. -/
theorem lookup_foldlM_insert {p : K → Except ε K'} {w : V → Except ε W} (m : UnorderedMap K V)
    (hok : ∀ k v, m.lookup k = some v → ∃ y x, p k = .ok y ∧ w v = .ok x)
    (hp : ∀ k ∈ m, ∀ k' ∈ m, p k = p k' → k = k') (d : UnorderedMap K' W) :
    ∃ d', m.foldlM (fun (d : UnorderedMap K' W) k v => do return d.insert (← p k) (← w v)) d =
        .ok d' ∧
      ∀ y x, d'.lookup y = some x ↔
        (∃ k v, m.lookup k = some v ∧ p k = .ok y ∧ w v = .ok x) ∨
          (d.lookup y = some x ∧ ∀ k ∈ m, p k ≠ .ok y) := by
  induction m using AList.insertRec generalizing d with
  | H0 => exact ⟨d, rfl, fun y x => by simp⟩
  | IH a b m ha ih =>
    obtain ⟨ya, xa, hya, hxa⟩ := hok a b (AList.lookup_insert _)
    -- the entries after the first are those of the rest of the map
    have hm : ∀ k v, m.lookup k = some v → k ≠ a ∧ (m.insert a b).lookup k = some v := by
      intro k v hk
      have hne : k ≠ a := fun h => ha (h ▸ mem_of_lookup hk)
      exact ⟨hne, by rw [AList.lookup_insert_ne hne, hk]⟩
    obtain ⟨d', hloop, hd'⟩ := ih (fun k v hk => hok k v (hm k v hk).2)
      (fun k hk k' hk' => hp k (by simp [hk]) k' (by simp [hk'])) (d.insert ya xa)
    refine ⟨d', ?_, fun y x => ?_⟩
    · rw [foldlM_insert _ d b ha, hya, hxa]
      exact hloop
    · rw [hd', lookup_insert_eq]
      simp only [AList.mem_insert, forall_eq_or_imp]
      constructor
      · rintro (⟨k, v, hk, hkp, hkw⟩ | ⟨hx, hall⟩)
        · exact Or.inl ⟨k, v, (hm k v hk).2, hkp, hkw⟩
        · split at hx
          · next hy =>
            cases hx
            exact Or.inl ⟨a, b, AList.lookup_insert _, by rw [hya, hy], hxa⟩
          · next hy =>
            refine Or.inr ⟨hx, ?_, hall⟩
            rw [hya]
            exact fun h => hy (Except.ok.inj h).symm
      · rintro (⟨k, v, hk, hkp, hkw⟩ | ⟨hx, hne, hall⟩)
        · rw [lookup_insert_eq] at hk
          split at hk
          · next heq =>
            cases hk
            subst heq
            have hy : ya = y := Except.ok.inj (hya.symm.trans hkp)
            have hx : xa = x := Except.ok.inj (hxa.symm.trans hkw)
            refine Or.inr ⟨by rw [if_pos hy.symm, hx], fun k' hk' heq => ha ?_⟩
            rw [← hp k' (by simp [hk']) k (by simp) (heq.trans hkp.symm)]
            exact hk'
          · exact Or.inl ⟨k, v, hk, hkp, hkw⟩
        · refine Or.inr ⟨?_, hall⟩
          rw [if_neg fun h => hne (by rw [hya, h])]
          exact hx

/-- `lookup_foldlM_insert` for a loop that cannot fail. -/
theorem lookup_foldl_insert {p : K → K'} {w : V → W} (m : UnorderedMap K V)
    (hp : ∀ k ∈ m, ∀ k' ∈ m, p k = p k' → k = k') (d : UnorderedMap K' W)
    (y : K') (x : W) :
    (m.foldl (fun d k v => d.insert (p k) (w v)) d).lookup y = some x ↔
      (∃ k v, m.lookup k = some v ∧ p k = y ∧ w v = x) ∨
        (d.lookup y = some x ∧ ∀ k ∈ m, p k ≠ y) := by
  have hinj : ∀ k ∈ m, ∀ k' ∈ m, (Except.ok (p k) : Except Unit K') = .ok (p k') → k = k' :=
    fun k hk k' hk' h => hp k hk k' hk' (Except.ok.inj h)
  obtain ⟨d', hloop, hd'⟩ := lookup_foldlM_insert (w := fun v => .ok (w v)) m
    (fun k v _ => ⟨p k, w v, rfl, rfl⟩) hinj d
  have hsame : m.foldlM
      (fun (d : UnorderedMap K' W) k v => do return d.insert (← .ok (p k)) (← .ok (w v))) d =
        (.ok (m.foldl (fun d k v => d.insert (p k) (w v)) d) : Except Unit _) :=
    foldlM_eq_ok m (fun d k v => rfl) d
  rw [Except.ok.inj (hsame.symm.trans hloop), hd']
  simp only [Except.ok.injEq, ne_eq]

/-- Reading back a map that was stored under other keys, into a map `d₀`. -/
theorem foldlM_foldl_insert {p : K → K'} {w : V → V'} {q : K' → Except ε K} {r : V' → Except ε W}
    {g : V → W} (m : UnorderedMap K V) (hq : ∀ k ∈ m, q (p k) = .ok k)
    (hr : ∀ v, r (w v) = .ok (g v)) (d₀ : UnorderedMap K W) :
    ∃ d, UnorderedMap.foldlM
        (m.foldl (fun (d : UnorderedMap K' V') k v => d.insert (p k) (w v)) ∅)
        (fun (d : UnorderedMap K W) y x => do return d.insert (← q y) (← r x)) d₀ = .ok d ∧
      ∀ k, d.lookup k = ((m.lookup k).map g).or (d₀.lookup k) := by
  -- what can be read back was stored under a key of its own
  have hp : ∀ k ∈ m, ∀ k' ∈ m, p k = p k' → k = k' := by
    intro k hk k' hk' heq
    have hok := hq k hk
    rw [heq, hq k' hk'] at hok
    exact (Except.ok.inj hok).symm
  set stored : UnorderedMap K' V' := m.foldl (fun d k v => d.insert (p k) (w v)) ∅
  have hstored : ∀ y x, stored.lookup y = some x ↔ ∃ k v,
      m.lookup k = some v ∧ p k = y ∧ w v = x := by
    intro y x
    rw [lookup_foldl_insert m hp]
    simp
  have hkey : ∀ y ∈ stored, ∃ k ∈ m, p k = y := by
    intro y hy
    obtain ⟨x, hx⟩ := mem_iff_lookup.mp hy
    obtain ⟨k, v, hk, hky, -⟩ := (hstored y x).mp hx
    exact ⟨k, mem_of_lookup hk, hky⟩
  obtain ⟨d, hloop, hd⟩ := lookup_foldlM_insert (p := q) (w := r) stored
    (by
      intro y x hx
      obtain ⟨k, v, hk, rfl, rfl⟩ := (hstored y x).mp hx
      exact ⟨k, g v, hq k (mem_of_lookup hk), hr v⟩)
    (by
      intro y hy y' hy' heq
      obtain ⟨k, hk, rfl⟩ := hkey y hy
      obtain ⟨k', hk', rfl⟩ := hkey y' hy'
      rw [hq k hk, hq k' hk'] at heq
      rw [Except.ok.inj heq]) d₀
  refine ⟨d, hloop, fun k => ?_⟩
  cases hk : m.lookup k with
  | some v =>
    exact (hd k (g v)).mpr (Or.inl ⟨p k, w v, (hstored _ _).mpr ⟨k, v, hk, rfl, rfl⟩,
      hq k (mem_of_lookup hk), hr v⟩)
  | none =>
    -- no stored key is read back as `k`
    have hnone : ∀ y ∈ stored, q y ≠ .ok k := by
      intro y hy heq
      obtain ⟨k', hk', rfl⟩ := hkey y hy
      rw [hq k' hk'] at heq
      rw [Except.ok.inj heq] at hk'
      exact not_mem_iff_lookup.mpr hk hk'
    apply Option.ext
    intro x
    rw [hd]
    constructor
    · intro h
      rcases h with ⟨y, x', hx', hy, -⟩ | ⟨hx, -⟩
      · exact absurd hy (hnone y (mem_of_lookup hx'))
      · exact hx
    · intro hx
      exact Or.inr ⟨hx, hnone⟩

end Rekey

end UnorderedMap
