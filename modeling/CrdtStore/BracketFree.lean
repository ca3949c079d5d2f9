import CrdtStore.Decoded
import CrdtStore.FormatValues
import CrdtStore.SmallNumbers

/-!
# Maps without brackets

`format_json` goes wrong on brackets in keys and values only. A map none of whose keys and values
contains a bracket can be printed (`formatJson_toJson`), and calls and merges keep it so.
-/

namespace CrdtStore

namespace RequestUtilities

/-! ## Texts without brackets in strings -/

/-- All levels of a text fit. -/
def FitsFrom (indentation : ℤ) : ℤ → List Char → Prop
  | level, [] => Fits indentation level
  | level, c :: text => Fits indentation level ∧ FitsFrom indentation (nextLevel level c) text

variable {indentation : ℤ}

theorem FitsFrom.fits {level : ℤ} {text : List Char} (h : FitsFrom indentation level text) :
    Fits indentation level := by
  cases text with
  | nil => exact h
  | cons c text => exact h.1

/-- The formatter gets through a text in which every indentation fits. -/
theorem FitsFrom.exists_formatChars (hind : 0 ≤ indentation) {st : Formatter} {text : List Char}
    (h : FitsFrom indentation st.indentLevel text) :
    ∃ result st', formatChars indentation st text = some (result, st') := by
  induction text generalizing st with
  | nil => exact ⟨[], st, rfl⟩
  | cons c text ih =>
    obtain ⟨out, st₁, hchar⟩ := exists_formatChar hind h.2.fits
    have hlevel : st₁.indentLevel = nextLevel st.indentLevel c := by
      rw [(formatChar_eq_some hchar).1]
    obtain ⟨rest, st', hrest⟩ := ih (hlevel ▸ h.2)
    exact ⟨out ++ rest, st', formatChars_cons_eq_some.mpr ⟨out, st₁, rest, hchar, hrest, rfl⟩⟩

/-- Characters that are no brackets keep the level. -/
theorem FitsFrom.append {level : ℤ} {text rest : List Char}
    (htext : ∀ c ∈ text, isBracket c = false) (h : FitsFrom indentation level rest) :
    FitsFrom indentation level (text ++ rest) := by
  induction text with
  | nil => exact h
  | cons c text ih =>
    have hc : ¬ isBracket c = true := by
      rw [htext c List.mem_cons_self]
      exact Bool.false_ne_true
    refine ⟨h.fits, ?_⟩
    rw [nextLevel_of_not_bracket hc]
    exact ih fun d hd => htext d (List.mem_cons_of_mem c hd)

theorem NoBreaks.bracketFree {inQuotes : Bool} {text : List Char} (h : NoBreaks inQuotes text) :
    ∀ c ∈ text, isBracket c = false := ((noBreaks_iff inQuotes text).mp h).1

section Tokens

variable (E : Escaping)

/-- An escape sequence has no bracket, if the character has none. -/
theorem bracketFree_escape {c : Char} (hc : isBracket c = false) :
    ∀ d ∈ E.escape c, isBracket d = false := by
  -- inside quotes only brackets break a line
  have hnot : ¬ Breaks true c := by
    rintro (hbracket | ⟨-, hquotes⟩)
    · rw [hc] at hbracket
      cases hbracket
    · cases hquotes
  exact ((noBreaks_escape E true c).1.mpr hnot).bracketFree

/-- A string without brackets has none in the text either, quotes included. -/
theorem bracketFree_quoted {chars : List Char} (h : ∀ c ∈ chars, isBracket c = false) :
    ∀ c ∈ (JsonToken.quoted chars).text E, isBracket c = false := by
  intro c hc
  rcases List.mem_cons.mp hc with rfl | hc
  · rfl
  · rcases List.mem_append.mp hc with hc | hc
    · obtain ⟨d, hd, hc⟩ := List.mem_flatMap.mp hc
      exact bracketFree_escape E (h d hd) c hc
    · rw [List.mem_singleton.mp hc]
      rfl

/-- Without brackets in strings, the level is that of the tokens. -/
theorem fitsFrom_of_levels {level : ℤ} (hfits : Fits indentation level) {ts : List JsonToken}
    (hts : ∀ c ∈ quotedChars ts, isBracket c = false) (h : Levels indentation level ts) :
    FitsFrom indentation level (tokensText E ts) := by
  induction ts generalizing level with
  | nil => exact hfits
  | cons t ts ih =>
    rw [tokensText_cons]
    cases t with
    | punct p => exact ⟨hfits, ih h.1 hts h.2⟩
    | word w => exact (ih hfits hts h).append (noBreaks_word w.isWord true).1.bracketFree
    | quoted chars =>
      have hchars : ∀ c ∈ chars ++ quotedChars ts, isBracket c = false := hts
      refine (ih hfits (fun c hc => hchars c (List.mem_append_right _ hc)) h).append ?_
      exact bracketFree_quoted E fun c hc => hchars c (List.mem_append_left _ hc)

end Tokens

/-! ## Values without brackets in strings -/

/-- No character of the string is a bracket. -/
def BracketFree (s : String) : Prop := ∀ c ∈ s.toList, isBracket c = false

instance (s : String) : Decidable (BracketFree s) := List.decidableBAll _ s.toList

/-- No string in the value contains a bracket, and it is nested at most `d` deep. -/
structure Shallow (d : ℕ) (v : Json) : Prop where
  depth_le : v.depth ≤ d
  bracketFree : ∀ c ∈ v.stringChars, isBracket c = false

/-- A value without brackets in its strings can be printed. -/
theorem Shallow.formatJson_isSome (E : Escaping) {d : ℕ} {v : Json} (h : Shallow d v)
    (hfits : Fits 2 d) : (formatJson E 2 v).isSome = true := by
  have hzero : Fits 2 0 := hfits.mono (by decide) (Int.natCast_nonneg d) le_rfl
  have hdepth : Fits 2 (0 + v.depth) := by
    rw [zero_add]
    exact hfits.mono (by decide) (Int.ofNat_le.mpr h.depth_le) (Int.natCast_nonneg _)
  have hlevels : Levels 2 0 (v.tokens ++ []) :=
    (balanced_tokens (by decide) v 0 [] hzero).mpr ⟨hdepth, trivial⟩
  rw [List.append_nil] at hlevels
  obtain ⟨result, st', hresult⟩ : ∃ result st',
      formatChars 2 ⟨0, false⟩ (tokensText E v.tokens) = some (result, st') :=
    (fitsFrom_of_levels E hzero h.bracketFree hlevels).exists_formatChars (by decide)
  rw [formatJson, Json.serialize, hresult]
  rfl

theorem Shallow.mono {d d' : ℕ} {v : Json} (h : Shallow d v) (hle : d ≤ d') : Shallow d' v :=
  ⟨h.depth_le.trans hle, h.bracketFree⟩

theorem Shallow.null (d : ℕ) : Shallow d .null := ⟨Nat.zero_le d, nofun⟩

theorem Shallow.number (d n : ℕ) : Shallow d (.number n) := ⟨Nat.zero_le d, nofun⟩

theorem Shallow.string (d : ℕ) {s : String} (hs : BracketFree s) : Shallow d (.string s) := by
  refine ⟨Nat.zero_le d, fun c hc => hs c ?_⟩
  obtain ⟨t, ht, hc⟩ := List.mem_flatMap.mp hc
  rw [List.mem_singleton.mp ht] at hc
  exact hc

/-- What is quoted in a list of values is quoted in one of them. -/
theorem mem_quotedChars_joined {tss : List (List JsonToken)} {c : Char}
    (h : c ∈ quotedChars (joined tss)) : ∃ ts ∈ tss, c ∈ quotedChars ts := by
  match tss with
  | [] => cases h
  | [ts] => exact ⟨ts, List.mem_singleton_self ts, h⟩
  | ts :: ts' :: rest =>
    have happend : quotedChars (joined (ts :: ts' :: rest)) =
        quotedChars ts ++ quotedChars (joined (ts' :: rest)) := List.flatMap_append
    rw [happend] at h
    rcases List.mem_append.mp h with h | h
    · exact ⟨ts, List.mem_cons_self, h⟩
    · obtain ⟨us, hus, hc⟩ := mem_quotedChars_joined h
      exact ⟨us, List.mem_cons_of_mem ts hus, hc⟩

/-- Names and fields without brackets, each nested at most `d` deep. -/
theorem Shallow.fields {d : ℕ} {fields : List (Sigma fun _ : String => Json)}
    (h : ∀ field ∈ fields, BracketFree field.1 ∧ Shallow d field.2) :
    Json.fieldsDepth fields ≤ d ∧
      ∀ ts ∈ Json.fieldsTokens fields, ∀ c ∈ quotedChars ts, isBracket c = false := by
  induction fields with
  | nil => exact ⟨Nat.zero_le d, nofun⟩
  | cons field fields ih =>
    obtain ⟨name, x⟩ := field
    obtain ⟨hfield, hfields⟩ := List.forall_mem_cons.mp h
    obtain ⟨hdepth, hchars⟩ := ih hfields
    refine ⟨max_le hfield.2.depth_le hdepth, List.forall_mem_cons.mpr ⟨fun c hc => ?_, hchars⟩⟩
    have hc : c ∈ name.toList ++ x.stringChars := hc
    rcases List.mem_append.mp hc with hc | hc
    · exact hfield.1 c hc
    · exact hfield.2.bracketFree c hc

/-- An object adds one level. -/
theorem Shallow.object {d : ℕ} {fields : List (Sigma fun _ : String => Json)}
    (h : ∀ field ∈ fields, BracketFree field.1 ∧ Shallow d field.2) :
    Shallow (d + 1) (.object fields) := by
  obtain ⟨hdepth, hchars⟩ := Shallow.fields h
  refine ⟨?_, fun c hc => ?_⟩
  · show 1 + Json.fieldsDepth fields ≤ d + 1
    omega
  · have hc : c ∈ quotedChars (joined (Json.fieldsTokens fields) ++ [.punct .rightBrace]) := hc
    have happend : quotedChars (joined (Json.fieldsTokens fields) ++ [.punct .rightBrace]) =
        quotedChars (joined (Json.fieldsTokens fields)) ++ [] := List.flatMap_append
    rw [happend, List.append_nil] at hc
    obtain ⟨ts, hts, hc⟩ := mem_quotedChars_joined hc
    exact hchars ts hts c hc

/-- A map that became an object, or stayed null. -/
theorem Shallow.ofMap {d : ℕ} {m : UnorderedMap String Json}
    (h : ∀ name x, m.lookup name = some x → BracketFree name ∧ Shallow d x) :
    Shallow (d + 1) (.ofMap m) := by
  rw [Json.ofMap]
  split
  · exact Shallow.null _
  · exact Shallow.object fun field hfield => h field.1 field.2 (AList.mem_lookup_iff.mpr hfield)

end RequestUtilities

open RequestUtilities (BracketFree Shallow)

/-- Replica ids are written as the names of fields. -/
theorem bracketFree_numberText (n : ℕ) : BracketFree (numberText n) := by
  intro c hc
  have htext : (numberText n).toList = Nat.toDigits 10 n := Nat.toList_repr
  rw [htext] at hc
  have hword := List.all_eq_true.mp (all_isWordChar_toDigits n)
  rw [← Bool.not_eq_true, RequestUtilities.isBracket_iff]
  have hdigit := hword c hc
  rintro ((rfl | rfl) | rfl | rfl) <;> exact absurd hdigit (by decide)

theorem Timestamp.shallow_toJson (t : Timestamp) : Shallow 1 t.toJson := by
  show Shallow (0 + 1) (.object [⟨"replica_id", .number t.replicaId⟩, ⟨"uid", .number t.uid⟩,
    ⟨"sequence_number", .number t.seqNumber⟩])
  apply Shallow.object
  simp only [List.forall_mem_cons]
  exact ⟨⟨by decide, .number _ _⟩, ⟨by decide, .number _ _⟩, ⟨by decide, .number _ _⟩, nofun⟩

/-- A register is a timestamp in an object, beside a value without brackets. -/
theorem LWWRegister.shallow_toJson {reg : LWWRegister String} (h : BracketFree reg.value) :
    Shallow 2 reg.toJson := by
  show Shallow (1 + 1) (.object [⟨"value", .string reg.value⟩,
    ⟨"timestamp", reg.timestamp.toJson⟩])
  apply Shallow.object
  simp only [List.forall_mem_cons]
  exact ⟨⟨by decide, .string _ h⟩, ⟨by decide, reg.timestamp.shallow_toJson⟩, nofun⟩

/-- An object that a loop over `m` fills. -/
theorem RequestUtilities.Shallow.ofFold {K V : Type} [DecidableEq K] {d : ℕ} {p : K → String}
    {w : V → Json} {m : UnorderedMap K V} (hp : ∀ k ∈ m, ∀ k' ∈ m, p k = p k' → k = k')
    (h : ∀ k v, m.lookup k = some v → BracketFree (p k) ∧ Shallow d (w v)) :
    Shallow (d + 1) (.ofMap (m.foldl (fun d k v => d.insert (p k) (w v)) ∅)) := by
  refine Shallow.ofMap fun name x hx => ?_
  rcases (UnorderedMap.lookup_foldl_insert m hp ∅ name x).mp hx with
    ⟨k, v, hk, rfl, rfl⟩ | ⟨hempty, -⟩
  · exact h k v hk
  · cases hempty

theorem shallow_timestampsToJson (timestamps : UnorderedMap ℕ Timestamp) :
    Shallow 2 (timestampsToJson timestamps) :=
  Shallow.ofFold (fun _ _ _ _ h => numberText_injective h)
    fun id t _ => ⟨bracketFree_numberText id, t.shallow_toJson⟩

/-- Elements are names of fields; their tags are two levels further down. -/
theorem ORSet.shallow_toJson {set : ORSet String}
    (h : ∀ e adds, set.elements.lookup e = some adds → BracketFree e) : Shallow 4 set.toJson := by
  have helements : Shallow 3 (.ofMap (set.elements.foldl
      (fun jsonValue e adds => jsonValue.insert e (timestampsToJson adds)) ∅)) :=
    Shallow.ofFold (fun _ _ _ _ heq => heq)
      fun e adds hadds => ⟨h e adds hadds, shallow_timestampsToJson adds⟩
  have hversions : Shallow 3 (timestampsToJson set.versions) :=
    (shallow_timestampsToJson set.versions).mono (by decide)
  show Shallow (3 + 1) (.object [⟨"replica_id", .number set.replicaId⟩,
    ⟨"versions", timestampsToJson set.versions⟩, ⟨"elements", .ofMap _⟩])
  apply Shallow.object
  simp only [List.forall_mem_cons]
  exact ⟨⟨by decide, .number _ _⟩, ⟨by decide, hversions⟩, ⟨by decide, helements⟩, nofun⟩

namespace Map

/-- No key and no value contains a bracket. -/
structure Bracketless (m : Map String String) : Prop where
  key : ∀ e adds, m.keys.elements.lookup e = some adds → BracketFree e
  register : ∀ k reg, m.registers.lookup k = some reg → BracketFree k ∧ BracketFree reg.value

variable {m remote : Map String String}

/-- The keys are nested deepest: fields, elements, tags, and timestamps with their fields. -/
theorem Bracketless.shallow_toJson (h : m.Bracketless) : Shallow 5 m.toJson := by
  have hregisters : Shallow 4 (.ofMap (m.registers.foldl
      (fun jsonValue key reg => jsonValue.insert key reg.toJson) ∅)) :=
    (Shallow.ofFold (p := fun key => key) (fun _ _ _ _ heq => heq) fun k reg hreg =>
      ⟨(h.register k reg hreg).1, LWWRegister.shallow_toJson (h.register k reg hreg).2⟩).mono
        (by decide)
  show Shallow (4 + 1) (.object [⟨"_registers", .ofMap _⟩, ⟨"_keys", m.keys.toJson⟩])
  apply Shallow.object
  simp only [List.forall_mem_cons]
  exact ⟨⟨by decide, hregisters⟩, ⟨by decide, ORSet.shallow_toJson h.key⟩, nofun⟩

/-- A map without brackets can be printed. -/
theorem Bracketless.formatJson_isSome (h : m.Bracketless) (E : Escaping) :
    (RequestUtilities.formatJson E 2 m.toJson).isSome = true :=
  h.shallow_toJson.formatJson_isSome E ⟨by decide, by decide, by decide⟩

/-! ## Calls and merges -/

theorem Bracketless.new (i : ℕ) : (new i : Map String String).Bracketless := ⟨nofun, nofun⟩

/-- Only what is put can bring a bracket in. -/
theorem Bracketless.put (h : m.Bracketless) {key val : String} (hkey : BracketFree key)
    (hval : BracketFree val) : (m.put key val).Bracketless where
  key e adds hadds := by
    rw [keys_put, ORSet.lookup_add] at hadds
    split at hadds
    · next heq => rw [heq]; exact hkey
    · exact h.key e adds hadds
  register k reg hreg := by
    rw [lookup_registers_put] at hreg
    split at hreg
    · next heq =>
      cases hreg
      exact ⟨heq ▸ hkey, hval⟩
    · exact h.register k reg hreg

theorem Bracketless.remove (h : m.Bracketless) (key : String) : (m.remove key).Bracketless where
  key e adds hadds := by
    rw [keys_remove, ORSet.lookup_remove] at hadds
    split at hadds
    · cases hadds
    · exact h.key e adds hadds
  register k reg hreg := by
    rw [lookup_registers_remove] at hreg
    split at hreg
    · cases hreg
    · exact h.register k reg hreg

/-- The subscript in `get` may create a register, of a key and with an empty value. -/
theorem Bracketless.get (h : m.Bracketless) (key : String) : (m.get key).2.Bracketless where
  key e adds hadds := by
    rw [keys_get] at hadds
    exact h.key e adds hadds
  register k reg hreg := by
    rw [lookup_registers_get] at hreg
    split at hreg
    · next hread =>
      obtain ⟨hcontains, rfl⟩ := hread
      cases hold : m.registers.lookup k with
      | some reg' =>
        rw [hold] at hreg
        cases hreg
        exact h.register k reg' hold
      | none =>
        rw [hold] at hreg
        cases hreg
        obtain ⟨adds, hadds⟩ := ORSet.contains_iff.mp hcontains
        have hempty : BracketFree "" := by decide
        exact ⟨h.key k adds hadds, hempty⟩
    · exact h.register k reg hreg

theorem Bracketless.apply (h : m.Bracketless) {op : MapOp String String}
    (hop : ∀ key val, op = .put key val → BracketFree key ∧ BracketFree val) :
    (replicated.apply op m).Bracketless := by
  cases op with
  | put key val => exact h.put (hop key val rfl).1 (hop key val rfl).2
  | remove key => exact h.remove key
  | get key => exact h.get key

/-- A merge makes up no key and no value. -/
theorem Bracketless.merge (h : m.Bracketless) (hr : remote.Bracketless) :
    (m.merge remote).Bracketless where
  key e adds hadds := by
    rcases ORSet.lookup_merge_eq_some hadds with ⟨hs, -, -⟩ | ⟨-, hq, -⟩ |
      ⟨localAdds, remoteAdds, hs, -, -⟩
    · exact h.key e adds hs
    · exact hr.key e adds hq
    · exact h.key e localAdds hs
  register k reg hreg := by
    -- the value is the local one, or one that was received
    rcases register_of_merge hreg with ⟨hlocal, -⟩ |
      ⟨remoteReg, hremote, rfl | ⟨localReg, hlocal, rfl⟩⟩
    · exact h.register k reg hlocal
    · rw [value_adopt]
      exact hr.register k remoteReg hremote
    · rw [LWWRegister.merge]
      split
      · exact hr.register k remoteReg hremote
      · exact h.register k localReg hlocal

/-- The contents decide. -/
theorem Bracketless.of_equal {m' : Map String String} (h : m.Bracketless) (heq : m.Equal m') :
    m'.Bracketless where
  key e adds hadds := by
    obtain ⟨adds', hadds', -⟩ := heq.keys.symm.lookup_eq_some hadds
    exact h.key e adds' hadds'
  register k reg hreg := h.register k reg (by rw [heq.registers k, hreg])

theorem Bracketless.truncated (h : m.Bracketless) : m.truncated.Bracketless where
  key e adds hadds := by
    have hlookup : m.truncated.keys.elements.lookup e =
        (m.keys.elements.lookup e).map (UnorderedMap.mapValues · Timestamp.truncated) :=
      UnorderedMap.lookup_mapValues ..
    rw [hlookup, Option.map_eq_some_iff] at hadds
    obtain ⟨adds', hadds', -⟩ := hadds
    exact h.key e adds' hadds'
  register k reg hreg := by
    rw [Map.truncated, UnorderedMap.lookup_mapValues, Option.map_eq_some_iff] at hreg
    obtain ⟨reg', hreg', rfl⟩ := hreg
    have hvalue : reg'.truncated.value = reg'.value := by
      rw [LWWRegister.truncated]
    obtain ⟨hk, hregister⟩ := h.register k reg' hreg'
    refine ⟨hk, ?_⟩
    rw [hvalue]
    exact hregister

end Map

end CrdtStore
