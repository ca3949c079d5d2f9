import Mathlib.Algebra.Group.Nat.Even
import CrdtStore.FormatSpaces

/-!
# Formatted values

The brackets of a value's own text are balanced, so its levels fit when its depth does
(`balanced_tokens`). `formatJson_iff` says for which values the result of `format_json` is the text
with other spaces.
-/

namespace CrdtStore

namespace RequestUtilities

/-! ## The levels of a value -/

theorem Fits.mono {indentation level level' : ℤ} (hind : 0 ≤ indentation)
    (h : Fits indentation level) (hle : level' ≤ level) (hnonneg : 0 ≤ level') :
    Fits indentation level' := by
  obtain ⟨-, hlt, hcount⟩ := h
  have hmul : indentation * level' ≤ indentation * level := Int.mul_le_mul_of_nonneg_left hle hind
  exact ⟨hnonneg, by omega, by omega⟩

/-- The tokens close all that they open, at most `d` levels deep. -/
def Balanced (indentation : ℤ) (d : ℕ) (ts : List JsonToken) : Prop :=
  ∀ level rest, Fits indentation level →
    (Levels indentation level (ts ++ rest) ↔
      Fits indentation (level + d) ∧ Levels indentation level rest)

variable {indentation : ℤ}

theorem Balanced.append (hind : 0 ≤ indentation) {d e : ℕ} {ts ts' : List JsonToken}
    (h : Balanced indentation d ts) (h' : Balanced indentation e ts') :
    Balanced indentation (max d e) (ts ++ ts') := by
  intro level rest hfits
  rw [List.append_assoc, h level _ hfits, h' level _ hfits, ← and_assoc]
  refine and_congr_left fun _ => ?_
  constructor
  · intro hboth
    rcases Nat.le_total d e with hle | hle
    · rw [max_eq_right hle]
      exact hboth.2
    · rw [max_eq_left hle]
      exact hboth.1
  · intro hmax
    have hnonneg := hfits.1
    have hd : level + d ≤ level + (max d e : ℕ) := by omega
    have he : level + e ≤ level + (max d e : ℕ) := by omega
    exact ⟨hmax.mono hind hd (by omega), hmax.mono hind he (by omega)⟩

theorem balanced_nil : Balanced indentation 0 [] := by
  intro level rest hfits
  have hsame : level + (0 : ℕ) = level := by omega
  rw [hsame, and_iff_right hfits]
  exact Iff.rfl

/-- Commas and colons stay on their level. -/
theorem balanced_punct {p : Punct} (hp : ¬ isBracket p.char = true) :
    Balanced indentation 0 [.punct p] := by
  intro level rest hfits
  have hsame : level + (0 : ℕ) = level := by omega
  show Fits indentation (nextLevel level p.char) ∧
    Levels indentation (nextLevel level p.char) rest ↔ _
  rw [nextLevel_of_not_bracket hp, hsame]

/-- Words and quoted strings have no level. -/
theorem balanced_singleton {t : JsonToken} (ht : ∀ p, t ≠ .punct p) :
    Balanced indentation 0 [t] := by
  intro level rest hfits
  have hsame : level + (0 : ℕ) = level := by omega
  rw [hsame, and_iff_right hfits]
  cases t with
  | punct p => exact absurd rfl (ht p)
  | word w => exact Iff.rfl
  | quoted chars => exact Iff.rfl

/-- Brackets or braces around tokens. -/
theorem Balanced.enclosed (hind : 0 ≤ indentation) {d : ℕ} {ts : List JsonToken}
    (h : Balanced indentation d ts) {p q : Punct}
    (hp : ∀ level, nextLevel level p.char = level + 1)
    (hq : ∀ level, nextLevel level q.char = level - 1) :
    Balanced indentation (1 + d) (.punct p :: (ts ++ [.punct q])) := by
  intro level rest hfits
  show Fits indentation (nextLevel level p.char) ∧
    Levels indentation (nextLevel level p.char) (ts ++ [.punct q] ++ rest) ↔ _
  rw [hp, List.append_assoc]
  have hdepth : level + 1 + (d : ℤ) = level + (1 + d : ℕ) := by omega
  have hnonneg := hfits.1
  constructor
  · intro hlevels
    obtain ⟨hup, hlevels⟩ := hlevels
    rw [h _ _ hup, hdepth] at hlevels
    obtain ⟨hdeep, -, hrest⟩ := hlevels
    rw [hq, Int.add_sub_cancel] at hrest
    exact ⟨hdeep, hrest⟩
  · intro hlevels
    obtain ⟨hdeep, hrest⟩ := hlevels
    have hup : Fits indentation (level + 1) := hdeep.mono hind (by omega) (by omega)
    refine ⟨hup, (h _ _ hup).mpr ⟨by rw [hdepth]; exact hdeep, ?_⟩⟩
    show Fits indentation (nextLevel (level + 1) q.char) ∧
      Levels indentation (nextLevel (level + 1) q.char) rest
    rw [hq, Int.add_sub_cancel]
    exact ⟨hfits, hrest⟩

/-- One more list of tokens in front of others, a comma between them if there are others. -/
theorem Balanced.joined_cons (hind : 0 ≤ indentation) {d e : ℕ} {ts : List JsonToken}
    {tss : List (List JsonToken)} (h : Balanced indentation d ts)
    (h' : Balanced indentation e (joined tss)) :
    Balanced indentation (max d e) (joined (ts :: tss)) := by
  cases tss with
  | nil =>
    have hboth := h.append hind h'
    rw [joined, List.append_nil] at hboth
    exact hboth
  | cons ts' tss =>
    have hcomma : Balanced indentation 0 [.punct .comma] := balanced_punct Bool.false_ne_true
    have hall := (h.append hind hcomma).append hind h'
    rw [Nat.max_zero] at hall
    rw [joined]
    rwa [List.append_assoc] at hall

mutual

theorem balanced_tokens (hind : 0 ≤ indentation) :
    (v : Json) → Balanced indentation v.depth v.tokens
  | .null => balanced_singleton nofun
  | .boolean true => balanced_singleton nofun
  | .boolean false => balanced_singleton nofun
  | .number _ => balanced_singleton nofun
  | .otherNumber _ => balanced_singleton nofun
  | .string _ => balanced_singleton nofun
  | .array items =>
    (balanced_itemsTokens hind items).enclosed hind (fun _ => rfl) (fun _ => rfl)
  | .object fields =>
    (balanced_fieldsTokens hind fields).enclosed hind (fun _ => rfl) (fun _ => rfl)

theorem balanced_itemsTokens (hind : 0 ≤ indentation) :
    (items : List Json) →
      Balanced indentation (Json.itemsDepth items) (joined (Json.itemsTokens items))
  | [] => balanced_nil
  | x :: items => (balanced_tokens hind x).joined_cons hind (balanced_itemsTokens hind items)

theorem balanced_fieldsTokens (hind : 0 ≤ indentation) :
    (fields : List (Sigma fun _ : String => Json)) →
      Balanced indentation (Json.fieldsDepth fields) (joined (Json.fieldsTokens fields))
  | [] => balanced_nil
  | field :: fields =>
    (balanced_fieldTokens hind field).joined_cons hind (balanced_fieldsTokens hind fields)

theorem balanced_fieldTokens (hind : 0 ≤ indentation) :
    (field : Sigma fun _ : String => Json) →
      Balanced indentation (Json.fieldDepth field) (Json.fieldTokens field)
  | ⟨name, x⟩ => by
    have hname : Balanced indentation 0 [.quoted name.toList] := balanced_singleton nofun
    have hcolon : Balanced indentation 0 [.punct .colon] := balanced_punct Bool.false_ne_true
    have hall := (hname.append hind hcolon).append hind (balanced_tokens hind x)
    rw [Nat.max_self, Nat.zero_max] at hall
    exact hall

end

/-! ## Formatted values -/

theorem even_count_iff (l : List Char) (inQuotes : Bool) :
    l.foldl nextQuotes inQuotes = true ↔ (Even (l.count '"') ↔ inQuotes = true) := by
  induction l generalizing inQuotes with
  | nil => simp
  | cons c l ih =>
    rw [List.foldl_cons, ih, List.count_cons]
    by_cases hc : c = '"'
    · subst hc
      rw [if_pos (beq_self_eq_true '"'), Nat.even_add_one]
      cases inQuotes <;> simp [nextQuotes]
    · rw [nextQuotes, if_neg hc, if_neg (by simpa using hc), Nat.add_zero]

/-- Texts that break no line: without brackets, and with each comma inside the quotes. -/
theorem noBreaks_iff (inQuotes : Bool) (text : List Char) :
    NoBreaks inQuotes text ↔ (∀ c ∈ text, isBracket c = false) ∧
      ∀ l r, text = l ++ ',' :: r → (Even (l.count '"') ↔ inQuotes = true) := by
  simp only [← even_count_iff]
  induction text generalizing inQuotes with
  | nil => simp [NoBreaks]
  | cons c text ih =>
    show ¬ Breaks inQuotes c ∧ NoBreaks (nextQuotes inQuotes c) text ↔ _
    rw [ih, Breaks, not_or, Bool.not_eq_true]
    constructor
    · intro h
      obtain ⟨⟨hbracket, hcomma⟩, hall, hcommas⟩ := h
      refine ⟨List.forall_mem_cons.mpr ⟨hbracket, hall⟩, fun l r hlr => ?_⟩
      cases l with
      | nil =>
        obtain rfl : c = ',' := (List.cons.inj hlr).1
        simpa using hcomma
      | cons d l =>
        obtain ⟨rfl, htext⟩ := List.cons.inj hlr
        exact hcommas l r htext
    · intro h
      obtain ⟨hbracket, hcommas⟩ := h
      obtain ⟨hc, hall⟩ := List.forall_mem_cons.mp hbracket
      refine ⟨⟨hc, fun hcomma => ?_⟩, hall, fun l r hlr => ?_⟩
      · have htrue := hcommas [] text (by rw [hcomma.1]; rfl)
        rw [List.foldl_nil, hcomma.2] at htrue
        exact Bool.false_ne_true htrue
      · exact hcommas (c :: l) r (by rw [hlr]; rfl)

theorem fits_iff (indentation depth : ℕ) :
    Fits indentation depth ↔ max 1 indentation * depth < 2 ^ 31 := by
  have hcast : (indentation : ℤ) * depth = (indentation * depth : ℕ) := (Int.natCast_mul ..).symm
  rw [Fits, hcast]
  rcases Nat.eq_zero_or_pos indentation with rfl | hpos
  · rw [max_eq_left (Nat.zero_le 1), one_mul, Nat.zero_mul]
    omega
  · have hle : depth ≤ indentation * depth := Nat.le_mul_of_pos_left depth hpos
    rw [max_eq_right hpos]
    omega

/-- Parsing does not see the spaces between the tokens of a value. -/
def IgnoresSpaces (E : Escaping) (parse : List Char → Option Json) : Prop :=
  ∀ (v : Json) text, Respaced E v.tokens text → parse text = parse (v.serialize E)

/-- Formatting goes through the whole text on non-negative levels, adds spaces outside strings only,
and so is undone by parsing, exactly for the values whose strings hold no bracket or brace and no
comma after an odd number of quotes in strings, and whose depth fits the range of `int`. -/
theorem formatJson_iff (E : Escaping) (v : Json) (indentation : ℕ) :
    ((∀ text, text <+: v.serialize E → 0 ≤ indentLevel text) ∧
      ∃ result, formatJson E indentation v = some result ∧
        stripSpaces .outside result = v.serialize E ∧
        ∀ parse, IgnoresSpaces E parse → parse (v.serialize E) = some v →
          parse result = some v) ↔
      (∀ c ∈ v.stringChars, isBracket c = false) ∧
        (∀ l r, v.stringChars = l ++ ',' :: r → Even (l.count '"')) ∧
        max 1 indentation * v.depth < 2 ^ 31 := by
  have hind : (0 : ℤ) ≤ indentation := Int.natCast_nonneg _
  have hfits : Fits indentation 0 := ⟨le_rfl, by decide, by rw [Int.mul_zero]; decide⟩
  -- the condition in terms of the tokens
  have hcondition : (NoBreaks true v.stringChars ∧ Levels indentation 0 v.tokens) ↔
      (∀ c ∈ v.stringChars, isBracket c = false) ∧
        (∀ l r, v.stringChars = l ++ ',' :: r → Even (l.count '"')) ∧
        max 1 indentation * v.depth < 2 ^ 31 := by
    have hlevels := balanced_tokens hind v 0 [] hfits
    rw [List.append_nil, zero_add, fits_iff] at hlevels
    rw [noBreaks_iff, hlevels, and_assoc]
    simp only [iff_true, Levels, and_true]
  have hprefix : (∀ text, text <+: v.serialize E → 0 ≤ indentLevel text) ↔
      NonNegFrom 0 (v.serialize E) := (nonNegFrom_iff 0 _).symm
  rw [← hcondition, hprefix]
  constructor
  · intro h
    obtain ⟨hnonneg, result, hresult, hstrip, -⟩ := h
    obtain ⟨⟨result', st'⟩, hformat, rfl⟩ := Option.map_eq_some_iff.mp hresult
    exact of_stripSpaces_eq E hfits hnonneg hformat hstrip
  · intro h
    obtain ⟨hquiet, hlevels⟩ := h
    obtain ⟨hnonneg, result, st', hformat, hspaced⟩ :=
      @exists_respaced E _ hind ⟨0, false⟩ _ hfits hquiet hlevels
    refine ⟨hnonneg, result, ?_, hspaced.stripSpaces_eq, fun parse hparse hback => ?_⟩
    · rw [formatJson, Json.serialize, hformat]
      rfl
    · rw [hparse v result hspaced, hback]

/-- A parser that knows one value. -/
def parseOnly (E : Escaping) (v : Json) (text : List Char) : Option Json :=
  if stripSpaces .outside text = v.serialize E then some v else none

theorem ignoresSpaces_parseOnly (E : Escaping) (v : Json) : IgnoresSpaces E (parseOnly E v) := by
  intro v' text htext
  have htight : stripSpaces .outside (v'.serialize E) = v'.serialize E :=
    (tight_tokensText E v'.tokens).stripSpaces_eq
  have hstrip : stripSpaces .outside text = v'.serialize E := htext.stripSpaces_eq
  rw [parseOnly, parseOnly, hstrip, htight]

/-- A value with a plain key and a plain string is formatted and parsed back. -/
theorem parse_formatJson_plain :
    ∃ result, formatJson .hex 2 (.object [⟨"k", .string "a"⟩]) = some result ∧
      parseOnly .hex (.object [⟨"k", .string "a"⟩]) result =
        some (.object [⟨"k", .string "a"⟩]) := by
  have hbrackets : ∀ c ∈ ['k', 'a'], isBracket c = false :=
    List.forall_mem_cons.mpr ⟨rfl, List.forall_mem_singleton.mpr rfl⟩
  have hcommas : ∀ l r, ['k', 'a'] = l ++ ',' :: r → Even (l.count '"') := by
    intro l r hlr
    have hmem : ',' ∈ ['k', 'a'] := hlr ▸ List.mem_append_right l List.mem_cons_self
    exact absurd hmem (by decide)
  obtain ⟨-, result, hresult, -, hparse⟩ :=
    (formatJson_iff .hex (.object [⟨"k", .string "a"⟩]) 2).mpr ⟨hbrackets, hcommas, by decide⟩
  refine ⟨result, hresult, hparse _ (ignoresSpaces_parseOnly .hex _) ?_⟩
  rw [parseOnly]
  exact if_pos ((tight_tokensText .hex _).stripSpaces_eq)

/-- A closing brace in a key is counted as one of the object, and the level is negative at the end
of the text. -/
theorem formatJson_brace_in_key :
    formatJson .hex 2 (.object [⟨"\x7d", .string "v"⟩]) = none ∧
      indentLevel ((Json.object [⟨"\x7d", .string "v"⟩]).serialize .hex) = -1 := by
  decide

end RequestUtilities

end CrdtStore
