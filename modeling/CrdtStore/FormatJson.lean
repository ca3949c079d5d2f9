import CrdtStore.Library.JsonText

/-!
# Formatting JSON

`RequestUtilities::format_json` breaks the lines of a serialized text character by character, with
a nesting level and a flag that every quote flips. Neither knows about strings: a bracket in a
string changes the level and breaks the line, and after an odd number of quotes in strings so does
a comma. The text is read by characters: no byte of a longer UTF-8 sequence is one of those that
the code compares with.
-/

namespace CrdtStore

namespace RequestUtilities

/-! ## The code -/

/-- Arithmetic on `int`, none where it overflows. -/
def toInt (z : ℤ) : Option ℤ := if -2 ^ 31 ≤ z ∧ z < 2 ^ 31 then some z else none

/-- `'\n'` and `std::string(indentation * indentLevel, ' ')`, none where the count is negative and
the constructor throws. -/
def newLine (indentation indentLevel : ℤ) : Option (List Char) := do
  let count ← toInt (indentation * indentLevel)
  if count < 0 then none else some ('\n' :: List.replicate count.toNat ' ')

/-- `indentLevel` and `inQuotes`. -/
structure Formatter where
  indentLevel : ℤ
  inQuotes : Bool
deriving DecidableEq

/-- One turn of the loop of `format_json`: what it appends to `result`. -/
def formatChar (indentation : ℤ) (st : Formatter) (c : Char) : Option (List Char × Formatter) :=
  if c = '{' ∨ c = '[' then do
    let indentLevel ← toInt (st.indentLevel + 1)
    let line ← newLine indentation indentLevel
    return (c :: line, { st with indentLevel := indentLevel })
  else if c = '}' ∨ c = ']' then do
    let indentLevel ← toInt (st.indentLevel - 1)
    let line ← newLine indentation indentLevel
    return (line ++ [c], { st with indentLevel := indentLevel })
  else if c = '"' then return ([c], { st with inQuotes := !st.inQuotes })
  else if c = ',' ∧ st.inQuotes = false then do
    let line ← newLine indentation st.indentLevel
    return (c :: line, st)
  else return ([c], st)

/-- The loop of `format_json`. -/
def formatChars (indentation : ℤ) : Formatter → List Char → Option (List Char × Formatter)
  | st, [] => return ([], st)
  | st, c :: text => do
    let (out, st) ← formatChar indentation st c
    let (result, st) ← formatChars indentation st text
    return (out ++ result, st)

/-- `RequestUtilities::format_json`, none where it throws. -/
def formatJson (E : Escaping) (indentation : ℤ) (v : Json) : Option (List Char) :=
  (formatChars indentation ⟨0, false⟩ (v.serialize E)).map Prod.fst

/-- What a character does to the level. -/
def nextLevel (level : ℤ) (c : Char) : ℤ :=
  if c = '{' ∨ c = '[' then level + 1 else if c = '}' ∨ c = ']' then level - 1 else level

/-- What a character does to the flag. -/
def nextQuotes (inQuotes : Bool) (c : Char) : Bool := if c = '"' then !inQuotes else inQuotes

/-- The level after some text. -/
def indentLevel (text : List Char) : ℤ := text.foldl nextLevel 0

/-- Brackets and braces. -/
def isBracket (c : Char) : Bool := ['{', '[', '}', ']'].contains c

/-- The line is broken at the character. -/
def Breaks (inQuotes : Bool) (c : Char) : Prop :=
  isBracket c = true ∨ (c = ',' ∧ inQuotes = false)

/-! ## One turn -/

theorem all_isJsonSpace_of_newLine {indentation level : ℤ} {line : List Char}
    (h : newLine indentation level = some line) : line ≠ [] ∧ line.all isJsonSpace = true := by
  unfold newLine at h
  obtain ⟨count, -, h⟩ := Option.bind_eq_some_iff.mp h
  split at h
  · cases h
  · cases h
    exact ⟨by simp, by simp [isJsonSpace]⟩

/-- The levels that `std::string` can indent to. -/
def Fits (indentation level : ℤ) : Prop :=
  0 ≤ level ∧ level < 2 ^ 31 ∧ indentation * level < 2 ^ 31

theorem toInt_of_nonneg {z : ℤ} (h : 0 ≤ z) (hlt : z < 2 ^ 31) : toInt z = some z :=
  if_pos ⟨by omega, hlt⟩

theorem toInt_eq_some {z z' : ℤ} (h : toInt z = some z') : z' = z ∧ z < 2 ^ 31 := by
  unfold toInt at h
  split at h
  · next hrange =>
    cases h
    exact ⟨rfl, hrange.2⟩
  · cases h

theorem exists_newLine {indentation level : ℤ} (hind : 0 ≤ indentation)
    (h : Fits indentation level) : ∃ line, newLine indentation level = some line := by
  obtain ⟨hlevel, -, hcount⟩ := h
  have hnonneg : 0 ≤ indentation * level := Int.mul_nonneg hind hlevel
  unfold newLine
  rw [toInt_of_nonneg hnonneg hcount]
  exact ⟨_, if_neg (by omega)⟩

theorem range_of_newLine {indentation level : ℤ} {line : List Char}
    (h : newLine indentation level = some line) :
    0 ≤ indentation * level ∧ indentation * level < 2 ^ 31 := by
  unfold newLine at h
  obtain ⟨count, hcount, h⟩ := Option.bind_eq_some_iff.mp h
  obtain ⟨rfl, hlt⟩ := toInt_eq_some hcount
  split at h
  · cases h
  · exact ⟨by omega, hlt⟩

theorem exists_formatChar {indentation : ℤ} (hind : 0 ≤ indentation) {st : Formatter} {c : Char}
    (h : Fits indentation (nextLevel st.indentLevel c)) :
    ∃ out st', formatChar indentation st c = some (out, st') := by
  obtain ⟨line, hline⟩ := exists_newLine hind h
  have hint := toInt_of_nonneg h.1 h.2.1
  unfold nextLevel at hline hint
  unfold formatChar
  split
  · next hopen =>
    rw [if_pos hopen] at hline hint
    rw [hint]
    show ∃ out st', (do
      let line ← newLine indentation (st.indentLevel + 1)
      return (c :: line, _)) = some (out, st')
    rw [hline]
    exact ⟨_, _, rfl⟩
  · next hopen =>
    rw [if_neg hopen] at hline hint
    split
    · next hclose =>
      rw [if_pos hclose] at hline hint
      rw [hint]
      show ∃ out st', (do
        let line ← newLine indentation (st.indentLevel - 1)
        return (line ++ [c], _)) = some (out, st')
      rw [hline]
      exact ⟨_, _, rfl⟩
    · next hclose =>
      rw [if_neg hclose] at hline
      split
      · exact ⟨_, _, rfl⟩
      · split
        · rw [hline]
          exact ⟨_, _, rfl⟩
        · exact ⟨_, _, rfl⟩

theorem isBracket_iff {c : Char} :
    isBracket c = true ↔ (c = '{' ∨ c = '[') ∨ c = '}' ∨ c = ']' := by
  unfold isBracket
  simp only [List.contains_cons, List.contains_nil, Bool.or_false, Bool.or_eq_true, beq_iff_eq]
  rw [or_assoc]

theorem ne_quote_of_isBracket {c : Char} (h : isBracket c = true) : c ≠ '"' := by
  intro hquote
  rw [hquote] at h
  exact absurd h (by decide)

/-- What a turn that does not throw leaves: the next level and flag, and the character, with a new
line beside it where it breaks the line. -/
theorem formatChar_eq_some {indentation : ℤ} {st st' : Formatter} {c : Char} {out : List Char}
    (h : formatChar indentation st c = some (out, st')) :
    st' = ⟨nextLevel st.indentLevel c, nextQuotes st.inQuotes c⟩ ∧
      (isBracket c = true → st'.indentLevel < 2 ^ 31) ∧
      (¬ Breaks st.inQuotes c ∧ out = [c] ∨
        Breaks st.inQuotes c ∧ ∃ line, newLine indentation st'.indentLevel = some line ∧
          (out = c :: line ∨ out = line ++ [c])) := by
  unfold formatChar at h
  unfold nextLevel nextQuotes
  split at h
  · next hopen =>
    obtain ⟨level, hlevel, h⟩ := Option.bind_eq_some_iff.mp h
    obtain ⟨line, hline, h⟩ := Option.bind_eq_some_iff.mp h
    obtain ⟨rfl, hlt⟩ := toInt_eq_some hlevel
    cases h
    have hbracket : isBracket c = true := isBracket_iff.mpr (Or.inl hopen)
    rw [if_pos hopen, if_neg (ne_quote_of_isBracket hbracket)]
    exact ⟨rfl, fun _ => hlt, Or.inr ⟨Or.inl hbracket, line, hline, Or.inl rfl⟩⟩
  · next hopen =>
    rw [if_neg hopen]
    split at h
    · next hclose =>
      obtain ⟨level, hlevel, h⟩ := Option.bind_eq_some_iff.mp h
      obtain ⟨line, hline, h⟩ := Option.bind_eq_some_iff.mp h
      obtain ⟨rfl, hlt⟩ := toInt_eq_some hlevel
      cases h
      have hbracket : isBracket c = true := isBracket_iff.mpr (Or.inr hclose)
      rw [if_pos hclose, if_neg (ne_quote_of_isBracket hbracket)]
      exact ⟨rfl, fun _ => hlt, Or.inr ⟨Or.inl hbracket, line, hline, Or.inr rfl⟩⟩
    · next hclose =>
      rw [if_neg hclose]
      have hbracket : ¬ isBracket c = true := by
        rw [isBracket_iff, not_or]
        exact ⟨hopen, hclose⟩
      split at h
      · next hquote =>
        cases h
        rw [if_pos hquote]
        refine ⟨rfl, fun hb => absurd hb hbracket, Or.inl ⟨?_, rfl⟩⟩
        rintro (hb | ⟨hcomma, -⟩)
        · exact hbracket hb
        · exact absurd (hquote.symm.trans hcomma) (by decide)
      · next hquote =>
        rw [if_neg hquote]
        split at h
        · next hcomma =>
          obtain ⟨line, hline, h⟩ := Option.bind_eq_some_iff.mp h
          cases h
          exact ⟨rfl, fun hb => absurd hb hbracket, Or.inr ⟨Or.inr hcomma, line, hline, Or.inl rfl⟩⟩
        · next hcomma =>
          cases h
          refine ⟨rfl, fun hb => absurd hb hbracket, Or.inl ⟨?_, rfl⟩⟩
          exact not_or.mpr ⟨hbracket, hcomma⟩

theorem nextLevel_of_not_bracket {c : Char} (h : ¬ isBracket c = true) (level : ℤ) :
    nextLevel level c = level := by
  rw [isBracket_iff, not_or] at h
  obtain ⟨hopen, hclose⟩ := h
  rw [nextLevel, if_neg hopen, if_neg hclose]

/-- The level that a turn has reached fits, unless it is negative. -/
theorem Fits.of_formatChar {indentation : ℤ} {st st' : Formatter} {c : Char} {out : List Char}
    (hfits : Fits indentation st.indentLevel)
    (h : formatChar indentation st c = some (out, st')) (hnonneg : 0 ≤ st'.indentLevel) :
    Fits indentation st'.indentLevel := by
  obtain ⟨rfl, hlt, hside⟩ := formatChar_eq_some h
  by_cases hbracket : isBracket c = true
  · obtain ⟨hnot, -⟩ | ⟨-, line, hline, -⟩ := hside
    · exact absurd (Or.inl hbracket) hnot
    · exact ⟨hnonneg, hlt hbracket, (range_of_newLine hline).2⟩
  · show Fits indentation (nextLevel st.indentLevel c)
    rw [nextLevel_of_not_bracket hbracket]
    exact hfits

/-! ## The loop -/

theorem formatChars_cons_eq_some {indentation : ℤ} {st st' : Formatter} {c : Char}
    {text result : List Char} :
    formatChars indentation st (c :: text) = some (result, st') ↔
      ∃ out st₁ rest, formatChar indentation st c = some (out, st₁) ∧
        formatChars indentation st₁ text = some (rest, st') ∧ result = out ++ rest := by
  constructor
  · intro h
    obtain ⟨⟨out, st₁⟩, hchar, h⟩ := Option.bind_eq_some_iff.mp h
    obtain ⟨⟨rest, st₂⟩, hrest, h⟩ := Option.bind_eq_some_iff.mp h
    cases h
    exact ⟨out, st₁, rest, hchar, hrest, rfl⟩
  · intro h
    obtain ⟨out, st₁, rest, hchar, hrest, rfl⟩ := h
    rw [formatChars, hchar]
    show (do
      let (rest, st') ← formatChars indentation st₁ text
      return (out ++ rest, st')) = _
    rw [hrest]
    rfl

theorem formatChars_append_eq_some {indentation : ℤ} {st st' : Formatter}
    {text text' result : List Char} :
    formatChars indentation st (text ++ text') = some (result, st') ↔
      ∃ out st₁ rest, formatChars indentation st text = some (out, st₁) ∧
        formatChars indentation st₁ text' = some (rest, st') ∧ result = out ++ rest := by
  induction text generalizing st result with
  | nil =>
    constructor
    · intro h
      exact ⟨[], st, result, rfl, h, rfl⟩
    · intro h
      obtain ⟨out, st₁, rest, hout, hrest, rfl⟩ := h
      cases hout
      exact hrest
  | cons c text ih =>
    rw [List.cons_append, formatChars_cons_eq_some]
    constructor
    · intro h
      obtain ⟨out, st₁, rest, hchar, hrest, rfl⟩ := h
      obtain ⟨out', st₂, rest', htext, hrest', rfl⟩ := ih.mp hrest
      refine ⟨out ++ out', st₂, rest', ?_, hrest', (List.append_assoc ..).symm⟩
      exact formatChars_cons_eq_some.mpr ⟨out, st₁, out', hchar, htext, rfl⟩
    · intro h
      obtain ⟨out, st₂, rest, htext, hrest, rfl⟩ := h
      obtain ⟨out', st₁, out'', hchar, htext', rfl⟩ := formatChars_cons_eq_some.mp htext
      refine ⟨out', st₁, out'' ++ rest, hchar, ih.mpr ⟨out'', st₂, rest, htext', hrest, rfl⟩, ?_⟩
      exact List.append_assoc ..

/-- The level and the flag after some text do not depend on where the lines are broken. -/
theorem formatter_of_formatChars {indentation : ℤ} {st st' : Formatter} {text result : List Char}
    (h : formatChars indentation st text = some (result, st')) :
    st' = ⟨text.foldl nextLevel st.indentLevel, text.foldl nextQuotes st.inQuotes⟩ := by
  induction text generalizing st result with
  | nil =>
    cases h
    rfl
  | cons c text ih =>
    obtain ⟨out, st₁, rest, hchar, hrest, rfl⟩ := formatChars_cons_eq_some.mp h
    rw [ih hrest, (formatChar_eq_some hchar).1]
    rfl

end RequestUtilities

end CrdtStore
