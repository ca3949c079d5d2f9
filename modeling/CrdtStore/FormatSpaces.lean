import CrdtStore.FormatJson

/-!
# What formatting inserts

The text that `format_json` makes, read by one who knows where strings begin and end. What is
inserted stays outside strings exactly when no string breaks a line (`NoBreaks`), and then the
result has the same tokens (`exists_respaced`).
-/

namespace CrdtStore

namespace RequestUtilities

/-! ## Reading the result -/

theorem exists_punct_of_breaks {inQuotes : Bool} {c : Char} (h : Breaks inQuotes c) :
    ∃ p : Punct, c = p.char := by
  rcases h with h | h
  · rcases isBracket_iff.mp h with (rfl | rfl) | rfl | rfl
    · exact ⟨.leftBrace, rfl⟩
    · exact ⟨.leftBracket, rfl⟩
    · exact ⟨.rightBrace, rfl⟩
    · exact ⟨.rightBracket, rfl⟩
  · exact ⟨.comma, h.1⟩

theorem next_punct {s : Reading} (hs : s ≠ .escaped) (p : Punct) : s.next p.char = s := by
  cases s with
  | outside => cases p <;> rfl
  | inside => cases p <;> rfl
  | escaped => exact absurd rfl hs

/-- A reader who is not after a backslash passes a broken line without noticing. -/
theorem after_of_broken {s : Reading} (hs : s ≠ .escaped) {p : Punct} {line out : List Char}
    (hall : line.all isJsonSpace = true) (hout : out = p.char :: line ∨ out = line ++ [p.char]) :
    s.after out = s := by
  have hnext := next_punct hs p
  have hline := Reading.after_spaces hs hall
  rcases hout with rfl | rfl
  · show (s.next p.char).after line = s
    rw [hnext, hline]
  · rw [Reading.after_append, hline]
    exact hnext

theorem stripSpaces_punct (s : Reading) (p : Punct) : stripSpaces s [p.char] = [p.char] := by
  rw [stripSpaces, if_neg fun hspaces => absurd hspaces.2 (by cases p <;> decide)]
  rfl

theorem stripSpaces_punct_cons {s : Reading} (hs : s ≠ .escaped) (p : Punct) (text : List Char) :
    stripSpaces s (p.char :: text) = p.char :: stripSpaces s text := by
  show stripSpaces s ([p.char] ++ text) = _
  rw [stripSpaces_append, stripSpaces_punct]
  show p.char :: stripSpaces (s.next p.char) text = _
  rw [next_punct hs]

theorem stripSpaces_append_punct (s : Reading) (p : Punct) (text : List Char) :
    stripSpaces s (text ++ [p.char]) = stripSpaces s text ++ [p.char] := by
  rw [stripSpaces_append, stripSpaces_punct]

/-- A turn leaves a reader of the result where it leaves a reader of the text. Inside a string the
reader sees all that the turn has added. -/
theorem read_formatChar {indentation : ℤ} {st st' : Formatter} {c : Char} {out : List Char}
    {s : Reading} (hspace : s = .outside → isJsonSpace c = false)
    (hescaped : s = .escaped → ∀ p : Punct, c ≠ p.char)
    (h : formatChar indentation st c = some (out, st')) :
    s.after out = s.next c ∧ 1 ≤ (stripSpaces s out).length ∧
      (stripSpaces s out = [c] → s ≠ .outside → out = [c]) := by
  obtain ⟨-, -, ⟨-, rfl⟩ | ⟨hbreaks, line, hline, hout⟩⟩ := formatChar_eq_some h
  · have hstrip : stripSpaces s [c] = [c] := by
      have hnot : ¬ (s = .outside ∧ isJsonSpace c = true) := fun hs =>
        absurd hs.2 (by rw [hspace hs.1]; exact Bool.false_ne_true)
      rw [stripSpaces, if_neg hnot]
      rfl
    rw [hstrip]
    exact ⟨rfl, le_rfl, fun _ _ => rfl⟩
  · obtain ⟨p, rfl⟩ := exists_punct_of_breaks hbreaks
    have hs : s ≠ .escaped := fun hs => hescaped hs p rfl
    have hall := (all_isJsonSpace_of_newLine hline).2
    refine ⟨(after_of_broken hs hall hout).trans (next_punct hs p).symm, ?_, ?_⟩
    · rcases hout with rfl | rfl
      · rw [stripSpaces_punct_cons hs, List.length_cons]
        omega
      · rw [stripSpaces_append_punct, List.length_append, List.length_singleton]
        omega
    · intro hstrip hne
      have hinside : s = .inside := by
        cases s with
        | outside => exact absurd rfl hne
        | inside => rfl
        | escaped => exact absurd rfl hs
      subst hinside
      have hall' := stripSpaces_spaces_inside hall
      rcases hout with rfl | rfl
      · rwa [stripSpaces_punct_cons hs, hall'] at hstrip
      · rwa [stripSpaces_append_punct, hall'] at hstrip

theorem read_formatChars {indentation : ℤ} {st st' : Formatter} {text result : List Char}
    {s : Reading} (ht : Tight s text)
    (h : formatChars indentation st text = some (result, st')) :
    s.after result = s.after text ∧ text.length ≤ (stripSpaces s result).length := by
  induction text generalizing s st result with
  | nil =>
    cases h
    exact ⟨rfl, Nat.zero_le _⟩
  | cons c text ih =>
    obtain ⟨out, st₁, rest, hchar, hrest, rfl⟩ := formatChars_cons_eq_some.mp h
    obtain ⟨hout, hlength, -⟩ := read_formatChar ht.1 ht.2.1 hchar
    obtain ⟨hafter, hlength'⟩ := ih ht.2.2 hrest
    rw [Reading.after_append, stripSpaces_append, hout, List.length_append, List.length_cons]
    exact ⟨hafter, by omega⟩

/-- When the spaces outside strings are all that was added, that holds of each part of the text. -/
theorem exists_parts {indentation : ℤ} {st st' : Formatter} {text text' result : List Char}
    {s : Reading} (ht : Tight s (text ++ text'))
    (h : formatChars indentation st (text ++ text') = some (result, st'))
    (hstrip : stripSpaces s result = text ++ text') :
    ∃ out st₁ rest, formatChars indentation st text = some (out, st₁) ∧
      stripSpaces s out = text ∧ formatChars indentation st₁ text' = some (rest, st') ∧
      stripSpaces (s.after text) rest = text' := by
  obtain ⟨out, st₁, rest, hout, hrest, rfl⟩ := formatChars_append_eq_some.mp h
  obtain ⟨ht, ht'⟩ := (Tight.append_iff ..).mp ht
  obtain ⟨hafter, hlength⟩ := read_formatChars ht hout
  obtain ⟨-, hlength'⟩ := read_formatChars ht' hrest
  rw [stripSpaces_append, hafter] at hstrip
  have htotal := congrArg List.length hstrip
  rw [List.length_append, List.length_append] at htotal
  obtain ⟨hleft, hright⟩ := List.append_inj hstrip (by omega)
  exact ⟨out, st₁, rest, hout, hleft, hrest, hright⟩

/-! ## Texts that break no line -/

/-- No character breaks the line. -/
def NoBreaks : Bool → List Char → Prop
  | _, [] => True
  | inQuotes, c :: text => ¬ Breaks inQuotes c ∧ NoBreaks (nextQuotes inQuotes c) text

theorem NoBreaks.append_iff (inQuotes : Bool) (text text' : List Char) :
    NoBreaks inQuotes (text ++ text') ↔
      NoBreaks inQuotes text ∧ NoBreaks (text.foldl nextQuotes inQuotes) text' := by
  induction text generalizing inQuotes with
  | nil => exact (and_iff_right trivial).symm
  | cons c text ih =>
    show _ ∧ NoBreaks (nextQuotes inQuotes c) (text ++ text') ↔ (_ ∧ _) ∧ _
    rw [ih, and_assoc]
    rfl

theorem NoBreaks.foldl_nextLevel {inQuotes : Bool} {text : List Char} (h : NoBreaks inQuotes text)
    (level : ℤ) : text.foldl nextLevel level = level := by
  induction text generalizing inQuotes with
  | nil => rfl
  | cons c text ih =>
    rw [List.foldl_cons, nextLevel_of_not_bracket (not_or.mp h.1).1]
    exact ih h.2

/-- Such a text is left as it is. -/
theorem NoBreaks.formatChars_eq {indentation : ℤ} (hind : 0 ≤ indentation) {level : ℤ}
    {inQuotes : Bool} {text : List Char} (hfits : Fits indentation level)
    (h : NoBreaks inQuotes text) :
    formatChars indentation ⟨level, inQuotes⟩ text =
      some (text, ⟨level, text.foldl nextQuotes inQuotes⟩) := by
  induction text generalizing inQuotes with
  | nil => rfl
  | cons c text ih =>
    have hlevel := nextLevel_of_not_bracket (not_or.mp h.1).1 level
    have hnext : Fits indentation (nextLevel level c) := by
      rw [hlevel]
      exact hfits
    obtain ⟨out, st', hchar⟩ := @exists_formatChar _ hind ⟨level, inQuotes⟩ c hnext
    obtain ⟨rfl, -, ⟨-, rfl⟩ | ⟨hbreaks, -⟩⟩ := formatChar_eq_some hchar
    · rw [hlevel] at hchar
      exact formatChars_cons_eq_some.mpr ⟨_, _, _, hchar, ih h.2, rfl⟩
    · exact absurd hbreaks h.1

theorem not_breaks_of_ne {c : Char} (h : ∀ p : Punct, c ≠ p.char) (inQuotes : Bool) :
    ¬ Breaks inQuotes c := by
  intro hbreaks
  obtain ⟨p, hp⟩ := exists_punct_of_breaks hbreaks
  exact h p hp

/-- Words break no line and leave the flag. -/
theorem noBreaks_word {text : List Char} (h : text.all isWordChar = true) (inQuotes : Bool) :
    NoBreaks inQuotes text ∧ text.foldl nextQuotes inQuotes = inQuotes := by
  induction text with
  | nil => exact ⟨trivial, rfl⟩
  | cons c text ih =>
    rw [List.all_cons, Bool.and_eq_true] at h
    obtain ⟨-, hquote, hpunct⟩ := isWordChar_ne h.1
    have hnext : nextQuotes inQuotes c = inQuotes := if_neg hquote
    refine ⟨⟨not_breaks_of_ne hpunct inQuotes, ?_⟩, ?_⟩
    · rw [hnext]
      exact (ih h.2).1
    · rw [List.foldl_cons, hnext]
      exact (ih h.2).2

section Strings

variable (E : Escaping)

/-- An escaped character breaks a line where the character does, and flips the flag as it does. -/
theorem noBreaks_escape (inQuotes : Bool) (c : Char) :
    (NoBreaks inQuotes (E.escape c) ↔ ¬ Breaks inQuotes c) ∧
      (E.escape c).foldl nextQuotes inQuotes = nextQuotes inQuotes c := by
  have hslash : ¬ Breaks inQuotes '\\' :=
    not_breaks_of_ne (fun p => by cases p <;> decide) inQuotes
  have hquote : ¬ Breaks inQuotes '"' := not_breaks_of_ne (fun p => by cases p <;> decide) inQuotes
  unfold Escaping.escape
  split
  · next hc =>
    subst hc
    exact ⟨iff_of_true ⟨hslash, hquote, trivial⟩ hquote, rfl⟩
  · next hc =>
    split
    · next hc' =>
      subst hc'
      exact ⟨iff_of_true ⟨hslash, hslash, trivial⟩ hslash, rfl⟩
    · split
      · next hcontrol =>
        obtain ⟨hword, hflag⟩ := noBreaks_word (E.isWord c) inQuotes
        have hc' : ¬ Breaks inQuotes c := not_breaks_of_ne (fun p hp => by
          rw [hp] at hcontrol
          revert hcontrol
          cases p <;> decide) inQuotes
        refine ⟨iff_of_true ⟨hslash, hword⟩ hc', ?_⟩
        show (E.control c).foldl nextQuotes inQuotes = _
        rw [hflag, nextQuotes, if_neg hc]
      · exact ⟨and_iff_left trivial, rfl⟩

theorem noBreaks_escapes (inQuotes : Bool) (chars : List Char) :
    (NoBreaks inQuotes (chars.flatMap E.escape) ↔ NoBreaks inQuotes chars) ∧
      (chars.flatMap E.escape).foldl nextQuotes inQuotes = chars.foldl nextQuotes inQuotes := by
  induction chars generalizing inQuotes with
  | nil => exact ⟨Iff.rfl, rfl⟩
  | cons c chars ih =>
    obtain ⟨hbreaks, hflag⟩ := noBreaks_escape E inQuotes c
    rw [List.flatMap_cons, NoBreaks.append_iff, hbreaks, List.foldl_append, hflag, (ih _).1,
      (ih _).2]
    exact ⟨Iff.rfl, rfl⟩

/-- Nothing was added inside a string only if the string breaks no line. -/
theorem noBreaks_of_strip {indentation : ℤ} {st st' : Formatter} {chars result : List Char}
    (h : formatChars indentation st (chars.flatMap E.escape) = some (result, st'))
    (hstrip : stripSpaces .inside result = chars.flatMap E.escape) :
    NoBreaks st.inQuotes chars := by
  induction chars generalizing st result with
  | nil => trivial
  | cons c chars ih =>
    have htight : Tight .inside (E.escape c ++ chars.flatMap E.escape) :=
      (read_escapes E (c :: chars)).2
    obtain ⟨out, st₁, rest, hout, hout', hrest, hrest'⟩ := exists_parts htight h hstrip
    rw [(read_escape E c).1] at hrest'
    have hst₁ := formatter_of_formatChars hout
    have hchars := ih hrest hrest'
    rw [hst₁] at hchars
    simp only [(noBreaks_escape E st.inQuotes c).2] at hchars
    refine ⟨fun hbreaks => ?_, hchars⟩
    -- a character that breaks a line is not escaped, so the line is broken at it
    obtain ⟨p, hp⟩ := exists_punct_of_breaks hbreaks
    have hescape : E.escape c = [c] := by
      rw [hp]
      cases p <;> rfl
    rw [hescape] at hout hout'
    obtain ⟨out₁, st₂, rest₁, hchar, hnil, rfl⟩ := formatChars_cons_eq_some.mp hout
    cases hnil
    rw [List.append_nil] at hout'
    have hsame := (read_formatChar (s := .inside) (fun hs => (nomatch hs)) (fun hs => (nomatch hs))
      hchar).2.2 hout' (by decide)
    obtain ⟨-, -, ⟨hnot, -⟩ | ⟨-, line, hline, hside⟩⟩ := formatChar_eq_some hchar
    · exact hnot hbreaks
    · have hne := (all_isJsonSpace_of_newLine hline).1
      rw [hsame] at hside
      rcases hside with hside | hside
      · exact hne (List.cons.inj hside).2.symm
      · have hlength := congrArg List.length hside
        rw [List.length_append, List.length_singleton] at hlength
        exact hne (List.eq_nil_of_length_eq_zero (by omega))

end Strings

/-! ## The level -/

/-- The level never becomes negative. -/
def NonNegFrom : ℤ → List Char → Prop
  | level, [] => 0 ≤ level
  | level, c :: text => 0 ≤ level ∧ NonNegFrom (nextLevel level c) text

theorem NonNegFrom.nonneg {level : ℤ} {text : List Char} (h : NonNegFrom level text) :
    0 ≤ level := by
  cases text with
  | nil => exact h
  | cons c text => exact h.1

theorem nonNegFrom_iff (level : ℤ) (text : List Char) :
    NonNegFrom level text ↔ ∀ l, l <+: text → 0 ≤ l.foldl nextLevel level := by
  induction text generalizing level with
  | nil =>
    constructor
    · intro h l hl
      rw [List.prefix_nil.mp hl]
      exact h
    · intro h
      exact h [] (List.nil_prefix)
  | cons c text ih =>
    show _ ∧ NonNegFrom (nextLevel level c) text ↔ _
    rw [ih]
    constructor
    · intro h l hl
      cases l with
      | nil => exact h.1
      | cons d l =>
        obtain ⟨rfl, hrest⟩ := List.cons_prefix_cons.mp hl
        exact h.2 l hrest
    · intro h
      refine ⟨h [] List.nil_prefix, fun l hl => ?_⟩
      exact h (c :: l) (List.cons_prefix_cons.mpr ⟨rfl, hl⟩)

theorem NonNegFrom.append {level : ℤ} {text text' : List Char} (h : NonNegFrom level text)
    (h' : NonNegFrom (text.foldl nextLevel level) text') : NonNegFrom level (text ++ text') := by
  induction text generalizing level with
  | nil => exact h'
  | cons c text ih => exact ⟨h.1, ih h.2 h'⟩

theorem NonNegFrom.of_append {level : ℤ} {text text' : List Char}
    (h : NonNegFrom level (text ++ text')) : NonNegFrom (text.foldl nextLevel level) text' := by
  induction text generalizing level with
  | nil => exact h
  | cons c text ih => exact ih h.2

theorem NoBreaks.nonNegFrom {inQuotes : Bool} {text : List Char} (h : NoBreaks inQuotes text)
    {level : ℤ} (hlevel : 0 ≤ level) : NonNegFrom level text := by
  induction text generalizing inQuotes with
  | nil => exact hlevel
  | cons c text ih =>
    refine ⟨hlevel, ?_⟩
    rw [nextLevel_of_not_bracket (not_or.mp h.1).1]
    exact ih h.2

/-- All levels at the punctuation of a text fit. -/
def Levels (indentation : ℤ) : ℤ → List JsonToken → Prop
  | _, [] => True
  | level, .punct p :: ts =>
    Fits indentation (nextLevel level p.char) ∧ Levels indentation (nextLevel level p.char) ts
  | level, .word _ :: ts => Levels indentation level ts
  | level, .quoted _ :: ts => Levels indentation level ts

theorem nextQuotes_punct (inQuotes : Bool) (p : Punct) : nextQuotes inQuotes p.char = inQuotes := by
  cases p <;> rfl

theorem foldl_nextQuotes_not (inQuotes : Bool) (text : List Char) :
    text.foldl nextQuotes (!inQuotes) = !text.foldl nextQuotes inQuotes := by
  induction text generalizing inQuotes with
  | nil => rfl
  | cons c text ih =>
    have hnext : nextQuotes (!inQuotes) c = !nextQuotes inQuotes c := by
      unfold nextQuotes
      split <;> rfl
    rw [List.foldl_cons, List.foldl_cons, hnext, ih]

section Tokens

variable (E : Escaping)

/-- The flag after a quoted string: flipped by the two quotes around it and by those in it. -/
theorem foldl_nextQuotes_quoted (inQuotes : Bool) (chars : List Char) :
    ((JsonToken.quoted chars).text E).foldl nextQuotes inQuotes =
      chars.foldl nextQuotes inQuotes := by
  show ('"' :: (chars.flatMap E.escape ++ ['"'])).foldl nextQuotes inQuotes = _
  rw [List.foldl_cons, List.foldl_append, (noBreaks_escapes E _ chars).2]
  show (!chars.foldl nextQuotes (!inQuotes)) = _
  rw [foldl_nextQuotes_not, Bool.not_not]

theorem noBreaks_quoted {inQuotes : Bool} {chars : List Char} (h : NoBreaks (!inQuotes) chars) :
    NoBreaks inQuotes ((JsonToken.quoted chars).text E) := by
  have hquote : ∀ q, ¬ Breaks q '"' := not_breaks_of_ne fun p => by cases p <;> decide
  refine ⟨hquote _, ?_⟩
  show NoBreaks (!inQuotes) (chars.flatMap E.escape ++ ['"'])
  rw [NoBreaks.append_iff]
  exact ⟨(noBreaks_escapes E _ chars).1.mpr h, hquote _, trivial⟩

/-- A quoted string in which nothing was inserted breaks no line. -/
theorem noBreaks_of_strip_quoted {indentation : ℤ} {st st' : Formatter} {chars out : List Char}
    (h : formatChars indentation st ((JsonToken.quoted chars).text E) = some (out, st'))
    (hstrip : stripSpaces .outside out = (JsonToken.quoted chars).text E) :
    NoBreaks (!st.inQuotes) chars := by
  -- the opening quote, the characters and the closing quote
  have hinner : Tight .inside (chars.flatMap E.escape ++ ['"']) := by
    rw [Tight.append_iff, (read_escapes E chars).1]
    exact ⟨(read_escapes E chars).2, fun hs => (nomatch hs), fun hs => (nomatch hs), trivial⟩
  have hopen : Tight .outside (['"'] ++ (chars.flatMap E.escape ++ ['"'])) :=
    ⟨fun _ => rfl, fun hs => (nomatch hs), hinner⟩
  obtain ⟨out₁, st₁, rest₁, hquote, -, htail, htail'⟩ := exists_parts hopen h hstrip
  obtain ⟨out₂, st₂, rest₂, hchars, hchars', -, -⟩ := exists_parts hinner htail htail'
  have hquiet := noBreaks_of_strip E hchars hchars'
  rw [formatter_of_formatChars hquote] at hquiet
  exact hquiet

/-- If spaces outside strings are all that was added, the strings break no line, and every level
fits. -/
theorem of_stripSpaces_eq {indentation : ℤ} {st st' : Formatter} {ts : List JsonToken}
    {result : List Char} (hfits : Fits indentation st.indentLevel)
    (hnonneg : NonNegFrom st.indentLevel (tokensText E ts))
    (h : formatChars indentation st (tokensText E ts) = some (result, st'))
    (hstrip : stripSpaces .outside result = tokensText E ts) :
    NoBreaks (!st.inQuotes) (quotedChars ts) ∧ Levels indentation st.indentLevel ts := by
  induction ts generalizing st result with
  | nil => exact ⟨trivial, trivial⟩
  | cons t ts ih =>
    have htight : Tight .outside (t.text E ++ tokensText E ts) := tight_tokensText E (t :: ts)
    rw [tokensText_cons] at h hstrip hnonneg
    obtain ⟨out, st₁, rest, hout, hout', hrest, hrest'⟩ := exists_parts htight h hstrip
    rw [(read_token E t).1] at hrest'
    have hst₁ := formatter_of_formatChars hout
    have hnonneg' := hnonneg.of_append
    cases t with
    | punct p =>
      obtain ⟨out₁, st₂, rest₁, hchar, hnil, -⟩ := formatChars_cons_eq_some.mp hout
      cases hnil
      obtain ⟨rfl, -, -⟩ := formatChar_eq_some hchar
      have hlevel : Fits indentation (nextLevel st.indentLevel p.char) :=
        hfits.of_formatChar hchar hnonneg'.nonneg
      obtain ⟨hquiet, hlevels⟩ := ih hlevel hnonneg' hrest hrest'
      rw [nextQuotes_punct] at hquiet
      exact ⟨hquiet, hlevel, hlevels⟩
    | word w =>
      obtain ⟨hword, hflag⟩ := noBreaks_word w.isWord st.inQuotes
      have hlevel := hword.foldl_nextLevel st.indentLevel
      rw [show (JsonToken.word w).text E = w.text from rfl] at hst₁ hnonneg'
      rw [hlevel, hflag] at hst₁
      rw [hlevel] at hnonneg'
      subst hst₁
      exact ih hfits hnonneg' hrest hrest'
    | quoted chars =>
      have hquiet := noBreaks_of_strip_quoted E hout hout'
      have hlevel := (noBreaks_quoted E hquiet).foldl_nextLevel st.indentLevel
      rw [hlevel, foldl_nextQuotes_quoted] at hst₁
      rw [hlevel] at hnonneg'
      subst hst₁
      obtain ⟨hrestQuiet, hlevels⟩ :=
        @ih ⟨st.indentLevel, chars.foldl nextQuotes st.inQuotes⟩ _ hfits hnonneg' hrest hrest'
      refine ⟨?_, hlevels⟩
      show NoBreaks (!st.inQuotes) (chars ++ quotedChars ts)
      rw [NoBreaks.append_iff, foldl_nextQuotes_not]
      exact ⟨hquiet, hrestQuiet⟩

/-- When the strings break no line and every level fits, the result is the tokens with other
spaces. -/
theorem exists_respaced {indentation : ℤ} (hind : 0 ≤ indentation) {st : Formatter}
    {ts : List JsonToken} (hfits : Fits indentation st.indentLevel)
    (hquiet : NoBreaks (!st.inQuotes) (quotedChars ts))
    (hlevels : Levels indentation st.indentLevel ts) :
    NonNegFrom st.indentLevel (tokensText E ts) ∧
      ∃ result st', formatChars indentation st (tokensText E ts) = some (result, st') ∧
        Respaced E ts result := by
  induction ts generalizing st with
  | nil => exact ⟨hfits.1, [], st, rfl, .spaces rfl⟩
  | cons t ts ih =>
    rw [tokensText_cons]
    cases t with
    | punct p =>
      obtain ⟨hlevel, hlevels⟩ := hlevels
      obtain ⟨out, st', hchar⟩ := exists_formatChar hind hlevel
      obtain ⟨rfl, -, hside⟩ := formatChar_eq_some hchar
      have hquiet' : NoBreaks (!nextQuotes st.inQuotes p.char) (quotedChars ts) := by
        rw [nextQuotes_punct]
        exact hquiet
      obtain ⟨hnonneg, result, st', hresult, hspaced⟩ :=
        @ih ⟨nextLevel st.indentLevel p.char, nextQuotes st.inQuotes p.char⟩ hlevel hquiet' hlevels
      refine ⟨⟨hfits.1, hnonneg⟩, out ++ result, st', ?_, ?_⟩
      · exact formatChars_cons_eq_some.mpr ⟨out, _, result, hchar, hresult, rfl⟩
      · rcases hside with ⟨-, rfl⟩ | ⟨-, line, hline, rfl | rfl⟩
        · exact hspaced.next
        · have hall := (all_isJsonSpace_of_newLine hline).2
          exact (hspaced.spaces_append E hall).next
        · exact Respaced.token (all_isJsonSpace_of_newLine hline).2 hspaced
    | word w =>
      obtain ⟨hword, hflag⟩ := noBreaks_word w.isWord st.inQuotes
      obtain ⟨hnonneg, result, st', hresult, hspaced⟩ := ih hfits hquiet hlevels
      refine ⟨?_, w.text ++ result, st', ?_, hspaced.next⟩
      · refine (hword.nonNegFrom hfits.1).append ?_
        rw [hword.foldl_nextLevel]
        exact hnonneg
      · have hformat := hword.formatChars_eq hind hfits
        rw [hflag] at hformat
        exact formatChars_append_eq_some.mpr ⟨w.text, st, result, hformat, hresult, rfl⟩
    | quoted chars =>
      have hsplit : NoBreaks (!st.inQuotes) (chars ++ quotedChars ts) := hquiet
      rw [NoBreaks.append_iff, foldl_nextQuotes_not] at hsplit
      have hquoted := noBreaks_quoted E hsplit.1
      obtain ⟨hnonneg, result, st', hresult, hspaced⟩ :=
        @ih ⟨st.indentLevel, chars.foldl nextQuotes st.inQuotes⟩ hfits hsplit.2 hlevels
      refine ⟨?_, (JsonToken.quoted chars).text E ++ result, st', ?_, hspaced.next⟩
      · refine (hquoted.nonNegFrom hfits.1).append ?_
        rw [hquoted.foldl_nextLevel]
        exact hnonneg
      · have hformat := hquoted.formatChars_eq hind hfits
        rw [foldl_nextQuotes_quoted] at hformat
        exact formatChars_append_eq_some.mpr ⟨_, _, result, hformat, hresult, rfl⟩

end Tokens

end RequestUtilities

end CrdtStore
