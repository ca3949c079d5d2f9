import CrdtStore.Library.Json

/-!
# JSON texts

The text of a value is that of its tokens: punctuation, words (numbers and literals) and quoted
strings, in which quotes, backslashes and control characters are escaped. How control characters
are escaped is left open (`Escaping`).

Spaces between the tokens mean nothing. `Respaced` is a text with other such spaces, and
`stripSpaces` removes the spaces outside quoted strings, by reading the text from left to right
(`Reading`).
-/

/-! ## Tokens -/

/-- Punctuation. -/
inductive Punct where
  | leftBrace
  | rightBrace
  | leftBracket
  | rightBracket
  | colon
  | comma
deriving DecidableEq

/-- The character of a punctuation token. -/
def Punct.char : Punct → Char
  | .leftBrace => '{'
  | .rightBrace => '}'
  | .leftBracket => '['
  | .rightBracket => ']'
  | .colon => ':'
  | .comma => ','

/-- The characters of numbers and literals. -/
def isWordChar (c : Char) : Bool := c.isAlphanum || ['-', '+', '.'].contains c

/-- A number or a literal. -/
structure Word where
  text : List Char
  isWord : text.all isWordChar = true

/-- A token; a quoted string is given by the characters it stands for. -/
inductive JsonToken where
  | punct (p : Punct)
  | word (w : Word)
  | quoted (chars : List Char)

/-- How control characters are written after a backslash: as letters and digits. -/
structure Escaping where
  control : Char → List Char
  ne_nil : ∀ c, control c ≠ []
  isWord : ∀ c, (control c).all isWordChar = true

/-- Control characters as four hexadecimal digits. -/
def Escaping.hex : Escaping where
  control c := ['u', '0', '0', Nat.digitChar (c.toNat / 16 % 16), Nat.digitChar (c.toNat % 16)]
  ne_nil _ := List.cons_ne_nil _ _
  isWord c := by
    have hdigit : ∀ n < 16, isWordChar (Nat.digitChar n) = true := by decide
    simp only [List.all_cons, List.all_nil, hdigit _ (Nat.mod_lt _ (by decide : 16 > 0))]
    rfl

/-- A character in a quoted string. -/
def Escaping.escape (E : Escaping) (c : Char) : List Char :=
  if c = '"' then ['\\', '"']
  else if c = '\\' then ['\\', '\\']
  else if c.toNat < 32 then '\\' :: E.control c
  else [c]

/-- The text of a token. -/
def JsonToken.text (E : Escaping) : JsonToken → List Char
  | .punct p => [p.char]
  | .word w => w.text
  | .quoted chars => '"' :: chars.flatMap E.escape ++ ['"']

/-- The text of a list of tokens. -/
def tokensText (E : Escaping) (ts : List JsonToken) : List Char := ts.flatMap (JsonToken.text E)

/-- The characters that the quoted strings among the tokens stand for. -/
def quotedChars (ts : List JsonToken) : List Char :=
  ts.flatMap fun
    | .quoted chars => chars
    | _ => []

theorem tokensText_cons (E : Escaping) (t : JsonToken) (ts : List JsonToken) :
    tokensText E (t :: ts) = t.text E ++ tokensText E ts := List.flatMap_cons

/-- Token lists with commas between them. -/
def joined : List (List JsonToken) → List JsonToken
  | [] => []
  | [ts] => ts
  | ts :: ts' :: rest => ts ++ .punct .comma :: joined (ts' :: rest)

theorem isWordChar_of_isNumberChar {c : Char} (h : isNumberChar c = true) :
    isWordChar c = true := by
  simp only [isNumberChar, isWordChar, Bool.or_eq_true, List.contains_cons, beq_iff_eq,
    List.contains_nil, Bool.false_eq_true, or_false] at h ⊢
  rcases h with h | h | h | h | h | h
  · exact Or.inl (by rw [Char.isAlphanum, h, Bool.or_true])
  · exact Or.inr (Or.inl h)
  · exact Or.inr (Or.inr (Or.inl h))
  · exact Or.inr (Or.inr (Or.inr h))
  · exact Or.inl (by rw [h]; rfl)
  · exact Or.inl (by rw [h]; rfl)

theorem all_isWordChar_toDigits (n : ℕ) : (Nat.toDigits 10 n).all isWordChar = true := by
  rw [List.all_eq_true]
  intro c hc
  have hdigit : c.isDigit = true := Nat.isDigit_of_mem_toDigits (by omega) le_rfl hc
  rw [isWordChar, Char.isAlphanum, hdigit, Bool.or_true, Bool.true_or]

/-- The word of a number that is not an unsigned integer. -/
def OtherNumber.word (x : OtherNumber) : Word where
  text := x.text
  isWord := by
    rw [List.all_eq_true]
    intro c hc
    exact isWordChar_of_isNumberChar (List.all_eq_true.mp x.isNumber c hc)

namespace Json

mutual

/-- The tokens of a value. -/
def tokens : Json → List JsonToken
  | .null => [.word ⟨['n', 'u', 'l', 'l'], rfl⟩]
  | .boolean true => [.word ⟨['t', 'r', 'u', 'e'], rfl⟩]
  | .boolean false => [.word ⟨['f', 'a', 'l', 's', 'e'], rfl⟩]
  | .number n => [.word ⟨Nat.toDigits 10 n, all_isWordChar_toDigits n⟩]
  | .otherNumber x => [.word x.word]
  | .string s => [.quoted s.toList]
  | .array items => .punct .leftBracket :: (joined (itemsTokens items) ++ [.punct .rightBracket])
  | .object fields => .punct .leftBrace :: (joined (fieldsTokens fields) ++ [.punct .rightBrace])
termination_by structural v => v

/-- The tokens of each item. -/
def itemsTokens : List Json → List (List JsonToken)
  | [] => []
  | x :: items => tokens x :: itemsTokens items
termination_by structural items => items

/-- The tokens of each field. -/
def fieldsTokens : List (Sigma fun _ : String => Json) → List (List JsonToken)
  | [] => []
  | field :: fields => fieldTokens field :: fieldsTokens fields
termination_by structural fields => fields

/-- The tokens of a field. -/
def fieldTokens : (Sigma fun _ : String => Json) → List JsonToken
  | ⟨name, x⟩ => .quoted name.toList :: .punct .colon :: tokens x
termination_by structural field => field

end

mutual

/-- How many arrays and objects are open at most in the text of a value. -/
def depth : Json → ℕ
  | .array items => 1 + itemsDepth items
  | .object fields => 1 + fieldsDepth fields
  | _ => 0
termination_by structural v => v

/-- The greatest depth of an item. -/
def itemsDepth : List Json → ℕ
  | [] => 0
  | x :: items => max (depth x) (itemsDepth items)
termination_by structural items => items

/-- The greatest depth of a field. -/
def fieldsDepth : List (Sigma fun _ : String => Json) → ℕ
  | [] => 0
  | field :: fields => max (fieldDepth field) (fieldsDepth fields)
termination_by structural fields => fields

/-- The depth of the value of a field. -/
def fieldDepth : (Sigma fun _ : String => Json) → ℕ
  | ⟨_, x⟩ => depth x
termination_by structural field => field

end

/-- The serialized text. -/
def serialize (E : Escaping) (v : Json) : List Char := tokensText E v.tokens

/-- The characters of all names and string values, in the order of the text. -/
def stringChars (v : Json) : List Char := quotedChars v.tokens

end Json

/-! ## Reading a text -/

/-- Where a reader of a text is: outside quoted strings, inside one, or after a backslash in one. -/
inductive Reading where
  | outside
  | inside
  | escaped
deriving DecidableEq

/-- Reading one more character. -/
def Reading.next : Reading → Char → Reading
  | .outside, c => if c = '"' then .inside else .outside
  | .inside, c => if c = '"' then .outside else if c = '\\' then .escaped else .inside
  | .escaped, _ => .inside

/-- Reading some more text. -/
def Reading.after (s : Reading) (text : List Char) : Reading := text.foldl Reading.next s

/-- The spaces of JSON. -/
def isJsonSpace (c : Char) : Bool := [' ', '\n', '\t', '\r'].contains c

/-- The text without the spaces outside quoted strings. -/
def stripSpaces : Reading → List Char → List Char
  | _, [] => []
  | s, c :: text =>
    if s = .outside ∧ isJsonSpace c = true then stripSpaces s text
    else c :: stripSpaces (s.next c) text

/-- A text of the same tokens, with any spaces before, between and after them. -/
inductive Respaced (E : Escaping) : List JsonToken → List Char → Prop
  | spaces {ws : List Char} (hws : ws.all isJsonSpace = true) : Respaced E [] ws
  | token {t : JsonToken} {ts : List JsonToken} {ws text : List Char}
      (hws : ws.all isJsonSpace = true) (h : Respaced E ts text) :
      Respaced E (t :: ts) (ws ++ t.text E ++ text)

theorem Reading.after_append (s : Reading) (text text' : List Char) :
    s.after (text ++ text') = (s.after text).after text' := List.foldl_append

theorem ne_quote_of_isJsonSpace {c : Char} (h : isJsonSpace c = true) : c ≠ '"' := by
  rintro rfl
  exact absurd h (by decide)

/-- Spaces leave the reader where it is. -/
theorem Reading.after_spaces {s : Reading} (hs : s ≠ .escaped) {ws : List Char}
    (h : ws.all isJsonSpace = true) : s.after ws = s := by
  induction ws with
  | nil => rfl
  | cons c ws ih =>
    rw [List.all_cons, Bool.and_eq_true] at h
    have hslash : c ≠ '\\' := by
      rintro rfl
      exact absurd h.1 (by decide)
    show (s.next c).after ws = s
    have hnext : s.next c = s := by
      cases s with
      | outside => exact if_neg (ne_quote_of_isJsonSpace h.1)
      | inside => rw [Reading.next, if_neg (ne_quote_of_isJsonSpace h.1), if_neg hslash]
      | escaped => exact absurd rfl hs
    rw [hnext]
    exact ih h.2

theorem stripSpaces_append (s : Reading) (text text' : List Char) :
    stripSpaces s (text ++ text') =
      stripSpaces s text ++ stripSpaces (s.after text) text' := by
  induction text generalizing s with
  | nil => rfl
  | cons c text ih =>
    show stripSpaces s (c :: (text ++ text')) = _
    rw [stripSpaces, stripSpaces]
    show _ = _ ++ stripSpaces ((s.next c).after text) text'
    split
    · next hspace =>
      rw [ih, hspace.1, Reading.next, if_neg (ne_quote_of_isJsonSpace hspace.2)]
    · rw [ih, List.cons_append]

theorem stripSpaces_spaces {ws : List Char} (h : ws.all isJsonSpace = true) :
    stripSpaces .outside ws = [] := by
  induction ws with
  | nil => rfl
  | cons c ws ih =>
    rw [List.all_cons, Bool.and_eq_true] at h
    rw [stripSpaces, if_pos ⟨rfl, h.1⟩]
    exact ih h.2

theorem stripSpaces_spaces_inside {ws : List Char} (h : ws.all isJsonSpace = true) :
    stripSpaces .inside ws = ws := by
  induction ws with
  | nil => rfl
  | cons c ws ih =>
    rw [List.all_cons, Bool.and_eq_true] at h
    have hnext : Reading.inside.next c = .inside := by
      have hafter : Reading.inside.after [c] = .inside :=
        Reading.after_spaces (by decide) (by rw [List.all_cons, h.1]; rfl)
      exact hafter
    rw [stripSpaces, if_neg fun hs => (nomatch hs.1), hnext, ih h.2]

/-- No space outside a quoted string, and no punctuation right after a backslash in one. -/
def Tight : Reading → List Char → Prop
  | _, [] => True
  | s, c :: text =>
    (s = .outside → isJsonSpace c = false) ∧ (s = .escaped → ∀ p : Punct, c ≠ p.char) ∧
      Tight (s.next c) text

theorem Tight.append_iff (s : Reading) (text text' : List Char) :
    Tight s (text ++ text') ↔ Tight s text ∧ Tight (s.after text) text' := by
  induction text generalizing s with
  | nil => exact (and_iff_right trivial).symm
  | cons c text ih =>
    show _ ∧ _ ∧ Tight (s.next c) (text ++ text') ↔ (_ ∧ _ ∧ Tight (s.next c) text) ∧ _
    rw [ih, and_assoc, and_assoc]
    rfl

theorem Tight.stripSpaces_eq {s : Reading} {text : List Char} (h : Tight s text) :
    stripSpaces s text = text := by
  induction text generalizing s with
  | nil => rfl
  | cons c text ih =>
    have hspace : ¬ (s = .outside ∧ isJsonSpace c = true) := fun hs =>
      absurd hs.2 (by rw [h.1 hs.1]; exact Bool.false_ne_true)
    rw [stripSpaces, if_neg hspace, ih h.2.2]

/-! ## Reading tokens -/

section Tokens

variable (E : Escaping)

/-- What a word is made of is neither a space, nor a quote, nor punctuation. -/
theorem isWordChar_ne {c : Char} (h : isWordChar c = true) :
    isJsonSpace c = false ∧ c ≠ '"' ∧ ∀ p : Punct, c ≠ p.char := by
  refine ⟨?_, ?_, ?_⟩
  · rw [← Bool.not_eq_true]
    intro hspace
    simp only [isJsonSpace, List.contains_cons, List.contains_nil, Bool.or_false, Bool.or_eq_true,
      beq_iff_eq] at hspace
    rcases hspace with rfl | rfl | rfl | rfl <;> exact absurd h (by decide)
  · rintro rfl
    exact absurd h (by decide)
  · rintro p rfl
    revert h
    cases p <;> decide

/-- Words leave the reader where it is outside a string. -/
theorem read_word {text : List Char} (h : text.all isWordChar = true) :
    Reading.outside.after text = .outside ∧ Tight .outside text := by
  induction text with
  | nil => exact ⟨rfl, trivial⟩
  | cons c text ih =>
    rw [List.all_cons, Bool.and_eq_true] at h
    obtain ⟨hspace, hquote, -⟩ := isWordChar_ne h.1
    have hnext : Reading.outside.next c = .outside := if_neg hquote
    obtain ⟨hafter, htight⟩ := ih h.2
    refine ⟨?_, fun _ => hspace, fun hs => (nomatch hs), ?_⟩
    · show (Reading.outside.next c).after text = _
      rw [hnext, hafter]
    · rw [hnext]
      exact htight

/-- Letters and digits leave the reader inside a string. -/
theorem read_inside_word {text : List Char} (h : text.all isWordChar = true) :
    Reading.inside.after text = .inside ∧ Tight .inside text := by
  induction text with
  | nil => exact ⟨rfl, trivial⟩
  | cons c text ih =>
    rw [List.all_cons, Bool.and_eq_true] at h
    have hslash : c ≠ '\\' := by
      rintro rfl
      exact absurd h.1 (by decide)
    have hnext : Reading.inside.next c = .inside := by
      rw [Reading.next, if_neg (isWordChar_ne h.1).2.1, if_neg hslash]
    obtain ⟨hafter, htight⟩ := ih h.2
    refine ⟨?_, fun hs => (nomatch hs), fun hs => (nomatch hs), ?_⟩
    · show (Reading.inside.next c).after text = _
      rw [hnext, hafter]
    · rw [hnext]
      exact htight

/-- An escaped character does not end the string. -/
theorem read_escape (c : Char) :
    Reading.inside.after (E.escape c) = .inside ∧ Tight .inside (E.escape c) := by
  have hslashed : ∀ {d text}, (∀ p : Punct, d ≠ p.char) → Tight .inside text →
      Tight .inside ('\\' :: d :: text) := fun hd htext =>
    ⟨fun hs => (nomatch hs), fun hs => (nomatch hs), fun hs => (nomatch hs), fun _ => hd, htext⟩
  unfold Escaping.escape
  split
  · exact ⟨rfl, hslashed (fun p => by cases p <;> decide) trivial⟩
  · split
    · exact ⟨rfl, hslashed (fun p => by cases p <;> decide) trivial⟩
    · next hquote hslash =>
      split
      · cases hcontrol : E.control c with
        | nil => exact absurd hcontrol (E.ne_nil c)
        | cons d text =>
          -- the first letter is read after the backslash
          have hword := E.isWord c
          rw [hcontrol, List.all_cons, Bool.and_eq_true] at hword
          obtain ⟨hafter, htight⟩ := read_inside_word hword.2
          exact ⟨hafter, hslashed (isWordChar_ne hword.1).2.2 htight⟩
      · refine ⟨?_, fun hs => (nomatch hs), fun hs => (nomatch hs), trivial⟩
        show Reading.inside.next c = .inside
        rw [Reading.next, if_neg hquote, if_neg hslash]

theorem read_escapes (chars : List Char) :
    Reading.inside.after (chars.flatMap E.escape) = .inside ∧
      Tight .inside (chars.flatMap E.escape) := by
  induction chars with
  | nil => exact ⟨rfl, trivial⟩
  | cons c chars ih =>
    obtain ⟨hafter, htight⟩ := read_escape E c
    rw [List.flatMap_cons, Reading.after_append, Tight.append_iff, hafter]
    exact ⟨ih.1, htight, ih.2⟩

/-- A token is read from outside to outside, and has no spaces outside its string. -/
theorem read_token (t : JsonToken) :
    Reading.outside.after (t.text E) = .outside ∧ Tight .outside (t.text E) := by
  cases t with
  | punct p => cases p <;> exact ⟨rfl, fun _ => rfl, fun hs => (nomatch hs), trivial⟩
  | word w => exact read_word w.isWord
  | quoted chars =>
    obtain ⟨hafter, htight⟩ := read_escapes E chars
    constructor
    · show Reading.inside.after (chars.flatMap E.escape ++ ['"']) = _
      rw [Reading.after_append, hafter]
      rfl
    · refine ⟨fun _ => rfl, fun hs => (nomatch hs), ?_⟩
      show Tight .inside (chars.flatMap E.escape ++ ['"'])
      rw [Tight.append_iff, hafter]
      exact ⟨htight, fun hs => (nomatch hs), fun hs => (nomatch hs), trivial⟩

theorem tight_tokensText (ts : List JsonToken) : Tight .outside (tokensText E ts) := by
  induction ts with
  | nil => trivial
  | cons t ts ih =>
    obtain ⟨hafter, htight⟩ := read_token E t
    rw [tokensText_cons, Tight.append_iff, hafter]
    exact ⟨htight, ih⟩

/-- Stripping a text of its spaces gives the text of its tokens. -/
theorem Respaced.stripSpaces_eq {ts : List JsonToken} {text : List Char}
    (h : Respaced E ts text) : stripSpaces .outside text = tokensText E ts := by
  induction h with
  | spaces hws => exact stripSpaces_spaces hws
  | @token t ts ws text hws _ ih =>
    obtain ⟨hafter, htight⟩ := read_token E t
    rw [stripSpaces_append, stripSpaces_append, Reading.after_append,
      Reading.after_spaces (by decide) hws, hafter, stripSpaces_spaces hws, htight.stripSpaces_eq,
      ih, tokensText_cons]
    rfl

/-- A token with no spaces before it. -/
theorem Respaced.next {t : JsonToken} {ts : List JsonToken} {text : List Char}
    (h : Respaced E ts text) : Respaced E (t :: ts) (t.text E ++ text) := by
  have htoken := Respaced.token (t := t) (List.all_nil : ([] : List Char).all isJsonSpace = true) h
  rwa [List.nil_append] at htoken

/-- More spaces before a text. -/
theorem Respaced.spaces_append {ts : List JsonToken} {ws text : List Char}
    (hws : ws.all isJsonSpace = true) (h : Respaced E ts text) : Respaced E ts (ws ++ text) := by
  cases h with
  | spaces hws' => exact .spaces (by rw [List.all_append, hws, hws', Bool.and_self])
  | @token t ts ws' text hws' h =>
    rw [← List.append_assoc, ← List.append_assoc]
    exact .token (by rw [List.all_append, hws, hws', Bool.and_self]) h

end Tokens
