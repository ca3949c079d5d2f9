import CrdtStore.Library.Json
import Mathlib.Data.List.TakeWhile

/-!
# Formatted input

Extraction from `std::cin`, on the characters that are left. A reading that fails has consumed what
it looked at. How words are laid out does not matter: what is extracted depends on the words of the
input only (`extractWord_of_words`, `extractInt_of_words`).

The flags of the stream are not kept: after a failed reading of a word nothing is left, and later
readings fail with or without the flag.
-/

namespace InputStream

/-- `std::cin >> word`. -/
def extractWord (input : List Char) : Option (List Char) × List Char :=
  let rest := input.dropWhile isSpace
  match rest.takeWhile fun c => !isSpace c with
  | [] => (none, rest)
  | word => (some word, rest.dropWhile fun c => !isSpace c)

/-- `std::cin >> n` for an `int`. -/
def extractInt (input : List Char) : Option ℤ × List Char :=
  let (negative, chars) := readSign (input.dropWhile isSpace)
  let rest := chars.dropWhile Char.isDigit
  match chars.takeWhile Char.isDigit with
  | [] => (none, rest)
  | digits =>
    let n : ℤ := Nat.ofDigitChars 10 digits 0
    let n := if negative then -n else n
    if n < -2 ^ 31 ∨ 2 ^ 31 ≤ n then (none, rest) else (some n, rest)

/-- `std::cin.ignore` up to the end of the line. -/
def ignoreLine (input : List Char) : List Char := (input.dropWhile (· ≠ '\n')).tail

/-- The words of the input, between spaces. -/
def words (input : List Char) : List (List Char) := (input.splitOnP isSpace).filter (· ≠ [])

/-! ## Words -/

theorem words_cons_of_isSpace {c : Char} (hc : isSpace c = true) (cs : List Char) :
    words (c :: cs) = words cs := by
  rw [words, List.splitOnP_cons_eq_if_modifyHead, if_pos hc, List.filter_cons_of_neg (by simp)]
  rfl

theorem words_dropWhile (input : List Char) : words (input.dropWhile isSpace) = words input := by
  induction input with
  | nil => rfl
  | cons c cs ih =>
    by_cases hc : isSpace c = true
    · rw [List.dropWhile_cons_of_pos hc, ih, words_cons_of_isSpace hc]
    · rw [List.dropWhile_cons_of_neg hc]

theorem words_word {word : List Char} (hne : word ≠ []) (hword : ∀ c ∈ word, isSpace c = false) :
    words word = [word] := by
  rw [words, List.splitOnP_eq_singleton hword, List.filter_cons_of_pos (by simpa using hne)]
  rfl

theorem words_append {word : List Char} (hne : word ≠ []) (hword : ∀ c ∈ word, isSpace c = false)
    {c : Char} (hc : isSpace c = true) (cs : List Char) :
    words (word ++ c :: cs) = word :: words cs := by
  rw [words, List.splitOnP_append_cons_of_forall_mem hword c hc,
    List.filter_cons_of_pos (by simpa using hne)]
  rfl

/-- The first word ends at a space or at the end. -/
theorem exists_rest {input word : List Char} {ws : List (List Char)}
    (h : words input = word :: ws) :
    ∃ rest, input.dropWhile isSpace = word ++ rest ∧ word ≠ [] ∧
      (∀ c ∈ word, isSpace c = false) ∧ (∀ c ∈ rest.head?, isSpace c = true) ∧
      words rest = ws := by
  rw [← words_dropWhile] at h
  have hhead : ∀ c ∈ (input.dropWhile isSpace).head?, isSpace c = false := by
    intro c hc
    have hnot := List.head?_dropWhile_not isSpace input
    rw [hc] at hnot
    simpa using hnot
  generalize input.dropWhile isSpace = text at h hhead
  have hsplit : text.takeWhile (fun c => !isSpace c) ++ text.dropWhile (fun c => !isSpace c) =
      text := List.takeWhile_append_dropWhile
  have htake : ∀ c ∈ text.takeWhile fun c => !isSpace c, isSpace c = false := by
    intro c hc
    simpa using List.mem_takeWhile_imp hc
  -- the text starts with no space, so the word is not empty
  have hne : text.takeWhile (fun c => !isSpace c) ≠ [] := by
    intro hnil
    cases text with
    | nil => cases h
    | cons c cs =>
      have hc : isSpace c = false := hhead c rfl
      rw [List.takeWhile_cons_of_pos (by simp [hc])] at hnil
      cases hnil
  cases hrest : text.dropWhile fun c => !isSpace c with
  | nil =>
    rw [hrest, List.append_nil] at hsplit
    rw [hsplit] at htake hne
    rw [words_word hne htake] at h
    cases h
    exact ⟨[], by rw [List.append_nil], hne, htake, nofun, rfl⟩
  | cons c cs =>
    have hc : isSpace c = true := by
      have hnot := List.head?_dropWhile_not (fun c => !isSpace c) text
      rw [hrest] at hnot
      simpa using hnot
    rw [hrest] at hsplit
    rw [← hsplit, words_append hne htake hc] at h
    cases h
    refine ⟨c :: cs, hsplit.symm, hne, htake, ?_, words_cons_of_isSpace hc cs⟩
    intro d hd
    cases hd
    exact hc

/-! ## Extraction -/

/-- The characters that satisfy `p`, up to the first that does not. -/
theorem span_append {p : Char → Bool} {front rest : List Char} (hfront : ∀ c ∈ front, p c = true)
    (hrest : ∀ c ∈ rest.head?, p c = false) :
    (front ++ rest).takeWhile p = front ∧ (front ++ rest).dropWhile p = rest := by
  have hstop : rest.takeWhile p = [] ∧ rest.dropWhile p = rest := by
    cases rest with
    | nil => exact ⟨rfl, rfl⟩
    | cons c cs =>
      have hc : ¬ p c = true := by simp [hrest c rfl]
      exact ⟨List.takeWhile_cons_of_neg hc, List.dropWhile_cons_of_neg hc⟩
  rw [List.takeWhile_append_of_pos hfront, List.dropWhile_append_of_pos hfront, hstop.1, hstop.2,
    List.append_nil]
  exact ⟨rfl, rfl⟩

theorem extractWord_of_words {input word : List Char} {ws : List (List Char)}
    (h : words input = word :: ws) :
    ∃ rest, extractWord input = (some word, rest) ∧ words rest = ws := by
  obtain ⟨rest, hdrop, hne, hword, hrest, hws⟩ := exists_rest h
  have hnotSpace : ∀ c ∈ word, (!isSpace c) = true := fun c hc => by rw [hword c hc]; rfl
  have hspace : ∀ c ∈ rest.head?, (!isSpace c) = false := fun c hc => by rw [hrest c hc]; rfl
  obtain ⟨htake, hleft⟩ := span_append hnotSpace hspace
  refine ⟨rest, ?_, hws⟩
  simp only [extractWord, hdrop, htake, hleft]

/-- The text of a number is extracted as that number. -/
theorem extractInt_of_words {input : List Char} {n : ℕ} {ws : List (List Char)}
    (h : words input = (numberText n).toList :: ws) (hn : n < 2 ^ 31) :
    ∃ rest, extractInt input = (some (n : ℤ), rest) ∧ words rest = ws := by
  obtain ⟨rest, hdrop, hne, -, hrest, hws⟩ := exists_rest h
  have htext : (numberText n).toList = Nat.toDigits 10 n := Nat.toList_repr
  have hdigits : ∀ c ∈ Nat.toDigits 10 n, c.isDigit = true :=
    fun c hc => Nat.isDigit_of_mem_toDigits (by omega) le_rfl hc
  have hvalue : Nat.ofDigitChars 10 (Nat.toDigits 10 n) 0 = n := Nat.ofDigitChars_ten_toDigits
  rw [htext] at hdrop hne
  -- the digits end with the word, as no space is a digit
  have hnotDigit : ∀ c ∈ rest.head?, c.isDigit = false := by
    intro c hc
    rw [← Bool.not_eq_true]
    intro hdigit
    have hspace := hrest c hc
    rw [isSpace_of_isDigit hdigit] at hspace
    cases hspace
  obtain ⟨htake, hleft⟩ := span_append hdigits hnotDigit
  have hsign : readSign (Nat.toDigits 10 n ++ rest) = (false, Nat.toDigits 10 n ++ rest) := by
    cases hlist : Nat.toDigits 10 n with
    | nil => exact absurd hlist hne
    | cons c cs =>
      exact readSign_of_isDigit (hdigits c (hlist ▸ List.mem_cons_self)) (cs ++ rest)
  refine ⟨rest, ?_, hws⟩
  simp only [extractInt, hdrop, hsign, htake, hleft, hvalue]
  have hrange : ¬ ((n : ℤ) < -2 ^ 31 ∨ 2 ^ 31 ≤ (n : ℤ)) := by omega
  cases hlist : Nat.toDigits 10 n with
  | nil => exact absurd hlist hne
  | cons c cs => exact if_neg hrange

/-! ## What is left -/

theorem readSign_suffix (chars : List Char) : (readSign chars).2 <:+ chars := by
  unfold readSign
  split
  · exact List.suffix_cons ..
  · exact List.suffix_cons ..
  · exact List.suffix_refl _

theorem extractWord_suffix (input : List Char) : (extractWord input).2 <:+ input := by
  have hspaces : input.dropWhile isSpace <:+ input := List.dropWhile_suffix _
  unfold extractWord
  dsimp only
  split
  · exact hspaces
  · exact (List.dropWhile_suffix _).trans hspaces

/-- A word is made of characters of the input. -/
theorem mem_of_mem_extractWord {input word : List Char} (h : (extractWord input).1 = some word) :
    ∀ c ∈ word, c ∈ input := by
  intro c hc
  unfold extractWord at h
  dsimp only at h
  split at h
  · cases h
  · cases h
    have hrest := (List.takeWhile_prefix fun c => !isSpace c).subset hc
    exact (List.dropWhile_suffix isSpace).subset hrest

theorem extractInt_snd (input : List Char) :
    (extractInt input).2 = (readSign (input.dropWhile isSpace)).2.dropWhile Char.isDigit := by
  unfold extractInt
  dsimp only
  split
  · rfl
  · split <;> split <;> rfl

theorem extractInt_suffix (input : List Char) : (extractInt input).2 <:+ input := by
  rw [extractInt_snd]
  exact ((List.dropWhile_suffix _).trans (readSign_suffix _)).trans (List.dropWhile_suffix _)

/-- A number takes at least a digit from the input. -/
theorem length_extractInt_lt {input : List Char} {n : ℤ} (h : (extractInt input).1 = some n) :
    (extractInt input).2.length < input.length := by
  have hdigits : (readSign (input.dropWhile isSpace)).2.takeWhile Char.isDigit ≠ [] := by
    intro hnil
    unfold extractInt at h
    dsimp only at h
    rw [hnil] at h
    cases h
  have hle := ((readSign_suffix (input.dropWhile isSpace)).trans
    (List.dropWhile_suffix _)).length_le
  have hsplit := congrArg List.length (List.takeWhile_append_dropWhile (p := Char.isDigit)
    (l := (readSign (input.dropWhile isSpace)).2))
  rw [List.length_append] at hsplit
  have hpos := List.length_pos_iff.mpr hdigits
  rw [extractInt_snd]
  omega

theorem ignoreLine_suffix (input : List Char) : ignoreLine input <:+ input :=
  (List.tail_suffix _).trans (List.dropWhile_suffix _)

theorem length_ignoreLine_lt {input : List Char} (h : input ≠ []) :
    (ignoreLine input).length < input.length := by
  have hle := (List.dropWhile_suffix (l := input) (· ≠ '\n')).length_le
  have hpos := List.length_pos_iff.mpr h
  rw [ignoreLine, List.length_tail]
  omega

end InputStream
