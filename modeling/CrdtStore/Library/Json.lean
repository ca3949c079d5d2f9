import Mathlib.Algebra.Group.Int.Defs
import Mathlib.Algebra.Group.Nat.Defs
import Mathlib.Data.List.TakeWhile
import CrdtStore.Library.UnorderedMap

/-!
# JSON values

The values a JSON library hands to a program, and the accessors that encoders and decoders use.
Fields of objects have distinct names; a value that is indexed while null becomes an object, so an
object filled in a loop that makes no turn stays null (`ofMap`). Numbers are unsigned 64-bit
integers or any others (`OtherNumber`), read back through an accessor that converts to a 32-bit int
(`asInteger`).
-/

/-- The characters of numbers in JSON texts. -/
def isNumberChar (c : Char) : Bool := c.isDigit || ['-', '+', '.', 'e', 'E'].contains c

/-- A number that is not an unsigned integer: its text, and the 32-bit integer it is converted
to. -/
structure OtherNumber where
  text : List Char
  value : ℤ
  isNumber : text.all isNumberChar = true
  int32 : -2 ^ 31 ≤ value ∧ value < 2 ^ 31
deriving DecidableEq

/-- A JSON value. -/
inductive Json where
  | null
  | boolean (b : Bool)
  | number (n : ℕ)
  | otherNumber (x : OtherNumber)
  | string (s : String)
  | array (items : List Json)
  | object (fields : List (Sigma fun _ : String => Json))

/-- What a call throws: the `what()` of a standard exception, or an exception of the library. -/
inductive Thrown where
  | invalidArgument (what : String)
  | outOfRange (what : String)
  | jsonException
deriving DecidableEq, Repr

/-- A call that goes through has gone through its first part. -/
theorem exists_of_bind_eq_ok {ε : Type*} {α β : Type} {x : Except ε α} {f : α → Except ε β} {b : β}
    (h : x >>= f = .ok b) : ∃ a, x = .ok a ∧ f a = .ok b := by
  cases x with
  | error e => cases h
  | ok a => exact ⟨a, rfl, h⟩

namespace Json

/-- A value that was null and then indexed with the keys of `m`. -/
def ofMap (m : UnorderedMap String Json) : Json :=
  match m.entries with
  | [] => .null
  | fields => .object fields

/-- Whether the value is null. -/
def isNull : Json → Bool
  | .null => true
  | _ => false

/-- Whether the value is an object. -/
def isObject : Json → Bool
  | .object _ => true
  | _ => false

/-- Whether the value is an object with the field. -/
def hasField (v : Json) (name : String) : Bool :=
  match v with
  | .object fields => (fields.dlookup name).isSome
  | _ => false

/-- The field of an object. -/
def atField (v : Json) (name : String) : Except Thrown Json :=
  match v with
  | .object fields =>
    match fields.dlookup name with
    | some x => .ok x
    | none => .error .jsonException
  | _ => .error .jsonException

/-- The object without a field. -/
def erase (v : Json) (name : String) : Json :=
  match v with
  | .object fields => .object (fields.kerase name)
  | _ => v

/-- The value with a field stored in it; a null becomes an object. -/
def setField (v : Json) (name : String) (x : Json) : Except Thrown Json :=
  match v with
  | .object fields => .ok (.object (fields.kinsert name x))
  | .null => .ok (.object [⟨name, x⟩])
  | _ => .error .jsonException

/-- The fields of an object. -/
def asObject : Json → Except Thrown (UnorderedMap String Json)
  | .object fields => .ok fields.toAList
  | _ => .error .jsonException

/-- The characters of a string value. -/
def asString : Json → Except Thrown String
  | .string s => .ok s
  | _ => .error .jsonException

/-- A number converted to a signed 32-bit integer. -/
def asInteger : Json → Except Thrown ℤ
  | .number n => .ok (Int.bmod n (2 ^ 32))
  | .otherNumber x => .ok x.value
  | _ => .error .jsonException

/-- A read of the fields of an object, which gives `d` when the value is null instead. -/
def overFields {δ : Type} (v : Json) (read : UnorderedMap String Json → Except Thrown δ) (d : δ) :
    Except Thrown δ :=
  if v.isNull then .ok d else do read (← v.asObject)

theorem atField_erase_ne {name name' : String} (v : Json) (hne : name ≠ name') :
    (v.erase name').atField name = v.atField name := by
  cases v with
  | object fields =>
    show (match (fields.kerase name').dlookup name with | some x => _ | none => _) = _
    rw [List.dlookup_kerase_ne hne]
    rfl
  | _ => rfl

theorem hasField_erase_ne {name name' : String} (v : Json) (hne : name ≠ name') :
    (v.erase name').hasField name = v.hasField name := by
  cases v with
  | object fields =>
    show ((fields.kerase name').dlookup name).isSome = _
    rw [List.dlookup_kerase_ne hne]
    rfl
  | _ => rfl

theorem field_setField_ne {name name' : String} {v w x : Json} (hne : name ≠ name')
    (h : v.setField name' x = .ok w) :
    w.atField name = v.atField name ∧ w.hasField name = v.hasField name := by
  cases v with
  | object fields =>
    cases h
    constructor
    · show (match (fields.kinsert name' x).dlookup name with | some x => _ | none => _) = _
      rw [List.dlookup_kinsert_ne hne]
      rfl
    · show ((fields.kinsert name' x).dlookup name).isSome = _
      rw [List.dlookup_kinsert_ne hne]
      rfl
  | null =>
    cases h
    have hnone : List.dlookup name [(⟨name', x⟩ : Sigma fun _ : String => Json)] = none :=
      List.dlookup_cons_ne _ _ hne
    constructor
    · show (match List.dlookup name [(⟨name', x⟩ : Sigma fun _ : String => Json)] with
        | some x => _ | none => _) = _
      rw [hnone]
      rfl
    · show (List.dlookup name [(⟨name', x⟩ : Sigma fun _ : String => Json)]).isSome = _
      rw [hnone]
      rfl
  | _ => cases h

/-- A field that was stored is there. -/
theorem hasField_setField {v w : Json} {name : String} {x : Json}
    (h : v.setField name x = .ok w) : w.hasField name = true := by
  cases v with
  | object fields =>
    cases h
    rw [hasField, List.dlookup_kinsert]
    rfl
  | null =>
    cases h
    rw [hasField, List.dlookup_cons_eq]
    rfl
  | boolean b => cases h
  | number n => cases h
  | otherNumber x => cases h
  | string s => cases h
  | array items => cases h

/-! ## Equality

Values are compared by structure: arrays in order, objects as maps. -/

mutual

/-- Equality of values. -/
def valueEq : Json → Json → Bool
  | .null, .null => true
  | .boolean b, .boolean b' => b == b'
  | .number n, .number n' => n == n'
  | .otherNumber x, .otherNumber x' => x == x'
  | .string s, .string s' => s == s'
  | .array items, .array items' => itemsEq items items'
  | .object fields, .object fields' => fields.length == fields'.length && fieldsIn fields fields'
  | _, _ => false
termination_by structural v => v

/-- Equality of the items of two arrays. -/
def itemsEq : List Json → List Json → Bool
  | [], [] => true
  | x :: xs, y :: ys => valueEq x y && itemsEq xs ys
  | _, _ => false
termination_by structural items => items

/-- Every field is one of another object. -/
def fieldsIn : List (Sigma fun _ : String => Json) → List (Sigma fun _ : String => Json) → Bool
  | [], _ => true
  | field :: fields, fields' => fieldIn field fields' && fieldsIn fields fields'
termination_by structural fields => fields

/-- The field is one of another object. -/
def fieldIn : (Sigma fun _ : String => Json) → List (Sigma fun _ : String => Json) → Bool
  | ⟨name, x⟩, fields' =>
    match fields'.dlookup name with
    | some y => valueEq x y
    | none => false
termination_by structural field => field

end

/-! ## Values built by indexing -/

theorem toAList_entries (m : UnorderedMap String Json) : m.entries.toAList = m := by
  induction m using AList.insertRec with
  | H0 => rfl
  | IH a b m ha ih => rw [AList.entries_insert_of_notMem ha, AList.toAList_cons, ih]

theorem ofMap_of_lookup {m : UnorderedMap String Json} {name : String} {x : Json}
    (h : m.lookup name = some x) : ofMap m = .object m.entries := by
  rw [ofMap]
  split
  · next hnil =>
    rw [AList.lookup, hnil] at h
    cases h
  · rfl

/-- An object that has a field is read back as the map it was built from. -/
theorem asObject_ofMap {m : UnorderedMap String Json} {name : String} {x : Json}
    (h : m.lookup name = some x) : (ofMap m).asObject = .ok m := by
  rw [ofMap_of_lookup h, asObject, toAList_entries]

/-- A value that was indexed at all is an object. -/
theorem isObject_ofMap (m : UnorderedMap String Json) :
    (ofMap m).isObject = true ↔ ∃ name, name ∈ m := by
  induction m using AList.insertRec with
  | H0 => exact iff_of_false Bool.false_ne_true fun h => absurd h.choose_spec (AList.notMem_empty _)
  | IH name x m _ _ =>
    have hx : (m.insert name x).lookup name = some x := AList.lookup_insert m
    rw [ofMap_of_lookup hx]
    exact iff_of_true rfl ⟨name, UnorderedMap.mem_of_lookup hx⟩

theorem isNull_ofMap_of_lookup {m : UnorderedMap String Json} {name : String} {x : Json}
    (h : m.lookup name = some x) : (ofMap m).isNull = false := by
  rw [ofMap_of_lookup h]
  rfl

/-- An object that is null when nothing was stored in it is read as what was stored. -/
theorem overFields_ofMap {δ : Type} (m : UnorderedMap String Json)
    {read : UnorderedMap String Json → Except Thrown δ} {d : δ} (hempty : read ∅ = .ok d) :
    (ofMap m).overFields read d = read m := by
  rw [overFields]
  induction m using AList.insertRec with
  | H0 => exact hempty.symm
  | IH name x m _ _ =>
    have hx : (m.insert name x).lookup name = some x := AList.lookup_insert m
    rw [isNull_ofMap_of_lookup hx, asObject_ofMap hx]
    rfl

end Json

/-! ## Numbers as text and as 32-bit integers -/

/-- The text of an unsigned number. -/
def numberText (n : ℕ) : String := Nat.repr n

/-- The characters that `isspace` accepts. -/
def isSpace (c : Char) : Bool := c == ' ' || (9 ≤ c.toNat && c.toNat ≤ 13)

/-- A sign before a number: whether it is a minus, and what follows it. -/
def readSign : List Char → Bool × List Char
  | '-' :: rest => (true, rest)
  | '+' :: rest => (false, rest)
  | rest => (false, rest)

/-- `std::stoull`: spaces and a sign, then the digits up to the first other character. A negative
number is negated as an unsigned one. -/
def stoull (s : String) : Except Thrown ℕ :=
  let (negative, chars) := readSign (s.toList.dropWhile isSpace)
  match chars.takeWhile Char.isDigit with
  | [] => .error (.invalidArgument "stoull")
  | digits =>
    let n := Nat.ofDigitChars 10 digits 0
    if 2 ^ 64 ≤ n then .error (.outOfRange "stoull")
    else .ok (if negative then (2 ^ 64 - n) % 2 ^ 64 else n)

/-- A signed integer stored in a 64-bit unsigned one. -/
def toUInt64 (z : ℤ) : ℕ := (z % 2 ^ 64).toNat

/-- What becomes of an unsigned number that is read as a 32-bit integer. -/
def throughInt32 (n : ℕ) : ℕ := toUInt64 (Int.bmod n (2 ^ 32))

theorem numberText_injective {m n : ℕ} (h : numberText m = numberText n) : m = n := by
  have hdigits : Nat.toDigits 10 m = Nat.toDigits 10 n := by
    rw [← Nat.toList_repr, ← Nat.toList_repr]
    exact congrArg String.toList h
  have hvalue := congrArg (Nat.ofDigitChars 10 · 0) hdigits
  simpa only [Nat.ofDigitChars_ten_toDigits] using hvalue

/-- A digit is neither a space nor a sign. -/
theorem toNat_of_isDigit {c : Char} (h : c.isDigit = true) : 48 ≤ c.toNat ∧ c.toNat ≤ 57 :=
  Char.isDigit_iff_toNat.mp h

theorem isSpace_of_isDigit {c : Char} (h : c.isDigit = true) : isSpace c = false := by
  have hrange := toNat_of_isDigit h
  have hne : c ≠ ' ' := by
    rintro rfl
    exact absurd hrange (by decide)
  simp only [isSpace, Bool.or_eq_false_iff, beq_eq_false_iff_ne, Bool.and_eq_false_iff,
    decide_eq_false_iff_not]
  exact ⟨hne, by omega⟩

theorem readSign_of_isDigit {c : Char} (h : c.isDigit = true) (cs : List Char) :
    readSign (c :: cs) = (false, c :: cs) := by
  have hrange := toNat_of_isDigit h
  have hminus : c ≠ '-' := by
    rintro rfl
    exact absurd hrange (by decide)
  have hplus : c ≠ '+' := by
    rintro rfl
    exact absurd hrange (by decide)
  unfold readSign
  split
  · next heq => exact absurd (List.cons.inj heq).1 hminus
  · next heq => exact absurd (List.cons.inj heq).1 hplus
  · rfl

/-- `stoull` reads digits that are followed by nothing. -/
theorem stoull_of_isDigit {s : String} {c : Char} {cs : List Char} (hs : s.toList = c :: cs)
    (hdigits : ∀ d ∈ c :: cs, d.isDigit = true)
    (hlt : Nat.ofDigitChars 10 (c :: cs) 0 < 2 ^ 64) :
    stoull s = .ok (Nat.ofDigitChars 10 (c :: cs) 0) := by
  have hc : c.isDigit = true := hdigits c (List.mem_cons_self ..)
  have hspaces : (c :: cs).dropWhile isSpace = c :: cs :=
    List.dropWhile_cons_of_neg (by simp [isSpace_of_isDigit hc])
  have htake : (c :: cs).takeWhile Char.isDigit = c :: cs := List.takeWhile_eq_self_iff.mpr hdigits
  rw [stoull, hs, hspaces, readSign_of_isDigit hc]
  simp only [htake, if_neg (not_le.mpr hlt)]
  rfl

/-- `stoull` undoes writing a number as text. -/
theorem stoull_numberText {n : ℕ} (h : n < 2 ^ 64) : stoull (numberText n) = .ok n := by
  have hdigits : ∀ c ∈ Nat.toDigits 10 n, c.isDigit = true :=
    fun c hc => Nat.isDigit_of_mem_toDigits (by omega) le_rfl hc
  have hvalue : Nat.ofDigitChars 10 (Nat.toDigits 10 n) 0 = n := Nat.ofDigitChars_ten_toDigits
  have htext : (numberText n).toList = Nat.toDigits 10 n := Nat.toList_repr
  cases hlist : Nat.toDigits 10 n with
  | nil => exact absurd hlist Nat.toDigits_ne_nil
  | cons c cs =>
    rw [hlist] at hdigits hvalue htext
    rw [stoull_of_isDigit htext hdigits (hvalue ▸ h), hvalue]

theorem bmod_int32 (z : ℤ) : -2 ^ 31 ≤ Int.bmod z (2 ^ 32) ∧ Int.bmod z (2 ^ 32) < 2 ^ 31 := by
  rw [Int.bmod]
  split <;> omega

theorem bmod_of_int32 {z : ℤ} (h : -2 ^ 31 ≤ z) (hlt : z < 2 ^ 31) : Int.bmod z (2 ^ 32) = z := by
  rw [Int.bmod]
  split <;> omega

/-- The number that a signed integer makes. -/
def Json.ofInt (z : ℤ) : Json :=
  if 0 ≤ z then .number z.toNat
  else .otherNumber
    { text := '-' :: Nat.toDigits 10 z.natAbs
      value := Int.bmod z (2 ^ 32)
      isNumber := by
        rw [List.all_cons, Bool.and_eq_true, List.all_eq_true]
        refine ⟨by decide, fun c hc => ?_⟩
        have hdigit : c.isDigit = true := Nat.isDigit_of_mem_toDigits (by omega) le_rfl hc
        rw [isNumberChar, hdigit, Bool.true_or]
      int32 := bmod_int32 z }

/-- `as_integer` gives back a 32-bit integer. -/
theorem Json.asInteger_ofInt {z : ℤ} (h : -2 ^ 31 ≤ z) (hlt : z < 2 ^ 31) :
    (Json.ofInt z).asInteger = .ok z := by
  rw [ofInt]
  split
  · next hpos => rw [asInteger, Int.toNat_of_nonneg hpos, bmod_of_int32 h hlt]
  · exact congrArg Except.ok (bmod_of_int32 h hlt)

/-- `as_integer` gives a 32-bit integer. -/
theorem Json.int32_asInteger {v : Json} {z : ℤ} (h : v.asInteger = .ok z) :
    -2 ^ 31 ≤ z ∧ z < 2 ^ 31 := by
  cases v with
  | number n =>
    rw [← Except.ok.inj h]
    exact bmod_int32 n
  | otherNumber x =>
    rw [← Except.ok.inj h]
    exact x.int32
  | null => cases h
  | boolean b => cases h
  | string s => cases h
  | array xs => cases h
  | object fields => cases h

theorem stoull_lt {s : String} {n : ℕ} (h : stoull s = .ok n) : n < 2 ^ 64 := by
  unfold stoull at h
  generalize readSign (s.toList.dropWhile isSpace) = sign at h
  obtain ⟨negative, chars⟩ := sign
  simp only at h
  split at h
  · cases h
  split at h
  · cases h
  · next hlt =>
    simp only [Except.ok.injEq] at h
    split at h <;> omega

/-- Reading an unsigned number as a 32-bit integer keeps it when it is small, or so large that the
sign extension restores it. -/
theorem throughInt32_eq_iff {n : ℕ} (h : n < 2 ^ 64) :
    throughInt32 n = n ↔ n < 2 ^ 31 ∨ 2 ^ 64 - 2 ^ 31 ≤ n := by
  rw [throughInt32, toUInt64, Int.bmod]
  split <;> omega

/-- A 32-bit integer stored in 64 bits is read back as it is. -/
theorem throughInt32_toUInt64 {z : ℤ} (h : -2 ^ 31 ≤ z ∧ z < 2 ^ 31) :
    throughInt32 (toUInt64 z) = toUInt64 z := by
  refine (throughInt32_eq_iff ?_).mpr ?_
  · rw [toUInt64]
    omega
  · rw [toUInt64]
    omega

theorem throughInt32_of_lt {n : ℕ} (h : n < 2 ^ 31) : throughInt32 n = n :=
  (throughInt32_eq_iff (by omega)).mpr (Or.inl h)
