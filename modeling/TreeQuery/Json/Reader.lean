import TreeQuery.Json.Basic
import TreeQuery.Number.Binary
import TreeQuery.Number.Scientific

/-!
# Json/Reader — reading a JSON text

`Json.read?` reads a whole text, one value with blanks around it; `Json.readDocument?` sets the
depth that documents may have.  Every step of the reader returns a value together with the text
left after it, which is shorter (`Left`), so that reading ends.

* A number without point and exponent stays whole when it fits 64 bits, signed or unsigned; `-0`
  and any other number is read as the nearest float, and rejected when that is infinite.
* A character below U+0020 inside quotes is rejected, and so is a surrogate escape without its
  partner.
* Arrays and objects may be nested to a given depth.
-/

namespace TreeQuery.Json

/-- What is left of the text `cs` after something was read from its front. -/
abbrev Left (cs : List Char) := { left : List Char // left.length < cs.length }

/-- What is left of a text is also left of any longer one. -/
def Left.within {cs ds : List Char} (left : Left ds) (h : ds.length ≤ cs.length) : Left cs :=
  ⟨left.1, Nat.lt_of_lt_of_le left.2 h⟩

/-- The blanks between the parts of a JSON text. -/
def isSpace (c : Char) : Bool :=
  c == ' ' || c == '\t' || c == '\n' || c == '\r'

/-- The text after its leading blanks. -/
def skipSpace (cs : List Char) : List Char :=
  cs.dropWhile isSpace

theorem length_skipSpace_le (cs : List Char) : (skipSpace cs).length ≤ cs.length :=
  (List.dropWhile_suffix isSpace).length_le

/-! ## Quoted texts -/

/-- The value of a hexadecimal digit, in either case. -/
def hexValue? (c : Char) : Option Nat :=
  if c.isDigit then some (c.toNat - '0'.toNat)
  else if 'a' ≤ c ∧ c ≤ 'f' then some (c.toNat - 'a'.toNat + 10)
  else if 'A' ≤ c ∧ c ≤ 'F' then some (c.toNat - 'A'.toNat + 10)
  else none

/-- The code unit that four hexadecimal digits denote. -/
def hexUnit? (a b c d : Char) : Option Nat := do
  let a ← hexValue? a
  let b ← hexValue? b
  let c ← hexValue? c
  let d ← hexValue? d
  return ((a * 16 + b) * 16 + c) * 16 + d

/-- Whether a code unit is the first of a surrogate pair. -/
def isHighSurrogate (unit : Nat) : Bool :=
  0xD800 ≤ unit && unit ≤ 0xDBFF

/-- Whether a code unit is the second of a surrogate pair. -/
def isLowSurrogate (unit : Nat) : Bool :=
  0xDC00 ≤ unit && unit ≤ 0xDFFF

/-- The character that a surrogate pair denotes. -/
def ofSurrogates (high low : Nat) : Char :=
  Char.ofNat (0x10000 + (high - 0xD800) * 0x400 + (low - 0xDC00))

/-- The character that a single letter after a backslash denotes. -/
def unescape? : Char → Option Char
  | '"' => some '"'
  | '\\' => some '\\'
  | '/' => some '/'
  | 'b' => some '\x08'
  | 'f' => some '\x0c'
  | 'n' => some '\n'
  | 'r' => some '\r'
  | 't' => some '\t'
  | _ => none

/-- The escape of a low surrogate at the front of a text. -/
def lowSurrogate? : (cs : List Char) → Option (Nat × Left cs)
  | '\\' :: 'u' :: a :: b :: c :: d :: cs => do
    let unit ← hexUnit? a b c d
    if isLowSurrogate unit then return (unit, ⟨cs, by simp only [List.length_cons]; omega⟩)
    else none
  | _ => none

/-- The first character of a quoted text and what follows it; not the closing quote. -/
def character? : (cs : List Char) → Option (Char × Left cs)
  | '\\' :: 'u' :: a :: b :: c :: d :: cs => do
    let unit ← hexUnit? a b c d
    if isHighSurrogate unit then
      let (low, left) ← lowSurrogate? cs
      return (ofSurrogates unit low, left.within (by simp only [List.length_cons]; omega))
    else if isLowSurrogate unit then none
    else return (Char.ofNat unit, ⟨cs, by simp only [List.length_cons]; omega⟩)
  | '\\' :: c :: cs => do
    return (← unescape? c, ⟨cs, by simp only [List.length_cons]; omega⟩)
  | c :: cs =>
    if c == '"' || c == '\\' || c.toNat < 0x20 then none
    else some (c, ⟨cs, by simp only [List.length_cons]; omega⟩)
  | [] => none

/-- The characters up to the closing quote and what follows it. -/
def quotedRest? (cs : List Char) : Option (List Char × Left cs) :=
  match cs with
  | '"' :: cs => some ([], ⟨cs, by simp⟩)
  | cs =>
    match character? cs with
    | none => none
    | some (c, left) =>
      match quotedRest? left.1 with
      | none => none
      | some (text, after) => some (c :: text, after.within (Nat.le_of_lt left.2))
termination_by cs.length
decreasing_by exact left.2

/-! ## Numbers -/

/-- The sign of a number; only a minus sign may be written. -/
def sign : List Char → Bool × List Char
  | '-' :: cs => (true, cs)
  | cs => (false, cs)

/-- The fraction of a number: a point with at least one digit after it, or nothing. -/
def fraction? : List Char → Option (List Char × List Char)
  | '.' :: cs =>
    let (digits, left) := Text.spanDigits cs
    if digits.isEmpty then none else some (digits, left)
  | cs => some ([], cs)

/-- The sign of an exponent, written or not. -/
def exponentSign : List Char → Bool × List Char
  | '-' :: cs => (true, cs)
  | '+' :: cs => (false, cs)
  | cs => (false, cs)

/-- The exponent of a number, or nothing. -/
def exponent? : List Char → Option (Option Int × List Char)
  | [] => some (none, [])
  | e :: cs =>
    if e == 'e' || e == 'E' then
      let (negative, cs) := exponentSign cs
      let (digits, left) := Text.spanDigits cs
      if digits.isEmpty then none
      else
        let n : Int := Text.digitsValue digits
        some (some (if negative then -n else n), left)
    else some (none, e :: cs)

/-- The number that the parts of a literal denote. -/
def numberOf? (negative : Bool) (whole fraction : List Char) (exponent : Option Int) :
    Option Number :=
  let n := Text.digitsValue whole
  let isWhole := fraction.isEmpty && exponent.isNone
  if isWhole && !negative && n < Nat.pow 2 64 then some (.int n)
  else if isWhole && negative && 0 < n && n ≤ Nat.pow 2 63 then some (.int (-(n : Int)))
  else
    let decimal : Number.Scientific :=
      ⟨negative, Text.digitsValue (whole ++ fraction), exponent.getD 0 - fraction.length⟩
    let x := decimal.toFloat
    if (Number.Binary.ofFloat? x).isSome then some (.float x) else none

/-- A number at the front of a text and what follows it. -/
def numberAndRest? (cs : List Char) : Option (Number × List Char) := do
  let (negative, cs) := sign cs
  let (whole, cs) := Text.spanDigits cs
  if whole.isEmpty || (whole.length > 1 && whole.head? == some '0') then none
  else
    let (fraction, cs) ← fraction? cs
    let (exponent, cs) ← exponent? cs
    return (← numberOf? negative whole fraction exponent, cs)

theorem length_sign_le (cs : List Char) : (sign cs).2.length ≤ cs.length := by
  unfold sign; split <;> simp

theorem length_exponentSign_le (cs : List Char) : (exponentSign cs).2.length ≤ cs.length := by
  unfold exponentSign; split <;> simp

theorem length_le_of_fraction? {cs digits left : List Char}
    (h : fraction? cs = some (digits, left)) : left.length ≤ cs.length := by
  unfold fraction? at h
  split at h
  · next cs =>
    have := Text.length_spanDigits cs
    dsimp only at h
    split at h
    · simp at h
    · simp only [Option.some.injEq, Prod.mk.injEq] at h
      rw [← h.2, List.length_cons]
      omega
  · simp only [Option.some.injEq, Prod.mk.injEq] at h
    exact Nat.le_of_eq (by rw [h.2])

theorem length_le_of_exponent? {cs left : List Char} {exponent : Option Int}
    (h : exponent? cs = some (exponent, left)) : left.length ≤ cs.length := by
  unfold exponent? at h
  split at h
  · simp_all
  · next e cs =>
    split at h
    · have := length_exponentSign_le cs
      have := Text.length_spanDigits (exponentSign cs).2
      dsimp only at h
      split at h
      · simp at h
      · simp only [Option.some.injEq, Prod.mk.injEq] at h
        rw [← h.2, List.length_cons]
        omega
    · simp only [Option.some.injEq, Prod.mk.injEq] at h
      exact Nat.le_of_eq (by rw [← h.2])

theorem length_lt_of_numberAndRest? {cs left : List Char} {n : Number}
    (h : numberAndRest? cs = some (n, left)) : left.length < cs.length := by
  have hsign := length_sign_le cs
  have hspan := Text.length_spanDigits (sign cs).2
  unfold numberAndRest? at h
  dsimp only at h
  split at h
  · simp at h
  · next hwhole =>
    have hpos : 0 < (Text.spanDigits (sign cs).2).1.length := by
      rw [List.length_pos_iff]
      intro hnil
      simp [hnil] at hwhole
    simp only [bind, Option.bind_eq_some_iff, pure, Option.some.injEq, Prod.mk.injEq] at h
    obtain ⟨⟨fraction, after⟩, hfraction, ⟨exponent, rest⟩, hexponent, n', -, -, rfl⟩ := h
    have hafter := length_le_of_fraction? hfraction
    show rest.length < cs.length
    have hrest : rest.length ≤ after.length := length_le_of_exponent? hexponent
    omega

/-- A number, read from the front of a text. -/
def number? (cs : List Char) : Option (Number × Left cs) :=
  match h : numberAndRest? cs with
  | none => none
  | some (n, left) => some (n, ⟨left, length_lt_of_numberAndRest? h⟩)

/-! ## Values -/

/-- What follows a word at the front of a text. -/
def wordRest? : (word cs : List Char) → Option { left : List Char // left.length ≤ cs.length }
  | [], cs => some ⟨cs, Nat.le_refl _⟩
  | w :: word, c :: cs =>
    if c = w then (wordRest? word cs).map fun left => ⟨left.1, Nat.le_succ_of_le left.2⟩
    else none
  | _ :: _, [] => none

mutual

/-- A value, read from the front of a text, with containers nested at most `depth` deep. -/
def value? (depth : Nat) (cs : List Char) : Option (Json × Left cs) :=
  match h : skipSpace cs with
  | [] => none
  | c :: rest =>
    have shorter : rest.length < cs.length := by
      have := length_skipSpace_le cs
      rw [h, List.length_cons] at this
      omega
    if c = '[' then
      if depth = 0 then none
      else match hs : skipSpace rest with
        | ']' :: after => some (.array [], ⟨after, by
            have := length_skipSpace_le rest
            rw [hs, List.length_cons] at this
            omega⟩)
        | _ => match items? (depth - 1) rest with
          | none => none
          | some (items, left) => some (.array items, left.within (Nat.le_of_lt shorter))
    else if c = '\x7b' then
      if depth = 0 then none
      else match hs : skipSpace rest with
        | '\x7d' :: after => some (.object [], ⟨after, by
            have := length_skipSpace_le rest
            rw [hs, List.length_cons] at this
            omega⟩)
        | _ => match entries? (depth - 1) rest with
          | none => none
          | some (written, left) =>
            some (.object (Entries.ofWritten written), left.within (Nat.le_of_lt shorter))
    else if c = '"' then match quotedRest? rest with
      | none => none
      | some (text, left) => some (.string (String.ofList text), left.within (Nat.le_of_lt shorter))
    else if c = 'n' then (wordRest? "ull".toList rest).map fun left =>
      (.null, ⟨left.1, Nat.lt_of_le_of_lt left.2 shorter⟩)
    else if c = 't' then (wordRest? "rue".toList rest).map fun left =>
      (.bool true, ⟨left.1, Nat.lt_of_le_of_lt left.2 shorter⟩)
    else if c = 'f' then (wordRest? "alse".toList rest).map fun left =>
      (.bool false, ⟨left.1, Nat.lt_of_le_of_lt left.2 shorter⟩)
    else match number? (c :: rest) with
      | none => none
      | some (n, left) => some (.number n, left.within (Nat.succ_le_of_lt shorter))
termination_by (cs.length, 0)

/-- One or more items up to the closing bracket. -/
def items? (depth : Nat) (cs : List Char) : Option (List Json × Left cs) :=
  match value? depth cs with
  | none => none
  | some (value, left) =>
    match h : skipSpace left.1 with
    | ',' :: rest =>
      have shorter : rest.length < cs.length := by
        have hskip := length_skipSpace_le left.1
        have := left.2
        rw [h, List.length_cons] at hskip
        omega
      match items? depth rest with
      | none => none
      | some (items, left) => some (value :: items, left.within (Nat.le_of_lt shorter))
    | ']' :: rest => some ([value], ⟨rest, by
        have hskip := length_skipSpace_le left.1
        have := left.2
        rw [h, List.length_cons] at hskip
        omega⟩)
    | _ => none
termination_by (cs.length, 1)

/-- One or more entries up to the closing brace, as they are written. -/
def entries? (depth : Nat) (cs : List Char) : Option (List (String × Json) × Left cs) :=
  match h : skipSpace cs with
  | '"' :: rest =>
    have shorter : rest.length < cs.length := by
      have := length_skipSpace_le cs
      rw [h, List.length_cons] at this
      omega
    match quotedRest? rest with
    | none => none
    | some (key, afterKey) =>
      match hc : skipSpace afterKey.1 with
      | ':' :: rest =>
        have shorter : rest.length < cs.length := by
          have hskip := length_skipSpace_le afterKey.1
          have := afterKey.2
          rw [hc, List.length_cons] at hskip
          omega
        match value? depth rest with
        | none => none
        | some (value, left) =>
          let entry := (String.ofList key, value)
          match hs : skipSpace left.1 with
          | ',' :: rest =>
            have shorter : rest.length < cs.length := by
              have hskip := length_skipSpace_le left.1
              have := left.2
              rw [hs, List.length_cons] at hskip
              omega
            match entries? depth rest with
            | none => none
            | some (written, left) => some (entry :: written, left.within (Nat.le_of_lt shorter))
          | '\x7d' :: rest => some ([entry], ⟨rest, by
              have hskip := length_skipSpace_le left.1
              have := left.2
              rw [hs, List.length_cons] at hskip
              omega⟩)
          | _ => none
      | _ => none
  | _ => none
termination_by (cs.length, 1)

end

/-- **Reads a JSON text**: one value, with nothing but blanks around it, whose arrays and objects
are nested at most `depth` deep. -/
def read? (depth : Nat) (text : String) : Option Json :=
  match value? depth text.toList with
  | some (value, left) => if (skipSpace left.1).isEmpty then some value else none
  | none => none

/-- Reads a document, in which arrays and objects may be nested 127 deep. -/
def readDocument? (text : String) : Option Json :=
  read? 127 text

end TreeQuery.Json
