import Mathlib.Data.List.Basic
import TreeQuery.Token.Fragment

/-!
# Proofs/Token/Scan — what the scanner finds at the front of a text

One lemma for each kind of separator: written in front of a text that does not go on with it, it is
found there and the rest is left.  `scan?_eq_none` says where no separator is found: within a run of
plain characters, of which names consist.
-/

namespace TreeQuery

namespace Text

/-- A run of characters that pass is found whole if the next one does not pass. -/
theorem takeWhile_append_of_head {f : Char → Bool} {front rest : List Char}
    (hfront : ∀ c ∈ front, f c = true) (hrest : ∀ c ∈ rest.head?, f c = false) :
    (front ++ rest).takeWhile f = front := by
  rw [List.takeWhile_append_of_pos hfront]
  cases rest with
  | nil => simp
  | cons c rest => simp [hrest c rfl]

theorem dropWhile_append_of_head {f : Char → Bool} {front rest : List Char}
    (hfront : ∀ c ∈ front, f c = true) (hrest : ∀ c ∈ rest.head?, f c = false) :
    (front ++ rest).dropWhile f = rest := by
  rw [List.dropWhile_append_of_pos hfront]
  cases rest with
  | nil => rfl
  | cons c rest => simp [hrest c rfl]

theorem spanDigits_append_of_head {digits rest : List Char}
    (hdigits : ∀ c ∈ digits, c.isDigit = true) (hrest : ∀ c ∈ rest.head?, c.isDigit = false) :
    spanDigits (digits ++ rest) = (digits, rest) :=
  Prod.ext (takeWhile_append_of_head hdigits hrest) (dropWhile_append_of_head hdigits hrest)

theorem spanDigits_of_head {rest : List Char} (hrest : ∀ c ∈ rest.head?, c.isDigit = false) :
    spanDigits rest = ([], rest) :=
  spanDigits_append_of_head (List.forall_mem_nil _) hrest

theorem dropBlanks_of_head {rest : List Char} (hrest : ∀ c ∈ rest.head?, isBlank c = false) :
    dropBlanks rest = rest :=
  dropWhile_append_of_head (List.forall_mem_nil _) hrest

theorem ne_of_isBlank {c d : Char} (h : isBlank c = true) (hd : isBlank d = false) : c ≠ d := by
  rintro rfl
  exact absurd h (by simp [hd])

/-- No blank is a digit. -/
theorem isDigit_of_isBlank {c : Char} (h : isBlank c = true) : c.isDigit = false := by
  rw [Bool.eq_false_iff]
  intro hdigit
  simp only [Char.isDigit, Bool.and_eq_true, decide_eq_true_eq, ge_iff_le,
    UInt32.le_iff_toNat_le] at hdigit
  have : 48 ≤ c.toNat ∧ c.toNat ≤ 57 := hdigit
  simp only [isBlank, Bool.or_eq_true, Bool.and_eq_true, decide_eq_true_eq, beq_iff_eq] at h
  omega

/-- A text that neither begins nor ends with a blank is trimmed already. -/
theorem trim_eq_self {cs : List Char} (hhead : ∀ c ∈ cs.head?, isBlank c = false)
    (hlast : ∀ c ∈ cs.getLast?, isBlank c = false) : trim cs = cs := by
  rw [trim, dropBlanks_of_head hhead, dropBlanks_of_head (by simpa using hlast),
    List.reverse_reverse]

end Text

/-! ## Numbers -/

/-- **A numeral**: perhaps a sign, perhaps digits, perhaps a point, and digits. -/
structure IsNumeral (text : List Char) : Prop where
  shape : ∃ sign whole point digits, text = sign ++ (whole ++ (point ++ digits)) ∧
    (sign = [] ∨ sign = ['+'] ∨ sign = ['-']) ∧ (∀ c ∈ whole, c.isDigit = true) ∧
    (point = [] ∨ point = ['.']) ∧ digits ≠ [] ∧ ∀ c ∈ digits, c.isDigit = true

/-- Whether a text does not go on with a number: it begins neither with a digit nor with a point. -/
def EndsNumber (rest : List Char) : Prop :=
  ∀ c ∈ rest.head?, c.isDigit = false ∧ c ≠ '.'

namespace Separator

variable {rest : List Char}

theorem fraction?_eq_none (hrest : ∀ c ∈ rest.head?, c ≠ '.') : fraction? rest = none := by
  unfold fraction?
  split
  · exact absurd rfl (hrest '.' rfl)
  · rfl

theorem unsigned?_append {whole point digits : List Char} (hwhole : ∀ c ∈ whole, c.isDigit = true)
    (hpoint : point = [] ∨ point = ['.']) (hne : digits ≠ [])
    (hdigits : ∀ c ∈ digits, c.isDigit = true) (hrest : EndsNumber rest) :
    unsigned? (whole ++ (point ++ (digits ++ rest))) = some (whole ++ (point ++ digits), rest) := by
  have hhead : ∀ c ∈ rest.head?, c.isDigit = false := fun c hc => (hrest c hc).1
  rcases hpoint with rfl | rfl
  · have hall : ∀ c ∈ whole ++ digits, c.isDigit = true := by
      simpa [or_imp, forall_and] using ⟨hwhole, hdigits⟩
    have hspan := Text.spanDigits_append_of_head hall hhead
    rw [List.append_assoc] at hspan
    simp [unsigned?, hspan, fraction?_eq_none fun c hc => (hrest c hc).2, hne]
  · have hspan : Text.spanDigits (whole ++ '.' :: (digits ++ rest)) =
        (whole, '.' :: (digits ++ rest)) := Text.spanDigits_append_of_head hwhole (by simp)
    have hfraction : fraction? ('.' :: (digits ++ rest)) = some ('.' :: digits, rest) := by
      simp [fraction?, Text.spanDigits_append_of_head hdigits hhead, hne]
    simp [unsigned?, hspan, hfraction]

/-- Without a sign, a number is an unsigned one. -/
theorem number?_of_head {cs : List Char} (h : ∀ c ∈ cs.head?, ¬ (c = '+' ∨ c = '-')) :
    number? cs = unsigned? cs := by
  cases cs with
  | nil => rfl
  | cons c cs => rw [number?, if_neg (h c rfl)]

/-- **A numeral is found whole.** -/
theorem number?_append {text : List Char} (h : IsNumeral text) (hrest : EndsNumber rest) :
    number? (text ++ rest) = some (text, rest) := by
  obtain ⟨sign, whole, point, digits, rfl, hsign, hwhole, hpoint, hne, hdigits⟩ := h.shape
  have hunsigned := unsigned?_append hwhole hpoint hne hdigits hrest
  simp only [List.append_assoc]
  rcases hsign with rfl | rfl | rfl
  · rw [List.nil_append, List.nil_append, ← hunsigned]
    refine number?_of_head fun c hc hsign => ?_
    have notDigit : ¬ c.isDigit = true := by rcases hsign with rfl | rfl <;> decide
    have notPoint : c ≠ '.' := by rcases hsign with rfl | rfl <;> decide
    cases whole with
    | cons d whole => exact notDigit (Option.some.inj hc ▸ hwhole d List.mem_cons_self)
    | nil =>
      rcases hpoint with rfl | rfl
      · obtain ⟨d, ds, rfl⟩ := List.exists_cons_of_ne_nil hne
        exact notDigit (Option.some.inj hc ▸ hdigits d List.mem_cons_self)
      · exact notPoint (Option.some.inj hc).symm
  · simp [number?, hunsigned]
  · simp [number?, hunsigned]

/-- A text that begins neither with a digit nor with a point and a digit begins with no unsigned
number. -/
theorem unsigned?_eq_none {cs : List Char} (hhead : ∀ c ∈ cs.head?, c.isDigit = false)
    (hpoint : ∀ tail, cs = '.' :: tail → ∀ c ∈ tail.head?, c.isDigit = false) :
    unsigned? cs = none := by
  have hfraction : fraction? cs = none := by
    unfold fraction?
    split
    · next tail => simp [Text.spanDigits_of_head (hpoint tail rfl)]
    · rfl
  simp [unsigned?, Text.spanDigits_of_head hhead, hfraction]

theorem unsigned?_eq_none_of_endsNumber (h : EndsNumber rest) : unsigned? rest = none := by
  refine unsigned?_eq_none (fun c hc => (h c hc).1) fun tail htail => ?_
  exact absurd rfl (h '.' (htail ▸ rfl)).2

theorem unsigned?_eq_none_of_isDigit {cs : List Char} (h : ∀ c ∈ cs, c.isDigit = false) :
    unsigned? cs = none := by
  refine unsigned?_eq_none (fun c hc => h c (List.mem_of_mem_head? hc)) fun tail htail c hc => ?_
  exact h c (htail ▸ List.mem_cons_of_mem _ (List.mem_of_mem_head? hc))

/-- Where there is no digit, there is no number. -/
theorem number?_eq_none_of_isDigit {cs : List Char} (h : ∀ c ∈ cs, c.isDigit = false) :
    number? cs = none := by
  cases cs with
  | nil => rfl
  | cons c cs =>
    rw [number?, unsigned?_eq_none_of_isDigit h,
      unsigned?_eq_none_of_isDigit (List.forall_mem_cons.1 h).2]
    exact ite_self _

end Separator

/-! ## Plain characters -/

/-- The characters that are punctuation marks. -/
def marks : List Char := ['*', '~', '>', '<', '=', '+', '[', ']', '(', ')']

/-- **A character of a gap**: no digit, no blank and no punctuation. -/
structure GapChar (c : Char) : Prop where
  notDigit : c.isDigit = false
  notBlank : Text.isBlank c = false
  notColon : c ≠ ':'
  notMark : c ∉ marks

/-- **A plain character**: one that names consist of.  No separator begins with it, unless it is a
sign or a point and a number follows. -/
structure PlainChar (c : Char) : Prop where
  notDigit : c.isDigit = false
  notBlank : Text.isBlank c = false
  notQuote : c ≠ '"'
  notColon : c ≠ ':'
  notMark : c ∉ marks

theorem PlainChar.gapChar {c : Char} (h : PlainChar c) : GapChar c :=
  ⟨h.notDigit, h.notBlank, h.notColon, h.notMark⟩

instance (c : Char) : Decidable (PlainChar c) :=
  decidable_of_iff
    (c.isDigit = false ∧ Text.isBlank c = false ∧ c ≠ '"' ∧ c ≠ ':' ∧ c ∉ marks)
    ⟨fun ⟨h₁, h₂, h₃, h₄, h₅⟩ => ⟨h₁, h₂, h₃, h₄, h₅⟩,
      fun h => ⟨h.notDigit, h.notBlank, h.notQuote, h.notColon, h.notMark⟩⟩

namespace Separator

variable {rest : List Char}

/-- No unsigned number begins in a run of plain characters. -/
theorem unsigned?_plain {text : List Char} (htext : ∀ c ∈ text, PlainChar c)
    (hrest : EndsNumber rest) : unsigned? (text ++ rest) = none := by
  cases text with
  | nil => exact unsigned?_eq_none_of_endsNumber hrest
  | cons c text =>
    have hc := htext c List.mem_cons_self
    have hhead : ∀ d ∈ (c :: text ++ rest).head?, d.isDigit = false :=
      fun d hd => Option.some.inj hd ▸ hc.notDigit
    refine unsigned?_eq_none hhead fun tail htail d hd => ?_
    obtain ⟨-, rfl⟩ := List.cons.inj htail
    cases text with
    | nil => exact (hrest d hd).1
    | cons e text => exact Option.some.inj hd ▸ (htext e (by simp)).notDigit

theorem mark?_cons {m : Char} (hm : m ∈ marks) (hne : m ≠ '<') :
    mark? (m :: rest) = some ([m], rest) := by
  unfold mark?
  split
  · next h => exact absurd (List.cons.inj h).1 hne
  · next h =>
    obtain ⟨rfl, rfl⟩ := List.cons.inj h
    exact if_pos hm
  · next h => exact absurd h (List.cons_ne_nil _ _)

theorem mark?_eq_none {cs : List Char} (h : ∀ c ∈ cs.head?, c ∉ marks) : mark? cs = none := by
  unfold mark?
  split
  · exact absurd (by decide) (h '<' rfl)
  · next c cs _ => exact if_neg (h c rfl)
  · rfl

/-- Neither a digit nor a point nor a sign begins a text: then no number does. -/
theorem number?_eq_none {cs : List Char} (h : EndsNumber cs)
    (hsign : ∀ c ∈ cs.head?, ¬ (c = '+' ∨ c = '-')) : number? cs = none := by
  rw [number?_of_head hsign, unsigned?_eq_none_of_endsNumber h]

theorem number?_plain {text : List Char} (htext : ∀ c ∈ text, PlainChar c)
    (hrest : EndsNumber rest) (hne : text ≠ []) : number? (text ++ rest) = none := by
  obtain ⟨c, text, rfl⟩ := List.exists_cons_of_ne_nil hne
  rw [List.cons_append, number?, ← List.cons_append, unsigned?_plain htext hrest,
    unsigned?_plain (List.forall_mem_cons.1 htext).2 hrest]
  exact ite_self _

/-! ## Separators at the front of a text -/

theorem scan?_numeral {text : List Char} (h : IsNumeral text) (hrest : EndsNumber rest) :
    scan? (text ++ rest) = some (.number text, rest) := by
  unfold scan?
  rw [number?_append h hrest]

theorem scan?_colon : scan? (':' :: rest) = some (.colon, rest) := by
  have hnumber : number? (':' :: rest) = none :=
    number?_eq_none (by simp [EndsNumber]) (by simp)
  rw [scan?, hnumber]

theorem closing?_append : ∀ {body : List Char}, '"' ∉ body →
    closing? (body ++ '"' :: rest) = some (body, rest)
  | [], _ => rfl
  | c :: body, h => by
    obtain ⟨hc, hbody⟩ := List.ne_and_not_mem_of_not_mem_cons h
    rw [List.cons_append, closing?, if_neg hc.symm, closing?_append hbody]

theorem scan?_quoted {body : List Char} (h : '"' ∉ body) :
    scan? ('"' :: (body ++ '"' :: rest)) = some (.quoted body, rest) := by
  have hnumber : number? ('"' :: (body ++ '"' :: rest)) = none :=
    number?_eq_none (by simp [EndsNumber]) (by simp)
  simp only [scan?, hnumber, closing?_append h]

/-- What is neither a number nor a colon nor a quoted text is a mark or a run of blanks. -/
theorem scan?_of_head {cs : List Char} (hnumber : number? cs = none)
    (hhead : ∀ c ∈ cs.head?, c ≠ ':' ∧ c ≠ '"') : scan? cs = markOrBlanks? cs := by
  unfold scan?
  rw [hnumber]
  dsimp only
  split
  · exact absurd rfl (hhead ':' rfl).1
  · exact absurd rfl (hhead '"' rfl).2
  · rfl

/-- Marks are neither blanks nor digits, points, minus signs, colons or quotes. -/
theorem of_mem_marks : ∀ m ∈ marks, Text.isBlank m = false ∧ m.isDigit = false ∧ m ≠ '.' ∧ m ≠ '-' ∧
    m ≠ ':' ∧ m ≠ '"' := by
  simp [marks, Text.isBlank]

/-- A text that begins with a blank has neither a number nor a colon nor a quoted text at its
front. -/
theorem scan?_of_isBlank {c : Char} {cs : List Char} (h : Text.isBlank c = true) :
    scan? (c :: cs) = markOrBlanks? (c :: cs) := by
  have hne : ∀ {d : Char}, Text.isBlank d = false → c ≠ d := Text.ne_of_isBlank h
  refine scan?_of_head (number?_eq_none ?_ ?_) ?_
  · rintro _ ⟨⟩
    exact ⟨Text.isDigit_of_isBlank h, hne (by decide)⟩
  · rintro _ ⟨⟩
    exact not_or_intro (hne (by decide)) (hne (by decide))
  · rintro _ ⟨⟩
    exact ⟨hne (by decide), hne (by decide)⟩

/-- A text that begins with a mark has neither a colon nor a quoted text at its front, and a number
only after a plus sign. -/
theorem scan?_of_mem_marks {m : Char} (hm : m ∈ marks) (hplus : m = '+' → unsigned? rest = none) :
    scan? (m :: rest) = markOrBlanks? (m :: rest) := by
  obtain ⟨-, hdigit, hpoint, hminus, hcolon, hquote⟩ := of_mem_marks m hm
  refine scan?_of_head ?_ ?_
  · by_cases h : m = '+'
    · simp [number?, h, hplus h]
    · refine number?_eq_none ?_ ?_
      · rintro _ ⟨⟩
        exact ⟨hdigit, hpoint⟩
      · rintro _ ⟨⟩
        exact not_or_intro h hminus
  · rintro _ ⟨⟩
    exact ⟨hcolon, hquote⟩

/-- **A mark is found with the blanks before it and after it.**  A plus sign is a mark if no number
follows. -/
theorem scan?_mark {before : List Char} {m : Char} (hbefore : ∀ c ∈ before, Text.isBlank c = true)
    (hm : m ∈ marks) (hne : m ≠ '<') (hplus : m = '+' → unsigned? rest = none) :
    scan? (before ++ m :: rest) = some (.mark [m], Text.dropBlanks rest) := by
  have hdrop : Text.dropBlanks (before ++ m :: rest) = m :: rest :=
    Text.dropWhile_append_of_head hbefore (by simpa using (of_mem_marks m hm).1)
  have hscan : scan? (before ++ m :: rest) = markOrBlanks? (before ++ m :: rest) := by
    cases before with
    | nil => exact scan?_of_mem_marks hm hplus
    | cons c before => exact scan?_of_isBlank (hbefore c List.mem_cons_self)
  rw [hscan, markOrBlanks?, hdrop, mark?_cons hm hne]

/-- **A run of blanks that no mark follows** keeps its last one. -/
theorem scan?_blanks {front : List Char} {last : Char} (hfront : ∀ c ∈ front, Text.isBlank c = true)
    (hlast : Text.isBlank last = true)
    (hrest : ∀ c ∈ rest.head?, Text.isBlank c = false ∧ c ∉ marks) :
    scan? (front ++ [last] ++ rest) = some (.blank last, rest) := by
  have hall : ∀ c ∈ front ++ [last], Text.isBlank c = true := by
    simpa [or_imp, forall_and] using ⟨hfront, hlast⟩
  have hhead : ∀ c ∈ rest.head?, Text.isBlank c = false := fun c hc => (hrest c hc).1
  have hscan : scan? (front ++ [last] ++ rest) = markOrBlanks? (front ++ [last] ++ rest) := by
    cases front with
    | nil => exact scan?_of_isBlank hlast
    | cons c front => exact scan?_of_isBlank (hfront c List.mem_cons_self)
  have hmark : mark? rest = none := mark?_eq_none fun c hc => (hrest c hc).2
  rw [hscan, markOrBlanks?, Text.dropBlanks, Text.dropWhile_append_of_head hall hhead,
    Text.takeWhile_append_of_head hall hhead, hmark, List.getLast?_concat]
  rfl

/-- **No separator begins in a run of plain characters.** -/
theorem scan?_plain {text : List Char} (htext : ∀ c ∈ text, PlainChar c) (hne : text ≠ [])
    (hrest : EndsNumber rest) : scan? (text ++ rest) = none := by
  have hnumber := number?_plain htext hrest hne
  obtain ⟨c, text, rfl⟩ := List.exists_cons_of_ne_nil hne
  have hc := htext c List.mem_cons_self
  have hhead : ∀ d ∈ (c :: text ++ rest).head?, d ≠ ':' ∧ d ≠ '"' := by
    rintro _ ⟨⟩
    exact ⟨hc.notColon, hc.notQuote⟩
  have hdrop : Text.dropBlanks (c :: text ++ rest) = c :: text ++ rest :=
    Text.dropBlanks_of_head (by rintro _ ⟨⟩; exact hc.notBlank)
  have hmark : mark? (c :: text ++ rest) = none :=
    mark?_eq_none (by rintro _ ⟨⟩; exact hc.notMark)
  rw [scan?_of_head hnumber hhead, markOrBlanks?, hdrop, hmark]
  simp [hc.notBlank]

end Separator

end TreeQuery
