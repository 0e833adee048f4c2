import TreeQuery.Text.Blank
import TreeQuery.Text.Digits

/-!
# Token/Fragment — cutting a selector text into fragments

A text is cut at its *separators*: numbers, colons, quoted texts, punctuation marks and runs of
blanks.  A separator is recognised at its first character by what follows, in that order of
preference; what lies between two separators is a *gap*.  The fragments are the gaps and what
the separators keep, in order, without the empty ones.

* A quoted text ends at the next quote; a backslash does not escape it.
* A mark takes the blanks around it with it.  A run of blanks that no mark follows keeps only its
  last character.
* A sign belongs to the number after it, so `a+1` holds a signed number where `a +1` holds a mark.

Cutting ends because a separator is never empty (`Separator.scan?_shorter`).
-/

namespace TreeQuery

/-- **A separator**, by what it keeps of the text. -/
inductive Separator
  | number (text : List Char)
  | colon
  /-- A quoted text; `body` is what stands between the quotes. -/
  | quoted (body : List Char)
  /-- A punctuation mark; the blanks around it are dropped. -/
  | mark (text : List Char)
  /-- A run of blanks, of which the last is kept. -/
  | blank (last : Char)
  deriving DecidableEq, Repr

namespace Separator

/-- What a separator keeps of the text. -/
def text : Separator → List Char
  | .number text => text
  | .colon => [':']
  | .quoted body => '"' :: body ++ ['"']
  | .mark text => text
  | .blank last => [last]

/-- A fraction at the front of a text: a point with at least one digit after it. -/
def fraction? : List Char → Option (List Char × List Char)
  | '.' :: cs =>
    let (digits, rest) := Text.spanDigits cs
    if digits.isEmpty then none else some ('.' :: digits, rest)
  | _ => none

/-- A number without sign at the front of a text: digits with a fraction, the digits before the
point being optional, or digits alone. -/
def unsigned? (cs : List Char) : Option (List Char × List Char) :=
  let (whole, rest) := Text.spanDigits cs
  match fraction? rest with
  | some (fraction, rest) => some (whole ++ fraction, rest)
  | none => if whole.isEmpty then none else some (whole, rest)

/-- A number at the front of a text, with or without a sign. -/
def number? : List Char → Option (List Char × List Char)
  | [] => none
  | c :: cs =>
    if c = '+' ∨ c = '-' then
      match unsigned? cs with
      | some (text, rest) => some (c :: text, rest)
      | none => none
    else unsigned? (c :: cs)

/-- The body of a quoted text and what follows its closing quote. -/
def closing? : List Char → Option (List Char × List Char)
  | [] => none
  | c :: cs =>
    if c = '"' then some ([], cs)
    else
      match closing? cs with
      | some (body, rest) => some (c :: body, rest)
      | none => none

/-- A punctuation mark at the front of a text. -/
def mark? : List Char → Option (List Char × List Char)
  | '<' :: '=' :: cs => some (['<', '='], cs)
  | c :: cs => if c ∈ ['*', '~', '>', '<', '=', '+', '[', ']', '(', ')'] then some ([c], cs) else none
  | [] => none

/-- A mark with the blanks around it, or a run of blanks. -/
def markOrBlanks? (cs : List Char) : Option (Separator × List Char) :=
  let blanks := cs.takeWhile Text.isBlank
  let rest := Text.dropBlanks cs
  match mark? rest with
  | some (text, rest) => some (.mark text, Text.dropBlanks rest)
  | none => blanks.getLast?.map fun last => (.blank last, rest)

/-- **The separator at the front of a text** and what follows it. -/
def scan? (cs : List Char) : Option (Separator × List Char) :=
  match number? cs with
  | some (text, rest) => some (.number text, rest)
  | none =>
    match cs with
    | ':' :: rest => some (.colon, rest)
    | '"' :: rest =>
      match closing? rest with
      | some (body, rest) => some (.quoted body, rest)
      | none => none
    | cs => markOrBlanks? cs

/-! ## What is left is shorter -/

theorem length_of_fraction? {cs text rest : List Char} (h : fraction? cs = some (text, rest)) :
    rest.length < cs.length := by
  unfold fraction? at h
  split at h
  · next cs =>
    have := Text.length_spanDigits cs
    dsimp only at h
    split at h
    · simp at h
    · simp only [Option.some.injEq, Prod.mk.injEq] at h
      rw [← h.2, List.length_cons]
      omega
  · simp at h

theorem length_of_unsigned? {cs text rest : List Char} (h : unsigned? cs = some (text, rest)) :
    rest.length < cs.length := by
  have hspan := Text.length_spanDigits cs
  unfold unsigned? at h
  dsimp only at h
  split at h
  · next hf =>
    simp only [Option.some.injEq, Prod.mk.injEq] at h
    have := length_of_fraction? hf
    rw [← h.2]
    omega
  · split at h
    · simp at h
    · next hne =>
      simp only [Option.some.injEq, Prod.mk.injEq] at h
      have : 0 < (Text.spanDigits cs).1.length := by
        rw [List.length_pos_iff]
        simpa using hne
      rw [← h.2]
      omega

theorem length_of_number? {cs text rest : List Char} (h : number? cs = some (text, rest)) :
    rest.length < cs.length := by
  cases cs with
  | nil => simp [number?] at h
  | cons c cs =>
    simp only [number?] at h
    split at h
    · split at h
      · next hu =>
        simp only [Option.some.injEq, Prod.mk.injEq] at h
        have := length_of_unsigned? hu
        rw [← h.2, List.length_cons]
        omega
      · simp at h
    · exact length_of_unsigned? h

theorem length_of_closing? {body rest : List Char} :
    ∀ {cs : List Char}, closing? cs = some (body, rest) → rest.length < cs.length
  | [], h => by simp [closing?] at h
  | c :: cs, h => by
    unfold closing? at h
    split at h
    · simp only [Option.some.injEq, Prod.mk.injEq] at h
      simp [h.2]
    · split at h
      · next hc =>
        simp only [Option.some.injEq, Prod.mk.injEq] at h
        have := length_of_closing? hc
        rw [← h.2, List.length_cons]
        omega
      · simp at h

theorem length_of_mark? {cs text rest : List Char} (h : mark? cs = some (text, rest)) :
    rest.length < cs.length := by
  unfold mark? at h
  split at h
  · simp only [Option.some.injEq, Prod.mk.injEq] at h
    rw [← h.2]
    simp only [List.length_cons]
    omega
  · split at h
    · simp only [Option.some.injEq, Prod.mk.injEq] at h
      simp [h.2]
    · simp at h
  · simp at h

theorem length_of_markOrBlanks? {cs rest : List Char} {s : Separator}
    (h : markOrBlanks? cs = some (s, rest)) : rest.length < cs.length := by
  have hdrop := Text.length_dropBlanks_le cs
  unfold markOrBlanks? at h
  dsimp only at h
  split at h
  · next hm =>
    simp only [Option.some.injEq, Prod.mk.injEq] at h
    have hmark := length_of_mark? hm
    rw [← h.2]
    exact Nat.lt_of_le_of_lt (Text.length_dropBlanks_le _) (Nat.lt_of_lt_of_le hmark hdrop)
  · simp only [Option.map_eq_some_iff, Prod.mk.injEq] at h
    obtain ⟨last, hlast, -, rfl⟩ := h
    have hpos : 0 < (cs.takeWhile Text.isBlank).length := by
      rw [List.length_pos_iff]
      intro hnil
      simp [hnil] at hlast
    have hsplit : (cs.takeWhile Text.isBlank).length + (Text.dropBlanks cs).length = cs.length := by
      rw [Text.dropBlanks, ← List.length_append, List.takeWhile_append_dropWhile]
    omega

/-- **A separator is never empty.** -/
theorem scan?_shorter {cs rest : List Char} {s : Separator} (h : scan? cs = some (s, rest)) :
    rest.length < cs.length := by
  unfold scan? at h
  split at h
  · next hn =>
    simp only [Option.some.injEq, Prod.mk.injEq] at h
    rw [← h.2]
    exact length_of_number? hn
  · split at h
    · simp only [Option.some.injEq, Prod.mk.injEq] at h
      simp [h.2]
    · split at h
      · next hc =>
        simp only [Option.some.injEq, Prod.mk.injEq] at h
        have := length_of_closing? hc
        rw [← h.2, List.length_cons]
        omega
      · simp at h
    · exact length_of_markOrBlanks? h

end Separator

/-- **A fragment** of a selector text. -/
inductive Fragment
  | gap (text : List Char)
  | separator (found : Separator)
  deriving DecidableEq, Repr

/-- The text of a fragment. -/
def Fragment.text : Fragment → List Char
  | .gap text => text
  | .separator found => found.text

/-- The gap at the front of a text, perhaps empty, and the fragments after it, in which
separators and gaps take turns. -/
def cut (cs : List Char) : List Char × List Fragment :=
  match _found : Separator.scan? cs with
  | some (found, rest) =>
    let (gap, fragments) := cut rest
    ([], .separator found :: .gap gap :: fragments)
  | none =>
    match cs with
    | [] => ([], [])
    | c :: cs =>
      let (gap, fragments) := cut cs
      (c :: gap, fragments)
termination_by cs.length
decreasing_by
  · exact Separator.scan?_shorter _found
  · simp

/-- **The fragments of a text**, none of them empty.  Blanks at the ends of the text are ignored. -/
def fragments (cs : List Char) : List Fragment :=
  let (gap, fragments) := cut (Text.trim cs)
  (.gap gap :: fragments).filter fun f => !f.text.isEmpty

end TreeQuery
