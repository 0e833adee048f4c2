import TreeQuery.Proofs.Token.Found

/-!
# Proofs/Token/Boundary — a text is lexed on either side of a boundary

A text can be lexed in two parts where the second begins with something that ends names and numbers
(`Boundary`), if no quoted text reaches over: that is so if the first part has an even number of
quotes, because quotes are paired from the front.  `Separator.scan?_append_right` says that the
scanner does not see past a boundary, `tokensFrom_append` that the tokens of the two parts follow
one another.

A mark takes the blanks on either side of it, so for marks the parts may be any texts:
`tokenize_append_mark`.
-/

namespace TreeQuery

/-! ## The scanner in front of a boundary -/

namespace Text

variable {cs rest : List Char}

theorem spanDigits_append_right (hrest : ∀ c ∈ rest.head?, c.isDigit = false) :
    spanDigits (cs ++ rest) = ((spanDigits cs).1, (spanDigits cs).2 ++ rest) := by
  have hdigits : ∀ c ∈ (spanDigits cs).1, c.isDigit = true := isDigit_of_mem_spanDigits
  conv_lhs => rw [← spanDigits_append cs, List.append_assoc]
  refine spanDigits_append_of_head hdigits ?_
  cases hspan : (spanDigits cs).2 with
  | nil => exact hrest
  | cons d ds =>
    have hhead := List.head?_dropWhile_not Char.isDigit cs
    rw [show cs.dropWhile Char.isDigit = d :: ds from hspan] at hhead
    simpa using hhead

end Text

namespace Separator

variable {cs rest : List Char}

theorem fraction?_append_right (hrest : EndsNumber rest) : fraction? (cs ++ rest) =
    (fraction? cs).map fun read => (read.1, read.2 ++ rest) := by
  cases cs with
  | nil => exact fraction?_eq_none fun c hc => (hrest c hc).2
  | cons c cs =>
    by_cases hc : c = '.'
    · subst hc
      have hdigit : ∀ c ∈ rest.head?, c.isDigit = false := fun c hc => (hrest c hc).1
      simp only [List.cons_append, fraction?, Text.spanDigits_append_right hdigit]
      split <;> rfl
    · have hnone : ∀ cs, fraction? (c :: cs) = none := fun cs =>
        fraction?_eq_none (by simpa using hc)
      rw [List.cons_append, hnone, hnone, Option.map_none]

theorem unsigned?_append_right (hrest : EndsNumber rest) : unsigned? (cs ++ rest) =
    (unsigned? cs).map fun read => (read.1, read.2 ++ rest) := by
  simp only [unsigned?, Text.spanDigits_append_right fun c hc => (hrest c hc).1,
    fraction?_append_right hrest]
  cases fraction? (Text.spanDigits cs).2 with
  | some read => rfl
  | none =>
    simp only [Option.map_none]
    split <;> rfl

/-- **What ends a number leaves the numbers in front of it as they are.** -/
theorem number?_append_right (hne : cs ≠ []) (hrest : EndsNumber rest) : number? (cs ++ rest) =
    (number? cs).map fun read => (read.1, read.2 ++ rest) := by
  obtain ⟨c, cs, rfl⟩ := List.exists_cons_of_ne_nil hne
  simp only [List.cons_append, number?]
  split
  · rw [unsigned?_append_right hrest]
    cases unsigned? cs <;> rfl
  · rw [← List.cons_append, unsigned?_append_right hrest]

theorem mark?_cons_eq (c : Char) (cs : List Char) : mark? (c :: cs) =
    if c = '<' ∧ cs.head? = some '=' then some (['<', '='], cs.tail)
    else if c ∈ marks then some ([c], cs) else none := by
  unfold mark?
  split
  · next h =>
    obtain ⟨rfl, rfl⟩ := List.cons.inj h
    rfl
  · next hnot h =>
    obtain ⟨rfl, rfl⟩ := List.cons.inj h
    refine (if_neg ?_).symm
    rintro ⟨hc, h⟩
    obtain ⟨tail, htail⟩ := List.head?_eq_some_iff.1 h
    exact hnot tail hc htail
  · next h => exact absurd h (List.cons_ne_nil _ _)

theorem mark?_append_right (hne : cs ≠ []) (hrest : ∀ c ∈ rest.head?, c ≠ '=') :
    mark? (cs ++ rest) = (mark? cs).map fun read => (read.1, read.2 ++ rest) := by
  obtain ⟨c, cs, rfl⟩ := List.exists_cons_of_ne_nil hne
  have hhead : (cs ++ rest).head? = some '=' ↔ cs.head? = some '=' := by
    cases cs with
    | nil => simpa using fun h => hrest '=' h rfl
    | cons d cs => rfl
  have htail : cs.head? = some '=' → (cs ++ rest).tail = cs.tail ++ rest := by
    cases cs with
    | nil => exact fun h => absurd h (by simp)
    | cons d cs => exact fun _ => rfl
  simp only [List.cons_append, mark?_cons_eq, hhead]
  split
  · next h => rw [htail h.2, Option.map_some]
  · split <;> rfl

theorem closing?_append_right {body left : List Char} (h : closing? cs = some (body, left)) :
    closing? (cs ++ rest) = some (body, left ++ rest) := by
  obtain ⟨rfl, hbody⟩ := eq_of_closing? h
  rw [List.append_assoc, List.cons_append, closing?_append hbody]

/-- Of an even number of quotes, the first is closed. -/
theorem closing?_ne_none (hquotes : Even (('"' :: cs).count '"')) : closing? cs ≠ none := by
  intro h
  have hmem : '"' ∉ cs := fun hmem => by
    obtain ⟨body, left, rfl, hbody⟩ := List.eq_append_cons_of_mem hmem
    simp [closing?_append hbody] at h
  simp [List.count_eq_zero_of_not_mem hmem] at hquotes

theorem markOrBlanks?_append_cons {blanks : List Char} {c : Char}
    (hblanks : ∀ c ∈ blanks, Text.isBlank c = true) (hc : Text.isBlank c = false) :
    markOrBlanks? (blanks ++ c :: cs) =
      match mark? (c :: cs) with
      | some (text, left) => some (.mark text, Text.dropBlanks left)
      | none => blanks.getLast?.map fun last => (.blank last, c :: cs) := by
  have hhead : ∀ d ∈ (c :: cs).head?, Text.isBlank d = false := by simpa using hc
  cases hmark : mark? (c :: cs) <;>
    simp [markOrBlanks?, Text.dropBlanks, Text.dropWhile_append_of_head hblanks hhead,
      Text.takeWhile_append_of_head hblanks hhead, hmark]

theorem scan?_cons_eq (c : Char) (cs : List Char) : scan? (c :: cs) =
    match number? (c :: cs) with
    | some (text, left) => some (.number text, left)
    | none =>
      if c = ':' then some (.colon, cs)
      else if c = '"' then (closing? cs).map fun read => (.quoted read.1, read.2)
      else markOrBlanks? (c :: cs) := by
  by_cases hcolon : c = ':'
  · subst hcolon
    rfl
  by_cases hquote : c = '"'
  · subst hquote
    unfold scan?
    cases number? ('"' :: cs) with
    | some read => rfl
    | none =>
      simp only [hcolon, if_false, if_true]
      cases closing? cs <;> rfl
  · cases hnumber : number? (c :: cs) with
    | some read =>
      unfold scan?
      rw [hnumber]
    | none =>
      rw [scan?_of_head hnumber (by rintro _ ⟨⟩; exact ⟨hcolon, hquote⟩)]
      simp [hcolon, hquote]

/-- What a separator leaves of the text behind it: a mark takes the blanks there. -/
def leave (found : Separator) (rest : List Char) : List Char :=
  match found with
  | .mark _ => Text.dropBlanks rest
  | _ => rest

section Append

variable (hend : ∀ c ∈ cs.getLast?, Text.isBlank c = false) (hrest : EndsNumber rest)
  (hequal : ∀ c ∈ rest.head?, c ≠ '=')

include hend hequal

theorem markOrBlanks?_append_right (hne : cs ≠ []) : markOrBlanks? (cs ++ rest) =
    (markOrBlanks? cs).map fun read => (read.1, read.1.leave (read.2 ++ rest)) := by
  -- the last character is no blank, so the leading blanks end within the text
  obtain ⟨blanks, hblanks, hcs⟩ := Text.exists_dropBlanks cs
  have hhead : ∀ c ∈ (Text.dropBlanks cs).head?, Text.isBlank c = false := Text.head_dropBlanks
  cases hcore : Text.dropBlanks cs with
  | nil =>
    obtain ⟨front, last, rfl⟩ := (List.eq_nil_or_concat' cs).resolve_left hne
    have hlast : last ∈ blanks := by simpa [hcore] using congrArg (last ∈ ·) hcs
    simp [hblanks last hlast] at hend
  | cons c core =>
    rw [hcore] at hcs hhead
    subst hcs
    have hc := hhead c rfl
    have hmark := mark?_append_right (List.cons_ne_nil c core) hequal
    rw [List.append_assoc, List.cons_append, markOrBlanks?_append_cons hblanks hc,
      markOrBlanks?_append_cons hblanks hc, ← List.cons_append, hmark]
    cases mark? (c :: core) with
    | none => simp [Function.comp_def, leave]
    | some read => simp [leave, Text.dropBlanks_dropBlanks_append]

include hrest

/-- **The scanner finds the same in front of a boundary.** -/
theorem scan?_append_right (hne : cs ≠ []) (hquotes : Even (cs.count '"')) : scan? (cs ++ rest) =
    (scan? cs).map fun read => (read.1, read.1.leave (read.2 ++ rest)) := by
  have hmark := markOrBlanks?_append_right hend hequal hne
  have hnumber := number?_append_right hne hrest
  obtain ⟨c, cs, rfl⟩ := List.exists_cons_of_ne_nil hne
  rw [List.cons_append] at hmark hnumber ⊢
  rw [scan?_cons_eq, scan?_cons_eq, hnumber, hmark]
  cases number? (c :: cs) with
  | some read => rfl
  | none =>
    simp only [Option.map_none]
    split
    · rfl
    split
    · next hquote =>
      cases hclosing : closing? cs with
      | some read =>
        rw [closing?_append_right hclosing]
        rfl
      | none => exact absurd hclosing (closing?_ne_none (hquote ▸ hquotes))
    · rfl

end Append

/-- With an even number of quotes, no quote is left unclosed. -/
theorem ne_quote_of_scan?_eq_none {c : Char} (hquotes : Even ((c :: cs).count '"'))
    (h : scan? (c :: cs) = none) : c ≠ '"' := by
  rintro rfl
  rw [scan?_cons_eq] at h
  cases hnumber : number? ('"' :: cs) with
  | some read => simp [hnumber] at h
  | none => exact absurd (by simpa [hnumber] using h) (closing?_ne_none hquotes)

/-! ## What is left of a text -/

variable {found : Separator} {left : List Char}

theorem FoundAt.suffix (h : FoundAt cs found left) : left <:+ cs := by
  obtain ⟨before, after, _, _, hcs⟩ := h.exists_split
  exact ⟨before ++ (found.text ++ after), by simp [hcs]⟩

/-- **Separators hold an even number of quotes.** -/
theorem FoundAt.even_count (h : FoundAt cs found left) (hquotes : Even (cs.count '"')) :
    Even (left.count '"') := by
  obtain ⟨before, after, hbefore, hafter, rfl⟩ := h.exists_split
  have hquote : Text.isBlank '"' = false := by decide
  rw [List.count_append, List.count_append, List.count_append,
    Text.count_of_isBlank hbefore hquote, Text.count_of_isBlank hafter hquote, Nat.zero_add,
    Nat.zero_add, Nat.even_add] at hquotes
  exact hquotes.1 h.wellCut.even_count

end Separator

/-! ## Boundaries -/

/-- **A text that can be cut off**: something that ends names and numbers stands at its front, and
the blanks there make no difference. -/
structure Boundary (rest : List Char) : Prop where
  endsName : EndsName rest
  notEqual : ∀ c ∈ rest.head?, c ≠ '='
  cut_dropBlanks : cut (Text.dropBlanks rest) = cut rest

variable {cs rest : List Char}

theorem Boundary.cut_leave (h : Boundary rest) {found : Separator} {left : List Char}
    (hfound : Separator.FoundAt cs found left) :
    cut (found.leave (left ++ rest)) = cut (left ++ rest) := by
  cases hfound with
  | @mark before text behind =>
    rw [Separator.leave]
    cases hleft : Text.dropBlanks behind with
    | nil => exact h.cut_dropBlanks
    | cons c left =>
      have hc : Text.isBlank c = false := Text.head_dropBlanks c (by rw [hleft]; rfl)
      rw [Text.dropBlanks_of_head (by simpa using hc)]
  | _ => rfl

/-- **A text is cut on either side of a boundary.** -/
theorem cut_append (cs : List Char) (hquotes : Even (cs.count '"'))
    (hend : ∀ c ∈ cs.getLast?, Text.isBlank c = false) (hrest : Boundary rest) :
    cut (cs ++ rest) = ((cut cs).1, (cut cs).2 ++ (cut rest).2) := by
  cases cs with
  | nil => rw [List.nil_append, cut_nil, ← hrest.endsName.cut_fst, List.nil_append]
  | cons c cs =>
    have hscan := Separator.scan?_append_right hend hrest.endsName.endsNumber hrest.notEqual
      (List.cons_ne_nil c cs) hquotes
    cases hfound : Separator.scan? (c :: cs) with
    | none =>
      rw [hfound, Option.map_none] at hscan
      have hc := Separator.ne_quote_of_scan?_eq_none hquotes hfound
      have heven : Even (cs.count '"') := by simpa [hc] using hquotes
      have ih := cut_append cs heven (Text.getLast_of_suffix (List.suffix_cons ..) hend) hrest
      rw [List.cons_append] at hscan ⊢
      rw [cut_cons hscan, cut_cons hfound, ih]
    | some read =>
      obtain ⟨found, left⟩ := read
      rw [hfound, Option.map_some] at hscan
      have hat := Separator.foundAt_of_scan? hfound
      have hshorter := Separator.scan?_shorter hfound
      have ih := cut_append left (hat.even_count hquotes) (Text.getLast_of_suffix hat.suffix hend)
        hrest
      rw [cut_of_scan? hscan, cut_of_scan? hfound, hrest.cut_leave hat, ih]
      rfl
termination_by cs.length

/-- **The tokens on either side of a boundary follow one another.** -/
theorem tokensFrom_append (hquotes : Even (cs.count '"'))
    (hend : ∀ c ∈ cs.getLast?, Text.isBlank c = false) (hrest : Boundary rest) :
    tokensFrom (cs ++ rest) = tokensFrom cs ++ tokensFrom rest := by
  have hempty : (Fragment.gap (cut rest).1).text = [] := hrest.endsName.cut_fst
  rw [tokensFrom, cut_append cs hquotes hend hrest, ← List.cons_append, tokensOf_append, tokensFrom,
    tokensFrom, tokensOf_cons_of_empty hempty]

/-! ## Marks -/

/-- A mark is a boundary, with blanks before it. -/
theorem Boundary.of_mark {before : List Char} {m : Char}
    (hbefore : ∀ c ∈ before, Text.isBlank c = true) (hm : m ∈ marks) (hless : m ≠ '<')
    (hne : m ≠ '=') (hplus : m = '+' → Separator.unsigned? rest = none) :
    Boundary (before ++ m :: rest) := by
  have hblank := (Separator.of_mem_marks m hm).1
  have hcut : ∀ {before : List Char}, (∀ c ∈ before, Text.isBlank c = true) →
      cut (before ++ m :: rest) = ([], .separator (.mark [m]) ::
        .gap (cut (Text.dropBlanks rest)).1 :: (cut (Text.dropBlanks rest)).2) :=
    fun hbefore => cut_of_scan? (Separator.scan?_mark hbefore hm hless hplus)
  refine ⟨?_, ?_, ?_⟩
  · cases before with
    | nil => exact .of_head (.inr (.inr hm))
    | cons c before => exact .of_head (.inl (hbefore c List.mem_cons_self))
  · cases before with
    | nil => exact fun c hc => Option.some.inj hc ▸ hne
    | cons c before =>
      refine fun d hd => Option.some.inj hd ▸ Text.ne_of_isBlank ?_ (by decide)
      exact hbefore c List.mem_cons_self
  · rw [Text.dropBlanks_append_of_isBlank hbefore, Text.dropBlanks_of_head (by simpa using hblank),
      hcut hbefore]
    exact hcut (List.forall_mem_nil _)

/-- **A mark parts a text into texts that are lexed apart**, whatever blanks stand around it.  A
plus sign is a mark if no number follows it; `<` and `=` may be the two halves of one mark. -/
theorem tokenize_append_mem_marks {before after : String} {m : Char}
    (hquotes : Even (before.toList.count '"')) (hm : m ∈ marks) (hless : m ≠ '<') (hne : m ≠ '=')
    (hplus : m = '+' → Separator.unsigned? (Text.trimEnd after.toList) = none) :
    tokenize (before ++ String.singleton m ++ after) =
      tokenize before ++ Token.ofText [m] :: tokenize after := by
  have hblank := (Separator.of_mem_marks m hm).1
  obtain ⟨blanks, hblanks, hbefore⟩ := Text.exists_trimEnd (Text.dropBlanks before.toList)
  rw [← Text.trim_eq_trimEnd] at hbefore
  have htext : (before ++ String.singleton m ++ after).toList =
      before.toList ++ m :: after.toList := by simp
  have heven : Even ((Text.trim before.toList).count '"') := by
    rwa [Text.count_trim (by decide)]
  rw [tokenize_eq, htext, Text.trim_append_cons hblank, hbefore, List.append_assoc,
    tokensFrom_append heven Text.getLast_trimEnd (.of_mark hblanks hm hless hne hplus),
    tokensFrom_mem_marks hblanks hm hless hplus, Text.dropBlanks_trimEnd]
  rfl

/-- So does a mark that is an operator. -/
theorem tokenize_append_mark {before after : String} {m : Char}
    (hquotes : Even (before.toList.count '"')) (hm : m ∈ operatorMarks) (hne : m ≠ '=')
    (hplus : m = '+' → Separator.unsigned? (Text.trimEnd after.toList) = none) :
    tokenize (before ++ String.singleton m ++ after) =
      tokenize before ++ .operator (String.singleton m) :: tokenize after := by
  obtain ⟨hmark, hless, -⟩ := of_mem_operatorMarks m hm
  rw [tokenize_append_mem_marks hquotes hmark hless hne hplus, ofText_operatorMark hm]
  rfl

/-- Blanks at the ends of a text give no tokens. -/
theorem tokenize_append_blanks {text blanks : String}
    (hblanks : ∀ c ∈ blanks.toList, Text.isBlank c = true) :
    tokenize (text ++ blanks) = tokenize text ∧ tokenize (blanks ++ text) = tokenize text := by
  simp only [tokenize_eq, String.toList_append, Text.trim_append_of_isBlank hblanks,
    Text.trim_of_isBlank_append hblanks, and_self]

/-- **The marks that part every text**: none of them begins a longer mark or a number. -/
def partingMarks : List Char := ['>', '~', '[', ']', '(', ')', '*']

/-- The token of a mark that parts every text. -/
theorem ofText_partingMark {m : Char} (hm : m ∈ partingMarks) :
    Token.ofText [m] = if m = '*' then .wildcard else .operator (String.singleton m) := by
  split
  · next hstar => rw [hstar, Token.ofText, if_pos rfl]
  · next hstar =>
    have hop : m ∈ operatorMarks := by
      simp only [partingMarks, List.mem_cons, List.not_mem_nil, or_false] at hm
      simp only [operatorMarks, List.mem_cons, List.not_mem_nil, or_false]
      tauto
    exact ofText_operatorMark hop

/-- **A parting mark parts any two texts**, if the first has an even number of quotes: the tokens of
the one, the mark and the tokens of the other follow one another.  Blanks around the mark make no
difference. -/
theorem tokenize_append_partingMark (before after : String) {m : Char} (hm : m ∈ partingMarks)
    (hquotes : Even (before.toList.count '"')) :
    tokenize (before ++ String.singleton m ++ after) = tokenize before ++
      (if m = '*' then .wildcard else .operator (String.singleton m)) :: tokenize after ∧
    ∀ blanks blanks' : String, (∀ c ∈ blanks.toList, Text.isBlank c = true) →
      (∀ c ∈ blanks'.toList, Text.isBlank c = true) →
      tokenize (before ++ blanks ++ String.singleton m ++ (blanks' ++ after)) =
        tokenize (before ++ String.singleton m ++ after) := by
  have hparting : ∀ m ∈ partingMarks, m ∈ marks ∧ m ≠ '<' ∧ m ≠ '=' ∧ m ≠ '+' := by
    simp [partingMarks, marks]
  obtain ⟨hmark, hless, hequal, hplus⟩ := hparting m hm
  have hparts {before after : String} (hquotes : Even (before.toList.count '"')) :
      tokenize (before ++ String.singleton m ++ after) =
        tokenize before ++ Token.ofText [m] :: tokenize after :=
    tokenize_append_mem_marks hquotes hmark hless hequal fun h => absurd h hplus
  refine ⟨by rw [hparts hquotes, ofText_partingMark hm], fun blanks blanks' hblanks hblanks' => ?_⟩
  have hquotes' : Even ((before ++ blanks).toList.count '"') := by
    rwa [String.toList_append, List.count_append, Text.count_of_isBlank hblanks (by decide),
      Nat.add_zero]
  rw [hparts hquotes', hparts hquotes, (tokenize_append_blanks hblanks).1,
    (tokenize_append_blanks hblanks').2]

/-- Between `a [b = "~"]` and `= c` the star takes the blanks on either side, and the mark in the
quoted text parts nothing. -/
theorem tokenize_append_star :
    '*' ∈ partingMarks ∧ Even ("a [b = \"~\"]".toList.count '"') ∧
    tokenize ("a [b = \"~\"]" ++ " \t" ++ String.singleton '*' ++ ("\n" ++ "= c")) =
      tokenize "a [b = \"~\"]" ++ .wildcard :: tokenize "= c" := by
  have hstar : '*' ∈ partingMarks := by decide
  have hquotes : Even ("a [b = \"~\"]".toList.count '"') := by decide
  obtain ⟨hparts, hblanks⟩ := tokenize_append_partingMark "a [b = \"~\"]" "= c" hstar hquotes
  refine ⟨hstar, hquotes, ?_⟩
  rw [hblanks " \t" "\n" (List.all_eq_true.1 (by decide)) (List.all_eq_true.1 (by decide)), hparts,
    if_pos rfl]

end TreeQuery
