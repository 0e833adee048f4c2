import TreeQuery.Proofs.Token.Cover

/-!
# Proofs/Token/Quoted — a quoted text on one line is a string

A quoted text is cut out whole, up to the next quote (`exists_fragments_quoted`).  Its class is
found by looking at it once more, now for two quotes on one line.  The two agree on texts without a
line feed, which become strings, whatever else they hold.  A quoted text with a line feed falls
through to the operators, since the line feed is a blank (`ofText_quotedLines`).
-/

namespace TreeQuery

/-! ## The class of a quoted text -/

/-- No quote is seen past the end of a line. -/
theorem quoteOnLine_append_of_mem {rest : List Char} : ∀ {body : List Char}, '"' ∉ body →
    '\n' ∈ body → quoteOnLine (body ++ rest) = false
  | [], _, hline => absurd hline List.not_mem_nil
  | c :: body, hbody, hline => by
    obtain ⟨hc, hbody⟩ := List.ne_and_not_mem_of_not_mem_cons hbody
    rw [List.cons_append, quoteOnLine, beq_false_of_ne hc.symm, Bool.false_or]
    rcases List.mem_cons.1 hline with rfl | hline
    · rfl
    · rw [quoteOnLine_append_of_mem hbody hline, Bool.and_false]

/-- **A quoted text of several lines is an operator**, quotes and all. -/
theorem ofText_quotedLines {body : List Char} (hbody : '"' ∉ body) (hline : '\n' ∈ body)
    (hreserved : hasReservedWord body = false) :
    Token.ofText ('"' :: body ++ ['"']) = .operator (String.ofList ('"' :: body ++ ['"'])) := by
  have hquoted : hasQuotedLine ('"' :: body ++ ['"']) = false := by
    have hlast : hasQuotedLine (body ++ ['"']) = false :=
      hasQuotedLine_eq_false_of_count (by simp [List.count_eq_zero_of_not_mem hbody])
    rw [List.cons_append, hasQuotedLine, quoteOnLine_append_of_mem hbody hline, hlast]
    rfl
  have hnumber : numberOf? ('"' :: body ++ ['"']) = none :=
    numberOf?_eq_none (Separator.number?_eq_none (by simp [EndsNumber]) (by simp))
  have hop : ('"' :: body ++ ['"']).any isOperatorChar = true :=
    List.any_eq_true.2 ⟨'\n', by simp [hline], by decide⟩
  rw [Token.ofText, if_neg (by simp), hasReservedWord_quoted hreserved, hquoted, hnumber, hop]
  rfl

/-! ## Quoted texts in selectors -/

/-- **A quoted text on one line becomes the string between the quotes**, whatever that is, if it has
no reserved word and an even number of quotes stands before it; with a line feed it becomes an
operator.  It is one token of its own, between those of what stands before it and of what stands
after it. -/
theorem tokenize_quoted (before body after : String) (hbody : '"' ∉ body.toList)
    (hwords : ∀ word ∈ reservedWords, ¬ word.toList <:+: body.toList)
    (hquotes : Even (before.toList.count '"')) :
    ∃ front back,
      (fragments (before ++ "\"" ++ body ++ "\"" ++ after).toList).map Fragment.text =
        front ++ ('"' :: (body.toList ++ ['"'])) :: back ∧
      Text.Covers front before.toList ∧ Text.Covers back after.toList ∧
      tokenize (before ++ "\"" ++ body ++ "\"" ++ after) = front.map Token.ofText ++
        (if '\n' ∈ body.toList then .operator ("\"" ++ body ++ "\"") else .string body) ::
          back.map Token.ofText := by
  have htext : (before ++ "\"" ++ body ++ "\"" ++ after).toList =
      before.toList ++ '"' :: (body.toList ++ '"' :: after.toList) := by simp
  obtain ⟨front, back, hpieces, hfront, hback⟩ :=
    exists_fragments_quoted before.toList after.toList hbody hquotes
  have hreserved := hasReservedWord_eq_false_iff.2 hwords
  have htoken : Token.ofText ('"' :: (body.toList ++ ['"'])) =
      if '\n' ∈ body.toList then .operator ("\"" ++ body ++ "\"") else .string body := by
    split
    · next hline =>
      refine (ofText_quotedLines hbody hline hreserved).trans (congrArg Token.operator ?_)
      rw [← String.toList_inj]
      simp
    · next hline =>
      exact (ofText_quoted hline hreserved).trans (by rw [String.ofList_toList])
  rw [← htext] at hpieces
  refine ⟨front, back, hpieces, hfront, hback, ?_⟩
  rw [tokenize_eq_map, hpieces, List.map_append, List.map_cons, htoken]

/-- In `[a="x"][b="\ >2 ~ "]` the second quoted text, after two quotes, stays as it is. -/
theorem tokenize_quoted_backslash :
    '"' ∉ "\\ >2 ~ ".toList ∧
    (∀ word ∈ reservedWords, ¬ word.toList <:+: "\\ >2 ~ ".toList) ∧
    Even ("[a=\"x\"][b=".toList.count '"') ∧
    Token.string "\\ >2 ~ " ∈ tokenize ("[a=\"x\"][b=" ++ "\"" ++ "\\ >2 ~ " ++ "\"" ++ "]") := by
  have hbody : '"' ∉ "\\ >2 ~ ".toList := by decide
  have hwords : ∀ word ∈ reservedWords, ¬ word.toList <:+: "\\ >2 ~ ".toList :=
    hasReservedWord_eq_false_iff.1 (hasReservedWord_eq_false (by decide))
  have hquotes : Even ("[a=\"x\"][b=".toList.count '"') := by decide
  obtain ⟨front, back, -, -, -, htokens⟩ :=
    tokenize_quoted "[a=\"x\"][b=" "\\ >2 ~ " "]" hbody hwords hquotes
  refine ⟨hbody, hwords, hquotes, ?_⟩
  rw [htokens, if_neg (by decide)]
  exact List.mem_append_right _ List.mem_cons_self

/-- **A quoted text with a line feed is no string**, but one operator, quotes and all. -/
theorem tokenize_quotedLines :
    '"' ∉ "a\nb".toList ∧ (∀ word ∈ reservedWords, ¬ word.toList <:+: "a\nb".toList) ∧
    Even ("".toList.count '"') ∧ tokenize ("" ++ "\"" ++ "a\nb" ++ "\"" ++ "") =
      [.operator "\"a\nb\""] ∧
    Token.string "a\nb" ∉ tokenize ("" ++ "\"" ++ "a\nb" ++ "\"" ++ "") := by
  have htokens : tokenize ("" ++ "\"" ++ "a\nb" ++ "\"" ++ "") = [.operator "\"a\nb\""] := by
    decide +kernel
  refine ⟨by decide, by decide, by decide, htokens, ?_⟩
  rw [htokens]
  decide

end TreeQuery
