import TreeQuery.Proofs.Selector.Shape
import TreeQuery.Proofs.Token.Boundary

/-!
# Proofs/Selector/Graft — two texts with a combinator's mark between them

The selector of `before > after` is not the two selectors joined: combinators group to the left, so
the left one is grafted onto the leftmost term of the right one (`Selector.graft`).
`parse_append_mark` says so of all texts that are selectors, the first with an even number of
quotes, and of all blanks around the mark.

Two facts carry it: the mark parts the text into tokens of either side (`tokenize_append_mark`), and
grafting onto a row of tails is grafting onto what the tails are folded onto (`graft_foldl`).
-/

namespace TreeQuery

open Grammar

/-! ## Grafting -/

/-- **One selector grafted onto another**: joined to its leftmost term by a combinator. -/
def Selector.graft (combinator : Combinator) (scion : Selector) : Selector → Selector
  | .combine other left right => .combine other (scion.graft combinator left) right
  | .both left right => .both (scion.graft combinator left) right
  | term => .combine combinator scion term

namespace Grammar

variable {tokens more front back : List Token} {token : Token} {combinator : Combinator}
  {left S : Selector} {tails : List Tail}

theorem graft_of_isTerm (hS : S.IsTerm) : left.graft combinator S = .combine combinator left S := by
  cases S with
  | combine | both => exact hS.elim
  | _ => rfl

theorem graft_onto (tail : Tail) :
    left.graft combinator (tail.onto S) = tail.onto (left.graft combinator S) := by
  cases tail <;> rfl

/-- **Tails do not see what is grafted**: they are folded onto it as before. -/
theorem graft_foldl : ∀ {tails : List Tail} {S : Selector},
    left.graft combinator (tails.foldl Tail.onto S) =
      tails.foldl Tail.onto (left.graft combinator S)
  | [], _ => rfl
  | tail :: tails, S => by
    rw [List.foldl_cons, List.foldl_cons, ← graft_onto, graft_foldl]

/-- Further tails join the selector before them. -/
theorem Derives.append_tails (h : Derives tokens S) (htails : IsTails more tails) :
    Derives (tokens ++ more) (tails.foldl Tail.onto S) := by
  induction htails generalizing tokens S with
  | nil => simpa using h
  | cons htail _ ih =>
    rw [← List.append_assoc]
    exact ih (h.snoc htail)

/-- **Two rows of tokens with a combinator between them denote the graft.** -/
theorem Derives.graft (hleft : Derives front left) (hc : Joins token combinator)
    (hright : Derives back S) : Derives (front ++ token :: back) (left.graft combinator S) := by
  obtain ⟨operand, more, first, tails, rfl, hfirst, htails, rfl⟩ := hright
  have hjoined := (hleft.snoc (.joined hc hfirst)).append_tails htails
  rw [graft_foldl, graft_of_isTerm hfirst.isTerm]
  simpa [Tail.onto] using hjoined

/-- No selector begins with a number. -/
theorem Derives.head_ne_number {x : Float} (h : Derives tokens S) :
    tokens.head? ≠ some (.number x) := by
  obtain ⟨_, _, _, _, rfl, hfirst, _⟩ := h
  cases hfirst with
  | atom h =>
    cases h with
    | predicate h => cases h <;> simp
    | _ => simp
  | skip hc => cases hc <;> simp

end Grammar

/-! ## Numbers at the front -/

/-- An unsigned number begins neither with a sign nor with a blank. -/
theorem Separator.head_of_unsigned? {cs : List Char} {read : List Char × List Char}
    (h : unsigned? cs = some read) :
    ∀ c ∈ cs.head?, ¬ (c = '+' ∨ c = '-') ∧ Text.isBlank c = false := by
  intro c hc
  have hbegins : c.isDigit = true ∨ c = '.' := by
    by_contra hno
    obtain ⟨hdigit, hpoint⟩ := not_or.1 hno
    have hends : EndsNumber cs := fun d hd =>
      Option.some.inj (hc.symm.trans hd) ▸ ⟨Bool.eq_false_iff.2 hdigit, hpoint⟩
    simp [unsigned?_eq_none_of_endsNumber hends] at h
  rcases hbegins with hdigit | rfl
  · refine ⟨?_, Bool.eq_false_iff.2 fun hblank => ?_⟩
    · rintro (rfl | rfl) <;> exact absurd hdigit (by decide)
    · simp [Text.isDigit_of_isBlank hblank] at hdigit
  · decide

/-- An unsigned number at the front of a text is its first token. -/
theorem head_tokensFrom_of_unsigned? {cs text rest : List Char}
    (h : Separator.unsigned? cs = some (text, rest)) :
    ∃ x, (tokensFrom cs).head? = some (.number x) := by
  have hnumber : Separator.number? cs = some (text, rest) := by
    rw [Separator.number?_of_head fun c hc => (Separator.head_of_unsigned? h c hc).1, h]
  obtain ⟨_, htext⟩ := Separator.eq_of_number? hnumber
  obtain ⟨x, hx⟩ := htext.exists_numberOf?
  have hscan : Separator.scan? cs = some (.number text, rest) := by
    unfold Separator.scan?
    rw [hnumber]
  rw [tokensFrom_of_scan? hscan htext.ne_nil]
  exact ⟨x, congrArg some (ofText_numeral htext hx)⟩

/-- No number stands at the front of a text that is a selector. -/
theorem unsigned?_trimEnd_of_derives {text : String} {S : Selector}
    (h : Derives (tokenize text) S) : Separator.unsigned? (Text.trimEnd text.toList) = none := by
  cases hunsigned : Separator.unsigned? (Text.trimEnd text.toList) with
  | none => rfl
  | some read =>
    obtain ⟨x, hx⟩ := head_tokensFrom_of_unsigned? hunsigned
    have htrim := Text.dropBlanks_trimEnd text.toList
    rw [Text.dropBlanks_of_head fun c hc => (Separator.head_of_unsigned? hunsigned c hc).2] at htrim
    rw [tokenize_eq, ← htrim] at h
    exact absurd hx h.head_ne_number

/-! ## Texts -/

/-- Blanks at the ends of a text are no part of its selector. -/
theorem parse_append_blanks {text blanks : String}
    (hblanks : ∀ c ∈ blanks.toList, Text.isBlank c = true) :
    parse (text ++ blanks) = parse text ∧ parse (blanks ++ text) = parse text := by
  obtain ⟨hback, hfront⟩ := tokenize_append_blanks hblanks
  exact ⟨congrArg parseTokens hback, congrArg parseTokens hfront⟩

/-- **Two texts with a combinator's mark between them are read as the graft**, with any blanks
around the mark, if each is read as a selector and the first has an even number of quotes. -/
theorem parse_append_mark {combinator : Combinator} {mark : Char}
    (hmark : combinator.mark? = some mark) (before after : String) {left right : Selector}
    (hquotes : Even (before.toList.count '"')) (hleft : parse before = .ok (some left))
    (hright : parse after = .ok (some right)) (blanks blanks' : String)
    (hblanks : ∀ c ∈ blanks.toList, Text.isBlank c = true)
    (hblanks' : ∀ c ∈ blanks'.toList, Text.isBlank c = true) :
    parse (before ++ blanks ++ String.singleton mark ++ (blanks' ++ after)) =
      .ok (some (left.graft combinator right)) := by
  rw [← (parse_append_blanks hblanks).1] at hleft
  rw [← (parse_append_blanks hblanks').2] at hright
  have hquotes' : Even ((before ++ blanks).toList.count '"') := by
    rwa [String.toList_append, List.count_append, Text.count_of_isBlank hblanks (by decide),
      Nat.add_zero]
  obtain ⟨hmem, hjoins⟩ := Selector.joins_of_mark hmark
  have hne : mark ≠ '=' := by
    cases combinator <;> simp only [Combinator.mark?, Option.some.injEq, reduceCtorEq] at hmark <;>
      subst hmark <;> decide
  have hplus := unsigned?_trimEnd_of_derives (derives_of_parse hright)
  have hderives := (derives_of_parse hleft).graft hjoins (derives_of_parse hright)
  rw [parse, tokenize_append_mark hquotes' hmem hne fun _ => hplus]
  exact parseTokens_eq_ok_iff.2 (isTerms_none_iff.2 (.inr ⟨_, rfl, hderives⟩))

/-- What `a[x="+"]` spells: the mark within the quotes joins nothing. -/
def quotedPlus : Selector :=
  .both (.identifier "a") (.attribute "x" (.equal (.string "+")))

/-- With a `+` between `a[x="+"]` and `b c > *`, only the first of the three terms is joined to the
test. -/
theorem parse_append_plus :
    parse "a[x=\"+\"]" = .ok (some quotedPlus) ∧
      parse "b c > *" = .ok (some (.combine .child
        (.combine .descendant (.identifier "b") (.identifier "c")) .wildcard)) ∧
      parse ("a[x=\"+\"]" ++ " " ++ String.singleton '+' ++ ("\t\n" ++ "b c > *")) =
        .ok (some (.combine .child (.combine .descendant (.combine .adjacent quotedPlus
          (.identifier "b")) (.identifier "c")) .wildcard)) := by
  have hleft : parse "a[x=\"+\"]" = .ok (some quotedPlus) := by decide +kernel
  have hright : parse "b c > *" = .ok (some (.combine .child
      (.combine .descendant (.identifier "b") (.identifier "c")) .wildcard)) := by decide +kernel
  have hmark : Combinator.adjacent.mark? = some '+' := rfl
  exact ⟨hleft, hright, parse_append_mark hmark _ _ (by decide) hleft hright " " "\t\n"
    (List.all_eq_true.1 (by decide)) (List.all_eq_true.1 (by decide))⟩

end TreeQuery
