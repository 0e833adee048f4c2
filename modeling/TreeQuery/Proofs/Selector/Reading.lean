import TreeQuery.Proofs.Selector.Grammar
import TreeQuery.Selector.Parser

/-!
# Proofs/Selector/Reading — the parser accepts the grammar and builds its tree

`Outcome.Gives` says what a reader returned and which tokens it left.  For every reader of
`Selector/Parser` there are two lemmas against `Proofs/Selector/Grammar`: what it gives was written
there (`_sound`), and what is written there it gives (`_complete`), whatever tokens follow.

`parseTokens_iff` is the main statement.
-/

namespace TreeQuery

open Grammar

/-! ## What a reader gives -/

/-- **A reader returned a phrase and left some tokens.** -/
def Outcome.Gives {α : Type} (outcome : Outcome α) (phrase : α) (rest : List Token) : Prop :=
  outcome.result = .ok phrase ∧ outcome.cursor.rest = rest

namespace Outcome

variable {α β : Type} {outcome : Outcome α} {x : α} {y : β} {rest : List Token}

@[simp] theorem gives_ok {x' : α} {cursor : Cursor} :
    (ok x' cursor).Gives x rest ↔ x' = x ∧ cursor.rest = rest := by
  simp [Gives, ok]

@[simp] theorem not_gives_error {kind : ParseError.Kind} {token : Option Token}
    {built : Option Selector} {cursor : Cursor} :
    ¬ (error kind token built cursor : Outcome α).Gives x rest := by
  simp [Gives, error]

/-- A reader goes on where the one before it stopped. -/
theorem gives_bind {next : α → Cursor → Outcome β} : (outcome.bind next).Gives y rest ↔
    ∃ x, outcome.Gives x outcome.cursor.rest ∧ (next x outcome.cursor).Gives y rest := by
  obtain ⟨result, cursor⟩ := outcome
  cases result <;> simp [bind, Gives]

theorem gives_map {f : α → β} :
    (outcome.map f).Gives y rest ↔ ∃ x, outcome.Gives x rest ∧ f x = y := by
  rw [map, gives_bind]
  refine exists_congr fun x => ?_
  rw [gives_ok]
  exact ⟨fun ⟨h, hy, hrest⟩ => ⟨⟨h.1, hrest⟩, hy⟩, fun ⟨h, hy⟩ => ⟨⟨h.1, rfl⟩, hy, h.2⟩⟩

end Outcome

namespace Cursor

variable {cursor : Cursor} {token : Token} {rest : List Token}

theorem exists_next?_of_rest (h : cursor.rest = token :: rest) :
    ∃ after, cursor.next? = some (token, after) ∧ after.rest = rest := by
  cases hnext : cursor.next? with
  | none => simp [next?_eq_none hnext] at h
  | some read =>
    obtain ⟨token', after⟩ := read
    obtain ⟨rfl, rfl⟩ := List.cons.inj ((next?_eq_some hnext).1.symm.trans h)
    exact ⟨after, rfl, rfl⟩

end Cursor

/-! ## Literals and arguments -/

variable {built : Option Selector} {cursor : Cursor} {rest : List Token}

theorem readLiteral_sound {literal : Literal} (h : (readLiteral built cursor).Gives literal rest) :
    ∃ token, IsLiteral token literal ∧ cursor.rest = token :: rest := by
  unfold readLiteral at h
  split at h
  · next hnext =>
    obtain ⟨rfl, rfl⟩ := Outcome.gives_ok.1 h
    exact ⟨_, .number _, (Cursor.next?_eq_some hnext).1⟩
  · next hnext =>
    obtain ⟨rfl, rfl⟩ := Outcome.gives_ok.1 h
    exact ⟨_, .string _, (Cursor.next?_eq_some hnext).1⟩
  · exact absurd h Outcome.not_gives_error
  · exact absurd h Outcome.not_gives_error

theorem readLiteral_complete (built : Option Selector) {token : Token} {literal : Literal}
    (h : IsLiteral token literal) (hrest : cursor.rest = token :: rest) :
    (readLiteral built cursor).Gives literal rest := by
  obtain ⟨after, hnext, hafter⟩ := Cursor.exists_next?_of_rest hrest
  cases h <;> simp [readLiteral, hnext, hafter]

theorem isOperator_iff {token : Token} {text : String} :
    token.isOperator text = true ↔ token = .operator text := by
  cases token <;> simp [Token.isOperator]

/-- **A phrase ends with its closing operator.** -/
theorem gives_closed_iff {α : Type} {text : String} {x y : α} {missing : Outcome α}
    {wrong : Token → Cursor → Outcome α} (hmissing : ¬ missing.Gives y rest)
    (hwrong : ∀ token after, ¬ (wrong token after).Gives y rest) :
    (match cursor.next? with
      | none => missing
      | some (token, after) =>
        if token.isOperator text then .ok x after else wrong token after).Gives y rest ↔
      x = y ∧ cursor.rest = .operator text :: rest := by
  cases hnext : cursor.next? with
  | none => simp [Cursor.next?_eq_none hnext, hmissing]
  | some read =>
    obtain ⟨token, after⟩ := read
    rw [(Cursor.next?_eq_some hnext).1, List.cons.injEq, ← isOperator_iff]
    by_cases h : token.isOperator text <;> simp [h, hwrong]

theorem readArgument_sound {position : Literal}
    (h : (readArgument built cursor).Gives position rest) :
    ∃ token, IsLiteral token position ∧
      cursor.rest = .operator "(" :: token :: .operator ")" :: rest := by
  unfold readArgument at h
  split at h
  · exact absurd h Outcome.not_gives_error
  · next hopen =>
    split at h
    · next hcond =>
      obtain ⟨position', hliteral, hclose⟩ := Outcome.gives_bind.1 h
      obtain ⟨token, htoken, hrest⟩ := readLiteral_sound hliteral
      obtain ⟨rfl, hrest'⟩ := (gives_closed_iff Outcome.not_gives_error
        fun _ _ => Outcome.not_gives_error).1 hclose
      refine ⟨token, htoken, ?_⟩
      rw [(Cursor.next?_eq_some hopen).1, isOperator_iff.1 hcond.1, hrest, hrest']
    · exact absurd h Outcome.not_gives_error

theorem readArgument_complete (built : Option Selector) {token : Token} {position : Literal}
    (h : IsLiteral token position)
    (hrest : cursor.rest = .operator "(" :: token :: .operator ")" :: rest) :
    (readArgument built cursor).Gives position rest := by
  obtain ⟨after, hopen, hafter⟩ := Cursor.exists_next?_of_rest hrest
  have hremaining : 1 < after.remaining := by
    rw [← Cursor.length_rest, hafter]
    simp
  have hliteral := readLiteral_complete built h hafter
  simp only [readArgument, hopen, Token.isOperator, beq_self_eq_true, hremaining, true_and, if_true]
  refine Outcome.gives_bind.2 ⟨position, ⟨hliteral.1, rfl⟩, ?_⟩
  exact (gives_closed_iff Outcome.not_gives_error fun _ _ => Outcome.not_gives_error).2
    ⟨rfl, hliteral.2⟩

/-! ## Predicates -/

theorem readPseudo_sound {S : Selector} (h : (readPseudo built cursor).Gives S rest) :
    ∃ tokens, IsPseudo tokens S ∧ cursor.rest = tokens ++ rest := by
  unfold readPseudo at h
  split at h
  · exact absurd h Outcome.not_gives_error
  · next hnext =>
    have hfront := (Cursor.next?_eq_some hnext).1
    split at h
    · next hword =>
      obtain ⟨rfl, rfl⟩ := Outcome.gives_ok.1 h
      exact ⟨_, .firstChild, hword ▸ hfront⟩
    split at h
    · next hword =>
      obtain ⟨rfl, rfl⟩ := Outcome.gives_ok.1 h
      exact ⟨_, .lastChild, hword ▸ hfront⟩
    split at h
    · next hword =>
      obtain ⟨position, harg, rfl⟩ := Outcome.gives_map.1 h
      obtain ⟨token, htoken, hrest⟩ := readArgument_sound harg
      exact ⟨_, .nthChild htoken, by rw [hfront, hword, hrest]; rfl⟩
    · exact absurd h Outcome.not_gives_error
  · exact absurd h Outcome.not_gives_error

theorem readEquality_sound {name : String} {S : Selector}
    (h : (readEquality name built cursor).Gives S rest) :
    ∃ token literal, IsLiteral token literal ∧ S = .attribute name (.equal literal) ∧
      cursor.rest = token :: .operator "]" :: rest := by
  obtain ⟨literal, hliteral, hclose⟩ := Outcome.gives_bind.1 h
  obtain ⟨token, htoken, hrest⟩ := readLiteral_sound hliteral
  obtain ⟨rfl, hrest'⟩ := (gives_closed_iff Outcome.not_gives_error
    fun _ _ => Outcome.not_gives_error).1 hclose
  exact ⟨token, literal, htoken, rfl, by rw [hrest, hrest']⟩

theorem readEquality_complete {name : String} {token : Token} {literal : Literal}
    (h : IsLiteral token literal) (hrest : cursor.rest = token :: .operator "]" :: rest) :
    (readEquality name built cursor).Gives (.attribute name (.equal literal)) rest := by
  have hliteral := readLiteral_complete built h hrest
  refine Outcome.gives_bind.2 ⟨literal, ⟨hliteral.1, rfl⟩, ?_⟩
  exact (gives_closed_iff Outcome.not_gives_error fun _ _ => Outcome.not_gives_error).2
    ⟨rfl, hliteral.2⟩

theorem readAttribute_sound {S : Selector} (h : (readAttribute built cursor).Gives S rest) :
    ∃ tokens, IsTest tokens S ∧ cursor.rest = tokens ++ rest := by
  unfold readAttribute at h
  split at h
  · exact absurd h Outcome.not_gives_error
  · next hname =>
    have hfront := (Cursor.next?_eq_some hname).1
    split at h
    · exact absurd h Outcome.not_gives_error
    split at h
    · exact absurd h Outcome.not_gives_error
    · next hop =>
      have hsecond := (Cursor.next?_eq_some hop).1
      split at h
      · next hclose =>
        obtain ⟨rfl, rfl⟩ := Outcome.gives_ok.1 h
        exact ⟨_, .present _, by rw [hfront, hsecond, hclose]; rfl⟩
      split at h
      · next hequal =>
        obtain ⟨token, literal, htoken, rfl, hrest⟩ := readEquality_sound h
        exact ⟨_, .equal _ htoken, by rw [hfront, hsecond, hequal, hrest]; rfl⟩
      · exact absurd h Outcome.not_gives_error
    · exact absurd h Outcome.not_gives_error
  · exact absurd h Outcome.not_gives_error

theorem readPseudo_complete {tokens : List Token} {S : Selector}
    (h : IsPseudo tokens S) (hrest : cursor.rest = tokens ++ rest) :
    (readPseudo built cursor).Gives S rest := by
  cases h with
  | firstChild =>
    obtain ⟨after, hnext, hafter⟩ := Cursor.exists_next?_of_rest hrest
    simp [readPseudo, hnext, hafter, Selector.firstChild]
  | lastChild =>
    obtain ⟨after, hnext, hafter⟩ := Cursor.exists_next?_of_rest hrest
    simp [readPseudo, hnext, hafter, Selector.lastChild]
  | nthChild hliteral =>
    obtain ⟨after, hnext, hafter⟩ := Cursor.exists_next?_of_rest hrest
    have harg := readArgument_complete built hliteral hafter
    simp only [readPseudo, hnext]
    exact Outcome.gives_map.2 ⟨_, harg, rfl⟩

theorem readAttribute_complete {tokens : List Token} {S : Selector}
    (h : IsTest tokens S) (hrest : cursor.rest = tokens ++ rest) :
    (readAttribute built cursor).Gives S rest := by
  have hremaining : ∀ {c : Cursor} {token : Token} {tokens : List Token},
      c.rest = token :: tokens → c.remaining ≠ 0 := fun hc => by
    rw [← Cursor.length_rest, hc]
    simp
  cases h with
  | present name =>
    obtain ⟨after, hname, hafter⟩ := Cursor.exists_next?_of_rest hrest
    obtain ⟨last, hclose, hlast⟩ := Cursor.exists_next?_of_rest hafter
    simp [readAttribute, hname, hremaining hafter, hclose, hlast]
  | equal name hliteral =>
    obtain ⟨after, hname, hafter⟩ := Cursor.exists_next?_of_rest hrest
    obtain ⟨last, hequal, hlast⟩ := Cursor.exists_next?_of_rest hafter
    simp only [readAttribute, hname, hremaining hafter, hequal, if_false]
    exact readEquality_complete hliteral hlast

/-! ## Terms -/

/-- What a token begins, after what was built so far. -/
inductive Opens : Option Selector → Token → Opening → Prop
  | wildcard : Opens none .wildcard (.whole .wildcard)
  | identifier (name : String) : Opens none (.identifier name) (.whole (.identifier name))
  | operand (built : Option Selector) {token : Token} {combinator : Combinator}
      (hc : Joins token combinator) : Opens built token (.operand combinator)
  | pseudo (built : Option Selector) : Opens built (.operator ":") .pseudo
  | attribute (built : Option Selector) : Opens built (.operator "[") .attribute

theorem opening_sound {token : Token} {isLast : Bool} {opening : Opening}
    (h : token.opening built.isNone isLast = .ok opening) : Opens built token opening := by
  cases token with
  | wildcard =>
    cases built with
    | none => exact Except.ok.inj h ▸ .wildcard
    | some _ => exact absurd h (by simp [Token.opening])
  | identifier name =>
    cases built with
    | none => exact Except.ok.inj h ▸ .identifier name
    | some _ => exact absurd h (by simp [Token.opening])
  | operator op =>
    simp only [Token.opening] at h
    split at h
    · exact absurd h (by simp)
    split at h
    · next hop => exact Except.ok.inj h ▸ .operand _ (joins_iff.2 hop)
    split at h
    · next hop => exact Except.ok.inj h ▸ hop ▸ .pseudo _
    split at h
    · next hop => exact Except.ok.inj h ▸ hop ▸ .attribute _
    · exact absurd h (by simp)
  | _ => exact absurd h (by simp [Token.opening])

/-- Only a term of one token can be the last token. -/
theorem opening_complete {token : Token} {isLast : Bool} {opening : Opening}
    (h : Opens built token opening) (hlast : isLast = true → ∃ term, opening = .whole term) :
    token.opening built.isNone isLast = .ok opening := by
  cases h with
  | operand _ hc =>
    obtain ⟨op, rfl, hop⟩ := hc.exists_operator
    obtain rfl : isLast = false := by simpa using hlast
    simp [Token.opening, hop]
  | pseudo =>
    obtain rfl : isLast = false := by simpa using hlast
    rfl
  | «attribute» =>
    obtain rfl : isLast = false := by simpa using hlast
    rfl
  | _ => rfl

/-- **What is read as a term is one.** -/
theorem readTerm_sound {S : Selector} (h : (readTerm built cursor).Gives S rest) :
    ∃ tokens, IsTerm built tokens S ∧ cursor.rest = tokens ++ rest := by
  fun_induction readTerm built cursor generalizing S with
  | case1 built cursor _ => exact absurd h Outcome.not_gives_error
  | case2 built cursor token after hnext term hopening =>
    obtain ⟨rfl, rfl⟩ := Outcome.gives_ok.1 h
    refine ⟨[token], ?_, (Cursor.next?_eq_some hnext).1⟩
    cases opening_sound hopening with
    | wildcard => exact .wildcard
    | identifier name => exact .identifier name
  | case3 built cursor token after hnext combinator hopening ih =>
    obtain ⟨S, hS, rfl⟩ := Outcome.gives_map.1 h
    obtain ⟨tokens, hterm, hrest⟩ := ih hS
    cases opening_sound hopening with
    | operand _ hc =>
      exact ⟨token :: tokens, .operand hc hterm, by rw [(Cursor.next?_eq_some hnext).1, hrest]; rfl⟩
  | case4 built cursor token after hnext hopening =>
    obtain ⟨S, hS, rfl⟩ := Outcome.gives_map.1 h
    obtain ⟨tokens, hpseudo, hrest⟩ := readPseudo_sound hS
    cases opening_sound hopening with
    | pseudo =>
      exact ⟨_, .predicate (.pseudo hpseudo), by rw [(Cursor.next?_eq_some hnext).1, hrest]; rfl⟩
  | case5 built cursor token after hnext hopening =>
    obtain ⟨S, hS, rfl⟩ := Outcome.gives_map.1 h
    obtain ⟨tokens, htest, hrest⟩ := readAttribute_sound hS
    cases opening_sound hopening with
    | «attribute» =>
      exact ⟨_, .predicate (.test htest), by rw [(Cursor.next?_eq_some hnext).1, hrest]; rfl⟩
  | case6 built cursor => exact absurd h Outcome.not_gives_error

theorem readTerm_of_next?_eq_none (h : cursor.next? = none) :
    readTerm built cursor = .error .unexpectedEnd none built cursor := by
  rw [readTerm]
  split
  · rfl
  · next hsome => exact absurd (h.symm.trans hsome) (by simp)

/-- A term is read as its first token opens it. -/
theorem readTerm_of_next?_eq_some {after : Cursor} {token : Token}
    (h : cursor.next? = some (token, after)) :
    readTerm built cursor =
      match token.opening built.isNone (after.remaining == 0) with
      | .ok (.whole term) => .ok term after
      | .ok (.operand combinator) =>
        (readTerm none after).map (Selector.combineOnto combinator built)
      | .ok .pseudo => (readPseudo built after).map (Selector.bothOnto built)
      | .ok .attribute => (readAttribute built after).map (Selector.bothOnto built)
      | .error kind => .error kind (some token) built after := by
  rw [readTerm]
  split
  · next hnone => exact absurd (h.symm.trans hnone) (by simp)
  · next hsome =>
    obtain ⟨rfl, rfl⟩ := Prod.mk.inj (Option.some.inj (h.symm.trans hsome))
    rfl

/-- A token that opens a term is read as that opening says. -/
theorem readTerm_eq_of_opens {token : Token} {opening : Opening} {tokens : List Token}
    (h : Opens built token opening) (hrest : cursor.rest = token :: tokens)
    (hlast : tokens = [] → ∃ term, opening = .whole term) :
    ∃ after, after.rest = tokens ∧ readTerm built cursor =
      match opening with
      | .whole term => .ok term after
      | .operand combinator => (readTerm none after).map (Selector.combineOnto combinator built)
      | .pseudo => (readPseudo built after).map (Selector.bothOnto built)
      | .attribute => (readAttribute built after).map (Selector.bothOnto built) := by
  obtain ⟨after, hnext, hafter⟩ := Cursor.exists_next?_of_rest hrest
  have hremaining : (after.remaining == 0) = true → ∃ term, opening = .whole term := by
    rw [← Cursor.length_rest, hafter]
    simpa using hlast
  refine ⟨after, hafter, ?_⟩
  rw [readTerm_of_next?_eq_some hnext, opening_complete h hremaining]
  cases opening <;> rfl

/-- **What is a term is read as such**, whatever follows it. -/
theorem readTerm_complete {tokens : List Token} {S : Selector} (h : IsTerm built tokens S)
    (hrest : cursor.rest = tokens ++ rest) : (readTerm built cursor).Gives S rest := by
  induction h generalizing cursor with
  | wildcard =>
    obtain ⟨after, hafter, hread⟩ := readTerm_eq_of_opens .wildcard hrest fun _ => ⟨_, rfl⟩
    rw [hread]
    exact Outcome.gives_ok.2 ⟨rfl, hafter⟩
  | identifier name =>
    obtain ⟨after, hafter, hread⟩ := readTerm_eq_of_opens (.identifier name) hrest fun _ => ⟨_, rfl⟩
    rw [hread]
    exact Outcome.gives_ok.2 ⟨rfl, hafter⟩
  | operand hc hterm ih =>
    obtain ⟨after, hafter, hread⟩ := readTerm_eq_of_opens (.operand _ hc) hrest fun h =>
      absurd (List.append_eq_nil_iff.1 h).1 hterm.ne_nil
    rw [hread]
    exact Outcome.gives_map.2 ⟨_, ih hafter, rfl⟩
  | predicate h =>
    cases h with
    | pseudo h =>
      obtain ⟨after, hafter, hread⟩ := readTerm_eq_of_opens (.pseudo _) hrest fun h' =>
        absurd (List.append_eq_nil_iff.1 h').1 h.ne_nil
      rw [hread]
      exact Outcome.gives_map.2 ⟨_, readPseudo_complete h hafter, rfl⟩
    | test h =>
      obtain ⟨after, hafter, hread⟩ := readTerm_eq_of_opens (.attribute _) hrest fun h' =>
        absurd (List.append_eq_nil_iff.1 h').1 h.ne_nil
      rw [hread]
      exact Outcome.gives_map.2 ⟨_, readAttribute_complete h hafter, rfl⟩

/-! ## Whole selectors -/

theorem readTerms_eq (built : Option Selector) (cursor : Cursor) :
    readTerms built cursor = if 0 < cursor.remaining then
      (readTerm built cursor).bind fun S after => readTerms (some S) after
    else .ok built cursor := by
  rw [readTerms]
  dsimp only
  generalize readTerm built cursor = outcome
  obtain ⟨result, after⟩ := outcome
  cases result <;> rfl

theorem Cursor.remaining_pos_iff : 0 < cursor.remaining ↔ cursor.rest ≠ [] := by
  rw [← Cursor.length_rest, List.length_pos_iff]

theorem Cursor.remaining_eq_zero_iff : cursor.remaining = 0 ↔ cursor.rest = [] := by
  rw [← Cursor.length_rest, List.length_eq_zero_iff]

/-- **What is read to the end is a row of terms.** -/
theorem readTerms_sound {result : Option Selector}
    (h : (readTerms built cursor).Gives result rest) :
    rest = [] ∧ IsTerms built cursor.rest result := by
  fun_induction readTerms built cursor with
  | case1 built cursor hpos outcome S hS ih =>
    obtain ⟨hrest, hterms⟩ := ih h
    obtain ⟨tokens, hterm, hfront⟩ := readTerm_sound ⟨hS, rfl⟩
    exact ⟨hrest, hfront ▸ .cons hterm hterms⟩
  | case2 built cursor hpos outcome e he => exact nomatch h.1
  | case3 built cursor hpos =>
    obtain ⟨rfl, rfl⟩ := Outcome.gives_ok.1 h
    have hrest : cursor.rest = [] := by simpa [Cursor.remaining_pos_iff] using hpos
    exact ⟨hrest, hrest ▸ .nil _⟩

/-- **A row of terms is read to the end.** -/
theorem readTerms_complete {result : Option Selector} (h : IsTerms built cursor.rest result) :
    (readTerms built cursor).Gives result [] := by
  generalize htokens : cursor.rest = tokens at h
  induction h generalizing cursor with
  | nil built =>
    rw [readTerms_eq, if_neg (by simp [Cursor.remaining_pos_iff, htokens])]
    exact Outcome.gives_ok.2 ⟨rfl, htokens⟩
  | cons hterm _ ih =>
    have hread := readTerm_complete hterm htokens
    rw [readTerms_eq, if_pos (by simp [Cursor.remaining_pos_iff, htokens, hterm.ne_nil])]
    exact Outcome.gives_bind.2 ⟨_, ⟨hread.1, rfl⟩, ih hread.2⟩

theorem parseTokens_eq_ok_iff {tokens : List Token} {result : Option Selector} :
    parseTokens tokens = .ok result ↔ IsTerms none tokens result := by
  constructor
  · intro h
    have hread : (Cursor.start tokens).parse.Gives result (Cursor.start tokens).parse.cursor.rest :=
      ⟨h, rfl⟩
    exact (readTerms_sound hread).2
  · intro h
    have hread : (Cursor.start tokens).parse.Gives result [] := readTerms_complete h
    exact hread.1

/-- **The parser accepts exactly the grammar and builds exactly its tree**: no tokens give no
selector, a row that the grammar derives gives its selector, and every other row an error. -/
theorem parseTokens_iff (tokens : List Token) :
    (parseTokens tokens = .ok none ↔ tokens = []) ∧
    (∀ S, parseTokens tokens = .ok (some S) ↔ Derives tokens S) ∧
    (tokens = [] ∨ (∃ S, Derives tokens S) ∨ ∃ e, parseTokens tokens = .error e) := by
  have hnone : parseTokens tokens = .ok none ↔ tokens = [] := by
    rw [parseTokens_eq_ok_iff, isTerms_none_iff]
    simp
  have hsome : ∀ S, parseTokens tokens = .ok (some S) ↔ Derives tokens S := fun S => by
    rw [parseTokens_eq_ok_iff, isTerms_none_iff]
    simp
  refine ⟨hnone, hsome, ?_⟩
  cases h : parseTokens tokens with
  | error e => exact .inr (.inr ⟨e, rfl⟩)
  | ok result =>
    cases result with
    | none => exact .inl (hnone.1 h)
    | some S => exact .inr (.inl ⟨S, (hsome S).1 h⟩)

end TreeQuery
