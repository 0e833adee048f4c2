import TreeQuery.Proofs.Selector.Agreement
import TreeQuery.Proofs.Token.Respaced

/-!
# Proofs/Selector/Respaced — which blanks a text has makes no difference

Texts that are the same up to blanks have the same tokens up to blanks, and before such tokens the
readers agree.  So both texts denote the same selector, or both are refused for the same reason
(`parse_of_sameUpToBlanks`).
-/

namespace TreeQuery

/-- **Which blanks a text has makes no difference.**  Let two texts be the same up to the blanks at
their ends and up to the blanks in each run outside of quoted texts.  They have as many tokens, and
these are the same one by one, except that blank operators may hold another blank; and both denote
the same selector, or both are refused with the same kind of error and the same selector built so
far. -/
theorem parse_of_sameUpToBlanks (text other : String)
    (h : Text.SameUpToBlanks text.toList other.toList) :
    List.Forall₂ Token.Alike (tokenize text) (tokenize other) ∧
    ((∃ S, parse text = .ok S ∧ parse other = .ok S) ∨
      ∃ e e', parse text = .error e ∧ parse other = .error e' ∧ e.AgreesUpTo Token.Alike e') := by
  have htokens := alike_tokenize h
  have hrest : List.Forall₂ Token.Alike (Cursor.start (tokenize text)).rest
      (Cursor.start (tokenize other)).rest := htokens
  exact ⟨htokens, (Cursor.agreesUpTo_parse id hrest).result⟩

/-- Between `a  > b [c="x  y"] ` and a text with tabs and line feeds in their place: the blanks
around `>` and in front of `[` go with these, those at the ends are trimmed, and the two in the
quoted text stay. -/
theorem parse_of_sameUpToBlanks_quotedBlanks :
    Text.SameUpToBlanks "a  > b [c=\"x  y\"] ".toList "\ta >\n\nb\t[c=\"x  y\"]".toList ∧
    List.Forall₂ Token.Alike (tokenize "a  > b [c=\"x  y\"] ")
      (tokenize "\ta >\n\nb\t[c=\"x  y\"]") ∧
    parse "\ta >\n\nb\t[c=\"x  y\"]" = .ok (some (.both
      (.combine .child (.identifier "a") (.identifier "b"))
      (.attribute "c" (.equal (.string "x  y"))))) := by
  have hrun {blanks : List Char} (hne : blanks.isEmpty = false)
      (hall : blanks.all Text.isBlank = true) : Text.IsBlankRun blanks :=
    ⟨by simpa using hne, List.all_eq_true.1 hall⟩
  have hcore : Text.Respaced "a  > b [c=\"x  y\"]".toList "a >\n\nb\t[c=\"x  y\"]".toList :=
    .char rfl (by decide) <|
    @Text.Respaced.blanks [' ', ' '] [' '] _ _ (hrun rfl rfl) (hrun rfl rfl) <|
    .char rfl (by decide) <|
    @Text.Respaced.blanks [' '] ['\n', '\n'] _ _ (hrun rfl rfl) (hrun rfl rfl) <|
    .char rfl (by decide) <|
    @Text.Respaced.blanks [' '] ['\t'] _ _ (hrun rfl rfl) (hrun rfl rfl) <|
    .refl _
  have hsame : Text.SameUpToBlanks "a  > b [c=\"x  y\"] ".toList
      "\ta >\n\nb\t[c=\"x  y\"]".toList :=
    ⟨[], _, [' '], ['\t'], _, [], rfl, rfl, hcore, by simp [Text.isBlank]⟩
  have hparse : parse "a  > b [c=\"x  y\"] " = .ok (some (.both
      (.combine .child (.identifier "a") (.identifier "b"))
      (.attribute "c" (.equal (.string "x  y"))))) := by decide +kernel
  obtain ⟨htokens, ⟨S, hS, hS'⟩ | ⟨e, _, he, _⟩⟩ := parse_of_sameUpToBlanks _ _ hsame
  · exact ⟨hsame, htokens, by rw [hS', ← hS, hparse]⟩
  · exact absurd (he.symm.trans hparse) (by simp)

end TreeQuery
