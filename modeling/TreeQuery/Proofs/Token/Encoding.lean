import TreeQuery.Proofs.Json.Equality
import TreeQuery.Token.Encoding

/-!
# Proofs/Token/Encoding — the JSON form of a token determines the token

A token is read back from its JSON form (`Token.ofJson?_toJson`), and two tokens have equal JSON
forms exactly if they are equal (`Token.equals_toJson_iff`).  Both need that number tokens are
finite: every infinity and NaN has the same form.
-/

namespace TreeQuery.Token

/-- A token that is no infinity and not NaN. -/
def IsFinite : Token → Prop
  | .number x => x.isFinite = true
  | _ => True

/-- **Two tokens are equal**: two numbers that compare equal, or the same token of another class. -/
inductive Equals : Token → Token → Prop
  | number {x y : Float} (h : (x == y) = true) : Equals (.number x) (.number y)
  | same {token : Token} (h : ∀ x, token ≠ .number x) : Equals token token

variable {token other : Token}

/-- Class and content determine a token. -/
theorem ofContent?_content (h : token.IsFinite) :
    ofContent? token.className token.content = some token := by
  cases token with
  | number x =>
    rw [content, Json.ofFloat_of_isFinite h]
    rfl
  | _ => rfl

/-- **A token is read back from its JSON form.** -/
theorem ofJson?_toJson (h : token.IsFinite) : ofJson? token.toJson = some token := by
  simp [ofJson?, toJson, ofContent?_content h]

theorem className_eq_number_iff : token.className = "number" ↔ ∃ x, token = .number x := by
  cases token <;> simp [className]

/-- The content of a token is a text, unless the token is a number. -/
theorem exists_content_eq_string (h : ∀ x, token ≠ .number x) :
    ∃ text, token.content = .string text := by
  cases token with
  | number x => exact absurd rfl (h x)
  | _ => exact ⟨_, rfl⟩

/-- Equal JSON forms have the same class and equal contents. -/
theorem equals_toJson_iff_content : token.toJson.Equals other.toJson ↔
    token.className = other.className ∧ token.content.Equals other.content := by
  constructor
  · intro h
    exact ⟨(h.of_get? "type" rfl rfl).string_inj, h.of_get? "value" rfl rfl⟩
  · rintro ⟨hclass, hcontent⟩
    rw [toJson, toJson, hclass]
    exact Json.equals_object (.cons ⟨rfl, .string _⟩ (.cons ⟨rfl, hcontent⟩ .nil))

/-- **Tokens are equal if their JSON forms are.** -/
theorem equals_toJson_iff (h : token.IsFinite) (h' : other.IsFinite) :
    token.toJson.Equals other.toJson ↔ token.Equals other := by
  rw [equals_toJson_iff_content]
  constructor
  · rintro ⟨hclass, hcontent⟩
    by_cases hnumber : ∃ x, token = .number x
    · obtain ⟨y, rfl⟩ := className_eq_number_iff.1
        (hclass.symm.trans (className_eq_number_iff.2 hnumber))
      obtain ⟨x, rfl⟩ := hnumber
      exact .number ((Json.equals_ofFloat_iff h h').1 hcontent)
    · have hother : ¬ ∃ x, other = .number x := by
        rwa [← className_eq_number_iff, ← hclass, className_eq_number_iff]
      obtain ⟨text, htext⟩ := exists_content_eq_string (not_exists.1 hnumber)
      obtain ⟨text', htext'⟩ := exists_content_eq_string (not_exists.1 hother)
      rw [htext, htext'] at hcontent
      -- the same class and the same text are read as the same token
      have hsame : some token = some other := by
        rw [← ofContent?_content h, ← ofContent?_content h', hclass, htext, htext',
          hcontent.string_inj]
      obtain rfl := Option.some.inj hsame
      exact .same (not_exists.1 hnumber)
  · rintro (heq | hnumber)
    · exact ⟨rfl, (Json.equals_ofFloat_iff h h').2 heq⟩
    · obtain ⟨text, htext⟩ := exists_content_eq_string hnumber
      exact ⟨rfl, htext ▸ .string text⟩

/-! ## Rows of tokens -/

/-- **A row of tokens is read back from its JSON form.** -/
theorem listOfJson?_listToJson {tokens : List Token} (h : ∀ token ∈ tokens, token.IsFinite) :
    listOfJson? (listToJson tokens) = some tokens := by
  rw [listToJson, listOfJson?]
  induction tokens with
  | nil => rfl
  | cons token tokens ih =>
    obtain ⟨hfirst, hrest⟩ := List.forall_mem_cons.1 h
    rw [List.map_cons, List.mapM_cons, ofJson?_toJson hfirst, ih hrest]
    rfl

/-- **Rows of tokens are equal if their JSON forms are.** -/
theorem equals_listToJson_iff {tokens others : List Token} (h : ∀ token ∈ tokens, token.IsFinite)
    (h' : ∀ token ∈ others, token.IsFinite) :
    (listToJson tokens).Equals (listToJson others) ↔ List.Forall₂ Equals tokens others := by
  have hitems : (listToJson tokens).Equals (listToJson others) ↔
      List.Forall₂ Json.Equals (tokens.map toJson) (others.map toJson) :=
    ⟨fun | .array h => h, .array⟩
  rw [hitems, List.forall₂_map_left_iff, List.forall₂_map_right_iff, List.forall₂_iff_zip,
    List.forall₂_iff_zip]
  have hpair {token other : Token} (hmem : (token, other) ∈ tokens.zip others) :
      token.toJson.Equals other.toJson ↔ token.Equals other :=
    equals_toJson_iff (h _ (List.of_mem_zip hmem).1) (h' _ (List.of_mem_zip hmem).2)
  exact and_congr_right fun _ =>
    ⟨fun heq _ _ hmem => (hpair hmem).1 (heq hmem), fun heq _ _ hmem => (hpair hmem).2 (heq hmem)⟩

end TreeQuery.Token
