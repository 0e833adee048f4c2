import TreeQuery.Token.Basic

/-!
# Selector/Cursor — a place in a row of tokens

The parser reads tokens through a cursor: the whole row and the position of the next token.
Reading moves the position by one and never past the end.
-/

namespace TreeQuery

/-- **A row of tokens and the position of the next one.** -/
structure Cursor where
  tokens : List Token
  position : Nat
  deriving DecidableEq

namespace Cursor

/-- The cursor before the first token. -/
def start (tokens : List Token) : Cursor :=
  ⟨tokens, 0⟩

/-- The tokens that are left. -/
def rest (cursor : Cursor) : List Token :=
  cursor.tokens.drop cursor.position

/-- How many tokens are left. -/
def remaining (cursor : Cursor) : Nat :=
  cursor.tokens.length - cursor.position

/-- The next token and the cursor after it. -/
def next? (cursor : Cursor) : Option (Token × Cursor) :=
  cursor.tokens[cursor.position]?.map fun token => (token, ⟨cursor.tokens, cursor.position + 1⟩)

theorem length_rest (cursor : Cursor) : cursor.rest.length = cursor.remaining := by
  simp [rest, remaining]

theorem next?_eq_some {cursor after : Cursor} {token : Token}
    (h : cursor.next? = some (token, after)) :
    cursor.rest = token :: after.rest ∧ after.tokens = cursor.tokens ∧
      after.position = cursor.position + 1 := by
  simp only [next?, Option.map_eq_some_iff, Prod.mk.injEq] at h
  obtain ⟨_, ht, rfl, rfl⟩ := h
  obtain ⟨hlt, rfl⟩ := List.getElem?_eq_some_iff.1 ht
  exact ⟨List.drop_eq_getElem_cons hlt, rfl, rfl⟩

theorem next?_eq_none {cursor : Cursor} (h : cursor.next? = none) : cursor.rest = [] := by
  simpa [next?, rest] using h

/-- **Reading a token leaves one fewer.** -/
theorem remaining_of_next? {cursor after : Cursor} {token : Token}
    (h : cursor.next? = some (token, after)) : after.remaining + 1 = cursor.remaining := by
  rw [← length_rest, ← length_rest, (next?_eq_some h).1, List.length_cons]

end Cursor

end TreeQuery
