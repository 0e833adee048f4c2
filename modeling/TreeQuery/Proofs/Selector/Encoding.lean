import TreeQuery.Proofs.Token.Encoding
import TreeQuery.Selector.Encoding

/-!
# Proofs/Selector/Encoding — the JSON form of a selector determines the selector

A selector is read back from its JSON form (`Selector.ofJson?_toJson`), and two selectors have equal
JSON forms exactly if they are equal (`Selector.equals_toJson_iff`).  The form is named under `type`,
and no two forms have the same name (`Selector.Form.name_injective`); what the form holds stands
under keys of its own.

Number literals have to be finite, because every infinity and NaN is written as `null`.  Together
with the like for tokens, this is `jsonForms_determine`.
-/

namespace TreeQuery

/-! ## Literals and tests -/

namespace Literal

variable {literal other : Literal}

/-- A literal that is no infinity and not NaN. -/
def IsFinite : Literal → Prop
  | .number x => x.isFinite = true
  | .string _ => True

/-- **Two literals are equal**: two numbers that compare equal, or the same text. -/
inductive Equals : Literal → Literal → Prop
  | number {x y : Float} (h : (x == y) = true) : Equals (.number x) (.number y)
  | string (text : String) : Equals (.string text) (.string text)

theorem ofJson?_toJson (h : literal.IsFinite) : ofJson? literal.toJson = some literal := by
  cases literal with
  | number x =>
    rw [toJson, Json.ofFloat_of_isFinite h]
    rfl
  | string text => rfl

theorem equals_toJson_iff (h : literal.IsFinite) (h' : other.IsFinite) :
    literal.toJson.Equals other.toJson ↔ literal.Equals other := by
  cases literal with
  | number x =>
    cases other with
    | number y =>
      exact (Json.equals_ofFloat_iff h h').trans ⟨.number, fun | .number heq => heq⟩
    | string text =>
      rw [toJson, Json.ofFloat_of_isFinite h]
      exact iff_of_false nofun nofun
  | string text =>
    cases other with
    | number y =>
      rw [toJson, toJson, Json.ofFloat_of_isFinite h']
      exact iff_of_false nofun nofun
    | string text' => exact ⟨fun heq => heq.string_inj ▸ .string text, fun | .string _ => .string text⟩

end Literal

namespace AttributeTest

variable {test other : AttributeTest}

/-- A test against a literal that is finite, or against none. -/
def IsFinite : AttributeTest → Prop
  | .present => True
  | .equal literal => literal.IsFinite

/-- **Two tests are equal**, up to equality of their literals. -/
inductive Equals : AttributeTest → AttributeTest → Prop
  | present : Equals .present .present
  | equal {literal other : Literal} (h : literal.Equals other) :
      Equals (.equal literal) (.equal other)

theorem ofJson?_toJson (h : test.IsFinite) : ofJson? test.toJson = some test := by
  cases test with
  | present => rfl
  | equal literal => simp [toJson, ofJson?, Literal.ofJson?_toJson h]

theorem equals_toJson_iff (h : test.IsFinite) (h' : other.IsFinite) :
    test.toJson.Equals other.toJson ↔ test.Equals other := by
  cases test with
  | present =>
    cases other with
    | present => exact ⟨fun _ => .present, fun _ => .string _⟩
    | equal _ => exact iff_of_false nofun nofun
  | equal literal =>
    cases other with
    | present => exact iff_of_false nofun nofun
    | equal other =>
      constructor
      · intro heq
        exact .equal ((Literal.equals_toJson_iff h h').1 (heq.of_get? "equal" rfl rfl))
      · rintro (_ | heq)
        exact Json.equals_object (.cons ⟨rfl, (Literal.equals_toJson_iff h h').2 heq⟩ .nil)

end AttributeTest

/-! ## Forms -/

namespace Selector

/-- **The form of a selector**, without what it holds. -/
inductive Form
  | wildcard
  | identifier
  | combine (combinator : Combinator)
  | both
  | nthChild
  | attribute

namespace Form

/-- The name of a form. -/
def name : Form → String
  | .wildcard => "wildcard"
  | .identifier => "identifier"
  | .combine combinator => combinator.name
  | .both => "and"
  | .nthChild => "nth-child"
  | .attribute => "attribute"

/-- The form of a given name. -/
def ofName? : String → Option Form
  | "wildcard" => some .wildcard
  | "identifier" => some .identifier
  | "and" => some .both
  | "nth-child" => some .nthChild
  | "attribute" => some .attribute
  | name => (Combinator.ofName? name).map .combine

theorem ofName?_name (form : Form) : ofName? form.name = some form := by
  cases form with
  | combine combinator => cases combinator <;> rfl
  | _ => rfl

/-- **No two forms have the same name.** -/
theorem name_injective : Function.Injective name := fun form other h =>
  Option.some.inj (by rw [← ofName?_name form, h, ofName?_name])

end Form

/-- The form of a selector. -/
def form : Selector → Form
  | .wildcard => .wildcard
  | .identifier _ => .identifier
  | .combine combinator _ _ => .combine combinator
  | .both _ _ => .both
  | .nthChild _ => .nthChild
  | .attribute _ _ => .attribute

theorem get?_type_toJson (S : Selector) : S.toJson.get? "type" = some (.string S.form.name) := by
  cases S <;> rfl

/-- Equal JSON forms are of selectors of one form. -/
theorem form_eq_of_equals {S T : Selector} (h : S.toJson.Equals T.toJson) : S.form = T.form :=
  Form.name_injective (h.of_get? "type" (get?_type_toJson S) (get?_type_toJson T)).string_inj

/-! ## Selectors -/

/-- A selector all of whose number literals are finite. -/
def IsFinite : Selector → Prop
  | .combine _ left right | .both left right => left.IsFinite ∧ right.IsFinite
  | .nthChild position => position.IsFinite
  | .attribute _ test => test.IsFinite
  | .wildcard | .identifier _ => True

/-- **Two selectors are equal**, up to equality of their literals. -/
inductive Equals : Selector → Selector → Prop
  | wildcard : Equals .wildcard .wildcard
  | identifier (name : String) : Equals (.identifier name) (.identifier name)
  | combine (combinator : Combinator) {left left' right right' : Selector}
      (hleft : Equals left left') (hright : Equals right right') :
      Equals (.combine combinator left right) (.combine combinator left' right')
  | both {left left' right right' : Selector} (hleft : Equals left left')
      (hright : Equals right right') : Equals (.both left right) (.both left' right')
  | nthChild {position position' : Literal} (h : position.Equals position') :
      Equals (.nthChild position) (.nthChild position')
  | attribute (name : String) {test test' : AttributeTest} (h : test.Equals test') :
      Equals (.attribute name test) (.attribute name test')

/-- **A selector is read back from its JSON form.** -/
theorem ofJson?_toJson {S : Selector} (h : S.IsFinite) : ofJson? S.toJson = some S := by
  induction S with
  | wildcard | identifier name => simp [toJson, ofJson?]
  | combine combinator left right ihl ihr =>
    rw [toJson, ofJson?]
    cases combinator <;>
      simp [Combinator.name, Combinator.ofName?, ihl h.1, ihr h.2]
  | both left right ihl ihr =>
    rw [toJson, ofJson?]
    simp [ihl h.1, ihr h.2]
  | nthChild position => simp [toJson, ofJson?, Literal.ofJson?_toJson h]
  | «attribute» name test => simp [toJson, ofJson?, AttributeTest.ofJson?_toJson h]

theorem equals_of_equals_toJson {S T : Selector} (hS : S.IsFinite) (hT : T.IsFinite)
    (h : S.toJson.Equals T.toJson) : S.Equals T := by
  have hform := form_eq_of_equals h
  induction S generalizing T with
  | wildcard =>
    cases T with
    | wildcard => exact .wildcard
    | _ => cases hform
  | identifier name =>
    cases T with
    | identifier name' =>
      obtain rfl := (h.of_get? "name" rfl rfl).string_inj
      exact .identifier name
    | _ => cases hform
  | combine combinator left right ihl ihr =>
    cases T with
    | combine combinator' left' right' =>
      obtain rfl := Form.combine.inj hform
      have hleft := h.of_get? "left" rfl rfl
      have hright := h.of_get? "right" rfl rfl
      exact .combine combinator (ihl hS.1 hT.1 hleft (form_eq_of_equals hleft))
        (ihr hS.2 hT.2 hright (form_eq_of_equals hright))
    | _ => cases hform
  | both left right ihl ihr =>
    cases T with
    | both left' right' =>
      have hleft := h.of_get? "left" rfl rfl
      have hright := h.of_get? "right" rfl rfl
      exact .both (ihl hS.1 hT.1 hleft (form_eq_of_equals hleft))
        (ihr hS.2 hT.2 hright (form_eq_of_equals hright))
    | _ => cases hform
  | nthChild position =>
    cases T with
    | nthChild position' =>
      exact .nthChild ((Literal.equals_toJson_iff hS hT).1 (h.of_get? "index" rfl rfl))
    | _ => cases hform
  | «attribute» name test =>
    cases T with
    | «attribute» name' test' =>
      obtain rfl := (h.of_get? "name" rfl rfl).string_inj
      have htest := h.of_get? "test" rfl rfl
      exact .attribute name ((AttributeTest.equals_toJson_iff hS hT).1 htest)
    | _ => cases hform

theorem Equals.toJson {S T : Selector} (h : S.Equals T) (hS : S.IsFinite) (hT : T.IsFinite) :
    S.toJson.Equals T.toJson := by
  have hobject (form : String) {key key' : String} {v v' w w' : Json} (hv : v.Equals v')
      (hw : w.Equals w') : (Json.object [("type", .string form), (key, v), (key', w)]).Equals
        (.object [("type", .string form), (key, v'), (key', w')]) :=
    Json.equals_object (.cons ⟨rfl, .string _⟩ (.cons ⟨rfl, hv⟩ (.cons ⟨rfl, hw⟩ .nil)))
  induction h with
  | wildcard => exact Json.equals_object (.cons ⟨rfl, .string _⟩ .nil)
  | identifier name =>
    exact Json.equals_object (.cons ⟨rfl, .string _⟩ (.cons ⟨rfl, .string _⟩ .nil))
  | combine combinator _ _ ihl ihr => exact hobject _ (ihl hS.1 hT.1) (ihr hS.2 hT.2)
  | both _ _ ihl ihr => exact hobject _ (ihl hS.1 hT.1) (ihr hS.2 hT.2)
  | nthChild h =>
    have hposition := (Literal.equals_toJson_iff hS hT).2 h
    exact Json.equals_object (.cons ⟨rfl, .string _⟩ (.cons ⟨rfl, hposition⟩ .nil))
  | «attribute» name h =>
    exact hobject _ (.string name) ((AttributeTest.equals_toJson_iff hS hT).2 h)

/-- **Selectors are equal if their JSON forms are.** -/
theorem equals_toJson_iff {S T : Selector} (hS : S.IsFinite) (hT : T.IsFinite) :
    S.toJson.Equals T.toJson ↔ S.Equals T :=
  ⟨equals_of_equals_toJson hS hT, fun h => h.toJson hS hT⟩

/-- The JSON form of a selector is an object, and so not that of no selector. -/
theorem exists_toJson_eq_object (S : Selector) : ∃ entries, S.toJson = .object entries := by
  cases S <;> exact ⟨_, rfl⟩

theorem optionOfJson?_optionToJson {S : Option Selector} (h : ∀ T ∈ S, T.IsFinite) :
    optionOfJson? (optionToJson S) = some S := by
  cases S with
  | none => rfl
  | some S =>
    obtain ⟨entries, hentries⟩ := S.exists_toJson_eq_object
    have hread := ofJson?_toJson (h S rfl)
    rw [optionToJson, hentries] at *
    rw [optionOfJson?, hread]
    · rfl
    · nofun

end Selector

/-- **The JSON form determines what was written.**  Selectors whose number literals are finite, and
rows of tokens whose numbers are finite, are read back from their JSON forms, and so is the absence
of a selector.  Hence what has the same form is the same; and forms that are equal as JSON values,
which compare floats as floats, are of selectors or tokens that are equal in the same sense. -/
theorem jsonForms_determine :
    (∀ S : Selector, S.IsFinite → Selector.ofJson? S.toJson = some S) ∧
    (∀ S : Option Selector, (∀ T ∈ S, T.IsFinite) →
      Selector.optionOfJson? (Selector.optionToJson S) = some S) ∧
    (∀ S T : Selector, S.IsFinite → T.IsFinite →
      (S.toJson = T.toJson → S = T) ∧ (S.toJson.Equals T.toJson ↔ S.Equals T)) ∧
    (∀ tokens : List Token, (∀ token ∈ tokens, token.IsFinite) →
      Token.listOfJson? (Token.listToJson tokens) = some tokens) ∧
    ∀ tokens others : List Token, (∀ token ∈ tokens, token.IsFinite) →
      (∀ token ∈ others, token.IsFinite) →
      (Token.listToJson tokens = Token.listToJson others → tokens = others) ∧
        ((Token.listToJson tokens).Equals (Token.listToJson others) ↔
          List.Forall₂ Token.Equals tokens others) := by
  refine ⟨fun S => Selector.ofJson?_toJson, fun S => Selector.optionOfJson?_optionToJson,
    fun S T hS hT => ⟨fun h => ?_, Selector.equals_toJson_iff hS hT⟩,
    fun tokens => Token.listOfJson?_listToJson,
    fun tokens others h h' => ⟨fun heq => ?_, Token.equals_listToJson_iff h h'⟩⟩
  · exact Option.some.inj (by rw [← Selector.ofJson?_toJson hS, h, Selector.ofJson?_toJson hT])
  · exact Option.some.inj
      (by rw [← Token.listOfJson?_listToJson h, heq, Token.listOfJson?_listToJson h'])

/-- The conjunction of a test against zero, with either sign, and a position. -/
def zeroTest (zero : Float) : Selector :=
  .both (.attribute "size" (.equal (.number zero))) (.nthChild (.number 2))

/-- Tests against zeros of either sign are read back with the sign, and are equal as their JSON
forms are. -/
theorem jsonForms_zeroTest :
    (zeroTest (-0.0)).IsFinite ∧
    Selector.ofJson? (zeroTest (-0.0)).toJson = some (zeroTest (-0.0)) ∧
    (zeroTest 0.0).toJson ≠ (zeroTest (-0.0)).toJson ∧
    (zeroTest 0.0).toJson.Equals (zeroTest (-0.0)).toJson ∧
    Token.listOfJson? (Token.listToJson [.wildcard, .keyword "*", .string "*", .number (-0.0)]) =
      some [.wildcard, .keyword "*", .string "*", .number (-0.0)] := by
  obtain ⟨hreads, -, hequal, hrow, -⟩ := jsonForms_determine
  have hzeros : (0.0 : Float).isFinite = true ∧ (-0.0 : Float).isFinite = true ∧
      (0.0 == (-0.0 : Float)) = true := by decide +kernel
  have htwo : (2 : Float).isFinite = true ∧ (2 == (2 : Float)) = true := by decide +kernel
  have hplus : (zeroTest 0.0).IsFinite := ⟨hzeros.1, htwo.1⟩
  have hminus : (zeroTest (-0.0)).IsFinite := ⟨hzeros.2.1, htwo.1⟩
  have hsign : zeroTest 0.0 ≠ zeroTest (-0.0) := by decide +kernel
  have hzero : (zeroTest 0.0).Equals (zeroTest (-0.0)) :=
    .both (.attribute _ (.equal (.number hzeros.2.2))) (.nthChild (.number htwo.2))
  have hrowFinite : ∀ token ∈ [Token.wildcard, .keyword "*", .string "*", .number (-0.0)],
      token.IsFinite := by
    simp [Token.IsFinite, hzeros.2.1]
  obtain ⟨hsame, hequals⟩ := hequal _ _ hplus hminus
  exact ⟨hminus, hreads _ hminus, fun h => hsign (hsame h), hequals.2 hzero, hrow _ hrowFinite⟩

/-- What is not finite cannot be told apart. -/
example : (Selector.nthChild (.number (1.0 / 0.0))).toJson =
    (Selector.nthChild (.number (0.0 / 0.0))).toJson := by
  rfl

end TreeQuery
