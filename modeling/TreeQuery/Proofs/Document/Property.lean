import Mathlib.Data.List.Forall2
import TreeQuery.Document.Place
import TreeQuery.Document.Property
import TreeQuery.Proofs.Text.Digits

/-!
# Proofs/Document/Property — where a property path leads

A property path is followed segment by segment, so following a path that is joined from two is
following one and then the other.  Its segments name the steps to a location (`Names`): a segment
names the property of that name, and a numeral names also a position.  A path leads to a value
exactly if its segments name the steps of a location of that value (`resolve?_eq_some_iff`); the
value decides which of the two a numeral means.

`resolve?_follows_locations` puts this together.
-/

namespace TreeQuery

/-! ## Segments -/

section Segments

variable {cs : List Char} {parts : List (List Char)}

theorem segments_eq_splitOn : ∀ cs : List Char, segments cs = cs.splitOn '.'
  | [] => rfl
  | c :: cs => by
    rw [segments, List.splitOn_cons_eq_if_modifyHead, segments_eq_splitOn cs]
    by_cases hpoint : c = '.'
    · simp [hpoint]
    · obtain ⟨segment, rest, hcs⟩ := List.exists_cons_of_ne_nil (List.splitOn_ne_nil '.' cs)
      simp [hpoint, hcs]

/-- A point ends a segment. -/
theorem segments_append_point (cs ds : List Char) :
    segments (cs ++ '.' :: ds) = segments cs ++ segments ds := by
  simp only [segments_eq_splitOn, List.splitOn_append_cons_self]

/-- Parts without points are the segments of what they make up. -/
theorem segments_intercalate (hne : parts ≠ []) (hparts : ∀ part ∈ parts, '.' ∉ part) :
    segments (['.'].intercalate parts) = parts := by
  rw [segments_eq_splitOn, List.splitOn_intercalate '.' hparts hne]

end Segments

/-! ## Numerals -/

section Numerals

variable {segment : List Char} {n : Nat}

/-- What a position is read from, once a sign is passed over. -/
theorem digitsValue?_eq_some_iff {digits : List Char} :
    (if digits.isEmpty || !digits.all Char.isDigit then none else some (Text.digitsValue digits)) =
      some n ↔ ∃ zeros, digits = List.replicate zeros '0' ++ Text.digitsOf n := by
  constructor
  · intro h
    obtain ⟨hdigits, hvalue⟩ := Option.ite_none_left_eq_some.1 h
    obtain ⟨hne, hall⟩ : digits ≠ [] ∧ ∀ c ∈ digits, c.isDigit = true := by simpa using hdigits
    exact (Text.digitsValue_eq_iff hne hall).1 (Option.some.inj hvalue)
  · intro h
    have hne : digits ≠ [] := by
      obtain ⟨zeros, rfl⟩ := h
      exact List.append_ne_nil_of_right_ne_nil _ Nat.toDigits_ne_nil
    have hall : ∀ c ∈ digits, c.isDigit = true := by
      obtain ⟨zeros, rfl⟩ := h
      exact fun c => Text.isDigit_of_mem_zeros_append
    rw [if_neg (by simpa [hne] using hall), (Text.digitsValue_eq_iff hne hall).2 h]

/-- **The segments with a position are the numerals**, and the position is the number denoted. -/
theorem position?_eq_some_iff : position? segment = some n ↔ Text.Denotes segment n := by
  unfold position?
  split
  · next digits =>
    refine digitsValue?_eq_some_iff.trans ?_
    constructor
    · rintro ⟨zeros, rfl⟩
      exact ⟨['+'], zeros, .inr rfl, rfl⟩
    · rintro ⟨_, zeros, rfl | rfl, h⟩
      · have hplus : '+' ∈ List.replicate zeros '0' ++ Text.digitsOf n := by
          rw [List.nil_append] at h
          simp [← h]
        exact absurd (Text.isDigit_of_mem_zeros_append hplus) (by decide)
      · exact ⟨zeros, (List.cons.inj h).2⟩
  · next hsign =>
    refine digitsValue?_eq_some_iff.trans ?_
    constructor
    · rintro ⟨zeros, rfl⟩
      exact ⟨[], zeros, .inl rfl, rfl⟩
    · rintro ⟨_, zeros, rfl | rfl, h⟩
      · exact ⟨zeros, h⟩
      · exact absurd h (hsign _)

end Numerals

/-! ## Steps -/

/-- **A segment names a step**: the property of that name, or the position that it denotes. -/
inductive Names : List Char → Step → Prop
  | key (segment : List Char) : Names segment (.key (String.ofList segment))
  | index {segment : List Char} {n : Nat} (h : Text.Denotes segment n) : Names segment (.index n)

/-- The text of a step: the name of a property, or a position in decimal. -/
def Step.text : Step → String
  | .key name => name
  | .index position => toString position

/-- **A location as a property path**: the texts of its steps, joined by points. -/
def Path.dotted (path : Path) : String :=
  ".".intercalate (path.map Step.text)

theorem names_text (step : Step) : Names step.text.toList step := by
  cases step with
  | key name =>
    have h := Names.key name.toList
    rwa [String.ofList_toList] at h
  | index position =>
    rw [Step.text, Nat.toString_eq_ofList_toDigits, String.toList_ofList]
    exact .index (Text.denotes_digitsOf position)

/-- The text of a step has no point, unless the name of a property has. -/
theorem point_not_mem_text {step : Step} (h : ∀ name, step = .key name → '.' ∉ name.toList) :
    '.' ∉ step.text.toList := by
  cases step with
  | key name => exact h name rfl
  | index position =>
    rw [Step.text, Nat.toString_eq_ofList_toDigits, String.toList_ofList]
    exact fun hpoint => absurd (Text.isDigit_of_mem_digitsOf hpoint) (by decide)

/-- **The segments of a location** are the texts of its steps. -/
theorem segments_dotted {path : Path} (hne : path ≠ [])
    (h : ∀ name, .key name ∈ path → '.' ∉ name.toList) :
    segments path.dotted.toList = path.map fun step => step.text.toList := by
  have hparts : path.dotted.toList = ['.'].intercalate (path.map fun step => step.text.toList) := by
    rw [Path.dotted, String.toList_intercalate, List.map_map]
    rfl
  rw [hparts, segments_intercalate (by simpa using hne)]
  intro part hpart
  obtain ⟨step, hstep, rfl⟩ := List.mem_map.1 hpart
  exact point_not_mem_text fun name hname => h name (hname ▸ hstep)

namespace Json

variable {v w : Json} {segment : List Char} {path : List (List Char)}

/-- **A segment leads on by a step that it names.** -/
theorem segment?_eq_some_iff :
    v.segment? segment = some w ↔ ∃ step, Names segment step ∧ v.step? step = some w := by
  constructor
  · intro h
    cases v with
    | object entries => exact ⟨_, .key segment, h⟩
    | array items =>
      obtain ⟨n, hn, hitem⟩ := Option.bind_eq_some_iff.1 h
      exact ⟨_, .index (position?_eq_some_iff.1 hn), hitem⟩
    | _ => cases h
  · rintro ⟨step, hnames, hstep⟩
    cases hnames with
    | key =>
      cases v with
      | object entries => exact hstep
      | _ => cases hstep
    | index hdenotes =>
      cases v with
      | array items => exact Option.bind_eq_some_iff.2 ⟨_, position?_eq_some_iff.2 hdenotes, hstep⟩
      | _ => cases hstep

/-- **A path leads to a value by the steps that its segments name.** -/
theorem foldlM_segment?_eq_some_iff : path.foldlM segment? v = some w ↔
    ∃ steps, List.Forall₂ Names path steps ∧ v.at? steps = some w := by
  induction path generalizing v with
  | nil =>
    constructor
    · exact fun h => ⟨[], .nil, h⟩
    · rintro ⟨_, ⟨⟩, h⟩
      exact h
  | cons segment path ih =>
    rw [List.foldlM_cons]
    constructor
    · intro h
      obtain ⟨next, hnext, hrest⟩ := Option.bind_eq_some_iff.1 h
      obtain ⟨step, hnames, hstep⟩ := segment?_eq_some_iff.1 hnext
      obtain ⟨steps, hsteps, hat⟩ := ih.1 hrest
      exact ⟨step :: steps, .cons hnames hsteps, Option.bind_eq_some_iff.2 ⟨next, hstep, hat⟩⟩
    · rintro ⟨_, _ | ⟨hnames, hsteps⟩, h⟩
      obtain ⟨next, hstep, hat⟩ := Option.bind_eq_some_iff.1 h
      exact Option.bind_eq_some_iff.2
        ⟨next, segment?_eq_some_iff.2 ⟨_, hnames, hstep⟩, ih.2 ⟨_, hsteps, hat⟩⟩

theorem resolve?_eq_some_iff {p : String} : v.resolve? p = some w ↔
    ∃ steps, List.Forall₂ Names (segments p.toList) steps ∧ v.at? steps = some w :=
  foldlM_segment?_eq_some_iff

/-- Following a joined path is following its parts in turn. -/
theorem resolve?_append (v : Json) (p q : String) :
    v.resolve? (p ++ "." ++ q) = (v.resolve? p).bind (·.resolve? q) := by
  have hsplit : (p ++ "." ++ q).toList = p.toList ++ '.' :: q.toList := by simp
  rw [resolve?, hsplit, segments_append_point]
  exact List.foldlM_append

/-- **Property paths follow locations.**  A joined path leads where its parts lead in turn.  To
every location but the root leads the path made of its steps, if no property in it has a point in
its name.  And where a path leads anywhere, it leads to a location with one step for each segment:
the property of that name, or the position that the segment denotes. -/
theorem resolve?_follows_locations (v : Json) :
    (∀ p q : String, v.resolve? (p ++ "." ++ q) = (v.resolve? p).bind (·.resolve? q)) ∧
    (∀ (path : Path) (w : Json), path ≠ [] → (∀ name, .key name ∈ path → '.' ∉ name.toList) →
      v.at? path = some w → v.resolve? path.dotted = some w) ∧
    ∀ (p : String) (w : Json), v.resolve? p = some w →
      ∃ path, v.at? path = some w ∧ path.length = (segments p.toList).length ∧
        List.Forall₂ Names (segments p.toList) path := by
  refine ⟨resolve?_append v, fun path w hne hpoints hat => ?_, fun p w h => ?_⟩
  · rw [resolve?_eq_some_iff, segments_dotted hne hpoints]
    exact ⟨path, List.forall₂_map_left_iff.2 (List.forall₂_same.2 fun _ _ => names_text _), hat⟩
  · obtain ⟨path, hnames, hat⟩ := resolve?_eq_some_iff.1 h
    exact ⟨path, hat, hnames.length_eq.symm, hnames⟩

/-- A property with a number for its name, over a list, over a property with an empty name. -/
def numbered : Json :=
  .object [("0", .array [.null, .object [("", .string "x")]])]

/-- The path `0.1.` is made of the steps to a text, and `0.+01.` leads to it as well. -/
theorem resolve?_numbered :
    numbered.at? [.key "0", .index 1, .key ""] = some (.string "x") ∧
    numbered.resolve? "0.1." = some (.string "x") ∧
    ∃ path, numbered.at? path = some (.string "x") ∧
      path.length = (segments "0.+01.".toList).length ∧
      List.Forall₂ Names (segments "0.+01.".toList) path := by
  obtain ⟨-, hreaches, hlies⟩ := resolve?_follows_locations numbered
  have hat : numbered.at? [.key "0", .index 1, .key ""] = some (.string "x") := rfl
  have hpoints : ∀ name, .key name ∈ [Step.key "0", .index 1, .key ""] → '.' ∉ name.toList := by
    simp
  have hzeros : numbered.resolve? "0.+01." = some (.string "x") := rfl
  exact ⟨hat, hreaches _ _ (List.cons_ne_nil _ _) hpoints hat, hlies _ _ hzeros⟩

end Json

end TreeQuery
