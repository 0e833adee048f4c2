import TreeQuery.Selector.Match

/-!
# Proofs/Selector/Sequence — what the sibling and adjacent steps pick in one sequence

Both steps are read by index.  `siblingsIn` lists, index by index, the nearest later right match of
each left match (`siblingsIn_eq`), so that membership and number of a place in it are questions
about indices; `adjacentIn` lists some of the sequence, in order and without its first item.
-/

open scoped List

namespace TreeQuery.Combinator

variable {left right s : List Place} {p : Place}

/-- The nearest right match after the index of a left match; nothing after any other index. -/
def nearestAfter (left right s : List Place) (i : Nat) : Option Place :=
  if s[i]?.any (Place.among left) then (s.drop (i + 1)).find? (Place.among right) else none

/-- **The sibling step, index by index.** -/
theorem siblingsIn_eq : ∀ s : List Place,
    siblingsIn left right s = (List.range s.length).filterMap (nearestAfter left right s)
  | [] => rfl
  | item :: later => by
    have hlater : (nearestAfter left right (item :: later)) ∘ Nat.succ =
        nearestAfter left right later := by
      ext1 i
      simp [nearestAfter]
    rw [siblingsIn, siblingsIn_eq later, List.length_cons, List.range_succ_eq_map,
      List.filterMap_cons, List.filterMap_map, hlater]
    by_cases h : item.among left
    · cases hfind : later.find? (Place.among right) <;> simp [nearestAfter, h, hfind]
    · simp [nearestAfter, h]

/-- The first item that passes is the one before which none passes. -/
theorem find?_eq_some_iff_getElem? {f : Place → Bool} {l : List Place} :
    l.find? f = some p ↔ f p = true ∧ ∃ j : Nat, l[j]? = some p ∧
      ∀ k r, k < j → l[k]? = some r → ¬ f r = true := by
  rw [List.find?_eq_some_iff_getElem]
  refine and_congr_right fun _ => ⟨?_, ?_⟩
  · rintro ⟨j, hj, rfl, hbefore⟩
    refine ⟨j, List.getElem?_eq_getElem hj, fun k r hk hr => ?_⟩
    obtain ⟨_, rfl⟩ := List.getElem?_eq_some_iff.1 hr
    simpa using hbefore k hk
  · rintro ⟨j, hp, hbefore⟩
    obtain ⟨hj, rfl⟩ := List.getElem?_eq_some_iff.1 hp
    exact ⟨j, hj, rfl, fun k hk => by simpa using hbefore k _ hk (List.getElem?_eq_getElem _)⟩

/-- **The nearest match after an index**, in terms of indices. -/
theorem nearestAfter_eq_some_iff {i : Nat} : nearestAfter left right s i = some p ↔
    p.among right = true ∧ ∃ q, s[i]? = some q ∧ q.among left = true ∧ ∃ j, i < j ∧ s[j]? = some p ∧
      ∀ k r, i < k → k < j → s[k]? = some r → ¬ r.among right = true := by
  rw [nearestAfter, Option.ite_none_right_eq_some, find?_eq_some_iff_getElem?, Option.any_eq_true]
  constructor
  · rintro ⟨⟨q, hq, hleft⟩, hp, j, hj, hbefore⟩
    refine ⟨hp, q, hq, hleft, i + 1 + j, by omega, by rwa [List.getElem?_drop] at hj, ?_⟩
    intro k r hik hkj hr
    refine hbefore (k - (i + 1)) r (by omega) ?_
    rwa [List.getElem?_drop, Nat.add_sub_cancel' hik]
  · rintro ⟨hp, q, hq, hleft, j, hij, hj, hbefore⟩
    refine ⟨⟨q, hq, hleft⟩, hp, j - (i + 1), ?_, fun k r hk hr => ?_⟩
    · rwa [List.getElem?_drop, Nat.add_sub_cancel' hij]
    · rw [List.getElem?_drop] at hr
      exact hbefore _ r (by omega) (by omega) hr

theorem mem_siblingsIn_iff : p ∈ siblingsIn left right s ↔
    ∃ i, nearestAfter left right s i = some p := by
  rw [siblingsIn_eq, List.mem_filterMap]
  refine exists_congr fun i => and_iff_right_of_imp fun h => ?_
  obtain ⟨_, q, hq, _⟩ := nearestAfter_eq_some_iff.1 h
  exact List.mem_range.2 (List.getElem?_eq_some_iff.1 hq).1

/-! ## The adjacent step -/

theorem mem_adjacentIn_iff : ∀ {s : List Place}, p ∈ adjacentIn left right s ↔
    p.among right = true ∧ ∃ i q, s[i]? = some q ∧ s[i + 1]? = some p ∧ q.among left = true
  | [] => by simp [adjacentIn]
  | [_] => by simp [adjacentIn]
  | item :: next :: later => by
    rw [adjacentIn, List.mem_append, mem_adjacentIn_iff]
    constructor
    · rintro (h | ⟨hp, i, q, hi, hnext, hq⟩)
      · obtain ⟨hcond, hp⟩ := List.mem_ite_nil_right.1 h
        obtain rfl := List.mem_singleton.1 hp
        obtain ⟨hitem, hp⟩ := Bool.and_eq_true_iff.1 hcond
        exact ⟨hp, 0, item, rfl, rfl, hitem⟩
      · exact ⟨hp, i + 1, q, hi, hnext, hq⟩
    · rintro ⟨hp, i, q, hi, hnext, hq⟩
      cases i with
      | zero =>
        obtain rfl : item = q := Option.some.inj hi
        obtain rfl : next = p := Option.some.inj hnext
        exact .inl (by simp [hp, hq])
      | succ i => exact .inr ⟨hp, i, q, hi, hnext, hq⟩

/-- The adjacent step picks items of the sequence, each once. -/
theorem adjacentIn_sublist : ∀ s : List Place, adjacentIn left right s <+ s.tail
  | [] => .slnil
  | [_] => .slnil
  | item :: next :: later => by
    have ih := adjacentIn_sublist (next :: later)
    rw [adjacentIn, List.tail_cons]
    split
    · exact ih.cons_cons next
    · exact ih.cons next

end TreeQuery.Combinator
