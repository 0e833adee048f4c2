import TreeQuery.Proofs.Document.Mirror
import TreeQuery.Proofs.Selector.Correspondence

/-!
# Proofs/Selector/Mirror — positions in a reversed document

The position `-1 - k` counts from one end of a sequence what `k` counts from the other
(`nthIn_reverse`).  So in the document with every array reversed it selects the images of what `k`
selects in the document itself, and `:first-child` those of what `:last-child` selects
(`nthChild_mirror`).
-/

open scoped List

namespace TreeQuery

/-! ## Positions in a reversed sequence -/

/-- The position counted from the other end is one of 64 bits. -/
theorem toInt_neg_one_sub (k : Int64) : (-1 - k).toInt = -1 - k.toInt := by
  have hleast := k.le_toInt
  have hgreatest := k.toInt_lt
  have hone : (-1 : Int64).toInt = -1 := rfl
  rw [Int64.toInt_sub, hone, Int.bmod_eq_of_le] <;> omega

theorem neg_one_sub_neg_one_sub (k : Int64) : -1 - (-1 - k) = k := by
  rw [← Int64.toInt_inj, toInt_neg_one_sub, toInt_neg_one_sub]
  omega

theorem placeOf_neg_one_sub (v : Int) (length : Nat) :
    placeOf (-1 - v) length = length - 1 - placeOf v length := by
  simp only [placeOf]
  split <;> split <;> omega

/-- **The item at `k` is the one at `-1 - k` in reverse.** -/
theorem nthIn_reverse {s : List Place} (hs : s.length < 2 ^ 63) (k : Int64) :
    nthIn (-1 - k) s.reverse = nthIn k s := by
  have hreverse : s.reverse.length < 2 ^ 63 := by rwa [List.length_reverse]
  refine Option.ext fun p => ?_
  rw [nthIn_eq_some_iff hreverse, nthIn_eq_some_iff hs, toInt_neg_one_sub, List.length_reverse,
    placeOf_neg_one_sub]
  -- the item at the index `i` of the one stands at `s.length - 1 - i` in the other
  refine and_congr_right fun _ => ⟨?_, ?_⟩
  · rintro ⟨i, hi, hplace⟩
    have hlt : i < s.length := List.length_reverse ▸ (List.getElem?_eq_some_iff.1 hi).1
    rw [List.getElem?_reverse hlt] at hi
    exact ⟨_, hi, by omega⟩
  · rintro ⟨i, hi, hplace⟩
    have hlt := (List.getElem?_eq_some_iff.1 hi).1
    have hindex : s.length - 1 - (s.length - 1 - i) = i := by omega
    refine ⟨s.length - 1 - i, ?_, by omega⟩
    rw [List.getElem?_reverse (by omega), hindex, hi]

/-! ## Positions in a reversed document -/

/-- What a position selects in a document. -/
def nthFound (k : Int64) (document : Json) : List Place :=
  (sequences (Place.root document)).filterMap (nthIn k)

theorem mem_nthFound_iff {k : Int64} {document : Json} {p : Place} :
    p ∈ nthFound k document ↔ ∃ s, Walked document s ∧ nthIn k s = some p := by
  simp only [nthFound, List.mem_filterMap, mem_sequences_iff]

theorem reached_of_mem_nthFound {k : Int64} {document : Json} {p : Place}
    (hp : p ∈ nthFound k document) : Reached document p := by
  obtain ⟨s, hs, hp⟩ := mem_nthFound_iff.1 hp
  exact hs.reached (mem_and_isNode_of_nthIn hp).1

section Mirror

variable {document : Json} (h : document.WellFormed) {k : Int64} {p : Place}

include h

theorem Json.WellFormed.mirror : document.mirror.WellFormed where
  distinctKeys := h.distinctKeys.mirror
  length_lt s hs := by
    have hs' := hs.mirrored h.distinctKeys.mirror
    rw [Json.mirror_mirror] at hs'
    simpa using h.length_lt _ hs'

/-- What a position selects, its counterpart selects the image of. -/
theorem mirrored_mem_nthFound (hp : p ∈ nthFound k document) :
    p.mirrored document ∈ nthFound (-1 - k) document.mirror := by
  obtain ⟨s, hs, hp⟩ := mem_nthFound_iff.1 hp
  have hlength : (s.map (Place.mirrored document)).length < 2 ^ 63 := by
    rw [List.length_map]
    exact h.length_lt s hs
  refine mem_nthFound_iff.2 ⟨_, hs.mirrored h.distinctKeys, ?_⟩
  rw [nthIn_reverse hlength, nthIn_map fun q _ => q.isNode_mirrored document, hp, Option.map_some]

/-- **A position selects a place if its counterpart selects the image.** -/
theorem mem_nthFound_iff_mirrored (hp : p.LiesIn document) :
    p ∈ nthFound k document ↔ p.mirrored document ∈ nthFound (-1 - k) document.mirror := by
  refine ⟨mirrored_mem_nthFound h, fun hmirrored => ?_⟩
  have hback := mirrored_mem_nthFound h.mirror hmirrored
  rwa [neg_one_sub_neg_one_sub, Json.mirror_mirror, hp.mirrored_mirrored] at hback

theorem liesIn_of_mem_nthFound (hp : p ∈ nthFound k document) : p.LiesIn document :=
  (reached_of_mem_nthFound hp).liesIn h.distinctKeys

theorem nodup_nthFound (k : Int64) : (nthFound k document).Nodup :=
  (nodup_flatten_sequences h.distinctKeys).of_map.sublist (filterMap_nthIn_sublist k _)

/-- **What the counterpart of a position selects are the images**, each once. -/
theorem map_mirrored_nthFound_perm (k : Int64) :
    (nthFound k document).map (Place.mirrored document) ~ nthFound (-1 - k) document.mirror := by
  have hinjective : ((nthFound k document).map (Place.mirrored document)).Nodup := by
    refine List.Nodup.map_on (fun p hp q hq hpq => ?_) (nodup_nthFound h k)
    rw [← (liesIn_of_mem_nthFound h hp).mirrored_mirrored, hpq,
      (liesIn_of_mem_nthFound h hq).mirrored_mirrored]
  refine (List.perm_ext_iff_of_nodup hinjective (nodup_nthFound h.mirror _)).2 fun q => ?_
  rw [List.mem_map]
  constructor
  · rintro ⟨p, hp, rfl⟩
    exact mirrored_mem_nthFound h hp
  · intro hq
    have himage := (liesIn_of_mem_nthFound h.mirror hq).mirrored_mirrored
    have hback := mirrored_mem_nthFound h.mirror hq
    rw [Json.mirror_mirror] at himage hback
    rw [neg_one_sub_neg_one_sub] at hback
    exact ⟨_, hback, himage⟩

end Mirror

namespace Selector

/-- **Positions in a document and in the reversed one.**  The image of every place is a place of the
reversed document, whose image is the place itself.  A position selects a place if `-1` less the
position selects its image there, which holds of positions and of the literals that denote them.
In particular, `:last-child` selects the images of what `:first-child` selects there. -/
theorem nthChild_mirror (document : Json) (h : document.WellFormed) :
    (∀ p : Place, p.LiesIn document → (p.mirrored document).LiesIn document.mirror ∧
      (p.mirrored document).mirrored document.mirror = p) ∧
    (∀ (k : Int64) (p : Place), p.LiesIn document →
      (p ∈ nthFound k document ↔ p.mirrored document ∈ nthFound (-1 - k) document.mirror)) ∧
    (∀ (literal counterpart : Literal) (k : Int64), literal.index? = some k →
      counterpart.index? = some (-1 - k) → ∀ p : Place, p.LiesIn document →
        (p ∈ (nthChild literal).find (Place.root document) ↔
          p.mirrored document ∈ (nthChild counterpart).find (Place.root document.mirror))) ∧
    lastChild.find (Place.root document) ~
      (firstChild.find (Place.root document.mirror)).map (Place.mirrored document.mirror) := by
  refine ⟨fun p hp => ⟨hp.image, hp.mirrored_mirrored⟩,
    fun k p hp => mem_nthFound_iff_mirrored h hp, ?_, ?_⟩
  · intro literal counterpart k hliteral hcounterpart p hp
    rw [nthChild_find_of_index? hliteral, nthChild_find_of_index? hcounterpart]
    exact mem_nthFound_iff_mirrored h hp
  · have hfirst : (Literal.number 0.0).index? = some 0 := by decide +kernel
    have hlast : (Literal.number (-1.0)).index? = some (-1 - 0) := by decide +kernel
    have himages := (map_mirrored_nthFound_perm h.mirror 0).symm
    rw [Json.mirror_mirror] at himages
    rw [lastChild, firstChild, nthChild_find_of_index? hlast, nthChild_find_of_index? hfirst]
    exact himages

/-- In the sample document the item at position `3` is the last of its row; its image, at position
`-4` in the reversed row, is the first. -/
theorem nthChild_mirror_sampleDocument :
    let last : Place := ⟨[.key "body", .index 3], .object [("type", .string "B")]⟩
    let first : Place := ⟨[.key "body", .index 0], .object [("type", .string "B")]⟩
    last.mirrored sampleDocument = first ∧ first.LiesIn sampleDocument.mirror ∧
    first.mirrored sampleDocument.mirror = last ∧
    last ∈ nthFound 3 sampleDocument ∧ first ∈ nthFound (-4) sampleDocument.mirror ∧
    (last ∈ (nthChild (.number 3)).find (Place.root sampleDocument) ↔
      first ∈ (nthChild (.number (-4))).find (Place.root sampleDocument.mirror)) ∧
    lastChild.find (Place.root sampleDocument) ~
      (firstChild.find (Place.root sampleDocument.mirror)).map
        (Place.mirrored sampleDocument.mirror) := by
  intro last first
  have hkeys : sampleDocument.DistinctKeys := by
    simp [sampleDocument, Json.DistinctKeys, Json.DistinctKeysEntries, Json.DistinctKeysItems]
  have hlength : (sequences (Place.root sampleDocument)).all (·.length < 2 ^ 63) = true := by rfl
  have hwellFormed : sampleDocument.WellFormed := ⟨hkeys, fun s hs => by
    simpa using List.all_eq_true.1 hlength s (mem_sequences_iff.2 hs)⟩
  have hlies : last.LiesIn sampleDocument := rfl
  have hlast : last ∈ nthFound 3 sampleDocument := List.mem_singleton.2 rfl
  have hindex : (Literal.number 3).index? = some 3 := by decide +kernel
  have hindex' : (Literal.number (-4)).index? = some (-1 - 3) := by decide +kernel
  obtain ⟨hplaces, hpositions, hliterals, himages⟩ := nthChild_mirror sampleDocument hwellFormed
  obtain ⟨hfirst, hback⟩ := hplaces last hlies
  exact ⟨rfl, hfirst, hback, hlast, (hpositions 3 last hlies).1 hlast,
    hliterals _ _ 3 hindex hindex' last hlies, himages⟩

end Selector

end TreeQuery
