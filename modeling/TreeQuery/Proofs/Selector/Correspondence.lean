import TreeQuery.Proofs.Selector.Multiplicity
import TreeQuery.Proofs.Selector.Shape

/-!
# Proofs/Selector/Correspondence — what a map between documents keeps

`Embeds document larger f` says of a map `f` of places what a search can notice: held places, walked
sequences and what terms ask of a node are kept.  Then terms match alike at the items of sequences,
and `f` keeps the matches of every selector whose right operands are single terms
(`Embeds.mem_find`).  The sibling combinator is why that condition is there: with more to match on
the right, a larger document may hold a nearer match.

Where two documents embed in each other (`Corresponds`) there is no condition: every selector
matches alike (`Corresponds.mem_find_iff`) and as often (`Corresponds.count_locations`).
-/

open Relation

namespace TreeQuery

/-- **One document embeds in another** along a map of places: it keeps what values hold and the
walked sequences, item by item, and what terms ask of a value, and takes no two places to one. -/
structure Embeds (document larger : Json) (f : Place → Place) : Prop where
  reached {p : Place} (hp : Reached document p) : Reached larger (f p)
  holds {p q : Place} (hp : Reached document p) (h : p.Holds q) : (f p).Holds (f q)
  walked {s : List Place} (hs : Walked document s) : Walked larger (s.map f)
  injective {p q : Place} (hp : Reached document p) (hq : Reached document q) (h : f p = f q) :
    p = q
  kind?_eq {p : Place} (hp : Reached document p) : (f p).kind? = p.kind?
  passes_eq {p : Place} (hp : Reached document p) (name : String) (test : AttributeTest) :
    test.passes ((f p).value.resolve? name) = test.passes (p.value.resolve? name)

/-! ## Sequences -/

/-- A map of places takes the items of an array to those of another if it does so index by index. -/
theorem Place.map_items {f : Place → Place} {path path' : Path} {items items' : List Json}
    (hlength : items'.length = items.length)
    (h : ∀ (i : Nat) value value', items[i]? = some value → items'[i]? = some value' →
      f ⟨path ++ [.index i], value⟩ = ⟨path' ++ [.index i], value'⟩) :
    (⟨path, .array items⟩ : Place).items.map f = (⟨path', .array items'⟩ : Place).items := by
  rw [items_array, items_array]
  refine List.ext_getElem (by simp [hlength]) fun i hi hi' => ?_
  simp only [List.length_map, List.length_mapIdx] at hi hi'
  simp only [List.getElem_map, List.getElem_mapIdx]
  exact h i _ _ (List.getElem?_eq_getElem hi) (List.getElem?_eq_getElem hi')

/-- A position in a sequence does not look at its items, except whether they are nodes. -/
theorem nthIn_map {f : Place → Place} {k : Int64} {s : List Place}
    (h : ∀ p ∈ s, (f p).isNode = p.isNode) : nthIn k (s.map f) = (nthIn k s).map f := by
  simp only [nthIn, List.length_map, List.getElem?_map]
  generalize (if k < 0 then Int64.ofNat s.length + k else k) = i
  split
  · cases hp : s[i.toNatClampNeg]? with
    | none => rfl
    | some p =>
      have hnode := h p (List.mem_of_getElem? hp)
      by_cases hpnode : p.isNode <;> simp [Option.filter, hnode, hpnode]
  · rfl

/-- **A place stands in one walked sequence at most.** -/
theorem Walked.eq_of_mem {document : Json} (hkeys : document.DistinctKeys) {s t : List Place}
    {p : Place} (hs : Walked document s) (ht : Walked document t) (hps : p ∈ s) (hpt : p ∈ t) :
    s = t := by
  have hpairwise := (List.nodup_flatten.1 (nodup_flatten_sequences hkeys).of_map).2
  by_contra hne
  have hsymm : Std.Symm (List.Disjoint (α := Place)) := ⟨fun _ _ => List.Disjoint.symm⟩
  exact hpairwise.forall (mem_sequences_iff.2 hs) (mem_sequences_iff.2 ht) hne hps hpt

namespace Embeds

variable {document larger : Json} {f : Place → Place} (h : Embeds document larger f) {p : Place}
  {s : List Place} {S : Selector}

include h

theorem isNode_eq (hp : Reached document p) : (f p).isNode = p.isNode :=
  congrArg Option.isSome (h.kind?_eq hp)

theorem above {q : Place} (hp : Reached document p) (hpq : p.Above q) : (f p).Above (f q) := by
  induction hpq with
  | single hpq => exact .single (h.holds hp hpq)
  | tail hpq hqr ih => exact ih.tail (h.holds (hp.trans hpq.to_reflTransGen) hqr)

/-! ## Terms -/

/-- Terms that ask about a node alone match a node and its image alike. -/
theorem mem_find_iff_of_reached (hS : S.IsTerm) (hnth : ∀ literal, S ≠ .nthChild literal)
    (hp : Reached document p) :
    f p ∈ S.find (Place.root larger) ↔ p ∈ S.find (Place.root document) := by
  have hnodes : f p ∈ nodes (Place.root larger) ↔ p ∈ nodes (Place.root document) := by
    rw [mem_nodes_iff, mem_nodes_iff, h.isNode_eq hp, iff_true_intro hp,
      iff_true_intro (h.reached hp)]
  cases S with
  | wildcard => exact hnodes
  | identifier name => simp only [Selector.find, List.mem_filter, hnodes, h.kind?_eq hp]
  | «attribute» name test =>
    simp only [Selector.find, List.mem_filter, hnodes, h.passes_eq hp]
  | nthChild literal => exact absurd rfl (hnth literal)
  | combine | both => exact hS.elim

variable (hlarger : larger.DistinctKeys)

include hlarger

/-- At an item of a sequence, a position means the same before and after. -/
theorem mem_find_nthChild_iff (hs : Walked document s) (hp : p ∈ s) (literal : Literal) :
    f p ∈ (Selector.nthChild literal).find (Place.root larger) ↔
      p ∈ (Selector.nthChild literal).find (Place.root document) := by
  have hnode : ∀ {t}, Walked document t → ∀ q ∈ t, (f q).isNode = q.isNode := fun ht q hq =>
    h.isNode_eq (ht.reached hq)
  rw [Selector.mem_find_nthChild_iff, Selector.mem_find_nthChild_iff]
  refine exists_congr fun index => and_congr_right fun _ => ⟨?_, ?_⟩
  · rintro ⟨t, ht, hnth⟩
    obtain rfl : s.map f = t := (h.walked hs).eq_of_mem hlarger ht (List.mem_map_of_mem hp)
      (mem_and_isNode_of_nthIn hnth).1
    rw [nthIn_map (hnode hs)] at hnth
    obtain ⟨q, hq, hqp⟩ := Option.map_eq_some_iff.1 hnth
    have hqs := (mem_and_isNode_of_nthIn hq).1
    exact ⟨s, hs, h.injective (hs.reached hqs) (hs.reached hp) hqp ▸ hq⟩
  · rintro ⟨t, ht, hnth⟩
    exact ⟨t.map f, h.walked ht, by rw [nthIn_map (hnode ht), hnth]; rfl⟩

/-- **A term matches an item of a sequence and its image alike.** -/
theorem mem_find_iff_of_isTerm (hS : S.IsTerm) (hs : Walked document s) (hp : p ∈ s) :
    f p ∈ S.find (Place.root larger) ↔ p ∈ S.find (Place.root document) := by
  cases S with
  | nthChild literal => exact h.mem_find_nthChild_iff hlarger hs hp literal
  | _ => exact h.mem_find_iff_of_reached hS (by simp) (hs.reached hp)

variable (hkeys : document.DistinctKeys)

include hkeys

theorem mem_find_of_isTerm (hS : S.IsTerm) (hp : p ∈ S.find (Place.root document)) :
    f p ∈ S.find (Place.root larger) := by
  cases S with
  | nthChild literal =>
    obtain ⟨_, _, s, hs, hnth⟩ := Selector.mem_find_nthChild_iff.1 hp
    exact (h.mem_find_nthChild_iff hlarger hs (mem_and_isNode_of_nthIn hnth).1 literal).2 hp
  | _ =>
    exact (h.mem_find_iff_of_reached hS (by simp)
      (Selector.reachedNodes_find hkeys _ p hp).1).2 hp

/-! ## Combinators -/

omit hlarger hkeys in
/-- **What a combinator relates stays related**, if the images match on either side and, at the
items of sequences, none but the images of right matches match on the right. -/
theorem relates {left left' right right' : Place → Prop} {combinator : Combinator}
    (hleft : ∀ q, left q → Reached document q ∧ left' (f q)) (hright : ∀ q, right q → right' (f q))
    (hitem : ∀ s, Walked document s → ∀ q ∈ s, right' (f q) → right q)
    (hp : combinator.Relates document left right p) :
    combinator.Relates larger left' right' (f p) := by
  have hat : ∀ {s : List Place} {i : Nat} {q : Place}, s[i]? = some q →
      (s.map f)[i]? = some (f q) := fun hi => by rw [List.getElem?_map, hi, Option.map_some]
  cases combinator with
  | descendant =>
    obtain ⟨hp, q, hq, hqp⟩ := hp
    exact ⟨hright p hp, f q, (hleft q hq).2, h.above (hleft q hq).1 hqp⟩
  | child =>
    obtain ⟨hp, q, hq, hqp⟩ := hp
    exact ⟨hright p hp, f q, (hleft q hq).2, h.holds (hleft q hq).1 hqp⟩
  | sibling =>
    obtain ⟨hp, s, hs, i, j, q, hij, hi, hj, hq, hbetween⟩ := hp
    refine ⟨hright p hp, s.map f, h.walked hs, i, j, f q, hij, hat hi, hat hj, (hleft q hq).2, ?_⟩
    intro k r' hik hkj hr' hmatch
    rw [List.getElem?_map] at hr'
    obtain ⟨r, hr, rfl⟩ := Option.map_eq_some_iff.1 hr'
    exact hbetween k r hik hkj hr (hitem s hs r (List.mem_of_getElem? hr) hmatch)
  | adjacent =>
    obtain ⟨hp, s, hs, i, q, hi, hnext, hq⟩ := hp
    exact ⟨hright p hp, s.map f, h.walked hs, i, f q, hat hi, hat hnext, (hleft q hq).2⟩

theorem mem_find_combine {left right : Selector} {combinator : Combinator}
    (hleft : ∀ q ∈ left.find (Place.root document), f q ∈ left.find (Place.root larger))
    (hright : ∀ q ∈ right.find (Place.root document), f q ∈ right.find (Place.root larger))
    (hitem : ∀ s, Walked document s → ∀ q ∈ s, f q ∈ right.find (Place.root larger) →
      q ∈ right.find (Place.root document))
    (hp : p ∈ (Selector.combine combinator left right).find (Place.root document)) :
    f p ∈ (Selector.combine combinator left right).find (Place.root larger) := by
  have hp := (combinator.mem_relate_iff hkeys (left.reachedNodes_find hkeys)
    (right.reachedNodes_find hkeys)).1 hp
  refine (combinator.mem_relate_iff hlarger (left.reachedNodes_find hlarger)
    (right.reachedNodes_find hlarger)).2 (h.relates (fun q hq => ⟨?_, hleft q hq⟩) hright hitem hp)
  exact (left.reachedNodes_find hkeys q hq).1

theorem mem_find_both {left right : Selector}
    (hleft : ∀ q ∈ left.find (Place.root document), f q ∈ left.find (Place.root larger))
    (hright : ∀ q ∈ right.find (Place.root document), f q ∈ right.find (Place.root larger))
    (hp : p ∈ (Selector.both left right).find (Place.root document)) :
    f p ∈ (Selector.both left right).find (Place.root larger) := by
  obtain ⟨hp, hamong⟩ := List.mem_filter.1 hp
  have hreached := (left.reachedNodes_find hkeys p hp).1
  have hp' := (Place.among_iff hkeys (right.reachedNodes_find hkeys) hreached).1 hamong
  exact List.mem_filter.2 ⟨hleft p hp, (Place.among_iff hlarger (right.reachedNodes_find hlarger)
    (h.reached hreached)).2 (hright p hp')⟩

/-- **An embedding keeps the matches of selectors whose right operands are single terms.** -/
theorem mem_find (hS : S.SingleRight) (hp : p ∈ S.find (Place.root document)) :
    f p ∈ S.find (Place.root larger) := by
  induction S generalizing p with
  | combine combinator left right ihl _ =>
    obtain ⟨hleft, hterm⟩ := hS
    exact h.mem_find_combine hlarger hkeys (fun q hq => ihl hleft hq)
      (fun q hq => h.mem_find_of_isTerm hlarger hkeys hterm hq)
      (fun s hs q hq => (h.mem_find_iff_of_isTerm hlarger hterm hs hq).1) hp
  | both left right ihl _ =>
    obtain ⟨hleft, hpredicate⟩ := hS
    exact h.mem_find_both hlarger hkeys (fun q hq => ihl hleft hq)
      (fun q hq => h.mem_find_of_isTerm hlarger hkeys hpredicate.isTerm hq) hp
  | _ => exact h.mem_find_of_isTerm hlarger hkeys trivial hp

end Embeds

/-! ## Two documents that embed in each other -/

/-- **Two documents correspond**: each embeds in the other, and either map undoes the other. -/
structure Corresponds (document other : Json) (f g : Place → Place) : Prop where
  forth : Embeds document other f
  back : Embeds other document g
  back_forth {p : Place} (hp : Reached document p) : g (f p) = p
  forth_back {p : Place} (hp : Reached other p) : f (g p) = p

namespace Corresponds

variable {document other : Json} {f g : Place → Place} {p : Place} {S : Selector}

theorem symm (h : Corresponds document other f g) : Corresponds other document g f :=
  ⟨h.back, h.forth, h.forth_back, h.back_forth⟩

theorem mem_find (h : Corresponds document other f g) (hkeys : document.DistinctKeys)
    (hother : other.DistinctKeys) (hp : p ∈ S.find (Place.root document)) :
    f p ∈ S.find (Place.root other) := by
  induction S generalizing document other f g p with
  | combine combinator left right ihl ihr =>
    refine h.forth.mem_find_combine hother hkeys (fun q hq => ihl h hkeys hother hq)
      (fun q hq => ihr h hkeys hother hq) (fun s hs q hq hmatch => ?_) hp
    exact h.back_forth (hs.reached hq) ▸ ihr h.symm hother hkeys hmatch
  | both left right ihl ihr =>
    exact h.forth.mem_find_both hother hkeys (fun q hq => ihl h hkeys hother hq)
      (fun q hq => ihr h hkeys hother hq) hp
  | _ => exact h.forth.mem_find_of_isTerm hother hkeys trivial hp

variable (h : Corresponds document other f g) (hkeys : document.DistinctKeys)
  (hother : other.DistinctKeys)

include h hkeys hother

/-- **Every selector matches a place if and only if it matches its image.** -/
theorem mem_find_iff (hp : Reached document p) :
    f p ∈ S.find (Place.root other) ↔ p ∈ S.find (Place.root document) :=
  ⟨fun hmatch => h.back_forth hp ▸ h.symm.mem_find hother hkeys hmatch, h.mem_find hkeys hother⟩

/-- The starts of a sibling step that lead to an index are the same in a sequence and its image. -/
theorem siblingStarts_map {left right : Selector} {s : List Place} (hs : Walked document s)
    (j : Nat) :
    siblingStarts (· ∈ left.find (Place.root other)) (· ∈ right.find (Place.root other))
        (s.map f) j =
      siblingStarts (· ∈ left.find (Place.root document)) (· ∈ right.find (Place.root document))
        s j := by
  have hiff : ∀ (S : Selector) {k : Nat} {q : Place}, s[k]? = some q →
      (f q ∈ S.find (Place.root other) ↔ q ∈ S.find (Place.root document)) :=
    fun S _ _ hq => h.mem_find_iff hkeys hother (hs.reached (List.mem_of_getElem? hq))
  ext i
  simp only [siblingStarts, Set.mem_ofPred_eq, List.getElem?_map, Option.map_eq_some_iff]
  refine and_congr_right fun _ => and_congr ⟨?_, ?_⟩ ⟨?_, ?_⟩
  · rintro ⟨_, ⟨q, hq, rfl⟩, hmatch⟩
    exact ⟨q, hq, (hiff left hq).1 hmatch⟩
  · rintro ⟨q, hq, hmatch⟩
    exact ⟨f q, ⟨q, hq, rfl⟩, (hiff left hq).2 hmatch⟩
  · exact fun hbetween k r hik hkj hr hmatch =>
      hbetween k (f r) hik hkj ⟨r, hr, rfl⟩ ((hiff right hr).2 hmatch)
  · rintro hbetween k _ hik hkj ⟨r, hr, rfl⟩ hmatch
    exact hbetween k r hik hkj hr ((hiff right hr).1 hmatch)

/-- Where nothing is listed twice, a match and its image are both listed once. -/
theorem count_locations_of_stem (hstem : ∀ left right, S.stem ≠ .combine .sibling left right)
    (hp : p ∈ S.find (Place.root document)) :
    (S.locations other).count (f p).path = (S.locations document).count p.path := by
  rw [List.count_eq_one_of_mem (Selector.nodup_locations_of_stem hother S hstem)
      (List.mem_map_of_mem (h.mem_find hkeys hother hp)),
    List.count_eq_one_of_mem (Selector.nodup_locations_of_stem hkeys S hstem)
      (List.mem_map_of_mem hp)]

/-- **Every selector lists a match and its image equally often.** -/
theorem count_locations (hp : p ∈ S.find (Place.root document)) :
    (S.locations other).count (f p).path = (S.locations document).count p.path := by
  induction S with
  | both left right ihl _ =>
    obtain ⟨hleft, hamong⟩ := List.mem_filter.1 hp
    have hright := (Place.among_iff hkeys (right.reachedNodes_find hkeys)
      (left.reachedNodes_find hkeys p hleft).1).1 hamong
    rw [Selector.count_both document left right (List.mem_map_of_mem hright),
      Selector.count_both other left right
        (List.mem_map_of_mem (h.mem_find hkeys hother hright)), ihl hleft]
  | combine combinator left right _ _ =>
    cases combinator with
    | sibling =>
      obtain ⟨hright, s, hs, _, j, _, _, _, hj, _⟩ := (Combinator.sibling.mem_relate_iff hkeys
        (left.reachedNodes_find hkeys) (right.reachedNodes_find hkeys)).1 hp
      have hj' : (s.map f)[j]? = some (f p) := by rw [List.getElem?_map, hj, Option.map_some]
      rw [Selector.count_sibling hkeys left right hs hj hright,
        Selector.count_sibling hother left right (h.forth.walked hs) hj'
          (h.mem_find hkeys hother hright), h.siblingStarts_map hkeys hother hs]
    | _ => exact h.count_locations_of_stem hkeys hother (by simp [Selector.stem]) hp
  | _ => exact h.count_locations_of_stem hkeys hother (by simp [Selector.stem]) hp

end Corresponds

end TreeQuery
