import TreeQuery.Document.Property
import TreeQuery.Proofs.Document.Reach
import TreeQuery.Proofs.Json.Edit
import TreeQuery.Selector.Match

/-!
# Proofs/Document/Refill — other items in an array

`Json.RefilledAt q` puts other items into the array at the path `q` and leaves the rest of a
document as it is.  Two things do not notice:

* the walk outside of the array: it reaches places at the same paths (`Reached.exists_refilled`);
* a property path without positions: it leads through objects only (`Json.objects_of_foldlM`), so it
  sees that there is an array and nothing of its items (`Json.Refilled.passes_eq`).
-/

open Relation

namespace TreeQuery

namespace Json

/-- **Other items in one array**: the array at a path is exchanged for another array. -/
inductive RefilledAt : Path → Json → Json → Prop
  | array (items items' : List Json) : RefilledAt [] (.array items) (.array items')
  | item (before after : List Json) {q : Path} {value value' : Json}
      (h : RefilledAt q value value') :
      RefilledAt (.index before.length :: q) (.array (before ++ value :: after))
        (.array (before ++ value' :: after))
  | entry (before after : Entries) {key : String} {q : Path} {value value' : Json}
      (h : RefilledAt q value value') :
      RefilledAt (.key key :: q) (.object (before ++ (key, value) :: after))
        (.object (before ++ (key, value') :: after))

namespace RefilledAt

variable {q : Path} {value value' : Json}

theorem symm (h : RefilledAt q value value') : RefilledAt q value' value := by
  induction h with
  | array items items' => exact .array items' items
  | item before after _ ih => exact .item before after ih
  | entry before after _ ih => exact .entry before after ih

/-- A refilled value is a container, before and after. -/
theorem ne_string (h : RefilledAt q value value') (text : String) : value ≠ .string text := by
  cases h <;> simp

/-- **New items leave the kind of a value as it is.** -/
theorem kind?_eq (h : RefilledAt q value value') : value'.kind? = value.kind? := by
  cases h with
  | array | item => rfl
  | entry before after h => exact kind?_object_replace before after h.ne_string h.symm.ne_string

/-- An array that is not itself refilled keeps its items, but for the one that leads to the refilled
array. -/
theorem exists_getElem? {items : List Json} {i : Nat} {v : Json}
    (h : RefilledAt q (.array items) value') (hq : q ≠ []) (hi : items[i]? = some v) :
    ∃ items' v', value' = .array items' ∧ items'[i]? = some v' ∧
      (v' = v ∨ ∃ rest, q = .index i :: rest ∧ RefilledAt rest v v') := by
  cases h with
  | array => exact absurd rfl hq
  | @item before after rest value value' h =>
    by_cases hlength : before.length = i
    · subst hlength
      obtain rfl : value = v := by simpa using hi
      exact ⟨_, value', rfl, by simp, .inr ⟨_, rfl, h⟩⟩
    · have hset :
          before ++ value' :: after = (before ++ value :: after).set before.length value' := by simp
      exact ⟨_, v, rfl, by rw [hset, List.getElem?_set_ne hlength, hi], .inl rfl⟩

/-- An object keeps its entries, but for the one that leads to the refilled array. -/
theorem exists_mem {entries : Entries} {key : String} {v : Json}
    (h : RefilledAt q (.object entries) value') (hentry : (key, v) ∈ entries) :
    ∃ entries' v', value' = .object entries' ∧ (key, v') ∈ entries' ∧
      (v' = v ∨ ∃ rest, q = .key key :: rest ∧ RefilledAt rest v v') := by
  cases h with
  | @entry before after key' rest value value' h =>
    rcases List.mem_append.1 hentry with hbefore | hentry
    · exact ⟨_, v, rfl, List.mem_append_left _ hbefore, .inl rfl⟩
    rcases List.mem_cons.1 hentry with hpair | hafter
    · obtain ⟨rfl, rfl⟩ := Prod.mk.inj hpair
      exact ⟨_, value', rfl, by simp, .inr ⟨_, rfl, h⟩⟩
    · exact ⟨_, v, rfl, List.mem_append_right _ (List.mem_cons_of_mem _ hafter), .inl rfl⟩

end RefilledAt

end Json

/-! ## The walk outside of the array -/

/-- **A place before and after one array is refilled**: its path is the same, and so is its value
unless the array lies at it or below. -/
structure Place.RefilledAt (q : Path) (p p' : Place) : Prop where
  path_eq : p'.path = p.path
  value : p'.value = p.value ∨ ∃ rest, q = p.path ++ rest ∧ p.value.RefilledAt rest p'.value

section Walk

variable {q : Path} {p p' r : Place} {document other : Json}

theorem Place.RefilledAt.kind?_eq (h : p.RefilledAt q p') : p'.kind? = p.kind? := by
  rcases h.value with heq | ⟨_, _, hvalue⟩
  · exact congrArg Json.kind? heq
  · exact hvalue.kind?_eq

theorem Place.RefilledAt.isNode_eq (h : p.RefilledAt q p') : p'.isNode = p.isNode :=
  congrArg Option.isSome h.kind?_eq

/-- A value lies further on than what holds it. -/
theorem Place.Holds.path_le (h : p.Holds r) : p.path <+: r.path := by
  cases h with
  | propertyItem => exact ⟨_, (List.append_assoc ..).symm⟩
  | _ => exact ⟨_, rfl⟩

/-- An item outside of the refilled array has a counterpart at the same position. -/
theorem Place.RefilledAt.exists_item {path : Path} {items : List Json} {value' v : Json} {i : Nat}
    (h : RefilledAt q ⟨path, .array items⟩ ⟨path, value'⟩) (hi : items[i]? = some v)
    (hout : ¬ q <+: path ++ [.index i]) :
    ∃ items' v', value' = .array items' ∧ items'[i]? = some v' ∧
      RefilledAt q ⟨path ++ [.index i], v⟩ ⟨path ++ [.index i], v'⟩ := by
  rcases h.value with rfl | ⟨rest, rfl, hvalue⟩
  · exact ⟨items, v, rfl, hi, rfl, .inl rfl⟩
  have hne : rest ≠ [] := by
    rintro rfl
    exact hout ⟨[.index i], by simp⟩
  obtain ⟨items', v', hitems', hi', hv'⟩ := hvalue.exists_getElem? hne hi
  refine ⟨items', v', hitems', hi', rfl, hv'.imp_right ?_⟩
  rintro ⟨rest, rfl, hitem⟩
  exact ⟨rest, by simp, hitem⟩

/-- An entry has a counterpart under the same key. -/
theorem Place.RefilledAt.exists_entry {path : Path} {entries : Entries} {key : String}
    {value' v : Json} (h : RefilledAt q ⟨path, .object entries⟩ ⟨path, value'⟩)
    (hentry : (key, v) ∈ entries) :
    ∃ entries' v', value' = .object entries' ∧ (key, v') ∈ entries' ∧
      RefilledAt q ⟨path ++ [.key key], v⟩ ⟨path ++ [.key key], v'⟩ := by
  rcases h.value with rfl | ⟨rest, rfl, hvalue⟩
  · exact ⟨entries, v, rfl, hentry, rfl, .inl rfl⟩
  obtain ⟨entries', v', hentries', hentry', hv'⟩ := hvalue.exists_mem hentry
  refine ⟨entries', v', hentries', hentry', rfl, hv'.imp_right ?_⟩
  rintro ⟨rest, rfl, hchild⟩
  exact ⟨rest, by simp, hchild⟩

/-- **What a place holds outside of the array, it holds after the array is refilled.** -/
theorem Place.RefilledAt.exists_holds (h : p.RefilledAt q p') (hr : p.Holds r)
    (hout : ¬ q <+: r.path) : ∃ r', p'.Holds r' ∧ r.RefilledAt q r' := by
  obtain ⟨path, value'⟩ := p'
  obtain rfl : path = p.path := h.path_eq
  cases hr with
  | item hi =>
    obtain ⟨items', v', rfl, hi', hitem⟩ := h.exists_item hi hout
    exact ⟨_, .item hi', hitem⟩
  | node hentry hnode =>
    obtain ⟨entries', v', rfl, hentry', hchild⟩ := h.exists_entry hentry
    exact ⟨_, .node hentry' (hchild.isNode_eq.trans hnode), hchild⟩
  | propertyItem hentry hi =>
    obtain ⟨entries', _, rfl, hentry', harray⟩ := h.exists_entry hentry
    obtain ⟨items', v', rfl, hi', hitem⟩ := harray.exists_item hi hout
    exact ⟨_, .propertyItem hentry' hi', hitem⟩

/-- **What is reached outside of the array is reached after the array is refilled.** -/
theorem Reached.exists_refilled (h : document.RefilledAt q other) (hp : Reached document p)
    (hout : ¬ q <+: p.path) : ∃ p', Reached other p' ∧ p.RefilledAt q p' := by
  induction hp with
  | refl => exact ⟨_, .root other, rfl, .inr ⟨q, rfl, h⟩⟩
  | tail _ hstep ih =>
    obtain ⟨p', hp', hrefilled⟩ := ih fun hq => hout (hq.trans hstep.path_le)
    obtain ⟨r', hr', hrefilled'⟩ := hrefilled.exists_holds hstep hout
    exact ⟨r', hp'.tail hr', hrefilled'⟩

end Walk

/-! ## Property paths without positions -/

section Property

variable {segment cs : List Char} {path : List (List Char)} {name : String} {v v' w : Json}

/-- **A property path names no position**: no segment of it is a number. -/
def NamesNoPosition (name : String) : Prop :=
  ∀ segment ∈ segments name.toList, position? segment = none

theorem position?_eq_none (h : ∀ c ∈ segment, c.isDigit = false) : position? segment = none := by
  have hdigits {digits : List Char} (h : ∀ c ∈ digits, c.isDigit = false) :
      digits.isEmpty || !digits.all Char.isDigit := by
    cases digits with
    | nil => rfl
    | cons c digits => simp [h c List.mem_cons_self]
  unfold position?
  split
  · exact if_pos (hdigits fun c hc => h c (List.mem_cons_of_mem _ hc))
  · exact if_pos (hdigits h)

theorem subset_of_mem_segments : ∀ {cs segment : List Char}, segment ∈ segments cs → segment ⊆ cs
  | [], _, h => by
    obtain rfl := List.mem_singleton.1 h
    exact List.nil_subset _
  | c :: cs, _, h => by
    rw [segments] at h
    split at h
    · rcases List.mem_cons.1 h with rfl | h
      · exact List.nil_subset _
      · exact List.Subset.trans (subset_of_mem_segments h) (List.subset_cons_self c cs)
    split at h
    · obtain rfl := List.mem_singleton.1 h
      exact List.cons_subset_cons c (List.nil_subset cs)
    · next first rest hcs =>
      have hsubset {segment : List Char} (h : segment ∈ first :: rest) : segment ⊆ cs := by
        rw [← hcs] at h
        exact subset_of_mem_segments h
      rcases List.mem_cons.1 h with rfl | h
      · exact List.cons_subset_cons c (hsubset List.mem_cons_self)
      · exact List.Subset.trans (hsubset (List.mem_cons_of_mem _ h)) (List.subset_cons_self c cs)

/-- A path without digits names no position. -/
theorem namesNoPosition_of_isDigit (h : ∀ c ∈ name.toList, c.isDigit = false) :
    NamesNoPosition name :=
  fun _ hsegment => position?_eq_none fun c hc => h c (subset_of_mem_segments hsegment hc)

namespace Json

/-- **A path without positions leads through objects only.** -/
theorem objects_of_foldlM (hpath : ∀ segment ∈ path, position? segment = none)
    (h : path.foldlM segment? v = some w) :
    ∀ k < path.length, ∃ entries, (path.take k).foldlM segment? v = some (.object entries) := by
  induction path generalizing v with
  | nil => exact fun k hk => absurd hk (Nat.not_lt_zero k)
  | cons segment path ih =>
    obtain ⟨hsegment, hpath⟩ := List.forall_mem_cons.1 hpath
    rw [List.foldlM_cons] at h
    obtain ⟨next, hnext, h⟩ := Option.bind_eq_some_iff.1 h
    intro k hk
    cases k with
    | zero =>
      cases v with
      | object entries => exact ⟨entries, rfl⟩
      | array items => simp [segment?, hsegment] at hnext
      | _ => simp [segment?] at hnext
    | succ k =>
      obtain ⟨entries, hentries⟩ := ih hpath h k (Nat.lt_of_succ_lt_succ hk)
      refine ⟨entries, ?_⟩
      rw [List.take_succ_cons, List.foldlM_cons, hnext]
      exact hentries

/-- The same value, or one that is refilled somewhere. -/
def Refilled (v v' : Json) : Prop := v' = v ∨ ∃ q, RefilledAt q v v'

/-- **A segment that is no position leads on alike** after an array is refilled. -/
theorem Refilled.segment? (h : v.Refilled v') (hsegment : position? segment = none) :
    Option.Rel Refilled (v.segment? segment) (v'.segment? segment) := by
  have hrefl : ∀ found : Option Json, Option.Rel Refilled found found
    | none => .none
    | some _ => .some (.inl rfl)
  rcases h with rfl | ⟨_, h⟩
  · exact hrefl _
  cases h with
  | array | item => simp [Json.segment?, hsegment]
  | @entry before after key q value value' h =>
    simp only [Json.segment?, Entries.get?, List.lookup_append, List.lookup_cons]
    cases before.lookup (String.ofList segment) with
    | some _ => exact hrefl _
    | none =>
      rw [Option.none_or, Option.none_or]
      split
      · exact .some (.inr ⟨q, h⟩)
      · exact hrefl _

theorem Refilled.foldlM (h : v.Refilled v') (hpath : ∀ segment ∈ path, position? segment = none) :
    Option.Rel Refilled (path.foldlM Json.segment? v) (path.foldlM Json.segment? v') := by
  induction path generalizing v v' with
  | nil => exact .some h
  | cons segment path ih =>
    obtain ⟨hsegment, hpath⟩ := List.forall_mem_cons.1 hpath
    have hstep := h.segment? hsegment
    rw [List.foldlM_cons, List.foldlM_cons]
    generalize v.segment? segment = next, v'.segment? segment = next' at hstep ⊢
    cases hstep with
    | none => exact .none
    | some hnext => exact ih hnext hpath

/-- **A test of a property path without positions passes alike** after an array is refilled. -/
theorem Refilled.passes_eq (h : v.Refilled v') (hname : NamesNoPosition name)
    (test : AttributeTest) :
    test.passes (v'.resolve? name) = test.passes (v.resolve? name) := by
  have hfound : Option.Rel Refilled (v.resolve? name) (v'.resolve? name) := h.foldlM hname
  generalize v.resolve? name = found, v'.resolve? name = found' at hfound ⊢
  cases hfound with
  | none => rfl
  | some hend =>
    obtain rfl | ⟨_, hend⟩ := hend
    · rfl
    cases test with
    | present => rfl
    | equal literal => cases hend <;> rfl

end Json

end Property

end TreeQuery
