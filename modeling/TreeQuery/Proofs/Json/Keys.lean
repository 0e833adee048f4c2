import Mathlib.Data.List.Nodup
import TreeQuery.Json.Reader

/-!
# Proofs/Json/Keys — what is read from a text has distinct keys

`Json.DistinctKeys` is first put in terms of membership.  Writing an entry into an object
(`Entries.put`) keeps its keys distinct, hence so does writing any row of entries, and what the
reader returns has distinct keys in all its objects (`Json.distinctKeys_of_read?`).
-/

namespace TreeQuery

namespace Json

theorem distinctKeysItems_iff : ∀ {items : List Json},
    DistinctKeysItems items ↔ ∀ value ∈ items, value.DistinctKeys
  | [] => by simp [DistinctKeysItems]
  | value :: items => by
    rw [DistinctKeysItems, distinctKeysItems_iff, List.forall_mem_cons]

theorem distinctKeysEntries_iff : ∀ {entries : Entries},
    DistinctKeysEntries entries ↔ ∀ entry ∈ entries, entry.2.DistinctKeys
  | [] => by simp [DistinctKeysEntries]
  | (key, value) :: entries => by
    rw [DistinctKeysEntries, distinctKeysEntries_iff, List.forall_mem_cons]

theorem distinctKeys_array {items : List Json} :
    (array items).DistinctKeys ↔ ∀ value ∈ items, value.DistinctKeys := by
  rw [DistinctKeys, distinctKeysItems_iff]

theorem distinctKeys_object {entries : Entries} : (object entries).DistinctKeys ↔
    (entries.map Prod.fst).Nodup ∧ ∀ entry ∈ entries, entry.2.DistinctKeys := by
  rw [DistinctKeys, distinctKeysEntries_iff]

end Json

/-! ## Writing entries -/

namespace Entries

variable {name : String} {value : Json}

/-- Writing an entry adds no entry but that one. -/
theorem mem_put {entry : String × Json} : ∀ {entries : Entries},
    entry ∈ put name value entries → entry = (name, value) ∨ entry ∈ entries
  | [], h => .inl (List.mem_singleton.1 h)
  | (key, old) :: entries, h => by
    rw [put] at h
    split at h
    · next hkey =>
      rw [← hkey]
      exact (List.mem_cons.1 h).imp_right (List.mem_cons_of_mem _)
    · rcases List.mem_cons.1 h with rfl | h
      · exact .inr List.mem_cons_self
      · exact (mem_put h).imp_right (List.mem_cons_of_mem _)

/-- **Writing an entry keeps the keys distinct.** -/
theorem nodup_keys_put : ∀ {entries : Entries}, (entries.map Prod.fst).Nodup →
    ((put name value entries).map Prod.fst).Nodup
  | [], _ => List.nodup_singleton _
  | (key, old) :: entries, h => by
    rw [put]
    split
    · exact h
    · next hkey =>
      rw [List.map_cons, List.nodup_cons] at h
      rw [List.map_cons, List.nodup_cons]
      refine ⟨fun hmem => ?_, nodup_keys_put h.2⟩
      obtain ⟨entry, hentry, heq⟩ := List.mem_map.1 hmem
      rcases mem_put hentry with rfl | hentry
      · exact hkey heq.symm
      · exact h.1 (heq ▸ List.mem_map_of_mem hentry)

/-- Writing entries in order keeps distinct keys distinct and adds no value but those written. -/
theorem distinctKeys_foldl_put : ∀ {written : List (String × Json)} {entries : Entries},
    (∀ entry ∈ written, entry.2.DistinctKeys) → (Json.object entries).DistinctKeys →
      (Json.object
        (written.foldl (fun entries entry => put entry.1 entry.2 entries) entries)).DistinctKeys
  | [], _, _, hentries => hentries
  | entry :: written, entries, hwritten, hentries => by
    obtain ⟨hentry, hrest⟩ := List.forall_mem_cons.1 hwritten
    obtain ⟨hnodup, hvalues⟩ := Json.distinctKeys_object.1 hentries
    rw [List.foldl_cons]
    refine distinctKeys_foldl_put hrest (Json.distinctKeys_object.2 ⟨nodup_keys_put hnodup, ?_⟩)
    intro kept hkept
    rcases mem_put hkept with rfl | hkept
    · exact hentry
    · exact hvalues kept hkept

theorem distinctKeys_ofWritten {written : List (String × Json)}
    (h : ∀ entry ∈ written, entry.2.DistinctKeys) :
    (Json.object (ofWritten written)).DistinctKeys :=
  distinctKeys_foldl_put h (Json.distinctKeys_object.2 ⟨List.nodup_nil, by simp⟩)

end Entries

/-! ## Reading a text -/

namespace Json

/-- **What a read value consists of**, at a text and a depth: a container of what was read from a
later text, one level deeper, or nothing that was read as a value itself. -/
inductive ReadFrom (depth : Nat) (cs : List Char) : Json → Prop
  | array {rest : List Char} {items : List Json} {left : Left rest}
      (shorter : rest.length < cs.length) (h : items? (depth - 1) rest = some (items, left)) :
      ReadFrom depth cs (.array items)
  | object {rest : List Char} {written : List (String × Json)} {left : Left rest}
      (shorter : rest.length < cs.length) (h : entries? (depth - 1) rest = some (written, left)) :
      ReadFrom depth cs (.object (Entries.ofWritten written))
  | emptyArray : ReadFrom depth cs (.array [])
  | emptyObject : ReadFrom depth cs (.object [])
  | null : ReadFrom depth cs .null
  | bool (value : Bool) : ReadFrom depth cs (.bool value)
  | number (n : Number) : ReadFrom depth cs (.number n)
  | string (text : String) : ReadFrom depth cs (.string text)

/-- What is left after the first character that is no blank is shorter. -/
theorem length_lt_of_skipSpace {cs rest : List Char} {c : Char} (h : skipSpace cs = c :: rest) :
    rest.length < cs.length := by
  have hskip := length_skipSpace_le cs
  rw [h, List.length_cons] at hskip
  omega

/-- Every value that is read consists of what was read later. -/
theorem readFrom_of_value? {depth : Nat} {cs : List Char} {value : Json} {left : Left cs}
    (h : value? depth cs = some (value, left)) : ReadFrom depth cs value := by
  have result : ∀ {α β : Type} {x x' : α} {y y' : β}, some (x, y) = some (x', y') → x = x' :=
    fun h => (Prod.mk.inj (Option.some.inj h)).1
  rw [value?] at h
  split at h
  · simp at h
  next c rest hrest =>
  have shorter := length_lt_of_skipSpace hrest
  dsimp only at h
  split at h
  · split at h
    · simp at h
    split at h
    · exact result h ▸ .emptyArray
    split at h
    · simp at h
    · next items left hitems => exact result h ▸ .array shorter hitems
  split at h
  · split at h
    · simp at h
    split at h
    · exact result h ▸ .emptyObject
    split at h
    · simp at h
    · next written left hwritten => exact result h ▸ .object shorter hwritten
  split at h
  · split at h
    · simp at h
    · exact result h ▸ .string _
  split at h
  · obtain ⟨_, _, h⟩ := Option.map_eq_some_iff.1 h
    exact (Prod.mk.inj h).1 ▸ .null
  split at h
  · obtain ⟨_, _, h⟩ := Option.map_eq_some_iff.1 h
    exact (Prod.mk.inj h).1 ▸ .bool true
  split at h
  · obtain ⟨_, _, h⟩ := Option.map_eq_some_iff.1 h
    exact (Prod.mk.inj h).1 ▸ .bool false
  split at h
  · simp at h
  · exact result h ▸ .number _

mutual

theorem distinctKeys_of_value? {depth : Nat} {cs : List Char} {value : Json} {left : Left cs}
    (h : value? depth cs = some (value, left)) : value.DistinctKeys := by
  cases readFrom_of_value? h with
  | array shorter hitems => exact distinctKeys_array.2 (distinctKeys_of_items? hitems)
  | object shorter hwritten =>
    exact Entries.distinctKeys_ofWritten (distinctKeys_of_entries? hwritten)
  | emptyArray => exact distinctKeys_array.2 (List.forall_mem_nil _)
  | emptyObject => exact distinctKeys_object.2 ⟨List.nodup_nil, List.forall_mem_nil _⟩
  | null | bool | number | string => trivial
termination_by (cs.length, 0)

theorem distinctKeys_of_items? {depth : Nat} {cs : List Char} {items : List Json} {left : Left cs}
    (h : items? depth cs = some (items, left)) : ∀ value ∈ items, value.DistinctKeys := by
  rw [items?] at h
  split at h
  · simp at h
  · next value left hvalue =>
    have hhead := distinctKeys_of_value? hvalue
    split at h
    · next rest hrest =>
      have shorter : rest.length < cs.length := Nat.lt_trans (length_lt_of_skipSpace hrest) left.2
      dsimp only at h
      split at h
      · simp at h
      · next items left hitems =>
        obtain ⟨rfl, -⟩ := Prod.mk.inj (Option.some.inj h)
        exact List.forall_mem_cons.2 ⟨hhead, distinctKeys_of_items? hitems⟩
    · obtain ⟨rfl, -⟩ := Prod.mk.inj (Option.some.inj h)
      exact List.forall_mem_singleton.2 hhead
    · simp at h
termination_by (cs.length, 1)

theorem distinctKeys_of_entries? {depth : Nat} {cs : List Char} {written : List (String × Json)}
    {left : Left cs} (h : entries? depth cs = some (written, left)) :
    ∀ entry ∈ written, entry.2.DistinctKeys := by
  rw [entries?] at h
  split at h
  · next rest hrest =>
    have hrest := length_lt_of_skipSpace hrest
    dsimp only at h
    split at h
    · simp at h
    next key afterKey _ =>
    split at h
    · next afterColon hcolon =>
      have hcolon := Nat.lt_trans (length_lt_of_skipSpace hcolon) (Nat.lt_trans afterKey.2 hrest)
      split at h
      · simp at h
      next value left hvalue =>
      have hhead := distinctKeys_of_value? hvalue
      split at h
      · next later hlater =>
        have hlater := Nat.lt_trans (length_lt_of_skipSpace hlater) (Nat.lt_trans left.2 hcolon)
        split at h
        · simp at h
        · next written left hwritten =>
          obtain ⟨rfl, -⟩ := Prod.mk.inj (Option.some.inj h)
          exact List.forall_mem_cons.2 ⟨hhead, distinctKeys_of_entries? hwritten⟩
      · obtain ⟨rfl, -⟩ := Prod.mk.inj (Option.some.inj h)
        exact List.forall_mem_singleton.2 hhead
      · simp at h
    · simp at h
  · simp at h
termination_by (cs.length, 1)

end

/-- **A document that is read has distinct keys.** -/
theorem distinctKeys_of_read? {depth : Nat} {text : String} {document : Json}
    (h : read? depth text = some document) : document.DistinctKeys := by
  unfold read? at h
  split at h
  · next hvalue =>
    obtain ⟨_, h⟩ := Option.ite_none_right_eq_some.1 h
    exact Option.some.inj h ▸ distinctKeys_of_value? hvalue
  · simp at h

end Json

end TreeQuery
