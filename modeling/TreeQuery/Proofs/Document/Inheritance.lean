import TreeQuery.Proofs.Document.Calls
import TreeQuery.Proofs.Document.Context
import TreeQuery.Proofs.Document.Holder

/-!
# Proofs/Document/Inheritance — contexts come from above

A node is met in the context that was last returned above it: by the nearest node strictly above it
at which the visitor returned one, or in the start context if there is none (`Inherits`).  A step
down keeps this (`Inherits.step`): the places above what a value holds are that value and those
above it, so nothing but its own answer comes in between.

What a visitor returns elsewhere reaches a node only through the state that its calls share.  Two
visitors that answer alike above a node meet it in the same context
(`context_eq_of_answers_above`).
-/

open Relation

namespace TreeQuery

variable {γ σ σ' : Type} {document : Json} {p q : Place} {c start : γ}

/-- **The context that a place inherits**, given the calls of the walk: the answer at the nearest
place above it that has one, or the start context. -/
inductive Inherits (record : List (Call γ)) (start : γ) (q : Place) : γ → Prop
  | answered {call : Call γ} {c : γ} (mem : call ∈ record) (above : call.place.Above q)
      (answer : call.answer = some c)
      (nearest : ∀ other ∈ record, call.place.Above other.place → other.place.Above q →
        other.answer = none) : Inherits record start q c
  | start (unanswered : ∀ call ∈ record, call.place.Above q → call.answer = none) :
      Inherits record start q start

/-! ## One step down -/

section Step

variable {record : List (Call γ)} {answer : Place → Option γ} (hkeys : document.DistinctKeys)
  (hnodes : ∀ p, p ∈ record.map Call.place ↔ Reached document p ∧ p.isNode = true)
  (hanswer : ∀ call ∈ record, answer call.place = call.answer)

include hkeys hnodes hanswer

/-- What an answering node holds inherits the answer. -/
theorem inherits_of_answer (hp : Reached document p) (hnode : p.isNode = true)
    (hc : answer p = some c) (h : p.Holds q) : Inherits record start q c := by
  obtain ⟨call, hcall, rfl⟩ := List.mem_map.1 ((hnodes p).2 ⟨hp, hnode⟩)
  have hcallc : call.answer = some c := (hanswer call hcall).symm.trans hc
  refine .answered hcall (.single h) hcallc fun other hother hpo hoq => ?_
  have ho : Reached document other.place := ((hnodes _).1 (List.mem_map_of_mem hother)).1
  exact absurd (hpo.trans_left ((above_iff_of_holds hkeys hp h ho).1 hoq))
    (Place.not_above_self call.place)

omit hanswer in
/-- What a value without an answer holds inherits what the value does. -/
theorem Inherits.of_holds (hp : Reached document p)
    (hquiet : ∀ call ∈ record, call.place = p → call.answer = none) (h : p.Holds q)
    (hc : Inherits record start p c) : Inherits record start q c := by
  have above (call : Call γ) (hcall : call ∈ record) (habove : call.place.Above q) :
      call.place = p ∨ call.place.Above p := by
    have hreached := ((hnodes _).1 (List.mem_map_of_mem hcall)).1
    exact (reflTransGen_iff_eq_or_transGen.1
      ((above_iff_of_holds hkeys hp h hreached).1 habove)).imp_left Eq.symm
  cases hc with
  | answered mem habove answer nearest =>
    refine .answered mem (habove.tail h) answer fun other hother hco hoq => ?_
    exact (above other hother hoq).elim (hquiet other hother) (nearest other hother hco)
  | start unanswered =>
    exact .start fun call hcall habove =>
      (above call hcall habove).elim (hquiet call hcall) (unanswered call hcall)

/-- **A step down keeps what is inherited**: it hands down the answer, or else what was handed down
before. -/
theorem Inherits.step (hp : Reached document p) (h : p.Holds q) (hc : Inherits record start p c) :
    Inherits record start q (handedDown (fun p _ => answer p) p c) := by
  rw [handedDown]
  by_cases hnode : p.isNode
  · rw [if_pos hnode]
    cases hp' : answer p with
    | some d => exact inherits_of_answer hkeys hnodes hanswer hp hnode hp' h
    | none =>
      refine Inherits.of_holds hkeys hnodes hp ?_ h hc
      rintro call hcall rfl
      exact (hanswer call hcall).symm.trans hp'
  · rw [if_neg hnode]
    refine Inherits.of_holds hkeys hnodes hp ?_ h hc
    rintro call hcall rfl
    exact absurd ((hnodes _).1 (List.mem_map_of_mem hcall)).2 hnode

end Step

/-! ## A whole walk -/

section Walk

variable (hkeys : document.DistinctKeys) (visit : Place → γ → σ → Option γ × σ)
  (visit' : Place → γ → σ' → Option γ × σ') (start : γ) (state : σ) (state' : σ')

/-- There is a call at a place if and only if it is a reached node. -/
theorem mem_map_place_calls_iff :
    p ∈ (calls visit (Place.root document) start state).map Call.place ↔
      Reached document p ∧ p.isNode = true := by
  rw [map_place_calls, mem_nodes_iff]

include hkeys

/-- **Every call is given what its node inherits.** -/
theorem inherits_of_mem_calls {call : Call γ}
    (hcall : call ∈ calls visit (Place.root document) start state) :
    Inherits (calls visit (Place.root document) start state) start call.place call.context := by
  obtain ⟨answer, hanswer, hcontexts⟩ := exists_answers hkeys visit start state
  have hmem : (call.place, call.context) ∈
      contexts (fun p _ => answer p) start (Place.root document) :=
    hcontexts ▸ List.mem_map_of_mem hcall
  refine Handed.tail_induction ?here ?tail (mem_contexts_iff.1 hmem).2
  case here =>
    refine .start fun other hother habove => ?_
    have hreached := ((mem_map_place_calls_iff visit start state).1 (List.mem_map_of_mem hother)).1
    exact absurd habove (Place.not_above_root hreached)
  case tail =>
    intro p q c hp h hc
    exact hc.step hkeys (fun _ => mem_map_place_calls_iff visit start state) hanswer
      hp.below_or_same h

/-- **Visitors that answer alike above a node meet it in the same context**, whatever they answer
elsewhere. -/
theorem context_eq_of_answers_above {call call' : Call γ}
    (hcall : call ∈ calls visit (Place.root document) start state)
    (hcall' : call' ∈ calls visit' (Place.root document) start state')
    (hplace : call.place = call'.place)
    (hagree : ∀ above ∈ calls visit (Place.root document) start state,
      ∀ above' ∈ calls visit' (Place.root document) start state', above.place = above'.place →
        above.place.Above call.place → above.answer = above'.answer) :
    call.context = call'.context := by
  obtain ⟨answer, hanswer, hcontexts⟩ := exists_answers hkeys visit start state
  obtain ⟨answer', hanswer', hcontexts'⟩ := exists_answers hkeys visit' start state'
  have hmem : (call.place, call.context) ∈
      contexts (fun p _ => answer p) start (Place.root document) :=
    hcontexts ▸ List.mem_map_of_mem hcall
  obtain ⟨hnode, hhanded⟩ := mem_contexts_iff.1 hmem
  -- what the one visitor hands down along the way to the node, the other does too
  have hhanded' : Handed (fun p _ => answer' p) (Place.root document) start call.place
      call.context := by
    refine hhanded.congr fun p hp habove hpnode => funext fun _ => ?_
    obtain ⟨above, habove_mem, rfl⟩ :=
      List.mem_map.1 ((mem_map_place_calls_iff visit start state).2 ⟨hp, hpnode⟩)
    obtain ⟨above', habove_mem', heq⟩ :=
      List.mem_map.1 ((mem_map_place_calls_iff visit' start state').2 ⟨hp, hpnode⟩)
    rw [hanswer above habove_mem, hagree above habove_mem above' habove_mem' heq.symm habove,
      ← hanswer' above' habove_mem', heq]
  obtain ⟨other, hother, hmet⟩ := List.mem_map.1 (hcontexts' ▸ mem_contexts_iff.2 ⟨hnode, hhanded'⟩)
  obtain ⟨hotherplace, hothercontext⟩ := Prod.mk.inj hmet
  obtain rfl : other = call' :=
    List.inj_on_of_nodup_map (nodup_map_place_calls hkeys visit' start state') hother hcall'
      (hotherplace.trans hplace)
  exact hothercontext.symm

end Walk

/-- **How the contexts of a visitor's calls come about** in a document. -/
structure ContextsFromAbove (document : Json) (visit : Place → γ → σ → Option γ × σ) (start : γ)
    (state : σ) : Prop where
  /-- The calls are at the nodes, in order, and recording them leaves the run as it is. -/
  fst_recorded : (visitNodes (recorded visit) (Place.root document) start (state, [])).1 =
    visitNodes visit (Place.root document) start state
  map_place : (calls visit (Place.root document) start state).map Call.place =
    nodes (Place.root document)
  /-- The context of a call is the answer of the nearest call above it that has one, or the start
  context. -/
  inherits : ∀ call ∈ calls visit (Place.root document) start state,
    Inherits (calls visit (Place.root document) start state) start call.place call.context
  /-- No call at a place beside a node, or below such a place, is above the node. -/
  not_above : ∀ call ∈ calls visit (Place.root document) start state,
    ∀ other ∈ calls visit (Place.root document) start state, ∀ p a : Place, Reached document p →
      p.Holds call.place → p.Holds a → ReflTransGen Place.Holds a other.place →
        ¬ other.place.Above call.place
  /-- What is answered there, or anywhere but above the node, makes no difference to its context. -/
  context_eq : ∀ {σ' : Type} (visit' : Place → γ → σ' → Option γ × σ') (state' : σ'),
    ∀ call ∈ calls visit (Place.root document) start state,
    ∀ call' ∈ calls visit' (Place.root document) start state', call.place = call'.place →
      (∀ above ∈ calls visit (Place.root document) start state,
        ∀ above' ∈ calls visit' (Place.root document) start state', above.place = above'.place →
          above.place.Above call.place → above.answer = above'.answer) →
      call.context = call'.context

theorem contextsFromAbove (document : Json) (hkeys : document.DistinctKeys)
    (visit : Place → γ → σ → Option γ × σ) (start : γ) (state : σ) :
    ContextsFromAbove document visit start state where
  fst_recorded := congrArg Prod.fst (visitNodes_recorded visit _ start state [])
  map_place := map_place_calls visit _ start state
  inherits _ := inherits_of_mem_calls hkeys visit start state
  not_above _ _ _ _ _ _ hp hcall ha := not_above_of_beside hkeys hp ha hcall
  context_eq visit' state' _ hcall _ hcall' :=
    context_eq_of_answers_above hkeys visit visit' start state state' hcall hcall'

/-- An `M` that holds another one and, in a plain object, an `L`; and a second `L` after it. -/
def markedDocument : Json :=
  .object [("type", .string "P"),
    ("left", .object [("type", .string "M"), ("row", .array [.object [("type", .string "M")],
      .object [("wrapped", .object [("type", .string "L")])]])]),
    ("right", .object [("type", .string "L")])]

/-- The visitor that counts the `M`s and returns the number at each. -/
def countMarks (p : Place) (_ : Nat) (count : Nat) : Option Nat × Nat :=
  if p.kind? = some "M" then (some (count + 1), count + 1) else (none, count)

/-- The wrapped `L` gets what the outer `M` returned and not the later answer of the inner one
beside it; the second `L` gets the start context. -/
theorem contextsFromAbove_countMarks :
    markedDocument.DistinctKeys ∧ ContextsFromAbove markedDocument countMarks 0 0 ∧
    (calls countMarks (Place.root markedDocument) 0 0).map
        (fun call => (call.place.path, call.context, call.answer)) =
      [([], 0, none), ([.key "left"], 0, some 1), ([.key "left", .key "row", .index 0], 1, some 2),
        ([.key "left", .key "row", .index 1, .key "wrapped"], 1, none),
        ([.key "right"], 0, none)] := by
  have hkeys : markedDocument.DistinctKeys := by
    simp [markedDocument, Json.DistinctKeys, Json.DistinctKeysEntries, Json.DistinctKeysItems]
  exact ⟨hkeys, contextsFromAbove markedDocument hkeys countMarks 0 0, by decide +kernel⟩

end TreeQuery
