import TreeQuery.Proofs.Document.Distinct

/-!
# Proofs/Document/Calls — the calls of a visitor

A visitor may keep a state, which all its calls share.  `recorded` adds a record of the calls to
that state; it leaves the run as it is (`visitNodes_recorded`), and the record is unfolded like the
listings of the walk (`calls_eq`).

The calls are at the nodes, in order (`map_place_calls`).  As no node is met twice, what a visitor
answers is in hindsight a function of the node, and its calls are met in the contexts that this
function hands down (`exists_answers`).  So everything on `contexts` holds of visitors with a state.
-/

namespace TreeQuery

variable {γ σ α : Type}

/-- **A call of a visitor**: the node that it is shown, the context that it is given and the
context that it returns, if any. -/
structure Call (γ : Type) where
  place : Place
  context : γ
  answer : Option γ

/-- The visitor with a record of its calls beside its state. -/
def recorded (visit : Place → γ → σ → Option γ × σ) (p : Place) (c : γ) :
    σ × List (Call γ) → Option γ × σ × List (Call γ)
  | (state, record) =>
    ((visit p c state).1, (visit p c state).2, record ++ [⟨p, c, (visit p c state).1⟩])

/-- **The calls of a visitor** in the walk over the nodes, in order. -/
def calls (visit : Place → γ → σ → Option γ × σ) (p : Place) (c : γ) (state : σ) : List (Call γ) :=
  (visitNodes (recorded visit) p c (state, [])).2

section Unfold

variable (visit : Place → γ → σ → Option γ × σ)

/-- What a place hands down and in which state it leaves the visitor: a node by the visitor's call,
a container unchanged. -/
def passed (p : Place) (c : γ) (state : σ) : γ × σ :=
  if p.isNode then ((visit p c state).1.getD c, (visit p c state).2) else (c, state)

/-- The call at a place itself, if it is a node. -/
def ownCall (p : Place) (c : γ) (state : σ) : List (Call γ) :=
  if p.isNode then [⟨p, c, (visit p c state).1⟩] else []

/-- The calls below places in a row, all met in one context. -/
def callsAlong (c : γ) : σ → List Place → List (Call γ)
  | _, [] => []
  | state, p :: row => calls visit p c state ++ callsAlong c (visitNodes visit p c state) row

/-- **The walk over the nodes, unfolded.** -/
theorem visitNodes_eq (p : Place) (c : γ) (state : σ) :
    visitNodes visit p c state =
      p.held.foldl (fun s q => visitNodes visit q (passed visit p c state).1 s)
        (passed visit p c state).2 := by
  rw [visitNodes, walk_eq]
  by_cases h : p.isNode <;> simp only [passed, h] <;> rfl

theorem passed_recorded (p : Place) (c : γ) (state : σ) (record : List (Call γ)) :
    passed (recorded visit) p c (state, record) =
      ((passed visit p c state).1, (passed visit p c state).2,
        record ++ ownCall visit p c state) := by
  by_cases h : p.isNode <;> simp [passed, ownCall, recorded, h]

/-- A row of walks, each of which adds to the record, adds all they do. -/
theorem foldl_visitNodes_recorded (c : γ) : ∀ (row : List Place),
    (∀ q ∈ row, ∀ state record, visitNodes (recorded visit) q c (state, record) =
      (visitNodes visit q c state, record ++ calls visit q c state)) → ∀ state record,
    row.foldl (fun s q => visitNodes (recorded visit) q c s) (state, record) =
      (row.foldl (fun s q => visitNodes visit q c s) state, record ++ callsAlong visit c state row)
  | [], _, _, _ => by simp [callsAlong]
  | q :: row, h, state, record => by
    obtain ⟨hq, hrow⟩ := List.forall_mem_cons.1 h
    rw [List.foldl_cons, List.foldl_cons, hq, foldl_visitNodes_recorded c row hrow, callsAlong,
      List.append_assoc]

/-- **The record does not touch the run**, and a walk adds the same calls to any record. -/
theorem visitNodes_recorded (p : Place) : ∀ (c : γ) (state : σ) (record : List (Call γ)),
    visitNodes (recorded visit) p c (state, record) =
      (visitNodes visit p c state, record ++ calls visit p c state) := by
  induction p using Place.induction with
  | step p ih =>
    intro c state record
    have hrow := foldl_visitNodes_recorded visit (passed visit p c state).1 p.held
      fun q hq => ih q hq _
    rw [calls, visitNodes_eq, visitNodes_eq (recorded visit), passed_recorded, passed_recorded,
      hrow, hrow, visitNodes_eq visit, List.append_assoc, List.nil_append]

/-- **The calls, unfolded.** -/
theorem calls_eq (p : Place) (c : γ) (state : σ) :
    calls visit p c state = ownCall visit p c state ++
      callsAlong visit (passed visit p c state).1 (passed visit p c state).2 p.held := by
  rw [calls, visitNodes_eq, passed_recorded, foldl_visitNodes_recorded visit _ _
    fun q _ => visitNodes_recorded visit q _]
  rfl

end Unfold

/-! ## The calls as a listing -/

section Listing

variable {visit : Place → γ → σ → Option γ × σ} {P : Call γ → Prop} (f : Call γ → α)

/-- What is read off the calls along a row is what is read off below each of its places. -/
theorem map_callsAlong_eq {c : γ} {listing : Place → List α} : ∀ {row : List Place},
    (∀ q ∈ row, ∀ state, (∀ call ∈ calls visit q c state, P call) →
      (calls visit q c state).map f = listing q) → ∀ state,
    (∀ call ∈ callsAlong visit c state row, P call) →
      (callsAlong visit c state row).map f = row.flatMap listing
  | [], _, _, _ => rfl
  | q :: row, h, state, hok => by
    obtain ⟨hq, hrow⟩ := List.forall_mem_cons.1 h
    rw [callsAlong, List.forall_mem_append] at hok
    rw [callsAlong, List.map_append, hq state hok.1, map_callsAlong_eq hrow _ hok.2,
      List.flatMap_cons]

/-- **A listing that unfolds as the calls do is read off the calls**, provided that these are as the
listing takes them to be. -/
theorem map_calls_eq (listing : γ → Place → List α)
    (unfold_listing : ∀ p c state, (∀ call ∈ ownCall visit p c state, P call) →
      listing c p = (ownCall visit p c state).map f ++
        p.held.flatMap (listing (passed visit p c state).1)) (p : Place) :
    ∀ c state, (∀ call ∈ calls visit p c state, P call) →
      (calls visit p c state).map f = listing c p := by
  induction p using Place.induction with
  | step p ih =>
    intro c state hok
    rw [calls_eq, List.forall_mem_append] at hok
    rw [calls_eq, unfold_listing p c state hok.1, List.map_append,
      map_callsAlong_eq f (fun q hq => ih q hq _) _ hok.2]

variable (visit)

/-- **The calls are at the nodes**, in order, whatever the visitor answers. -/
theorem map_place_calls (p : Place) (c : γ) (state : σ) :
    (calls visit p c state).map Call.place = nodes p := by
  refine map_calls_eq (P := fun _ => True) Call.place (fun _ => nodes) (fun p c state _ => ?_) p c
    state fun _ _ => trivial
  rw [nodes_eq, reached_eq, List.filter_cons, List.filter_flatMap, ← funext nodes_eq]
  by_cases h : p.isNode <;> simp [ownCall, h]

variable {visit}

/-- If a visitor without a state would answer the same, the calls are met in the contexts that it
hands down. -/
theorem map_calls_eq_contexts {next : Place → γ → Option γ} {p : Place} {c : γ} {state : σ}
    (h : ∀ call ∈ calls visit p c state, next call.place call.context = call.answer) :
    (calls visit p c state).map (fun call => (call.place, call.context)) = contexts next c p := by
  refine map_calls_eq (fun call => (call.place, call.context)) (contexts next)
    (fun p c state hown => ?_) p c state h
  rw [contexts_eq]
  by_cases hnode : p.isNode
  · have hanswer : next p c = (visit p c state).1 := by simpa [ownCall, hnode] using hown
    simp [ownCall, passed, handedDown, hnode, hanswer]
  · simp [ownCall, passed, handedDown, hnode]

end Listing

/-! ## What a visitor answers, in hindsight -/

/-- Where no two calls are at one place, the answers are a function of the place. -/
theorem exists_answers_of_nodup : ∀ {record : List (Call γ)}, (record.map Call.place).Nodup →
    ∃ answer : Place → Option γ, ∀ call ∈ record, answer call.place = call.answer
  | [], _ => ⟨fun _ => none, by simp⟩
  | call :: record, h => by
    classical
    rw [List.map_cons, List.nodup_cons] at h
    obtain ⟨answer, hanswer⟩ := exists_answers_of_nodup h.2
    refine ⟨Function.update answer call.place call.answer, List.forall_mem_cons.2 ⟨?_, ?_⟩⟩
    · exact Function.update_self ..
    · intro other hother
      have hne : other.place ≠ call.place := fun heq =>
        h.1 (heq ▸ List.mem_map_of_mem hother)
      rw [Function.update_of_ne hne, hanswer other hother]

section Distinct

variable {document : Json} (hkeys : document.DistinctKeys) (visit : Place → γ → σ → Option γ × σ)
  (start : γ) (state : σ)

include hkeys

/-- **No node is shown twice.** -/
theorem nodup_map_place_calls :
    ((calls visit (Place.root document) start state).map Call.place).Nodup := by
  rw [map_place_calls]
  exact (nodup_nodes hkeys).of_map

/-- **In hindsight the answers are a function of the node**, and the calls are met in the contexts
that this function hands down. -/
theorem exists_answers :
    ∃ answer : Place → Option γ,
      (∀ call ∈ calls visit (Place.root document) start state, answer call.place = call.answer) ∧
      (calls visit (Place.root document) start state).map (fun call => (call.place, call.context)) =
        contexts (fun p _ => answer p) start (Place.root document) := by
  obtain ⟨answer, hanswer⟩ :=
    exists_answers_of_nodup (nodup_map_place_calls hkeys visit start state)
  exact ⟨answer, hanswer, map_calls_eq_contexts hanswer⟩

end Distinct

end TreeQuery
