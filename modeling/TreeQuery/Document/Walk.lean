import TreeQuery.Document.Place

/-!
# Document/Walk — the pre-order walk over a document

`walk` visits every value that the edges reach from a place, each before what it holds, threading
a context down the document and a state along the walk.  `walk_eq` is its one law: visit the
place, then walk the places that it holds, in order, all with the context that the visit
returned.

From it come `reached`, the visited places in order; `visitNodes`, the walk that shows only nodes
to its visitor; and `contexts`, the nodes with the contexts they are met in.
-/

namespace TreeQuery

variable {γ σ : Type}

mutual

/-- The walk from a value. -/
def walkValue (visit : Place → γ → σ → γ × σ) (path : Path) (context : γ) (state : σ) : Json → σ
  | .array items =>
    let (context, state) := visit ⟨path, .array items⟩ context state
    walkItems visit path 0 context state items
  | .object entries =>
    let (context, state) := visit ⟨path, .object entries⟩ context state
    walkEntries visit path context state entries
  | value => (visit ⟨path, value⟩ context state).2

/-- The walk over items in a row, the first of them at `position`. -/
def walkItems (visit : Place → γ → σ → γ × σ) (path : Path) (position : Nat) (context : γ)
    (state : σ) : List Json → σ
  | [] => state
  | value :: items =>
    walkItems visit path (position + 1) context
      (walkValue visit (path ++ [.index position]) context state value) items

/-- The walk over the edges under a run of properties. -/
def walkEntries (visit : Place → γ → σ → γ × σ) (path : Path) (context : γ) (state : σ) :
    List (String × Json) → σ
  | [] => state
  | entry :: entries =>
    walkEntries visit path context (walkEntry visit path context state entry) entries

/-- The walk over the edge under a property. -/
def walkEntry (visit : Place → γ → σ → γ × σ) (path : Path) (context : γ) (state : σ) :
    String × Json → σ
  | (key, .array items) => walkItems visit (path ++ [.key key]) 0 context state items
  | (key, .object entries) =>
    if (Json.object entries).isNode then
      walkValue visit (path ++ [.key key]) context state (.object entries)
    else state
  | _ => state

end

/-- **The pre-order walk from a place.**  The visitor is given each place, the context handed down
to it and the state, and returns the context for what the place holds and the next state. -/
def walk (visit : Place → γ → σ → γ × σ) (place : Place) (context : γ) (state : σ) : σ :=
  walkValue visit place.path context state place.value

/-! ## The law of the walk -/

theorem walkItems_eq (visit : Place → γ → σ → γ × σ) (path : Path) (context : γ) :
    ∀ (items : List Json) (position : Nat) (state : σ),
      walkItems visit path position context state items =
        (Place.itemsFrom path position items).foldl (fun s p => walk visit p context s) state
  | [], _, _ => rfl
  | value :: items, position, state => by
    rw [walkItems, walkItems_eq visit path context items]
    rfl

theorem walkEntry_eq (visit : Place → γ → σ → γ × σ) (path : Path) (context : γ) (state : σ)
    (entry : String × Json) :
    walkEntry visit path context state entry =
      ((Edge.ofEntry? path entry).toList.flatMap Edge.held).foldl
        (fun s p => walk visit p context s) state := by
  obtain ⟨key, value⟩ := entry
  cases value with
  | array items =>
    simp [walkEntry, Edge.ofEntry?, Edge.held, Place.items, walkItems_eq]
  | object entries =>
    by_cases h : (Json.object entries).isNode
    · simp [walkEntry, Edge.ofEntry?, Edge.held, h, walk]
    · simp [walkEntry, Edge.ofEntry?, h]
  | _ => simp [walkEntry, Edge.ofEntry?]

theorem walkEntries_eq (visit : Place → γ → σ → γ × σ) (path : Path) (context : γ) :
    ∀ (entries : List (String × Json)) (state : σ),
      walkEntries visit path context state entries =
        ((entries.filterMap (Edge.ofEntry? path)).flatMap Edge.held).foldl
          (fun s p => walk visit p context s) state
  | [], _ => rfl
  | entry :: entries, state => by
    rw [walkEntries, walkEntries_eq visit path context entries, walkEntry_eq]
    cases h : Edge.ofEntry? path entry <;> simp [h]

/-- **The law of the walk**: visit the place, then walk what it holds, in order. -/
theorem walk_eq (visit : Place → γ → σ → γ × σ) (place : Place) (context : γ) (state : σ) :
    walk visit place context state =
      place.held.foldl (fun s p => walk visit p (visit place context state).1 s)
        (visit place context state).2 := by
  obtain ⟨path, value⟩ := place
  cases value with
  | array items => simp [walk, walkValue, Place.held, Place.edges, Edge.held, Place.items, walkItems_eq]
  | object entries => simp [walk, walkValue, Place.held, Place.edges, walkEntries_eq]
  | _ => simp [walk, walkValue, Place.held, Place.edges]

/-! ## Walks with a purpose -/

/-- **Every value the search reaches from a place**, containers included, in pre-order. -/
def reached (place : Place) : List Place :=
  (walk (fun p _ seen => ((), seen.push p)) place () #[]).toList

/-- **The walk over the nodes.**  The visitor sees nodes only; a context that it returns replaces
the incoming one for what the node holds, and a container passes its context through. -/
def visitNodes (visit : Place → γ → σ → Option γ × σ) (place : Place) (context : γ) (state : σ) :
    σ :=
  walk (fun p context state =>
    if p.isNode then
      let (next, state) := visit p context state
      (next.getD context, state)
    else (context, state)) place context state

/-- The nodes in pre-order, each with the context it is met in, when `next` decides the contexts
that nodes hand down. -/
def contexts (next : Place → γ → Option γ) (start : γ) (place : Place) : List (Place × γ) :=
  (visitNodes (fun p context seen => (next p context, seen.push (p, context))) place start
    #[]).toList

/-- The nodes that the search reaches from a place, in pre-order. -/
def nodes (place : Place) : List Place :=
  (contexts (fun _ _ => none) () place).map Prod.fst

/-- The sequences that the search reaches from a place, each as the list of its items, in the
order of the values that hold them. -/
def sequences (place : Place) : List (List Place) :=
  (reached place).flatMap Place.sequences

end TreeQuery
