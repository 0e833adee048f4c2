import TreeQuery.Proofs.Document.Reach

/-!
# Proofs/Document/Context — the contexts that a walk hands down

`Handed next p c q d` says that a walk which meets `p` in context `c` meets `q` in context `d`:
along the way from `p` to `q` every value hands down what `handedDown` says.  The listing of nodes
with contexts is exactly that relation, at nodes (`mem_contexts_iff`).
-/

open Relation

namespace TreeQuery

variable {γ : Type}

/-- **A walk that meets the first place in the first context meets the second place in the
second.** -/
inductive Handed (next : Place → γ → Option γ) : Place → γ → Place → γ → Prop
  | here (p : Place) (c : γ) : Handed next p c p c
  | down {p q r : Place} {c d : γ} (h : p.Holds q)
      (rest : Handed next q (handedDown next p c) r d) : Handed next p c r d

variable {next : Place → γ → Option γ} {p q r : Place} {c d : γ}

/-- **The nodes with their contexts.** -/
theorem mem_contexts_iff : (q, d) ∈ contexts next c p ↔ q.isNode = true ∧ Handed next p c q d := by
  induction p using Place.induction generalizing c with
  | step p ih =>
    rw [contexts_eq, List.mem_append, List.mem_flatMap]
    constructor
    · rintro (h | ⟨r, hr, h⟩)
      · by_cases hp : p.isNode
        · rw [if_pos hp, List.mem_singleton] at h
          obtain ⟨rfl, rfl⟩ := Prod.mk.inj h
          exact ⟨hp, .here ..⟩
        · simp [hp] at h
      · obtain ⟨hnode, hrest⟩ := (ih r hr).1 h
        exact ⟨hnode, .down (Place.mem_held_iff.1 hr) hrest⟩
    · rintro ⟨hnode, h⟩
      cases h with
      | here => exact .inl (by simp [hnode])
      | down hpr hrest =>
        have hr := Place.mem_held_iff.2 hpr
        exact .inr ⟨_, hr, (ih _ hr).2 ⟨hnode, hrest⟩⟩

namespace Handed

theorem below_or_same (h : Handed next p c q d) : ReflTransGen Place.Holds p q := by
  induction h with
  | here => exact .refl
  | down hpq _ ih => exact .head hpq ih

theorem trans {e : γ} (h : Handed next p c q d) (h' : Handed next q d r e) :
    Handed next p c r e := by
  induction h with
  | here => exact h'
  | down hpq _ ih => exact .down hpq (ih h')

/-- One step further down. -/
theorem tail (h : Handed next p c q d) (hqr : q.Holds r) :
    Handed next p c r (handedDown next q d) :=
  h.trans (.down hqr (.here ..))

/-- **Induction from the last step**: what holds where the walk begins and is kept by every step
further down holds wherever the walk comes. -/
theorem tail_induction {motive : Place → γ → Prop} (here : motive p c)
    (tail : ∀ q r d, Handed next p c q d → q.Holds r → motive q d →
      motive r (handedDown next q d)) (h : Handed next p c q d) : motive q d := by
  induction h with
  | here => exact here
  | down hpq _ ih =>
    exact ih (tail _ _ _ (.here ..) hpq here) fun q r d h => tail q r d (.down hpq h)

/-- Only what the places above hand down counts. -/
theorem congr {next' : Place → γ → Option γ} (h : Handed next p c q d)
    (hnext : ∀ r, ReflTransGen Place.Holds p r → r.Above q → r.isNode = true → next r = next' r) :
    Handed next' p c q d := by
  refine tail_induction (motive := fun q d => (∀ r, ReflTransGen Place.Holds p r → r.Above q →
    r.isNode = true → next r = next' r) → Handed next' p c q d) ?here ?tail h hnext
  case here => exact fun _ => .here ..
  case tail =>
    intro q r d hq hqr ih hnext
    have hq' : Handed next' p c q d := ih fun s hs hsq => hnext s hs (hsq.tail hqr)
    have hdown : handedDown next q d = handedDown next' q d := by
      by_cases hnode : q.isNode
      · simp only [handedDown, hnext q hq.below_or_same (.single hqr) hnode]
      · simp only [handedDown, if_neg hnode]
    exact hdown ▸ hq'.tail hqr

/-- Whatever lies below is met in some context. -/
theorem exists_of_below (next : Place → γ → Option γ) (c : γ) (h : ReflTransGen Place.Holds p q) :
    ∃ d, Handed next p c q d := by
  induction h with
  | refl => exact ⟨c, .here ..⟩
  | tail _ hstep ih =>
    obtain ⟨d, hd⟩ := ih
    exact ⟨_, hd.tail hstep⟩

end Handed

/-! ## A mark that sticks -/

section Mark

variable {mark : Place → Bool} {start e : Bool}

/-- The visitor that sets the mark at marked nodes and leaves it alone elsewhere. -/
abbrev markBelow (mark : Place → Bool) : Place → Bool → Option Bool :=
  fun p _ => if mark p then some true else none

theorem handedDown_markBelow : handedDown (markBelow mark) p start = true ↔
    start = true ∨ p.isNode = true ∧ mark p = true := by
  by_cases hnode : p.isNode <;> by_cases hmark : mark p <;>
    simp [handedDown, markBelow, hnode, hmark]

theorem Handed.eq_true_of_start (h : Handed (markBelow mark) p start q e) (hstart : start = true) :
    e = true := by
  induction h with
  | here => exact hstart
  | down _ _ ih => exact ih (handedDown_markBelow.2 (.inl hstart))

/-- **A mark set at a node sticks below it**: in a walk that begins unmarked, a place is met marked
if and only if a marked node lies strictly above. -/
theorem handed_markBelow_iff : Handed (markBelow mark) p false q true ↔
    ∃ r, ReflTransGen Place.Holds p r ∧ r.isNode = true ∧ mark r = true ∧ r.Above q := by
  constructor
  · intro h
    have key : ∀ {p q : Place} {start e : Bool}, Handed (markBelow mark) p start q e → e = true →
        start = true ∨
          ∃ r, ReflTransGen Place.Holds p r ∧ r.isNode = true ∧ mark r = true ∧ r.Above q := by
      intro p q start e h he
      induction h with
      | here => exact .inl he
      | down hpq hrest ih =>
        rcases ih he with h | ⟨r, hqr, hr⟩
        · rcases handedDown_markBelow.1 h with h | ⟨hnode, hmark⟩
          · exact .inl h
          · exact .inr ⟨_, .refl, hnode, hmark, TransGen.head' hpq hrest.below_or_same⟩
        · exact .inr ⟨r, .head hpq hqr, hr⟩
    exact (key h rfl).resolve_left Bool.false_ne_true
  · rintro ⟨r, hpr, hnode, hmark, hrq⟩
    obtain ⟨d, hd⟩ := Handed.exists_of_below (markBelow mark) false hpr
    obtain ⟨r', hrr', hr'q⟩ := TransGen.head'_iff.1 hrq
    obtain ⟨e, he⟩ := Handed.exists_of_below (markBelow mark)
      (handedDown (markBelow mark) r d) hr'q
    have : e = true := he.eq_true_of_start (handedDown_markBelow.2 (.inr ⟨hnode, hmark⟩))
    exact hd.trans (.down hrr' (this ▸ he))

end Mark

/-! ## The nearest node above -/

section Nearest

variable {mark : Place → Bool} {above : Option Place}

/-- The visitor that hands a node down if it is marked, and nothing if it is not. -/
abbrev nearestMarked (mark : Place → Bool) : Place → Option Place → Option (Option Place) :=
  fun p _ => some (if mark p then some p else none)

/-- A place is met with a node only if that node is marked and lies above. -/
theorem Handed.above_of_nearestMarked {above' : Option Place}
    (h : Handed (nearestMarked mark) p above q above') (habove' : above' = some r) :
    above = some r ∨ ReflTransGen Place.Holds p r ∧ r.isNode = true ∧ mark r = true := by
  induction h with
  | here => exact .inl habove'
  | @down p q _ c _ hpq _ ih =>
    rcases ih habove' with h | ⟨hqr, hr⟩
    · by_cases hnode : p.isNode <;> by_cases hmark : mark p <;>
        simp only [handedDown, nearestMarked, hnode, hmark, if_true, if_false, Option.getD_some,
          reduceCtorEq, Option.some.injEq, Bool.false_eq_true] at h
      · exact .inr ⟨h ▸ .refl, h ▸ hnode, h ▸ hmark⟩
      · exact .inl h
      · exact .inl h
    · exact .inr ⟨.head hpq hqr, hr⟩

/-- What a marked node holds directly is met with that node. -/
theorem Handed.nearestMarked_of_holds (hpr : ReflTransGen Place.Holds p r) (hnode : r.isNode = true)
    (hmark : mark r = true) (hrq : r.Holds q) :
    Handed (nearestMarked mark) p above q (some r) := by
  obtain ⟨d, hd⟩ := Handed.exists_of_below (nearestMarked mark) above hpr
  have hdown : handedDown (nearestMarked mark) r d = some r := by
    simp [handedDown, nearestMarked, hnode, hmark]
  exact hdown ▸ hd.tail hrq

end Nearest

end TreeQuery
