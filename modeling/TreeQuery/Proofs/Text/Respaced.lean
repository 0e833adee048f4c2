import TreeQuery.Proofs.Text.Trim

/-!
# Proofs/Text/Respaced — a text with other blanks

`Respaced cs ds` says that `ds` is `cs` with every run of blanks outside of quoted texts replaced by
another run of blanks; the quoted texts are kept as they are.  A quote that nothing closes quotes
nothing, so the blanks behind it may change as well.  `SameUpToBlanks` adds the blanks at the two
ends, of which there may be any number or none.

What is left of a respaced text after its leading digits or its leading blanks, and after trimming,
is respaced again (`Respaced.spanDigits`, `Respaced.dropBlanks`, `Respaced.trim`).  So texts that
are the same up to blanks are, once trimmed, respaced (`SameUpToBlanks.trim`).
-/

namespace TreeQuery.Text

/-- A run of blanks: there is at least one. -/
structure IsBlankRun (blanks : List Char) : Prop where
  ne_nil : blanks ≠ []
  isBlank : ∀ c ∈ blanks, isBlank c = true

/-- **A text and the same text with other runs of blanks**, the quoted texts apart. -/
inductive Respaced : List Char → List Char → Prop
  | nil : Respaced [] []
  | char {c : Char} {cs ds : List Char} (hblank : isBlank c = false) (hquote : c ≠ '"')
      (h : Respaced cs ds) : Respaced (c :: cs) (c :: ds)
  | blanks {blanks blanks' cs ds : List Char} (hblanks : IsBlankRun blanks)
      (hblanks' : IsBlankRun blanks') (h : Respaced cs ds) : Respaced (blanks ++ cs) (blanks' ++ ds)
  | quoted {body cs ds : List Char} (hbody : '"' ∉ body) (h : Respaced cs ds) :
      Respaced ('"' :: (body ++ '"' :: cs)) ('"' :: (body ++ '"' :: ds))
  | unclosed {cs ds : List Char} (hquote : '"' ∉ cs) (h : Respaced cs ds) :
      Respaced ('"' :: cs) ('"' :: ds)

/-- **Two texts that are the same up to blanks**: up to those at the ends, of which there may be
none, and up to which and how many blanks there are in each run between. -/
def SameUpToBlanks (cs ds : List Char) : Prop :=
  ∃ front core back front' core' back' : List Char,
    cs = front ++ core ++ back ∧ ds = front' ++ core' ++ back' ∧ Respaced core core' ∧
      ∀ c ∈ front ++ back ++ front' ++ back', isBlank c = true

section Respaced

variable {cs ds blanks : List Char} {c : Char}

theorem IsBlankRun.head (h : IsBlankRun blanks) :
    ∃ c ∈ (blanks ++ cs).head?, Text.isBlank c = true := by
  obtain ⟨c, tail, rfl⟩ := List.exists_cons_of_ne_nil h.ne_nil
  exact ⟨c, rfl, h.isBlank c List.mem_cons_self⟩

namespace Respaced

/-- **Respaced texts begin alike**: with the same character, or both with a blank. -/
theorem head (h : Respaced cs ds) : ds.head? = cs.head? ∨
    (∃ c ∈ cs.head?, isBlank c = true) ∧ ∃ d ∈ ds.head?, isBlank d = true := by
  cases h with
  | blanks hblanks hblanks' => exact .inr ⟨hblanks.head, hblanks'.head⟩
  | _ => exact .inl rfl

/-- What holds of the first character, whatever blank it may be, holds in both texts. -/
theorem forall_head {p : Char → Prop} (h : Respaced cs ds) (hp : ∀ c, isBlank c = true → p c)
    (hcs : ∀ c ∈ cs.head?, p c) : ∀ c ∈ ds.head?, p c := by
  rcases h.head with hhead | ⟨-, d, hd, hblank⟩
  · rwa [hhead]
  · intro e he
    obtain rfl := Option.mem_unique hd he
    exact hp d hblank

/-- The same character begins both texts, unless it is a blank or opens a quoted text. -/
theorem exists_of_cons (h : Respaced (c :: cs) ds) (hblank : isBlank c = false)
    (hquote : c = '"' → '"' ∉ cs) : ∃ ds', ds = c :: ds' ∧ Respaced cs ds' := by
  generalize htext : c :: cs = text at h
  cases h with
  | nil => exact absurd htext (List.cons_ne_nil _ _)
  | char _ _ h =>
    obtain ⟨rfl, rfl⟩ := List.cons.inj htext
    exact ⟨_, rfl, h⟩
  | blanks hblanks =>
    obtain ⟨d, hd, hd'⟩ := hblanks.head
    rw [← htext] at hd
    obtain rfl := Option.some.inj hd
    exact absurd hd' (by simp [hblank])
  | quoted =>
    obtain ⟨rfl, rfl⟩ := List.cons.inj htext
    exact absurd (by simp) (hquote rfl)
  | unclosed _ h =>
    obtain ⟨rfl, rfl⟩ := List.cons.inj htext
    exact ⟨_, rfl, h⟩

theorem eq_nil (h : Respaced [] ds) : ds = [] := by
  rcases h.head with hhead | ⟨⟨_, hc, _⟩, _⟩
  · exact List.head?_eq_none_iff.1 hhead
  · exact absurd hc (by simp)

theorem quote_not_mem (h : Respaced cs ds) (hquote : '"' ∉ cs) : '"' ∉ ds := by
  induction h with
  | nil => exact hquote
  | char _ hne _ ih => simpa [hne.symm] using ih (List.not_mem_of_not_mem_cons hquote)
  | blanks hblanks hblanks' _ ih =>
    have hcs := ih fun hmem => hquote (List.mem_append_right _ hmem)
    exact fun hmem => (List.mem_append.1 hmem).elim
      (fun hblank => absurd (hblanks'.isBlank _ hblank) (by decide)) hcs
  | quoted => exact absurd List.mem_cons_self hquote
  | unclosed => exact absurd List.mem_cons_self hquote

/-- **Every text is respaced from itself**: the cases of the relation take any text apart. -/
protected theorem refl : ∀ cs : List Char, Respaced cs cs
  | [] => .nil
  | c :: cs => by
    by_cases hblank : isBlank c = true
    · have hrun : IsBlankRun [c] := ⟨List.cons_ne_nil _ _, by simpa using hblank⟩
      exact .blanks hrun hrun (Respaced.refl cs)
    rw [Bool.not_eq_true] at hblank
    by_cases hquote : c = '"'
    · subst hquote
      by_cases hclosed : '"' ∈ cs
      · obtain ⟨body, rest, rfl, hbody⟩ := List.eq_append_cons_of_mem hclosed
        exact .quoted hbody (Respaced.refl rest)
      · exact .unclosed hclosed (Respaced.refl cs)
    · exact .char hblank hquote (Respaced.refl cs)
termination_by cs => cs.length

theorem symm (h : Respaced cs ds) : Respaced ds cs := by
  induction h with
  | nil => exact .nil
  | char hblank hquote _ ih => exact .char hblank hquote ih
  | blanks hblanks hblanks' _ ih => exact .blanks hblanks' hblanks ih
  | quoted hbody _ ih => exact .quoted hbody ih
  | unclosed hquote h ih => exact .unclosed (h.quote_not_mem hquote) ih

/-! ## What is left of respaced texts -/

/-- **Respaced texts begin with the same digits.** -/
theorem spanDigits : ∀ {cs ds : List Char}, Respaced cs ds →
    (Text.spanDigits ds).1 = (Text.spanDigits cs).1 ∧
      Respaced (Text.spanDigits cs).2 (Text.spanDigits ds).2
  | [], _, h => by
    rw [h.eq_nil]
    exact ⟨rfl, .nil⟩
  | c :: cs, ds, h => by
    by_cases hdigit : c.isDigit = true
    · have hblank : isBlank c = false :=
        Bool.eq_false_iff.2 fun hblank => by simp [isDigit_of_isBlank hblank] at hdigit
      have hquote : c ≠ '"' := by
        rintro rfl
        exact absurd hdigit (by decide)
      obtain ⟨ds, rfl, htail⟩ := h.exists_of_cons hblank fun hc => absurd hc hquote
      simpa [Text.spanDigits, hdigit] using spanDigits htail
    · have hcs : ∀ d ∈ (c :: cs).head?, d.isDigit = false := by simpa using hdigit
      have hds := h.forall_head (fun _ hblank => isDigit_of_isBlank hblank) hcs
      rw [spanDigits_of_head hcs, spanDigits_of_head hds]
      exact ⟨rfl, h⟩

theorem dropBlanks (h : Respaced cs ds) : Respaced (Text.dropBlanks cs) (Text.dropBlanks ds) := by
  induction h with
  | nil => exact .nil
  | char hblank hquote h =>
    rw [dropBlanks_cons hblank, dropBlanks_cons hblank]
    exact .char hblank hquote h
  | blanks hblanks hblanks' _ ih =>
    rwa [dropBlanks_append_of_isBlank hblanks.isBlank,
      dropBlanks_append_of_isBlank hblanks'.isBlank]
  | quoted hbody h =>
    rw [dropBlanks_cons (by decide), dropBlanks_cons (by decide)]
    exact .quoted hbody h
  | unclosed hquote h =>
    rw [dropBlanks_cons (by decide), dropBlanks_cons (by decide)]
    exact .unclosed hquote h

theorem trimEnd (h : Respaced cs ds) : Respaced (Text.trimEnd cs) (Text.trimEnd ds) := by
  induction h with
  | nil => exact .nil
  | char hblank hquote _ ih =>
    rw [trimEnd_cons hblank, trimEnd_cons hblank]
    exact .char hblank hquote ih
  | @blanks front front' cs ds hblanks hblanks' h ih =>
    by_cases hcs : Text.trimEnd cs = []
    · have hds : Text.trimEnd ds = [] := eq_nil (hcs ▸ ih)
      rw [trimEnd_append_of_trimEnd_eq_nil hblanks.isBlank hcs,
        trimEnd_append_of_trimEnd_eq_nil hblanks'.isBlank hds]
      exact .nil
    · have hds : Text.trimEnd ds ≠ [] := fun hds => hcs (eq_nil (hds ▸ ih.symm))
      rw [trimEnd_append_of_trimEnd_ne_nil hcs, trimEnd_append_of_trimEnd_ne_nil hds]
      exact .blanks hblanks hblanks' ih
  | @quoted body cs ds hbody _ ih =>
    have hquoted (cs : List Char) :
        Text.trimEnd ('"' :: (body ++ '"' :: cs)) = '"' :: (body ++ '"' :: Text.trimEnd cs) := by
      rw [trimEnd_cons (by decide), trimEnd_append_cons (by decide)]
    rw [hquoted, hquoted]
    exact .quoted hbody ih
  | @unclosed cs ds hquote h ih =>
    rw [trimEnd_cons (by decide), trimEnd_cons (by decide)]
    exact .unclosed (fun hmem => hquote ((trimEnd_sublist cs).subset hmem)) ih

theorem trim (h : Respaced cs ds) : Respaced (Text.trim cs) (Text.trim ds) :=
  h.dropBlanks.trimEnd

end Respaced

/-- **Texts that are the same up to blanks are respaced** once their ends are trimmed. -/
theorem SameUpToBlanks.trim (h : SameUpToBlanks cs ds) :
    Respaced (Text.trim cs) (Text.trim ds) := by
  obtain ⟨front, core, back, front', core', back', rfl, rfl, hcore, hblanks⟩ := h
  simp only [List.forall_mem_append] at hblanks
  obtain ⟨⟨⟨hfront, hback⟩, hfront'⟩, hback'⟩ := hblanks
  rw [trim_append_of_isBlank hback, trim_of_isBlank_append hfront, trim_append_of_isBlank hback',
    trim_of_isBlank_append hfront']
  exact hcore.trim

end Respaced

end TreeQuery.Text
