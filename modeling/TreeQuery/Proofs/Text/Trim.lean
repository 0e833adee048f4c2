import Mathlib.Data.List.TakeWhile
import TreeQuery.Proofs.Token.Scan

/-!
# Proofs/Text/Trim — what trimming leaves of a text that is put together

A text trimmed at its front is `dropBlanks`, at its end `trimEnd`, and at both `trim`.  On either
side of a character that is no blank the two ends are trimmed apart (`trim_append_cons`); blanks
added at an end are trimmed away.
-/

namespace TreeQuery.Text

variable {cs front back blanks : List Char} {c : Char}

/-- The text without the blanks at its end. -/
def trimEnd (cs : List Char) : List Char :=
  (dropBlanks cs.reverse).reverse

theorem trim_eq_trimEnd (cs : List Char) : trim cs = trimEnd (dropBlanks cs) :=
  rfl

/-! ## Leading blanks -/

/-- What is left after the leading blanks begins with no blank. -/
theorem head_dropBlanks : ∀ c ∈ (dropBlanks cs).head?, isBlank c = false := by
  intro c hc
  have hall := List.head?_dropWhile_not isBlank cs
  rw [← dropBlanks, hc] at hall
  simpa using hall

theorem dropBlanks_append_of_isBlank (h : ∀ c ∈ blanks, isBlank c = true) :
    dropBlanks (blanks ++ cs) = dropBlanks cs :=
  List.dropWhile_append_of_pos h

theorem dropBlanks_cons (hc : isBlank c = false) : dropBlanks (c :: cs) = c :: cs :=
  dropBlanks_of_head (by simpa using hc)

/-- A character that is no blank keeps what stands behind it. -/
theorem dropBlanks_append_cons (hc : isBlank c = false) :
    dropBlanks (front ++ c :: back) = dropBlanks front ++ c :: back := by
  rw [dropBlanks, dropBlanks, List.dropWhile_append, ← dropBlanks, ← dropBlanks,
    dropBlanks_cons hc]
  split
  · next h => rw [List.isEmpty_iff.1 h, List.nil_append]
  · rfl

/-- A text is its leading blanks and what is left after them. -/
theorem exists_dropBlanks (cs : List Char) :
    ∃ blanks, (∀ c ∈ blanks, isBlank c = true) ∧ cs = blanks ++ dropBlanks cs :=
  ⟨cs.takeWhile isBlank, fun _ => List.mem_takeWhile_imp, List.takeWhile_append_dropWhile.symm⟩

theorem dropBlanks_dropBlanks_append :
    dropBlanks (dropBlanks front ++ back) = dropBlanks (front ++ back) := by
  obtain ⟨blanks, hblanks, hfront⟩ := exists_dropBlanks front
  conv_rhs => rw [hfront, List.append_assoc, dropBlanks_append_of_isBlank hblanks]

/-- Among blanks there is no character that is none. -/
theorem count_of_isBlank (h : ∀ c ∈ blanks, isBlank c = true) (hc : isBlank c = false) :
    blanks.count c = 0 :=
  List.count_eq_zero_of_not_mem fun hmem => by simp [h c hmem] at hc

/-- Dropping blanks drops no character that is none. -/
theorem count_dropBlanks (hc : isBlank c = false) : (dropBlanks cs).count c = cs.count c := by
  obtain ⟨blanks, hblanks, hcs⟩ := exists_dropBlanks cs
  conv_rhs => rw [hcs, List.count_append, count_of_isBlank hblanks hc, Nat.zero_add]

/-! ## Trailing blanks -/

theorem trimEnd_append_of_isBlank (h : ∀ c ∈ blanks, isBlank c = true) :
    trimEnd (cs ++ blanks) = trimEnd cs := by
  rw [trimEnd, List.reverse_append, dropBlanks_append_of_isBlank (by simpa using h), ← trimEnd]

/-- A character that is no blank keeps what stands before it. -/
theorem trimEnd_append_cons (hc : isBlank c = false) :
    trimEnd (front ++ c :: back) = front ++ c :: trimEnd back := by
  have hreverse : (front ++ c :: back).reverse = back.reverse ++ c :: front.reverse := by simp
  rw [trimEnd, hreverse, dropBlanks_append_cons hc]
  simp [trimEnd]

theorem trimEnd_cons (hc : isBlank c = false) : trimEnd (c :: cs) = c :: trimEnd cs := by
  rw [← List.nil_append (c :: cs), trimEnd_append_cons hc, List.nil_append]

/-- A text is what trimming its end leaves, and the blanks at its end. -/
theorem exists_trimEnd (cs : List Char) :
    ∃ blanks, (∀ c ∈ blanks, isBlank c = true) ∧ cs = trimEnd cs ++ blanks := by
  obtain ⟨blanks, hblanks, hcs⟩ := exists_dropBlanks cs.reverse
  refine ⟨blanks.reverse, by simpa using hblanks, ?_⟩
  rw [trimEnd, ← List.reverse_append, ← hcs, List.reverse_reverse]

theorem getLast_trimEnd : ∀ c ∈ (trimEnd cs).getLast?, isBlank c = false := by
  rw [trimEnd, List.getLast?_reverse]
  exact head_dropBlanks

theorem trimEnd_sublist (cs : List Char) : (trimEnd cs).Sublist cs := by
  obtain ⟨blanks, -, hcs⟩ := exists_trimEnd cs
  conv_rhs => rw [hcs]
  exact List.sublist_append_left _ _

/-- In front of nothing but blanks, blanks are trimmed away as well, … -/
theorem trimEnd_append_of_trimEnd_eq_nil (hblanks : ∀ c ∈ blanks, isBlank c = true)
    (h : trimEnd cs = []) : trimEnd (blanks ++ cs) = [] := by
  obtain ⟨more, hmore, hcs⟩ := exists_trimEnd cs
  rw [h, List.nil_append] at hcs
  have hall : ∀ c ∈ blanks ++ cs, isBlank c = true :=
    List.forall_mem_append.2 ⟨hblanks, hcs ▸ hmore⟩
  rw [← List.nil_append (blanks ++ cs), trimEnd_append_of_isBlank hall]
  rfl

/-- … and in front of anything else a text is kept. -/
theorem trimEnd_append_of_trimEnd_ne_nil (h : trimEnd cs ≠ []) :
    trimEnd (front ++ cs) = front ++ trimEnd cs := by
  obtain ⟨blanks, hblanks, hcs⟩ := exists_trimEnd cs
  obtain ⟨init, last, hlast⟩ := (List.eq_nil_or_concat' (trimEnd cs)).resolve_left h
  have hmem : last ∈ (trimEnd cs).getLast? := by simp [hlast]
  have hnot : isBlank last = false := getLast_trimEnd last hmem
  have hnil : trimEnd [] = [] := rfl
  conv_lhs => rw [hcs, ← List.append_assoc, trimEnd_append_of_isBlank hblanks, hlast,
    ← List.append_assoc, trimEnd_append_cons hnot, hnil]
  rw [hlast, List.append_assoc]

/-- The last character of what is left of a text is that of the text. -/
theorem getLast_of_suffix {left : List Char} (h : left <:+ cs)
    (hend : ∀ c ∈ cs.getLast?, isBlank c = false) : ∀ c ∈ left.getLast?, isBlank c = false := by
  obtain ⟨front, rfl⟩ := h
  intro c hc
  refine hend c ?_
  rw [List.getLast?_append, hc]
  rfl

theorem count_trimEnd (hc : isBlank c = false) : (trimEnd cs).count c = cs.count c := by
  rw [trimEnd, List.count_reverse, count_dropBlanks hc, List.count_reverse]

/-! ## Both ends -/

/-- **The order in which the two ends are trimmed does not matter.** -/
theorem dropBlanks_trimEnd (cs : List Char) : dropBlanks (trimEnd cs) = trim cs := by
  obtain ⟨blanks, hblanks, hcs⟩ := exists_dropBlanks cs
  have hhead : ∀ c ∈ (dropBlanks cs).head?, isBlank c = false := head_dropBlanks
  rw [trim_eq_trimEnd]
  generalize dropBlanks cs = core at hcs hhead
  subst hcs
  cases core with
  | nil =>
    have hnil : trimEnd ([] ++ blanks) = [] := trimEnd_append_of_isBlank hblanks
    rw [List.append_nil, ← List.nil_append blanks, hnil]
    rfl
  | cons c core =>
    have hc := hhead c rfl
    rw [trimEnd_append_cons hc, dropBlanks_append_of_isBlank hblanks, trimEnd_cons hc,
      dropBlanks_cons hc]

/-- **On either side of a character that is no blank, a text is trimmed at one end.** -/
theorem trim_append_cons (hc : isBlank c = false) :
    trim (front ++ c :: back) = dropBlanks front ++ c :: trimEnd back := by
  rw [trim_eq_trimEnd, dropBlanks_append_cons hc, trimEnd_append_cons hc]

theorem count_trim (hc : isBlank c = false) : (trim cs).count c = cs.count c := by
  rw [trim_eq_trimEnd, count_trimEnd hc, count_dropBlanks hc]

theorem trim_append_of_isBlank (h : ∀ c ∈ blanks, isBlank c = true) :
    trim (cs ++ blanks) = trim cs := by
  rw [← dropBlanks_trimEnd, trimEnd_append_of_isBlank h, dropBlanks_trimEnd]

theorem trim_of_isBlank_append (h : ∀ c ∈ blanks, isBlank c = true) :
    trim (blanks ++ cs) = trim cs := by
  rw [trim_eq_trimEnd, dropBlanks_append_of_isBlank h, ← trim_eq_trimEnd]

end TreeQuery.Text
