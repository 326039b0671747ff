import LoxScript.Text.Lines

/-!
The two rules for lines, compared.

The scanner counts line feeds, so its lines are the pieces between them (`rows`).  The lines of an
editor are at least as many, because other characters end one as well.  In front of such a character
the two agree: as long as each row is whole, the lines of the editor are the rows, each without the
carriage return in front of its line feed.
-/

namespace LoxScript
namespace Lines

/-- The lines of a text as they are counted for complaints. -/
def rows (text : List Char) : List (List Char) := text.splitOn '\n'

/-- A row without the carriage return at its end. -/
def chop (row : List Char) : List Char :=
  if row.getLast? = some '\r' then row.dropLast else row

/-- Nothing ends a line inside of the row. -/
def IsWhole (row : List Char) : Prop := ∀ c ∈ chop row, isBreak c = false

instance (row : List Char) : Decidable (IsWhole row) :=
  List.decidableBAll (fun c => isBreak c = false) (chop row)

@[simp] theorem chop_append_return (cs : List Char) : chop (cs ++ ['\r']) = cs := by
  simp [chop]

/-- With its carriage return or without it, a row is what is left of it after chopping. -/
theorem eq_or_eq_chop (row : List Char) : row = chop row ∨ row = chop row ++ ['\r'] := by
  unfold chop
  split
  · rename_i h
    obtain ⟨cs, rfl⟩ := List.getLast?_eq_some_iff.1 h
    simp
  · exact .inl rfl

theorem length_rows (text : List Char) : (rows text).length = text.count '\n' + 1 := by
  rcases Decidable.em ('\n' ∈ text) with h | h
  · obtain ⟨row, rest, rfl, hrow⟩ := List.eq_append_cons_of_mem h
    have ih := length_rows rest
    simp only [rows, List.splitOn_append_cons_self_of_not_mem hrow, List.length_cons] at ih ⊢
    rw [ih, List.count_append, List.count_eq_zero.2 hrow, List.count_cons_self]
    omega
  · simp [rows, List.splitOn_eq_singleton h, List.count_eq_zero.2 h]
termination_by text.length
decreasing_by grind

/-- Characters that end no line belong to the line that has been begun. -/
theorem splitFrom_append {cs : List Char} (h : ∀ c ∈ cs, isBreak c = false)
    (current rest : List Char) :
    splitFrom current (cs ++ rest) = splitFrom (cs.reverse ++ current) rest := by
  induction cs generalizing current with
  | nil => rfl
  | cons c cs ih =>
    have hc : isBreak c = false := h c List.mem_cons_self
    have hreturn : c ≠ '\r' := by
      rintro rfl
      cases hc
    have hstep : splitFrom current (c :: (cs ++ rest)) = splitFrom (c :: current) (cs ++ rest) := by
      rw [splitFrom.eq_3 _ _ _ fun _ h _ => hreturn h, if_neg (by simp [hc])]
    rw [List.cons_append, hstep, ih fun c' h' => h c' (List.mem_cons_of_mem c h')]
    simp

/-- A whole row with its line feed is one line. -/
theorem splitFrom_row {row : List Char} (h : IsWhole row) (rest : List Char) :
    splitFrom [] (row ++ '\n' :: rest) = chop row :: splitFrom [] rest := by
  have hline (current : List Char) :
      splitFrom current ('\n' :: rest) = current.reverse :: splitFrom [] rest := rfl
  have hreturn (current : List Char) :
      splitFrom current ('\r' :: '\n' :: rest) = current.reverse :: splitFrom [] rest := rfl
  rcases eq_or_eq_chop row with hrow | hrow
  · have hsplit := splitFrom_append h [] ('\n' :: rest)
    rw [← hrow, hline] at hsplit
    rw [hsplit, ← hrow]
    simp
  · rw [hrow, List.append_assoc, splitFrom_append h, List.singleton_append, hreturn,
      chop_append_return]
    simp

/-- A whole row at the end of the text is the last line, if there is anything on it. -/
theorem splitFrom_lastRow {row : List Char} (h : IsWhole row) :
    splitFrom [] row = [chop row] ∨ splitFrom [] row = [] ∧ chop row = [] := by
  have hend (current : List Char) :
      splitFrom current [] = if current.isEmpty then [] else [current.reverse] := rfl
  rcases eq_or_eq_chop row with hrow | hrow
  · have hsplit : splitFrom [] row = splitFrom (chop row).reverse [] := by
      simpa [← hrow] using splitFrom_append h [] []
    rw [hsplit, hend]
    cases chop row <;> simp
  · have hsplit : splitFrom [] row = splitFrom (chop row).reverse ['\r'] := by
      rw [hrow, splitFrom_append h, chop_append_return, List.append_nil]
    rw [hsplit]
    left
    show (chop row).reverse.reverse :: splitFrom [] [] = _
    rw [List.reverse_reverse]
    rfl

/-- Behind whole rows, the line of an editor with the number of a whole row is as wide as it. -/
theorem width_split {text : List Char} {before after : List (List Char)} {row : List Char}
    (hrows : rows text = before ++ row :: after) (hbefore : ∀ r ∈ before, IsWhole r)
    (hrow : IsWhole row) :
    ((splitFrom [] text)[before.length]?.map List.length).getD 0 = (chop row).length := by
  induction before generalizing text with
  | nil =>
    rcases Decidable.em ('\n' ∈ text) with h | h
    · obtain ⟨first, rest, rfl, hfirst⟩ := List.eq_append_cons_of_mem h
      rw [rows, List.splitOn_append_cons_self_of_not_mem hfirst] at hrows
      cases hrows
      rw [splitFrom_row hrow]
      rfl
    · rw [rows, List.splitOn_eq_singleton h] at hrows
      cases hrows
      rcases splitFrom_lastRow hrow with hlast | ⟨hlast, hempty⟩
      · rw [hlast]
        rfl
      · rw [hlast, hempty]
        rfl
  | cons first before ih =>
    have h : '\n' ∈ text := by
      refine Decidable.byContradiction fun h => ?_
      rw [rows, List.splitOn_eq_singleton h] at hrows
      simp at hrows
    obtain ⟨first', rest, rfl, hfirst⟩ := List.eq_append_cons_of_mem h
    rw [rows, List.splitOn_append_cons_self_of_not_mem hfirst, List.cons_append] at hrows
    obtain ⟨rfl, hrest⟩ := List.cons.inj hrows
    rw [splitFrom_row (hbefore first' List.mem_cons_self), List.length_cons,
      List.getElem?_cons_succ]
    exact ih hrest fun r hr => hbefore r (List.mem_cons_of_mem _ hr)

end Lines
end LoxScript
