import LoxScript.Proofs.Editor.Lines
import LoxScript.Proofs.Outline.Written

/-!
The text of an outline, and the program that it belongs to.

No line goes on over a newline and none begins with a blank, so the lines and their depths can be
read off the text.  They are those of the nodes of the program, and there is only one program, but
for the lines of its tokens, that has them.
-/

namespace LoxScript
open Static

namespace OutlineLine

/-- The line as it stands in the text. -/
def row (l : OutlineLine) : List Char := List.replicate (2 * l.depth) ' ' ++ l.text.toList

/-- The text of the line can be told from the newline behind it and the blanks in front of it. -/
structure IsRow (l : OutlineLine) : Prop where
  newline : '\n' ∉ l.text.toList
  blank : l.text.toList.head? ≠ some ' '

theorem toList_render (l : OutlineLine) : l.render.toList = l.row ++ ['\n'] := by
  have hindent (n : Nat) :
      (String.join (List.replicate n "  ")).toList = List.replicate (2 * n) ' ' := by
    induction n with
    | zero => rfl
    | succ n ih =>
      rw [String.toList_join] at ih ⊢
      rw [List.replicate_succ, List.flatMap_cons, ih, Nat.mul_succ, Nat.add_comm,
        List.replicate_add]
      rfl
  simp [render, row, hindent]

/-- The line that stands in the text as the given one. -/
def ofRow (cs : List Char) : OutlineLine :=
  ⟨(cs.takeWhile (· = ' ')).length / 2, String.ofList (cs.dropWhile (· = ' '))⟩

theorem ofRow_row {l : OutlineLine} (h : l.IsRow) : ofRow l.row = l := by
  have hblanks : ∀ c ∈ List.replicate (2 * l.depth) ' ', decide (c = ' ') = true :=
    fun c hc => decide_eq_true (List.eq_of_mem_replicate hc)
  have htext : ∀ c, l.text.toList.head? = some c → decide (c = ' ') = false := by
    intro c hc
    refine decide_eq_false ?_
    rintro rfl
    exact h.blank hc
  obtain ⟨hdepth, hrest⟩ := Segment.span_eq hblanks htext
  rw [ofRow, row, hdepth, hrest, List.length_replicate, Nat.mul_div_cancel_left _ (by decide),
    String.ofList_toList]

end OutlineLine

namespace Outline

theorem rows_render {ls : List OutlineLine} (h : ∀ l ∈ ls, l.IsRow) :
    Lines.rows (render ls).toList = ls.map OutlineLine.row ++ [[]] := by
  induction ls with
  | nil => rfl
  | cons l ls ih =>
    obtain ⟨hl, hls⟩ := List.forall_mem_cons.1 h
    have hrow : '\n' ∉ l.row := by
      rw [OutlineLine.row, List.mem_append, not_or]
      exact ⟨fun hc => absurd (List.eq_of_mem_replicate hc) (by decide), hl.newline⟩
    have htext : (render (l :: ls)).toList = l.row ++ '\n' :: (render ls).toList := by
      simp [render, OutlineLine.toList_render]
    rw [htext, Lines.rows, List.splitOn_append_cons_self_of_not_mem hrow, ← Lines.rows, ih hls]
    rfl

/-- The lines can be read off the text. -/
theorem lines_eq_of_render {ls ls' : List OutlineLine} (hls : ∀ l ∈ ls, l.IsRow)
    (hls' : ∀ l ∈ ls', l.IsRow) (h : render ls = render ls') : ls = ls' := by
  have hrows := rows_render hls
  rw [h, rows_render hls'] at hrows
  have hof {ls : List OutlineLine} (hls : ∀ l ∈ ls, l.IsRow) :
      (ls.map OutlineLine.row).map OutlineLine.ofRow = ls := by
    rw [List.map_map]
    exact (List.map_congr_left fun l hl => OutlineLine.ofRow_row (hls l hl)).trans (List.map_id ls)
  rw [← hof hls, ← hof hls', List.append_cancel_right hrows]

/-- The rows of a text are the lines of the nodes of a program, each as deep as its node, and a line
more for each second branch. -/
def Shows (text : String) (p : List (Stmt Unit)) : Prop :=
  ∃ ls : List OutlineLine, Lines.rows text.toList = ls.map OutlineLine.row ++ [[]] ∧
    (∀ l ∈ ls, l.IsRow) ∧
    ls.Perm (((Node.program p).listed 0).flatMap fun n => n.2.ownLines n.1)

theorem isRow_of_legible {X : Float → Prop} {n : Node Unit} (h : Legible X n)
    (depth : Nat) : ∀ l ∈ n.lines depth, l.IsRow := by
  induction depth, n using Node.listed.induct with
  | case1 depth n ih =>
    intro l hl
    rw [Node.lines_eq] at hl
    obtain ⟨g, hg, hl⟩ := List.mem_flatMap.1 hl
    rcases List.mem_cons.1 hl with rfl | hl
    · exact ⟨Heading.newline_notMem_text (Legible.over_group h hg).plain, g.1.head?_text⟩
    · obtain ⟨m, hm, hl⟩ := List.mem_flatMap.1 hl
      have hshown := Node.mem_shown_of_mem_groups hg hm
      exact ih m hshown (h.parts m hshown) l hl

/-- The program, as it is read from the tokens of a text without complaints. -/
def Reads (source : String) (p : List (Stmt Unit)) : Prop :=
  Grammar.program (Scan.ofText source).endLine (Scan.ofText source).tokens = (p, [])

theorem shows_render {X : Float → Prop} {p : List (Stmt Unit)}
    (h : Legible X (.program p)) : Shows (render (ofProgram p)) p :=
  have hrows := isRow_of_legible h 0
  ⟨ofProgram p, rows_render hrows, hrows, Node.lines_perm 0 (.program p)⟩

/-- The text of an outline has the lines of the program, and if two texts are the same, so are the
programs, but for the lines of their tokens. -/
theorem render_unambiguous {source source' : String} {p p' : List (Stmt Unit)}
    (h : Reads source p) (h' : Reads source' p') :
    Shows (render (ofProgram p)) p ∧
      (ToldApart (Numeral source) (Numeral source') →
        render (ofProgram p) = render (ofProgram p') →
          Renumber.stmts (fun _ => 0) p = Renumber.stmts (fun _ => 0) p') := by
  have hlegible := legible_program h
  have hlegible' := legible_program h'
  refine ⟨shows_render hlegible, fun hnumbers htext => ?_⟩
  have hlines : (Node.program p).lines 0 = (Node.program p').lines 0 :=
    lines_eq_of_render (isRow_of_legible hlegible 0) (isRow_of_legible hlegible' 0) htext
  have hblank : [(Node.program p).blank] = [(Node.program p').blank] := by
    refine blank_eq_of_lines hnumbers 0 (List.forall_mem_singleton.2 hlegible)
      (List.forall_mem_singleton.2 hlegible') ?_
    rw [List.flatMap_singleton, List.flatMap_singleton, hlines]
  exact Node.program.inj (List.cons.inj hblank).1

/-- A conditional with its second branch on the given line, and with a string that looks like two
lines of its own outline. -/
def conditional (line : Nat) : List (Stmt Unit) :=
  [.branch (.var ⟨"a", 1⟩ ()) (.print (.literal (.string "\\n\nElse")))
    (some (.expression (.assign ⟨"b", line⟩ ()
      (.call (.var ⟨"f", line⟩ ()) line [.literal (.number (.ofScientific 1 true 0))]))))]

/-- Two texts with a comment and newlines in different places. -/
theorem render_unambiguous_conditional :
    Reads "if (a) print \"\\n\nElse\"; else b = f(1);" (conditional 2) ∧
      Reads "if (a) // a\nprint \"\\n\nElse\";\nelse b = f(1);" (conditional 4) ∧
      render (ofProgram (conditional 2)) = render (ofProgram (conditional 4)) ∧
      Shows (render (ofProgram (conditional 2))) (conditional 2) ∧
      Renumber.stmts (fun _ => 0) (conditional 2) =
        Renumber.stmts (fun _ => 0) (conditional 4) := by
  have hreads : Reads "if (a) print \"\\n\nElse\"; else b = f(1);" (conditional 2) := by
    with_unfolding_all rfl
  have hreads' : Reads "if (a) // a\nprint \"\\n\nElse\";\nelse b = f(1);" (conditional 4) := by
    with_unfolding_all rfl
  have hnumeral {source : String} (h : (Scan.ofText source).tokens.map Token.kind =
      [.keyword .if_, .symbol .leftParen, .identifier "a", .symbol .rightParen, .keyword .print_,
        .string "\\n\nElse", .symbol .semicolon, .keyword .else_, .identifier "b", .symbol .equal,
        .identifier "f", .symbol .leftParen, .number "1" (.ofScientific 1 true 0),
        .symbol .rightParen, .symbol .semicolon]) {x : Float} (hx : Numeral source x) :
      x = .ofScientific 1 true 0 := by
    obtain ⟨text, hmem⟩ := hx
    rw [h] at hmem
    have hkind : text = "1" ∧ x = .ofScientific 1 true 0 := by simpa using hmem
    exact hkind.2
  have hnumbers : ToldApart (Numeral "if (a) print \"\\n\nElse\"; else b = f(1);")
      (Numeral "if (a) // a\nprint \"\\n\nElse\";\nelse b = f(1);") := by
    intro x y hx hy _
    rw [hnumeral (by with_unfolding_all rfl) hx, hnumeral (by with_unfolding_all rfl) hy]
  have htext : render (ofProgram (conditional 2)) = render (ofProgram (conditional 4)) := rfl
  have h := render_unambiguous hreads hreads'
  exact ⟨hreads, hreads', htext, h.1, h.2 hnumbers htext⟩

end Outline
end LoxScript
