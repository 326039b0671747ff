import Mathlib
import LoxScript.Editor
import LoxScript.Proofs.Editor.Lines
import LoxScript.Proofs.Grammar.Readers
import LoxScript.Proofs.Joined.Compiling
import LoxScript.Proofs.Session.Compiling

/-!
Where an editor shows a complaint.

A complaint is about a line of the text: about the line of a token, or about the last line.  So
there is a row with its number, and the marker starts at the beginning of it.  The marker ends where
the row ends as long as the lines of the editor are those of the scanner up to there.
-/

namespace LoxScript

section
variable (P : Nat → Prop)

/-- The tokens that are left and the complaints are on such lines, if the tokens read from are. -/
def Parsed.OnLines {a : Bool} {ts : List Token} {α : Type} (p : Parsed a ts α) : Prop :=
  (∀ t ∈ ts, P t.line) →
    match p with
    | ok _ rest _ notes | failed rest _ notes _ => (∀ t ∈ rest, P t.line) ∧ ∀ d ∈ notes, P d.line

end

namespace Parsed
variable {P : Nat → Prop} {a b : Bool} {n : Nat} {t : Token} {ts : List Token} {α β : Type}

theorem onLines_done (v : α) (ts : List Token) : (done v ts).OnLines P :=
  fun h => ⟨h, nofun⟩

theorem line_report (hn : P n) (h : ∀ t ∈ ts, P t.line) (m : Mistake) :
    P (m.report n ts).line := by
  cases ts with
  | nil => exact hn
  | cons t rest => exact h t List.mem_cons_self

theorem onLines_after {p : Parsed a ts α} (hp : p.OnLines P) {earlier : List Diagnostic}
    (he : (∀ t ∈ ts, P t.line) → ∀ d ∈ earlier, P d.line) : (p.after earlier).OnLines P := by
  intro h
  cases p with
  | _ => exact ⟨(hp h).1, List.forall_mem_append.2 ⟨he h, (hp h).2⟩⟩

theorem onLines_behind {p : Parsed a ts α} (hp : p.OnLines P) : (p.behind (t := t)).OnLines P := by
  intro h
  cases p with
  | _ => exact hp fun u hu => h u (List.mem_cons_of_mem t hu)

theorem onLines_andThen {p : Parsed a ts α}
    {next : α → (rest : List Token) → Shrinks a rest ts → Parsed b rest β} (hp : p.OnLines P)
    (hn : ∀ v rest hs, (next v rest hs).OnLines P) : (p.andThen next).OnLines P := by
  intro h
  cases p with
  | failed rest hs notes _ => exact hp h
  | ok v rest hs notes =>
    obtain ⟨hrest, hnotes⟩ := hp h
    have hv := hn v rest hs hrest
    simp only [andThen]
    cases hnext : next v rest hs with
    | _ =>
      rw [hnext] at hv
      exact ⟨hv.1, List.forall_mem_append.2 ⟨hnotes, hv.2⟩⟩

/-- Recovery leaves some of the tokens at which the mistake was found. -/
theorem onLines_recover {p : Parsed true (t :: ts) (Stmt Unit)} (hp : p.OnLines P)
    (h : ∀ u ∈ t :: ts, P u.line) :
    (∀ u ∈ p.recover.rest, P u.line) ∧ ∀ d ∈ p.recover.notes, P d.line := by
  cases p with
  | ok s rest hs notes => exact hp h
  | failed rest hs notes _ => exact ⟨fun u hu => (hp h).1 u (mem_synchronize hu), (hp h).2⟩

theorem onLines_recovered {p : Parsed true (t :: ts) (Stmt Unit)} {q : Parsed b p.recover.rest β}
    (f : β → α) (hp : p.OnLines P) (hq : q.OnLines P) :
    (((q.map f).within p.recover.shrinks).after p.recover.notes).OnLines P := by
  intro h
  obtain ⟨hrest, hnotes⟩ := onLines_recover hp h
  cases q with
  | _ => exact ⟨(hq hrest).1, List.forall_mem_append.2 ⟨hnotes, (hq hrest).2⟩⟩

/-- The name of a wrong target was taken before its value, and is complained about after it. -/
theorem onLines_assigned {p : Parsed true ts (Expr Unit)} (m : Mistake) (target : Expr Unit)
    (assign? : Expr Unit → Option (Expr Unit)) (hp : p.OnLines P) :
    (behind (t := t) (p.andThen fun value rest _ =>
      match assign? value with
      | some e => done e rest
      | none => (done target rest).after [.atToken t m.message])).OnLines P := by
  intro h
  have ht : P t.line := h t List.mem_cons_self
  refine onLines_behind (onLines_andThen hp fun value rest _ => ?_) h
  split
  · exact onLines_done _ rest
  · exact onLines_after (onLines_done target rest) fun _ => List.forall_mem_singleton.2 ht

theorem closed_onLines (hn : P n) : Closed n (OnLines P) where
  done := onLines_done
  fail m _ h := ⟨h, List.forall_mem_singleton.2 (line_report hn h m)⟩
  after m hp := onLines_after hp fun h => List.forall_mem_singleton.2 (line_report hn h m)
  behind := onLines_behind
  weaken {_ _ _ p} hp := by cases p <;> exact hp
  map {_ _ _ _ p} _ hp := by cases p <;> exact hp
  andThen := onLines_andThen
  assigned := onLines_assigned
  recovered := onLines_recovered

end Parsed

namespace Grammar
variable {P : Nat → Prop} {n : Nat}

/-- A program is complained about on the lines of its tokens and at its end. -/
theorem program_onLines (hn : P n) (ts : List Token) (h : ∀ t ∈ ts, P t.line) :
    ∀ d ∈ (program n ts).2, P d.line := by
  cases ts with
  | nil =>
    rw [program]
    exact List.forall_mem_nil _
  | cons t rest =>
    obtain ⟨p, hp, hd⟩ := declaration_of_closed (Parsed.closed_onLines hn) t rest
    obtain ⟨hrest, hnotes⟩ := Parsed.onLines_recover hp h
    rw [← hd] at hrest hnotes
    have hlt := (declaration n t rest).shrinks.lt
    have ih := program_onLines hn (declaration n t rest).rest hrest
    rw [program]
    exact List.forall_mem_append.2 ⟨hnotes, ih⟩
termination_by ts.length

end Grammar

namespace Scan

/-- Tokens and complaints are placed on lines from the first one to the last. -/
theorem lines_place (line : Nat) (ss : List Segment) :
    (∀ t ∈ (place line ss).tokens, line ≤ t.line ∧ t.line ≤ (place line ss).endLine) ∧
    ∀ d ∈ (place line ss).diagnostics, line ≤ d.line ∧ d.line ≤ (place line ss).endLine := by
  induction ss generalizing line with
  | nil => exact ⟨nofun, nofun⟩
  | cons s rest ih =>
    obtain ⟨htokens, hdiagnostics⟩ := ih (line + s.newlines)
    have hend : line + s.newlines ≤ (place (line + s.newlines) rest).endLine := by
      rw [endLine_place]
      exact Nat.le_add_right _ _
    simp only [place]
    refine ⟨List.forall_mem_append.2 ⟨?_, ?_⟩, List.forall_mem_append.2 ⟨?_, ?_⟩⟩
    · simp only [Option.mem_toList, Option.map_eq_some_iff]
      rintro _ ⟨_, -, rfl⟩
      exact ⟨Nat.le_add_right _ _, hend⟩
    · exact fun t ht => ⟨Nat.le_of_add_right_le (htokens t ht).1, (htokens t ht).2⟩
    · simp only [Option.mem_toList, Option.map_eq_some_iff]
      rintro _ ⟨_, -, rfl⟩
      exact ⟨Nat.le_add_right _ _, hend⟩
    · exact fun d hd => ⟨Nat.le_of_add_right_le (hdiagnostics d hd).1, (hdiagnostics d hd).2⟩

end Scan

/-- Every complaint made in reading a text is about one of its lines. -/
theorem Reading.onLines (source : String) : ∀ d ∈ (Reading.ofText source).diagnostics,
    1 ≤ d.line ∧ d.line ≤ (Scan.ofText source).endLine := by
  obtain ⟨htokens, hdiagnostics⟩ := Scan.lines_place 1 (segments source.toList)
  have hend : 1 ≤ (Scan.ofText source).endLine := by
    rw [Scan.ofText, Scan.endLine_place]
    exact Nat.le_add_right _ _
  exact List.forall_mem_append.2 ⟨hdiagnostics,
    Grammar.program_onLines (P := fun l => 1 ≤ l ∧ l ≤ (Scan.ofText source).endLine)
      ⟨hend, Nat.le_refl _⟩ _ htokens⟩

/-- Lines that are moved nowhere in the tokens are moved nowhere in what is read. -/
theorem Grammar.renumber_program {f : Nat → Nat} {n : Nat} {ts : List Token}
    (hnotes : (program n ts).2 = []) (h : ∀ t ∈ ts, f t.line = t.line) :
    Renumber.stmts f (program n ts).1 = (program n ts).1 := by
  have hts : ts.map (·.renumber f) = ts :=
    (List.map_congr_left fun t ht => congrArg (Token.mk t.kind) (h t ht)).trans (List.map_id ts)
  have hmoved : program n (moved f [] ts) = (Renumber.stmts f (program n ts).1 ++ [], []) := by
    have helse (l : Nat) (r : List Token) : [] ≠ ⟨.keyword .else_, l⟩ :: r := nofun
    rw [program_moved n n helse ts hnotes, program]
  rw [moved, hts, List.append_nil, List.append_nil] at hmoved
  exact (congrArg Prod.fst hmoved).symm

/-- So are the complaints about scopes. -/
theorem Resolve.line_of_renumber {f : Nat → Nat} {ss : List (Stmt Unit)}
    (h : Renumber.stmts f ss = ss) : ∀ d ∈ (program ss).notes, f d.line = d.line := by
  have hnotes : (program ss).notes.map id = (program ss).notes.map (·.renumber f) := by
    have hmoved := moved_stmts f ⟨.outermost, .outside⟩ [] ss
    rw [h] at hmoved
    rw [List.map_id]
    exact congrArg Noted.notes hmoved
  intro d hd
  exact congrArg Diagnostic.line (List.map_inj_left.1 hnotes d hd).symm

/-- Every complaint about a text is about one of its lines.  Those about scopes are on lines of
tokens, since a program does not change if all other lines are moved to the last one. -/
theorem check_onLines (source : String) :
    ∀ d ∈ check source, 1 ≤ d.line ∧ d.line ≤ (Scan.ofText source).endLine := by
  cases hcompile : compile source with
  | ok program =>
    rw [check_of_ok hcompile]
    nofun
  | error notes =>
    rw [check_of_error hcompile]
    obtain ⟨-, rfl⟩ := notes_of_error hcompile
    split
    · rename_i hread
      let last := (Scan.ofText source).endLine
      let f (l : Nat) : Nat := if 1 ≤ l ∧ l ≤ last then l else last
      have htokens : ∀ t ∈ (Scan.ofText source).tokens, f t.line = t.line :=
        fun t ht => if_pos ((Scan.lines_place 1 (segments source.toList)).1 t ht)
      have hparse := (List.append_eq_nil_iff.1 hread).2
      have hlast : 1 ≤ last := by
        show 1 ≤ (Scan.place 1 _).endLine
        rw [Scan.endLine_place]
        exact Nat.le_add_right _ _
      intro d hd
      have hd := Resolve.line_of_renumber (Grammar.renumber_program hparse htokens) d hd
      show 1 ≤ d.line ∧ d.line ≤ last
      grind
    · exact Reading.onLines source

namespace Marker

/-- The marker of a complaint starts where the row begins that it is about, and ends on that row.
If neither this row nor one in front of it holds a character that ends a line for editors only, it
ends where the row ends. -/
theorem covers_row {source : String} {d : Diagnostic} (hd : d ∈ check source) :
    ofDiagnostic (Lines.split source) d ∈ ofText source ∧
    ∃ before row after, Lines.rows source.toList = before ++ row :: after ∧
      d.line = before.length + 1 ∧
      (ofDiagnostic (Lines.split source) d).start = ⟨before.length, 0⟩ ∧
      (ofDiagnostic (Lines.split source) d).stop.line = before.length ∧
      ((∀ r ∈ before, Lines.IsWhole r) → Lines.IsWhole row →
        (ofDiagnostic (Lines.split source) d).stop.character = (Lines.chop row).length) := by
  obtain ⟨hfirst, hlast⟩ := check_onLines source d hd
  rw [Scan.ofText, Scan.endLine_place, text_segments, Nat.add_comm, ← Lines.length_rows] at hlast
  obtain ⟨i, hi⟩ : ∃ i, d.line = i + 1 := ⟨d.line - 1, by omega⟩
  have hlt : i < (Lines.rows source.toList).length := by omega
  have hrows := List.take_append_drop i (Lines.rows source.toList)
  rw [List.drop_eq_getElem_cons hlt] at hrows
  have hbefore : ((Lines.rows source.toList).take i).length = i :=
    List.length_take_of_le (Nat.le_of_lt hlt)
  have hindex : d.line - 1 = ((Lines.rows source.toList).take i).length := by omega
  refine ⟨List.mem_map_of_mem hd, _, _, _, hrows.symm, by omega, ?_, hindex, fun hb hr => ?_⟩
  · simp only [ofDiagnostic, hindex]
  · simp only [ofDiagnostic, hindex]
    exact Lines.width_split hrows.symm hb hr

/-- The carriage return in front of the line feed is on neither line. -/
theorem covers_row_return :
    ∃ d before row after, d ∈ check "// a\r\nb; @\r\n" ∧
      Lines.rows "// a\r\nb; @\r\n".toList = before ++ row :: after ∧
      (∀ r ∈ before, Lines.IsWhole r) ∧ Lines.IsWhole row ∧ (Lines.chop row).length = 4 ∧
      (ofDiagnostic (Lines.split "// a\r\nb; @\r\n") d).stop = ⟨1, 4⟩ := by
  have hcompile : compile "// a\r\nb; @\r\n" = .error [⟨2, "", "Unexpected character."⟩] := by cbv
  have hd : ⟨2, "", "Unexpected character."⟩ ∈ check "// a\r\nb; @\r\n" := by
    rw [check_of_error hcompile]
    exact List.mem_cons_self
  obtain ⟨-, before, row, after, hrows, hline, -, hstop, hwidth⟩ := covers_row hd
  have htext : "// a\r\nb; @\r\n".toList =
      ['/', '/', ' ', 'a', '\r', '\n', 'b', ';', ' ', '@', '\r', '\n'] := String.toList_ofList
  have hpieces : Lines.rows "// a\r\nb; @\r\n".toList =
      [['/', '/', ' ', 'a', '\r'], ['b', ';', ' ', '@', '\r'], []] := by
    rw [htext]
    decide +kernel
  obtain ⟨first, rfl⟩ : ∃ first, before = [first] :=
    List.length_eq_one_iff.1 (Nat.succ.inj hline).symm
  obtain ⟨rfl, rfl, rfl⟩ :
      ['/', '/', ' ', 'a', '\r'] = first ∧ ['b', ';', ' ', '@', '\r'] = row ∧ [[]] = after := by
    simpa using hpieces.symm.trans hrows
  have hfirst : ∀ r ∈ [['/', '/', ' ', 'a', '\r']], Lines.IsWhole r := by decide
  have hrow : Lines.IsWhole ['b', ';', ' ', '@', '\r'] := by decide
  have hlength : (Lines.chop ['b', ';', ' ', '@', '\r']).length = 4 := by decide
  refine ⟨_, _, _, _, hd, hrows, hfirst, hrow, hlength, ?_⟩
  rw [← hlength, ← hwidth hfirst hrow]
  exact congrArg (Position.mk · _) hstop

end Marker
end LoxScript
