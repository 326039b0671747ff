import LoxScript.Proofs.Grammar.Readers

/-!
Where reading goes on after a mistake.

A reader leaves an end of its tokens, and one that fails has complained last about the first token
that it leaves.  Recovery gives that token up, whatever it is, and goes on at the first place behind
it where a statement may begin.  So a word that starts a statement is skipped only if it is the very
token at which the mistake was found.
-/

namespace LoxScript

/-- A statement may begin at the tokens, behind the token `last`. -/
def Boundary (last : Token) (ts : List Token) : Prop :=
  last.kind = .symbol .semicolon ∨ ∀ t ∈ ts.head?, t.kind.startsStatement = true

/-- From the token `t` on, `gone` is skipped up to the first place where a statement may begin, and
`resumed` begins there. -/
structure Resumes (t : Token) (gone resumed : List Token) : Prop where
  boundary : Boundary (gone.getLastD t) resumed
  first : ∀ a b, gone = a ++ b → b ≠ [] → ¬ Boundary (a.getLastD t) (b ++ resumed)

namespace Resumes
variable {t : Token} {gone resumed : List Token}

/-- No word that starts a statement is among the tokens skipped. -/
theorem startsStatement_eq_false (h : Resumes t gone resumed) {u : Token} (hu : u ∈ gone) :
    u.kind.startsStatement = false := by
  obtain ⟨a, b, rfl⟩ := List.append_of_mem hu
  rw [← Bool.not_eq_true]
  intro hstarts
  refine h.first a (u :: b) rfl (List.cons_ne_nil u b) (.inr fun v hv => ?_)
  cases hv
  exact hstarts

theorem nil (h : Boundary t resumed) : Resumes t [] resumed :=
  ⟨h, fun _ _ he hb => absurd (List.append_eq_nil_iff.1 he.symm).2 hb⟩

theorem cons {u : Token} (hn : ¬ Boundary t (u :: (gone ++ resumed)))
    (h : Resumes u gone resumed) : Resumes t (u :: gone) resumed := by
  refine ⟨?_, fun a b he hb => ?_⟩
  · rw [List.getLastD_cons]
    exact h.boundary
  · cases a with
    | nil =>
      rw [List.nil_append] at he
      subst he
      exact hn
    | cons v a =>
      rw [List.cons_append] at he
      obtain ⟨rfl, htail⟩ := List.cons.inj he
      rw [List.getLastD_cons]
      exact h.first a b htail hb

end Resumes

theorem boundary_cons {last t : Token} {rest : List Token} :
    Boundary last (t :: rest) ↔ last.kind = .symbol .semicolon ∨ t.kind.startsStatement = true := by
  simp [Boundary]

theorem skipStatement_resumes (last : Token) (ts : List Token) :
    ∃ gone, ts = gone ++ skipStatement last ts ∧ Resumes last gone (skipStatement last ts) := by
  fun_induction skipStatement last ts with
  | case1 last => exact ⟨[], rfl, .nil (.inr fun t ht => by cases ht)⟩
  | case2 last t rest h => exact ⟨[], rfl, .nil (boundary_cons.2 h)⟩
  | case3 last t rest h ih =>
    obtain ⟨gone, he, hr⟩ := ih
    refine ⟨t :: gone, congrArg (t :: ·) he, .cons ?_ hr⟩
    rwa [boundary_cons]

theorem skipStatement_suffix (last : Token) (ts : List Token) : skipStatement last ts <:+ ts := by
  obtain ⟨gone, he, -⟩ := skipStatement_resumes last ts
  exact ⟨gone, he.symm⟩

theorem synchronize_suffix (ts : List Token) : synchronize ts <:+ ts := by
  cases ts with
  | nil => exact List.suffix_refl []
  | cons t rest => exact (skipStatement_suffix t rest).trans (List.suffix_cons t rest)

namespace Parsed
variable {a b : Bool} {ts : List Token} {α β : Type} {n : Nat}

/-- An end of the tokens is left; if the reading fails, the last complaint is about its first
token. -/
def Stands (n : Nat) : Parsed a ts α → Prop
  | ok _ rest _ _ => rest <:+ ts
  | failed rest _ notes _ => rest <:+ ts ∧ ∃ earlier m, notes = earlier ++ [Mistake.report m n rest]

theorem stands_done (v : α) (ts : List Token) : (done v ts).Stands n := List.suffix_refl ts

theorem stands_fail (m : Mistake) (ts : List Token) : (fail m n ts : Parsed a ts α).Stands n :=
  ⟨List.suffix_refl ts, [], m, rfl⟩

theorem stands_after {p : Parsed a ts α} (h : p.Stands n) (ds : List Diagnostic) :
    (p.after ds).Stands n := by
  cases p with
  | ok v rest hs notes => exact h
  | failed rest hs notes _ =>
    obtain ⟨hsuffix, earlier, m, rfl⟩ := h
    exact ⟨hsuffix, ds ++ earlier, m, (List.append_assoc ..).symm⟩

theorem stands_within {p : Parsed a ts α} (h : p.Stands n) {all : List Token}
    (hs : Shrinks b ts all) (hall : ts <:+ all) : (p.within hs).Stands n := by
  cases p with
  | ok v rest hs notes => exact List.IsSuffix.trans h hall
  | failed rest hs notes _ => exact ⟨h.1.trans hall, h.2⟩

theorem stands_behind {p : Parsed a ts α} (h : p.Stands n) {t : Token} :
    (p.behind (t := t)).Stands n := by
  cases p with
  | ok v rest hs notes => exact List.IsSuffix.trans h (List.suffix_cons t ts)
  | failed rest hs notes _ => exact ⟨h.1.trans (List.suffix_cons t ts), h.2⟩

theorem stands_weaken {p : Parsed a ts α} (h : p.Stands n) : p.weaken.Stands n := by
  cases p <;> exact h

theorem stands_map {f : α → β} {p : Parsed a ts α} (h : p.Stands n) : (p.map f).Stands n := by
  cases p <;> exact h

theorem stands_andThen {p : Parsed a ts α}
    {next : α → (rest : List Token) → Shrinks a rest ts → Parsed b rest β} (h : p.Stands n)
    (hn : ∀ v rest hs, rest <:+ ts → (next v rest hs).Stands n) : (p.andThen next).Stands n := by
  cases p with
  | failed rest hs notes _ => exact h
  | ok v rest hs notes =>
    have hv := hn v rest hs h
    simp only [andThen]
    cases hnext : next v rest hs with
    | ok w rest' hs' notes' =>
      rw [hnext] at hv
      exact List.IsSuffix.trans hv h
    | failed rest' hs' notes' _ =>
      rw [hnext] at hv
      obtain ⟨hsuffix, earlier, m, rfl⟩ := hv
      exact ⟨hsuffix.trans h, notes ++ earlier, m, (List.append_assoc ..).symm⟩

/-- A declaration leaves an end of its tokens, whether or not it is given up. -/
theorem recover_suffix {t : Token} {p : Parsed true (t :: ts) (Stmt Unit)} (h : p.Stands n) :
    p.recover.rest <:+ t :: ts := by
  cases p with
  | ok s rest hs notes => exact h
  | failed rest hs notes _ => exact (synchronize_suffix rest).trans h.1

theorem closed_stands (n : Nat) : Closed n (Stands n) where
  done := stands_done
  fail := stands_fail
  after m h := stands_after h _
  behind h := stands_behind h
  weaken := stands_weaken
  map _ := stands_map
  andThen h hn := stands_andThen h fun v rest hs _ => hn v rest hs
  assigned m target assign? h := by
    refine stands_behind (stands_andThen h fun value rest _ _ => ?_)
    split
    · exact stands_done _ rest
    · exact stands_after (stands_done target rest) _
  recovered f hp hq :=
    stands_after (stands_within (stands_map hq) _ (recover_suffix hp)) _

end Parsed

namespace Grammar
open Parsed

theorem standsAll (n : Nat) (ts : List Token) : HoldsOfAll n (Stands n) ts :=
  holdsOfAll (closed_stands n) ts

/-- A declaration, before it is known whether it is given up. -/
theorem stands_declaration {n : Nat} {t : Token} {rest : List Token}
    (h : ∀ us, Shrinks true us (t :: rest) → HoldsOfAll n (Stands n) us) :
    ∃ p : Parsed true (t :: rest) (Stmt Unit), p.Stands n ∧ declaration n t rest = p.recover :=
  HoldsOfAll.of_declaration (closed_stands n) h

end Grammar

/-- What becomes of the tokens `failed` at which a mistake was found, if reading goes on at
`resumed`: the first of them is given up, and others behind it up to the first place where a
statement may begin. -/
def GivenUp (failed resumed : List Token) : Prop :=
  match failed with
  | [] => resumed = []
  | t :: rest => ∃ gone, rest = gone ++ resumed ∧ Resumes t gone resumed ∧
      ∀ u ∈ gone, u.kind.startsStatement = false

theorem givenUp_synchronize (failed : List Token) : GivenUp failed (synchronize failed) := by
  cases failed with
  | nil => rfl
  | cons t rest =>
    obtain ⟨gone, he, hr⟩ := skipStatement_resumes t rest
    exact ⟨gone, he, hr, fun u hu => hr.startsStatement_eq_false hu⟩

/-- A declaration that is given up, at whatever depth of the program: the last complaint tells where
the mistake was found, and what is skipped from there on holds no word that starts a statement,
unless the mistake was found at that very word.  Every declaration of a program is read by
`declaration`, and no other reader recovers. -/
theorem Grammar.declaration_givenUp (n : Nat) (t : Token) (rest : List Token)
    (h : (declaration n t rest).statement = none) :
    ∃ read failed earlier m, t :: rest = read ++ failed ∧
      (declaration n t rest).notes = earlier ++ [Mistake.report m n failed] ∧
      GivenUp failed (declaration n t rest).rest := by
  obtain ⟨p, hp, hd⟩ := stands_declaration fun us _ => standsAll n us
  rw [hd] at h ⊢
  cases p with
  | ok s rest' hs notes => cases h
  | failed rest' hs notes _ =>
    obtain ⟨⟨read, he⟩, earlier, m, hnotes⟩ := hp
    exact ⟨read, rest', earlier, m, he.symm, hnotes, givenUp_synchronize rest'⟩

/-- The tokens of `a print b;` on two lines. -/
def unfinishedThenPrint : List Token :=
  [⟨.identifier "a", 1⟩, ⟨.keyword .print_, 2⟩, ⟨.identifier "b", 2⟩, ⟨.symbol .semicolon, 2⟩]

/-- Behind a `var`, the mistake is found at `print`, where a semicolon is missing.  `print` starts a
statement and is given up with everything behind it. -/
theorem Grammar.declaration_givenUp_print :
    (declaration 3 ⟨.keyword .var_, 1⟩ unfinishedThenPrint).statement = none ∧
    (declaration 3 ⟨.keyword .var_, 1⟩ unfinishedThenPrint).rest = [] ∧
    (TokenKind.keyword .print_).startsStatement = true ∧
    ∃ read failed earlier m, ⟨.keyword .var_, 1⟩ :: unfinishedThenPrint = read ++ failed ∧
      [Mistake.variableEnd.report 3 (unfinishedThenPrint.drop 1)] =
        earlier ++ [Mistake.report m 3 failed] ∧
      GivenUp failed [] := by
  have hd : (declaration 3 ⟨.keyword .var_, 1⟩ unfinishedThenPrint).statement = none ∧
      (declaration 3 ⟨.keyword .var_, 1⟩ unfinishedThenPrint).rest = [] ∧
      (declaration 3 ⟨.keyword .var_, 1⟩ unfinishedThenPrint).notes =
        [Mistake.variableEnd.report 3 (unfinishedThenPrint.drop 1)] := by
    rw [declaration]
    unfold unfinishedThenPrint
    simp only [varDeclaration]
    exact ⟨rfl, rfl, rfl⟩
  obtain ⟨hnone, hrest, hnotes⟩ := hd
  refine ⟨hnone, hrest, rfl, ?_⟩
  rw [← hnotes, ← hrest]
  exact declaration_givenUp 3 _ _ hnone

end LoxScript
