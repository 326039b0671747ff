/-!
What reading leaves of a list.

`Shrinks strict rest whole` says that `rest` has no more elements than `whole`, and fewer if `strict`
holds.  A reader that repeats itself ends because its steps are strict.
-/

namespace LoxScript

/-- The first list is not longer than the second; if `strict`, it is shorter. -/
def Shrinks {α : Type} (strict : Bool) (rest whole : List α) : Prop :=
  rest.length + strict.toNat ≤ whole.length

namespace Shrinks
variable {α : Type} {a b : Bool} {k l m : List α}

theorem refl (l : List α) : Shrinks false l l := Nat.le_refl _

@[grind →]
theorem le (h : Shrinks a l m) : l.length ≤ m.length := Nat.le_of_add_right_le h

@[grind →]
theorem lt (h : Shrinks true l m) : l.length < m.length := h

theorem of_lt (h : l.length < m.length) : Shrinks a l m := by
  cases a
  · exact Nat.le_of_lt h
  · exact h

theorem of_le (h : l.length ≤ m.length) : Shrinks false l m := h

theorem trans (h : Shrinks a l m) (h' : Shrinks b k l) : Shrinks (a || b) k m := by
  cases a
  · exact Nat.le_trans h' h
  · exact Nat.lt_of_le_of_lt h'.le h

theorem then_le (h : Shrinks a l m) (h' : Shrinks b k l) : Shrinks a k m :=
  Nat.le_trans (Nat.add_le_add_right h'.le _) h

/-- One more element in front makes the difference strict. -/
theorem cons (x : α) (h : Shrinks a l m) : Shrinks b l (x :: m) :=
  of_lt (Nat.lt_succ_of_le h.le)

theorem tail (x : α) (l : List α) : Shrinks true l (x :: l) := .cons x (.refl l)

theorem weaken (h : Shrinks a l m) : Shrinks false l m := h.le

end Shrinks
end LoxScript
