/-!
Names bound to values, each name at most once.
-/

namespace LoxScript

/-- Names and what they are bound to, in the order of their first binding. -/
abbrev Bindings (α : Type) := List (String × α)

namespace Bindings
variable {α : Type}

/-- Binds a name, in the place of an older binding if there is one. -/
def put (x : String) (v : α) : Bindings α → Bindings α
  | [] => [(x, v)]
  | (y, w) :: rest => if y = x then (x, v) :: rest else (y, w) :: put x v rest

def find? (x : String) : Bindings α → Option α
  | [] => none
  | (y, w) :: rest => if y = x then some w else find? x rest

def binds (b : Bindings α) (x : String) : Bool := (b.find? x).isSome

@[simp]
theorem find?_nil (x : String) : find? x ([] : Bindings α) = none := rfl

theorem find?_cons (x y : String) (w : α) (b : Bindings α) :
    find? x ((y, w) :: b) = if y = x then some w else b.find? x := rfl

theorem find?_put (x y : String) (v : α) (b : Bindings α) :
    (b.put x v).find? y = if y = x then some v else b.find? y := by
  induction b with
  | nil => simp only [put, find?_cons, eq_comm]
  | cons p rest ih =>
    obtain ⟨z, w⟩ := p
    by_cases hz : z = x
    · subst hz
      by_cases hy : y = z
      · rw [put, if_pos rfl, find?_cons, if_pos hy.symm, if_pos hy]
      · rw [put, if_pos rfl, find?_cons, find?_cons, if_neg (Ne.symm hy), if_neg hy,
          if_neg (Ne.symm hy)]
    · rw [put, if_neg hz, find?_cons, find?_cons, ih]
      by_cases hy : z = y
      · rw [if_pos hy, if_pos hy, if_neg (hy ▸ hz)]
      · rw [if_neg hy, if_neg hy]

end Bindings
end LoxScript
