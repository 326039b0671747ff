import LoxScript.Diagnostic

/-!
Values with the complaints made while computing them.
-/

namespace LoxScript

structure Noted (α : Type) where
  value : α
  notes : List Diagnostic

namespace Noted
variable {α β : Type}

/-- Complaints and nothing else. -/
def note (ds : List Diagnostic) : Noted Unit := ⟨(), ds⟩

instance : Monad Noted where
  pure a := ⟨a, []⟩
  bind x f := ⟨(f x.value).value, x.notes ++ (f x.value).notes⟩

@[simp] theorem value_pure (a : α) : (pure a : Noted α).value = a := rfl

@[simp] theorem notes_pure (a : α) : (pure a : Noted α).notes = [] := rfl

@[simp] theorem value_bind (x : Noted α) (f : α → Noted β) :
    (x >>= f).value = (f x.value).value := rfl

@[simp] theorem notes_bind (x : Noted α) (f : α → Noted β) :
    (x >>= f).notes = x.notes ++ (f x.value).notes := rfl

@[simp] theorem notes_note (ds : List Diagnostic) : (note ds).notes = ds := rfl

end Noted
end LoxScript
