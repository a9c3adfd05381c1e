import Mathlib.Init

/-!
# Calls that may have no value

That a call has a value with some property is decidable, by computing the value.
-/

namespace Pintos.Lib

variable {α β : Type}

theorem some_bind (a : α) (f : α → Option β) : (some a >>= f) = f a := rfl

instance decidableExistsSome {o : Option α} {P : α → Prop} [DecidablePred P] :
    Decidable (∃ x, o = some x ∧ P x) :=
  decidable_of_iff (o.any (fun x => decide (P x)) = true)
    ((Option.any_eq_true _ _).trans (exists_congr fun _ => and_congr_right fun _ => decide_eq_true_iff))

instance decidableExistsPair {o : Option (α × β)} {a : α} {P : β → Prop} [DecidableEq α] [DecidablePred P] :
    Decidable (∃ y, o = some (a, y) ∧ P y) :=
  decidable_of_iff (∃ r, o = some r ∧ r.1 = a ∧ P r.2)
    ⟨fun ⟨⟨_, y⟩, ho, ha, hy⟩ => ⟨y, ha ▸ ho, hy⟩, fun ⟨y, ho, hy⟩ => ⟨(a, y), ho, rfl, hy⟩⟩

instance decidableExistsSnd {o : Option (α × β)} {a : α} [DecidableEq α] : Decidable (∃ y, o = some (a, y)) :=
  decidable_of_iff (∃ y, o = some (a, y) ∧ True) (by simp only [and_true])

end Pintos.Lib
