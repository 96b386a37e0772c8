namespace Apidoc

/-- The second list is the first one without some of the items that `p` holds of. -/
inductive Without {α : Type} (p : α → Prop) : List α → List α → Prop where
  | nil : Without p [] []
  | keep (x : α) {l l' : List α} : Without p l l' → Without p (x :: l) (x :: l')
  | drop {x : α} {l l' : List α} : p x → Without p l l' → Without p (x :: l) l'

namespace Without

variable {α β : Type} {p : α → Prop} {q : β → Prop} {l l' k k' : List α}

protected theorem refl (l : List α) : Without p l l := by
  induction l with
  | nil => exact .nil
  | cons x l ih => exact .keep x ih

theorem append (h : Without p l l') (h' : Without p k k') : Without p (l ++ k) (l' ++ k') := by
  induction h with
  | nil => exact h'
  | keep x _ ih => exact .keep x ih
  | drop hx _ ih => exact .drop hx ih

theorem filterMap {f : α → Option β} (h : Without p l l')
    (hf : ∀ x, p x → ∀ y, f x = some y → q y) :
    Without q (l.filterMap f) (l'.filterMap f) := by
  induction h with
  | nil => exact .nil
  | keep x _ ih =>
    cases hx : f x with
    | none => rwa [List.filterMap_cons_none hx, List.filterMap_cons_none hx]
    | some y =>
      rw [List.filterMap_cons_some hx, List.filterMap_cons_some hx]
      exact .keep y ih
  | drop hp _ ih =>
    cases hx : f _ with
    | none => rwa [List.filterMap_cons_none hx]
    | some y =>
      rw [List.filterMap_cons_some hx]
      exact .drop (hf _ hp y hx) ih

/-- A fold that passes over everything that may be missing. -/
theorem foldl_eq {γ : Type} {f : γ → α → γ} (h : Without p l l') (hf : ∀ c x, p x → f c x = c)
    (c : γ) : l.foldl f c = l'.foldl f c := by
  induction h generalizing c with
  | nil => rfl
  | keep x _ ih => exact ih (f c x)
  | drop hx _ ih =>
    rw [List.foldl_cons, hf c _ hx]
    exact ih c

end Without

end Apidoc
