import Apidoc.Annotation

namespace Apidoc

section Keyed

variable {α κ : Type} [BEq κ] {key : α → κ}

/-- The first item of each key, in order. -/
def firstsBy (key : α → κ) (xs : List α) : List α :=
  xs.eraseDupsBy fun x y => key x == key y

theorem firstsBy_cons (x : α) (xs : List α) :
    firstsBy key (x :: xs) = x :: firstsBy key (xs.filter fun y => key y != key x) := by
  simp [firstsBy, List.eraseDupsBy_cons, bne]

variable [LawfulBEq κ]

theorem foldl_addNew (key : α → κ) (kept xs : List α) :
    xs.foldl (fun kept x => if key x ∈ kept.map key then kept else kept ++ [x]) kept =
      kept ++ firstsBy key (xs.filter fun x => key x ∉ kept.map key) := by
  induction xs generalizing kept with
  | nil => simp [firstsBy]
  | cons x xs ih =>
    rw [List.foldl_cons]
    by_cases hx : key x ∈ kept.map key
    · rw [if_pos hx, ih, List.filter_cons_of_neg (by simpa using hx)]
    · have hnew : xs.filter (fun y => key y ∉ (kept ++ [x]).map key) =
          (xs.filter fun y => key y ∉ kept.map key).filter fun y => key y != key x := by
        rw [List.filter_filter]
        apply List.filter_congr
        intro y _
        rw [Bool.eq_iff_iff, List.map_append, List.map_singleton]
        simp only [decide_eq_true_eq, Bool.and_eq_true, bne_iff_ne, List.mem_append,
          List.mem_singleton, not_or]
        exact and_comm
      rw [if_neg hx, ih, hnew, List.filter_cons_of_pos (by simpa using hx), firstsBy_cons,
        List.append_assoc]
      rfl

theorem find?_firstsBy {k : κ} {xs : List α} :
    (firstsBy key xs).find? (key · == k) = xs.find? (key · == k) := by
  -- What goes with the first item has its key, so that no other key loses an item.
  induction hn : xs.length using Nat.strongRecOn generalizing xs with
  | _ n ih =>
    cases xs with
    | nil => rfl
    | cons x xs =>
      rw [firstsBy_cons, List.find?_cons, List.find?_cons]
      by_cases hx : key x = k
      · simp [hx]
      · have hlt : (xs.filter fun y => key y != key x).length < n := by
          rw [← hn]
          exact Nat.lt_succ_of_le (List.length_filter_le _ _)
        rw [ih _ hlt rfl, List.find?_filter]
        simp only [beq_eq_false_iff_ne.2 hx]
        congr 1
        funext y
        by_cases hy : key y = k
        · simp [hy, Ne.symm hx]
        · simp [hy]

end Keyed

section Plain

variable {α : Type} [DecidableEq α] {kept xs : List α} {x : α}

theorem foldl_addNew_self :
    xs.foldl (fun kept x => if x ∈ kept then kept else kept ++ [x]) kept =
      kept ++ (xs.removeAll kept).eraseDups := by
  have hfold := foldl_addNew (fun x : α => x) kept xs
  simpa [firstsBy, List.eraseDups, List.removeAll] using hfold

theorem distinct_eq_eraseDups : distinct xs = xs.eraseDups := by
  have hall : xs.removeAll [] = xs := List.filter_eq_self.2 fun _ _ => rfl
  rw [distinct, foldl_addNew_self, hall, List.nil_append]

theorem nodup_eraseDups (xs : List α) : xs.eraseDups.Nodup := by
  -- The rest of a list gets shorter when its first item is taken out.
  induction hn : xs.length using Nat.strongRecOn generalizing xs with
  | _ n ih =>
    cases xs with
    | nil => simp
    | cons x xs =>
      have hlt : (xs.filter fun y => !y == x).length < n := by
        rw [← hn]
        exact Nat.lt_succ_of_le (List.length_filter_le _ _)
      have hrest := ih _ hlt _ rfl
      rw [List.eraseDups_cons, List.nodup_cons]
      refine ⟨?_, hrest⟩
      intro hx
      have hmem := List.mem_eraseDups.1 hx
      simp at hmem

theorem eraseDups_of_nodup (h : xs.Nodup) : xs.eraseDups = xs := by
  induction xs with
  | nil => rfl
  | cons x xs ih =>
    obtain ⟨hx, hxs⟩ := List.nodup_cons.1 h
    have hrest : xs.filter (fun y => !y == x) = xs := by
      apply List.filter_eq_self.2
      rintro y hy
      have hne : y ≠ x := fun hyx => hx (hyx ▸ hy)
      simpa using hne
    rw [List.eraseDups_cons, hrest, ih hxs]

theorem append_removeAll_eraseDups (xs ys : List α) :
    xs.eraseDups ++ (ys.removeAll xs.eraseDups).eraseDups = (xs ++ ys).eraseDups := by
  have hnew : ys.removeAll xs.eraseDups = ys.removeAll xs := by
    apply List.filter_congr
    intro y _
    rw [Bool.eq_iff_iff]
    simp
  rw [hnew, List.eraseDups_append]

theorem foldl_addNew_of_nodup (h : kept.Nodup) :
    xs.foldl (fun kept x => if x ∈ kept then kept else kept ++ [x]) kept =
      (kept ++ xs).eraseDups := by
  rw [foldl_addNew_self, ← append_removeAll_eraseDups, eraseDups_of_nodup h]

theorem eq_nil_of_eraseDups (h : xs.eraseDups = []) : xs = [] := by
  cases xs with
  | nil => rfl
  | cons x xs =>
    rw [List.eraseDups_cons] at h
    cases h

theorem nodup_append_eraseDups (h : kept.Nodup) :
    (kept ++ (xs.removeAll kept).eraseDups).Nodup := by
  rw [List.nodup_append]
  refine ⟨h, nodup_eraseDups _, ?_⟩
  rintro x hx y hy rfl
  have hmem := List.mem_eraseDups.1 hy
  simp [List.removeAll, hx] at hmem

end Plain

end Apidoc
