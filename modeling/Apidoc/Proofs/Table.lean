import Apidoc.Proofs.Distinct
import Apidoc.Table

universe u v

namespace Apidoc.Table

variable {α : Type u} {β : Type v} {t : Table α} {k : String} {v : α} {e : String × α}

theorem mem_keys_of_mem (h : e ∈ t.entries) : e.1 ∈ t.keys :=
  List.mem_map.2 ⟨e, h, rfl⟩

theorem mem_entries_of_find {l : List (String × α)} (h : find k l = some v) : (k, v) ∈ l := by
  induction l with
  | nil => cases h
  | cons e l ih =>
    obtain ⟨k', v'⟩ := e
    simp only [find] at h
    split at h
    · rename_i hk
      cases h
      exact hk ▸ List.mem_cons_self
    · exact List.mem_cons_of_mem _ (ih h)

theorem mem_entries_of_get? (h : t.get? k = some v) : (k, v) ∈ t.entries :=
  mem_entries_of_find h

theorem mem_write {l : List (String × α)} (h : e ∈ write k v l) : e = (k, v) ∨ e ∈ l := by
  induction l with
  | nil => exact .inl (List.mem_singleton.1 h)
  | cons e' l ih =>
    obtain ⟨k', v'⟩ := e'
    simp only [write] at h
    split at h
    · rename_i hk
      rcases List.mem_cons.1 h with rfl | h
      · exact .inl (hk ▸ rfl)
      · exact .inr (List.mem_cons_of_mem _ h)
    · rcases List.mem_cons.1 h with rfl | h
      · exact .inr List.mem_cons_self
      · exact (ih h).imp_right (List.mem_cons_of_mem _)

theorem mem_entries_put (h : e ∈ (t.put k v).entries) : e = (k, v) ∨ e ∈ t.entries :=
  mem_write h

theorem mem_entries_putAll {es : List (String × α)} (h : e ∈ (t.putAll es).entries) :
    e ∈ es ∨ e ∈ t.entries := by
  induction es generalizing t with
  | nil => exact .inr h
  | cons e' es ih =>
    rcases ih h with h | h
    · exact .inl (List.mem_cons_of_mem _ h)
    · rcases mem_entries_put h with rfl | h
      · exact .inl List.mem_cons_self
      · exact .inr h

theorem mem_entries_ofList {es : List (String × α)} (h : e ∈ (ofList es).entries) : e ∈ es :=
  (mem_entries_putAll h).resolve_right (by simp)

theorem mem_entries_putNew (h : e ∈ (t.putNew k v).entries) : e = (k, v) ∨ e ∈ t.entries := by
  unfold putNew at h
  split at h
  · exact .inr h
  · rcases List.mem_append.1 h with h | h
    · exact .inr h
    · exact .inl (List.mem_singleton.1 h)

theorem mem_entries_putNew_of_mem (h : e ∈ t.entries) : e ∈ (t.putNew k v).entries := by
  unfold putNew
  split
  · exact h
  · exact List.mem_append_left _ h

theorem mem_keys_putNew {j : String} : j ∈ (t.putNew k v).keys ↔ j ∈ t.keys ∨ j = k := by
  rw [keys_putNew]
  split
  · rename_i hk
    exact ⟨.inl, fun h => h.elim id fun h => h ▸ hk⟩
  · simp

theorem putNew_of_mem (h : k ∈ t.keys) : t.putNew k v = t := by
  rw [putNew, if_pos (contains_iff.2 h)]

theorem entries_prefix_putNew : t.entries <+: (t.putNew k v).entries := by
  unfold putNew
  split
  · exact List.prefix_rfl
  · exact List.prefix_append _ _

theorem keys_prefix_put : t.keys <+: (t.put k v).keys := by
  rw [keys_put]
  split
  · exact List.prefix_rfl
  · exact List.prefix_append _ _

theorem put_put_same {w : α} : (t.put k v).put k w = t.put k w := by
  obtain ⟨l⟩ := t
  simp only [put, mk.injEq]
  induction l with
  | nil => simp [write]
  | cons e l ih =>
    by_cases h : e.1 = k
    · simp [write, h]
    · simp [write, h, ih]

theorem put_put_comm {j : String} {w : α} (hj : j ∈ t.keys) (h : j ≠ k) :
    (t.put k v).put j w = (t.put j w).put k v := by
  obtain ⟨l⟩ := t
  simp only [put, mk.injEq]
  induction l with
  | nil => cases hj
  | cons e l ih =>
    obtain ⟨k', v'⟩ := e
    by_cases hk : k' = k
    · subst hk
      simp [write, h.symm]
    · by_cases hj' : k' = j
      · subst hj'
        simp [write, h]
      · have hrest : j ∈ (⟨l⟩ : Table α).keys := by
          rcases List.mem_cons.1 hj with hj | hj
          · exact (hj' hj.symm).elim
          · exact hj
        simp [write, hk, hj', ih hrest]

theorem mem_keys_put {j : String} : j ∈ (t.put k v).keys ↔ j ∈ t.keys ∨ j = k := by
  rw [keys_put]
  split
  · rename_i hk
    exact ⟨.inl, fun h => h.elim id fun h => h ▸ hk⟩
  · simp

theorem mem_keys_putAll {es : List (String × α)} :
    k ∈ (t.putAll es).keys ↔ k ∈ t.keys ∨ k ∈ es.map (·.1) := by
  induction es generalizing t with
  | nil => simp [putAll]
  | cons e es ih =>
    change k ∈ ((t.put e.1 e.2).putAll es).keys ↔ _
    rw [ih, mem_keys_put, List.map_cons, List.mem_cons, or_assoc]

theorem keys_putAll {es : List (String × α)} : (t.putAll es).keys =
    (es.map (·.1)).foldl (fun kept k => if k ∈ kept then kept else kept ++ [k]) t.keys := by
  induction es generalizing t with
  | nil => rfl
  | cons e es ih =>
    have hrest := ih (t := t.put e.1 e.2)
    rw [keys_put] at hrest
    exact hrest

theorem mem_keys_ofList {es : List (String × α)} : k ∈ (ofList es).keys ↔ k ∈ es.map (·.1) := by
  rw [ofList, mem_keys_putAll, keys_empty]
  simp

theorem keys_ofList {es : List (String × α)} : (ofList es).keys = (es.map (·.1)).eraseDups := by
  rw [ofList, keys_putAll, keys_empty]
  exact foldl_addNew_of_nodup List.nodup_nil

theorem get?_putAll {es : List (String × α)} :
    (t.putAll es).get? k = (es.reverse.lookup k).or (t.get? k) := by
  induction es generalizing t with
  | nil => rfl
  | cons e es ih =>
    obtain ⟨k', v⟩ := e
    have hrest := ih (t := t.put k' v)
    rw [get?_put] at hrest
    refine hrest.trans ?_
    rw [List.reverse_cons, List.lookup_append, Option.or_assoc]
    congr 1
    by_cases h : k' = k
    · simp [h]
    · simp [h, List.lookup_cons, beq_eq_false_iff_ne.2 (Ne.symm h)]

theorem get?_ofList {es : List (String × α)} : (ofList es).get? k = es.reverse.lookup k := by
  rw [ofList, get?_putAll, get?_empty, Option.or_none]

theorem map_put (f : α → β) : (t.put k v).map f = (t.map f).put k (f v) := by
  obtain ⟨l⟩ := t
  simp only [put, map, mk.injEq]
  induction l with
  | nil => rfl
  | cons e l ih =>
    by_cases h : e.1 = k
    · simp [write, h]
    · simpa [write, h] using ih

theorem map_ofList (f : α → β) (es : List (String × α)) :
    (ofList es).map f = ofList (es.map fun e => (e.1, f e.2)) := by
  unfold ofList
  have hall (t : Table α) :
      (t.putAll es).map f = (t.map f).putAll (es.map fun e => (e.1, f e.2)) := by
    induction es generalizing t with
    | nil => rfl
    | cons e es ih => exact (ih (t.put e.1 e.2)).trans (by rw [map_put]; rfl)
  exact hall {}

end Apidoc.Table
