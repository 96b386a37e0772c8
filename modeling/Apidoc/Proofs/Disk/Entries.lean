import Apidoc.Disk
import Apidoc.Proofs.Table
import Mathlib.Data.List.Basic

namespace Apidoc

/-- A name of one part, which leads to an entry of its folder. -/
def FilePath.IsName (name : String) : Prop :=
  FilePath.isIdle name = false ∧ name ≠ ".." ∧ '/' ∉ name.toList

namespace Entry

variable {e child new : Entry} {entries : List (String × Entry)} {name other : String}
  {place folder rest : List String}

/-- What is seen at a place: nothing, a folder, or the content of a file. -/
def view (e : Entry) (place : List String) : Option (Option String) :=
  (e.at? place).map content?

/-- Entries whose folders hold distinct names to which paths can lead. -/
inductive Proper : Entry → Prop
  | file (content : String) : Proper (.file content)
  | folder {entries : List (String × Entry)} (names : ∀ e ∈ entries, FilePath.IsName e.1)
    (distinct : (entries.map (·.1)).Nodup) (children : ∀ e ∈ entries, Proper e.2) :
    Proper (.folder entries)

section Views

theorem view_cons : e.view (name :: place) = (e.child? name).bind (·.view place) := by
  rw [view, at?]
  cases e.child? name <;> rfl

@[simp] theorem view_file_cons {content : String} :
    (Entry.file content).view (name :: place) = none := by
  rw [view_cons]
  rfl

theorem at?_append : e.at? (place ++ rest) = (e.at? place).bind (·.at? rest) := by
  induction place generalizing e with
  | nil => rfl
  | cons name place ih =>
    rw [List.cons_append, at?, at?]
    cases e.child? name with
    | none => rfl
    | some child => exact ih

theorem view_append : e.view (place ++ rest) = (e.at? place).bind (·.view rest) := by
  rw [view, at?_append]
  cases e.at? place <;> rfl

theorem content?_eq_none_iff : e.content? = none ↔ ∃ entries, e = .folder entries := by
  cases e <;> simp [content?]

theorem view_eq_folder_iff :
    e.view place = some none ↔ ∃ entries, e.at? place = some (.folder entries) := by
  rw [view, Option.map_eq_some_iff]
  constructor
  · rintro ⟨found, hfound, hnone⟩
    obtain ⟨entries, rfl⟩ := content?_eq_none_iff.1 hnone
    exact ⟨entries, hfound⟩
  · rintro ⟨entries, hfound⟩
    exact ⟨_, hfound, rfl⟩

/-- Whatever is seen in a folder, the folder is seen. -/
theorem view_folder_of_ne_none (h : e.view (folder ++ name :: rest) ≠ none) :
    e.view folder = some none := by
  rw [view_append] at h
  cases hfound : e.at? folder with
  | none => simp [hfound] at h
  | some found =>
    cases found with
    | file content => simp [hfound] at h
    | folder entries => exact view_eq_folder_iff.2 ⟨entries, hfound⟩

end Views

section Put

theorem child?_folder : (Entry.folder entries).child? name = Table.find name entries := by
  rw [child?]
  induction entries with
  | nil => rfl
  | cons x rest ih =>
    rw [List.find?_cons, Table.find]
    by_cases hx : x.1 = name
    · simp [hx]
    · rw [if_neg hx, ← ih, beq_eq_false_iff_ne.2 hx]

theorem setChild_eq : setChild name child entries = Table.write name child entries := by
  induction entries with
  | nil => rfl
  | cons x rest ih =>
    rw [setChild, Table.write, ih]
    by_cases hx : x.1 = name
    · rw [if_pos hx, if_pos hx, hx]
    · rw [if_neg hx, if_neg hx]

theorem child?_setChild : (Entry.folder (setChild name child entries)).child? other =
    if other = name then some child else (Entry.folder entries).child? other := by
  rw [child?_folder, child?_folder, setChild_eq]
  split
  · rename_i hname
    rw [hname, Table.find_write_same]
  · rename_i hname
    rw [Table.find_write_other _ (Ne.symm hname)]

theorem setChild_self (h : (Entry.folder entries).child? name = some child) :
    setChild name child entries = entries := by
  rw [child?_folder] at h
  rw [setChild_eq]
  induction entries with
  | nil => cases h
  | cons x rest ih =>
    obtain ⟨other, e⟩ := x
    rw [Table.find] at h
    rw [Table.write]
    by_cases hx : other = name
    · rw [if_pos hx] at h ⊢
      cases h
      rfl
    · rw [if_neg hx] at h ⊢
      rw [ih h]

/-- The child that putting descends into. -/
theorem put_cons : (Entry.folder entries).put (name :: place) new =
    .folder (setChild name ((((Entry.folder entries).child? name).getD .empty).put place new)
      entries) := by
  rw [put]
  rfl

theorem at?_put_self (h : e.view folder = some none) :
    (e.put (folder ++ [name]) new).at? (folder ++ [name]) = some new := by
  induction folder generalizing e with
  | nil =>
    obtain ⟨entries, hfound⟩ := view_eq_folder_iff.1 h
    cases hfound
    rw [List.nil_append, put_cons, at?, child?_setChild, if_pos rfl, put]
    rfl
  | cons part folder ih =>
    rw [view_cons] at h
    obtain ⟨child, hchild, hview⟩ := Option.bind_eq_some_iff.1 h
    cases e with
    | file content => cases hchild
    | folder entries =>
      rw [List.cons_append, put_cons, at?, child?_setChild, if_pos rfl, hchild]
      exact ih hview

/-- Putting an entry into a folder changes nothing that is not at its place or below. -/
theorem view_put_other (h : e.view folder = some none) (hrest : ¬folder ++ [name] <+: place) :
    (e.put (folder ++ [name]) new).view place = e.view place := by
  induction folder generalizing e place with
  | nil =>
    obtain ⟨entries, hfound⟩ := view_eq_folder_iff.1 h
    cases hfound
    rw [List.nil_append, put_cons]
    cases place with
    | nil => rfl
    | cons other place =>
      have hne : other ≠ name := by
        rintro rfl
        exact hrest (List.cons_prefix_cons.2 ⟨rfl, List.nil_prefix⟩)
      rw [view_cons, view_cons, child?_setChild, if_neg hne]
  | cons part folder ih =>
    rw [view_cons] at h
    obtain ⟨child, hchild, hview⟩ := Option.bind_eq_some_iff.1 h
    cases e with
    | file content => cases hchild
    | folder entries =>
      rw [List.cons_append, put_cons]
      cases place with
      | nil => rfl
      | cons other place =>
        rw [view_cons, view_cons, child?_setChild, hchild]
        by_cases hother : other = part
        · subst hother
          rw [if_pos rfl, hchild]
          refine ih hview fun hbelow => hrest ?_
          exact List.cons_prefix_cons.2 ⟨rfl, hbelow⟩
        · rw [if_neg hother]

/-- Putting what is there changes nothing. -/
theorem put_of_at? (h : e.at? place = some new) : e.put place new = e := by
  induction place generalizing e with
  | nil =>
    cases h
    rw [put]
  | cons name place ih =>
    rw [at?] at h
    obtain ⟨child, hchild, hat⟩ := Option.bind_eq_some_iff.1 h
    cases e with
    | file content => cases hchild
    | folder entries =>
      rw [put_cons, hchild, Option.getD_some, ih hat, setChild_self hchild]

theorem Proper.of_child? (h : Proper (.folder entries))
    (hc : (Entry.folder entries).child? name = some child) : child.Proper := by
  cases h with
  | folder _ _ children =>
    obtain ⟨x, hx, rfl⟩ := Option.map_eq_some_iff.1 hc
    exact children x (List.mem_of_find?_eq_some hx)

theorem Proper.of_at? (h : e.Proper) (hat : e.at? place = some child) : child.Proper := by
  induction place generalizing e with
  | nil =>
    cases hat
    exact h
  | cons name place ih =>
    rw [at?] at hat
    obtain ⟨next, hnext, hrest⟩ := Option.bind_eq_some_iff.1 hat
    cases e with
    | file content => cases hnext
    | folder entries => exact ih (h.of_child? hnext) hrest

/-- The names on the way to an entry. -/
theorem Proper.isName (h : e.Proper) (hview : e.view place ≠ none) :
    ∀ name ∈ place, FilePath.IsName name := by
  induction place generalizing e with
  | nil =>
    intro name hname
    cases hname
  | cons first place ih =>
    rw [view_cons] at hview
    cases hc : e.child? first with
    | none => simp [hc] at hview
    | some child =>
      rw [hc, Option.bind_some] at hview
      cases h with
      | file content => cases hc
      | folder names distinct children =>
        obtain ⟨x, hx, rfl⟩ := Option.map_eq_some_iff.1 hc
        have hfirst : x.1 = first := by simpa using List.find?_some hx
        have hmem := List.mem_of_find?_eq_some hx
        exact List.forall_mem_cons.2 ⟨hfirst ▸ names x hmem, ih (children x hmem) hview⟩

theorem Proper.setChild (h : Proper (.folder entries)) (hname : FilePath.IsName name)
    (hchild : child.Proper) : Proper (.folder (setChild name child entries)) := by
  have hmem {x : String × Entry} (hx : x ∈ Entry.setChild name child entries) :
      x = (name, child) ∨ x ∈ entries := Table.mem_write (setChild_eq ▸ hx)
  cases h with
  | folder names distinct children =>
    refine .folder (fun x hx => ?_) ?_ fun x hx => ?_
    · rcases hmem hx with rfl | hx
      · exact hname
      · exact names x hx
    · have hkeys := Table.keys_put ⟨entries⟩ name child
      rw [Table.put, ← setChild_eq, Table.keys, Table.keys] at hkeys
      rw [hkeys]
      split
      · exact distinct
      · rename_i hnew
        exact List.nodup_append.2 ⟨distinct, by simp, fun a ha b hb hab =>
          hnew (List.mem_singleton.1 hb ▸ hab ▸ ha)⟩
    · rcases hmem hx with rfl | hx
      · exact hchild
      · exact children x hx

theorem proper_empty : empty.Proper :=
  .folder (fun _ h => by cases h) List.nodup_nil fun _ h => by cases h

theorem Proper.put (h : e.Proper) (hplace : ∀ name ∈ place, FilePath.IsName name)
    (hnew : new.Proper) : (e.put place new).Proper := by
  induction place generalizing e with
  | nil =>
    rw [Entry.put]
    exact hnew
  | cons name place ih =>
    cases e with
    | file content =>
      rw [Entry.put]
      exact .file content
    | folder entries =>
      rw [put_cons]
      refine h.setChild (hplace name List.mem_cons_self)
        (ih ?_ fun n hn => hplace n (List.mem_cons_of_mem _ hn))
      cases hchild : (Entry.folder entries).child? name with
      | none => exact proper_empty
      | some child => exact h.of_child? hchild

end Put

end Entry

end Apidoc
