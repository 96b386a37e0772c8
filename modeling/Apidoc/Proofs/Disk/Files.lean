import Apidoc.Proofs.Disk.Entries
import Apidoc.Scan
import Mathlib.Data.List.Sort
import Mathlib.Data.String.Basic

namespace Apidoc.Entry

variable {e : Entry} {entries : List (String × Entry)} {name : String} {place : List String}

theorem files_file (content : String) : (Entry.file content).files = [[]] := by
  rw [files]

theorem files_folder : (Entry.folder entries).files =
    ((filesOf entries).mergeSort fun a b => !(b.1 < a.1)).flatMap fun x =>
      x.2.map (x.1 :: ·) := by
  rw [files]

/-- The children that are not ignored, each with its files. -/
theorem filesOf_eq : filesOf entries =
    (entries.filter fun x => !Scan.isIgnored x.1).map fun x => (x.1, x.2.files) := by
  induction entries with
  | nil => rw [filesOf]; rfl
  | cons x rest ih =>
    obtain ⟨name, e⟩ := x
    rw [filesOf, ih]
    by_cases hname : Scan.isIgnored name = true
    · rw [if_pos hname, List.filter_cons_of_neg (by simpa using hname)]
    · rw [if_neg hname, List.filter_cons_of_pos (by simpa using hname)]
      rfl

theorem mem_files_folder {names : List String} : names ∈ (Entry.folder entries).files ↔
    ∃ x ∈ entries, Scan.isIgnored x.1 = false ∧ ∃ rest ∈ x.2.files, names = x.1 :: rest := by
  have hsort (x : String × List (List String)) :
      x ∈ (filesOf entries).mergeSort (fun a b => !(b.1 < a.1)) ↔ x ∈ filesOf entries :=
    (List.mergeSort_perm _ _).mem_iff
  rw [files_folder, List.mem_flatMap]
  simp only [hsort]
  rw [filesOf_eq]
  constructor
  · rintro ⟨x, hx, hnames⟩
    obtain ⟨child, hchild, rfl⟩ := List.mem_map.1 hx
    obtain ⟨rest, hrest, rfl⟩ := List.mem_map.1 hnames
    obtain ⟨hmem, hname⟩ := List.mem_filter.1 hchild
    exact ⟨child, hmem, by simpa using hname, rest, hrest, rfl⟩
  · rintro ⟨child, hmem, hname, rest, hrest, rfl⟩
    exact ⟨_, List.mem_map.2 ⟨child, List.mem_filter.2 ⟨hmem, by simpa using hname⟩, rfl⟩,
      List.mem_map.2 ⟨rest, hrest, rfl⟩⟩

theorem child?_of_mem {x : String × Entry} (hdistinct : (entries.map (·.1)).Nodup)
    (hx : x ∈ entries) : (Entry.folder entries).child? x.1 = some x.2 := by
  rw [child?_folder]
  induction entries with
  | nil => cases hx
  | cons y rest ih =>
    obtain ⟨hnew, hrest⟩ := List.nodup_cons.1 hdistinct
    rw [Table.find]
    rcases List.mem_cons.1 hx with rfl | hx
    · rw [if_pos rfl]
    · have hne : y.1 ≠ x.1 := by
        intro heq
        exact hnew (List.mem_map.2 ⟨x, hx, heq.symm⟩)
      rw [if_neg hne, ih hrest hx]

/-- The files of an entry, and that none of them lies behind an ignored name. -/
theorem mem_files_iff (h : e.Proper) : place ∈ e.files ↔
    (∃ content, e.view place = some (some content)) ∧
      ∀ name ∈ place, Scan.isIgnored name = false := by
  induction h generalizing place with
  | file content =>
    rw [files_file, List.mem_singleton]
    constructor
    · rintro rfl
      exact ⟨⟨content, rfl⟩, fun name hname => by cases hname⟩
    · rintro ⟨⟨content', hview⟩, _⟩
      cases place with
      | nil => rfl
      | cons name place => cases hview
  | @folder entries names distinct children ih =>
    rw [mem_files_folder]
    constructor
    · rintro ⟨x, hx, hname, rest, hrest, rfl⟩
      obtain ⟨⟨content, hview⟩, hignored⟩ := (ih x hx).1 hrest
      refine ⟨⟨content, ?_⟩, List.forall_mem_cons.2 ⟨hname, hignored⟩⟩
      rw [view_cons, child?_of_mem distinct hx]
      exact hview
    · rintro ⟨⟨content, hview⟩, hignored⟩
      cases place with
      | nil => cases hview
      | cons name rest =>
        obtain ⟨hname, hrest⟩ := List.forall_mem_cons.1 hignored
        rw [view_cons] at hview
        obtain ⟨child, hchild, hview⟩ := Option.bind_eq_some_iff.1 hview
        obtain ⟨x, hx, rfl⟩ := Option.map_eq_some_iff.1 hchild
        have hfirst : x.1 = name := by simpa using List.find?_some hx
        have hmem := List.mem_of_find?_eq_some hx
        exact ⟨x, hmem, hfirst ▸ hname, rest, (ih x hmem).2 ⟨⟨content, hview⟩, hrest⟩,
          by rw [hfirst]⟩

theorem pairwise_sorted_filesOf (h : (entries.map (·.1)).Nodup) :
    ((filesOf entries).mergeSort fun a b => !(b.1 < a.1)).Pairwise fun a b => a.1 < b.1 := by
  have hle : ((filesOf entries).mergeSort fun a b => !(b.1 < a.1)).Pairwise
      fun a b => (!decide (b.1 < a.1)) = true := by
    apply List.pairwise_mergeSort
    · intro a b c hab hbc
      simp only [Bool.not_eq_true', decide_eq_false_iff_not, not_lt] at hab hbc ⊢
      exact hab.trans hbc
    · intro a b
      simp only [Bool.or_eq_true, Bool.not_eq_true', decide_eq_false_iff_not, not_lt]
      exact le_total _ _
  have hnames : ((filesOf entries).map (·.1)).Nodup := by
    rw [filesOf_eq, List.map_map]
    exact h.sublist (List.filter_sublist.map _)
  have hne : ((filesOf entries).mergeSort fun a b => !(b.1 < a.1)).Pairwise
      fun a b => a.1 ≠ b.1 :=
    List.pairwise_map.1 (((List.mergeSort_perm _ _).map _).nodup_iff.2 hnames)
  refine (hle.and hne).imp fun {a b} hab => ?_
  obtain ⟨hle, hne⟩ := hab
  simp only [Bool.not_eq_true', decide_eq_false_iff_not, not_lt] at hle
  exact lt_of_le_of_ne hle hne

/-- Files come in the order of their places, compared name by name. -/
theorem pairwise_files (h : e.Proper) : e.files.Pairwise (· < ·) := by
  induction h with
  | file content =>
    rw [files_file]
    exact List.pairwise_singleton _ _
  | @folder entries names distinct children ih =>
    have hperm := List.mergeSort_perm (filesOf entries) fun a b => !(b.1 < a.1)
    have hsorted := pairwise_sorted_filesOf distinct
    rw [files_folder, List.pairwise_flatMap]
    constructor
    · intro x hx
      have hmem := hperm.mem_iff.1 hx
      rw [filesOf_eq] at hmem
      obtain ⟨child, hchild, rfl⟩ := List.mem_map.1 hmem
      rw [List.pairwise_map]
      exact (ih child (List.mem_filter.1 hchild).1).imp fun hlt =>
        List.cons_lt_cons_iff.2 (.inr ⟨rfl, hlt⟩)
    · refine hsorted.imp fun {x y} hlt => ?_
      intro p hp q hq
      obtain ⟨rest, _, rfl⟩ := List.mem_map.1 hp
      obtain ⟨rest', _, rfl⟩ := List.mem_map.1 hq
      exact List.cons_lt_cons_iff.2 (.inl hlt)

end Apidoc.Entry
