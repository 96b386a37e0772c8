import Apidoc.Proofs.Disk.Entries
import Mathlib.Data.List.Basic

namespace Apidoc

namespace FilePath

variable {path name : String} {xs cs : List Char}

theorem splitChars_of_not_mem (h : '/' ∉ cs) : Text.splitChars '/' cs = [cs] := by
  induction cs with
  | nil => rfl
  | cons c cs ih =>
    obtain ⟨hc, hcs⟩ := not_or.1 (mt List.mem_cons.2 h)
    rw [Text.splitChars, if_neg (Ne.symm hc), ih hcs]

theorem splitChars_append (h : '/' ∉ cs) :
    Text.splitChars '/' (xs ++ '/' :: cs) = Text.splitChars '/' xs ++ [cs] := by
  induction xs with
  | nil => simp [Text.splitChars, splitChars_of_not_mem h]
  | cons x xs ih =>
    rw [List.cons_append, Text.splitChars, Text.splitChars, ih]
    split
    · rfl
    · cases hpieces : Text.splitChars '/' xs with
      | nil => exact absurd hpieces (Text.splitChars_ne_nil _ _)
      | cons piece pieces => rfl

theorem not_mem_of_mem_splitChars {piece : List Char} (h : piece ∈ Text.splitChars '/' cs) :
    '/' ∉ piece := by
  induction cs generalizing piece with
  | nil =>
    cases List.mem_singleton.1 h
    simp
  | cons c cs ih =>
    rw [Text.splitChars] at h
    split at h
    · rcases List.mem_cons.1 h with rfl | h
      · simp
      · exact ih h
    · rename_i hc
      cases hpieces : Text.splitChars '/' cs with
      | nil => exact absurd hpieces (Text.splitChars_ne_nil _ _)
      | cons first pieces =>
        rw [hpieces] at h ih
        rcases List.mem_cons.1 h with rfl | h
        · rw [List.mem_cons, not_or]
          exact ⟨Ne.symm hc, ih List.mem_cons_self⟩
        · exact ih (List.mem_cons_of_mem _ h)

theorem not_mem_of_mem_parts (h : name ∈ parts path) : '/' ∉ name.toList := by
  obtain ⟨piece, hpiece, rfl⟩ := List.mem_map.1 h
  rw [String.toList_ofList]
  exact not_mem_of_mem_splitChars hpiece

theorem append_ne_empty (h : path ≠ "") : path ++ name ≠ "" := by
  intro hnone
  have hchars := congrArg String.toList hnone
  rw [String.toList_append] at hchars
  exact h (String.toList_inj.1 (List.append_eq_nil_iff.1 hchars).1)

theorem parts_ne_nil : parts path ≠ [] := by
  intro h
  exact Text.splitChars_ne_nil _ _ (List.map_eq_nil_iff.1 h)

/-- Behind a slash at the end, a name replaces the empty part. -/
theorem parts_append (h : path.toList = xs ++ ['/']) (hname : '/' ∉ name.toList) :
    parts path = (Text.splitChars '/' xs).map String.ofList ++ [""] ∧
      parts (path ++ name) = (Text.splitChars '/' xs).map String.ofList ++ [name] := by
  have hempty : '/' ∉ ([] : List Char) := List.not_mem_nil
  constructor
  · rw [parts, h, splitChars_append hempty, List.map_append]
    rfl
  · rw [parts, String.toList_append, h, List.append_assoc, List.singleton_append,
      splitChars_append hname, List.map_append, List.map_singleton, String.ofList_toList]

theorem parts_append_slash (hname : '/' ∉ name.toList) :
    parts (path ++ "/" ++ name) = parts path ++ [name] := by
  have hslash : ("/" : String).toList = ['/'] := rfl
  rw [parts, String.toList_append, String.toList_append, hslash, List.append_assoc,
    List.singleton_append, splitChars_append hname, List.map_append, List.map_singleton,
    String.ofList_toList, parts]

theorem below_cons {names : List String} :
    below path (name :: names) = below (below path [name]) names := rfl

theorem endsInSlash_iff :
    below.endsInSlash path = true ↔ ∃ xs, path.toList = xs ++ ['/'] := by
  rw [below.endsInSlash, beq_iff_eq, List.getLast?_eq_some_iff]

end FilePath

namespace Disk

open FilePath

variable {d d' d'' : Disk} {path part name : String} {place next names parts : List String}

/-- What is seen at a place of a disk. -/
def view (d : Disk) (place : List String) : Option (Option String) :=
  d.top.view place

theorem holdsFolder_iff : d.holdsFolder place = true ↔ d.view place = some none := by
  rw [holdsFolder, view, Entry.view, at?]
  cases d.top.at? place with
  | none => simp
  | some e => cases e <;> simp [Entry.isFolder, Entry.content?]

theorem isSome_at?_iff : (d.at? place).isSome = true ↔ d.view place ≠ none := by
  rw [view, Entry.view, at?]
  cases d.top.at? place <;> simp

theorem read?_eq : d.read? path = (d.resolve? path).bind fun place => (d.view place).join := by
  rw [read?, find?]
  cases d.resolve? path with
  | none => rfl
  | some place =>
    rw [Option.bind_some, Option.bind_some, view, Entry.view, at?]
    cases d.top.at? place <;> rfl

/-- Where a part of a path leads from a folder. -/
inductive Leads (d : Disk) (place : List String) : String → List String → Prop
  | stay {part : String} (hview : d.view place = some none) (hidle : isIdle part = true) :
    Leads d place part place
  | up (hview : d.view place = some none) : Leads d place ".." place.dropLast
  | down {part : String} (hview : d.view place = some none) (hidle : isIdle part = false)
    (hdots : part ≠ "..") (hchild : d.view (place ++ [part]) ≠ none) :
    Leads d place part (place ++ [part])

/-- The folders of a disk are folders of another one, and its entries are entries there. -/
structure Within (d d' : Disk) : Prop where
  home : d'.home = d.home
  folders : ∀ place, d.view place = some none → d'.view place = some none
  entries : ∀ place, d.view place ≠ none → d'.view place ≠ none

/-- What is seen below a place is seen on the way to it. -/
theorem view_ne_none_of_append (h : d.view (place ++ names) ≠ none) : d.view place ≠ none := by
  cases names with
  | nil => rwa [List.append_nil] at h
  | cons name names =>
    rw [view, Entry.view_folder_of_ne_none h]
    exact Option.some_ne_none _

theorem step_eq_some_iff : d.step place part = some next ↔ d.Leads place part next := by
  rw [step]
  constructor
  · intro h
    split at h
    · cases h
    · rename_i hfolder
      have hview : d.view place = some none := by
        rw [← holdsFolder_iff]
        simpa using hfolder
      split at h
      · rename_i hidle
        cases h
        exact .stay hview hidle
      · rename_i hidle
        split at h
        · rename_i hdots
          cases h
          exact hdots ▸ .up hview
        · rename_i hdots
          split at h
          · rename_i hchild
            cases h
            exact .down hview (Bool.eq_false_iff.2 hidle) hdots (isSome_at?_iff.1 hchild)
          · cases h
  · intro h
    cases h with
    | stay hview hidle => simp [holdsFolder_iff.2 hview, hidle]
    | up hview => simp [holdsFolder_iff.2 hview, isIdle]
    | down hview hidle hdots hchild =>
      simp [holdsFolder_iff.2 hview, hidle, hdots, isSome_at?_iff.2 hchild]

theorem Leads.eq_of_isIdle (h : d.Leads place part next) (hidle : isIdle part = true) :
    next = place := by
  cases h with
  | stay => rfl
  | up => cases hidle
  | down _ hidle' =>
    rw [hidle] at hidle'
    cases hidle'

theorem walk?_cons : d.walk? place (part :: parts) = (d.step place part).bind (d.walk? · parts) :=
  rfl

theorem walk?_append_singleton :
    d.walk? place (parts ++ [part]) = (d.walk? place parts).bind (d.step · part) := by
  rw [walk?, List.foldlM_append]
  cases h : parts.foldlM d.step place <;> simp [walk?, h]

theorem resolve?_of_walk? (hpath : path ≠ "") :
    d.resolve? path = d.walk? (d.start (FilePath.parts path)) (FilePath.parts path) := by
  rw [resolve?, if_neg hpath]

section Within

theorem Within.trans (h : d.Within d') (h' : d'.Within d'') : d.Within d'' where
  home := h'.home.trans h.home
  folders place hview := h'.folders place (h.folders place hview)
  entries place hview := h'.entries place (h.entries place hview)

theorem Within.leads (h : d.Within d') (hl : d.Leads place part next) :
    d'.Leads place part next := by
  cases hl with
  | stay hview hidle => exact .stay (h.folders _ hview) hidle
  | up hview => exact .up (h.folders _ hview)
  | down hview hidle hdots hchild =>
    exact .down (h.folders _ hview) hidle hdots (h.entries _ hchild)

theorem Within.walk? (h : d.Within d') (hw : d.walk? place parts = some next) :
    d'.walk? place parts = some next := by
  induction parts generalizing place with
  | nil => exact hw
  | cons part parts ih =>
    rw [walk?_cons] at hw ⊢
    obtain ⟨middle, hstep, hrest⟩ := Option.bind_eq_some_iff.1 hw
    rw [step_eq_some_iff.2 (h.leads (step_eq_some_iff.1 hstep)), Option.bind_some]
    exact ih hrest

theorem Within.start (h : d.Within d') : d'.start parts = d.start parts := by
  rw [Disk.start, Disk.start, h.home]

theorem Within.resolve? (h : d.Within d') (hr : d.resolve? path = some place) :
    d'.resolve? path = some place := by
  rw [Disk.resolve?] at hr ⊢
  split at hr
  · cases hr
  · rename_i hpath
    rw [if_neg hpath]
    change d'.walk? (d'.start _) _ = some place
    rw [h.start]
    exact h.walk? hr

end Within

section Below

/-- The path of a child leads where the child is. -/
theorem resolve?_child (hr : d.resolve? path = some place) (hname : IsName name) :
    d.resolve? (below path [name]) = d.step place name := by
  obtain ⟨hidle, hdots, hslash⟩ := hname
  have hpath : path ≠ "" := by
    rintro rfl
    cases hr
  rw [resolve?_of_walk? hpath] at hr
  have hstart (ps : List String) (hps : ps ≠ []) (qs : List String) :
      d.start (ps ++ qs) = d.start ps := by
    rw [start, start, List.head?_append_of_ne_nil _ hps]
  rw [below, List.foldl_cons, List.foldl_nil]
  split
  · rename_i hends
    obtain ⟨xs, hxs⟩ := endsInSlash_iff.1 hends
    obtain ⟨hparts, hchild⟩ := parts_append hxs hslash
    have hne : (Text.splitChars '/' xs).map String.ofList ≠ [] := by
      simpa using Text.splitChars_ne_nil '/' xs
    rw [hparts, hstart _ hne, walk?_append_singleton] at hr
    obtain ⟨middle, hwalk, hstep⟩ := Option.bind_eq_some_iff.1 hr
    have hmiddle : place = middle := (step_eq_some_iff.1 hstep).eq_of_isIdle rfl
    rw [resolve?_of_walk? (append_ne_empty hpath), hchild, hstart _ hne, walk?_append_singleton,
      hwalk, Option.bind_some, hmiddle]
  · rw [resolve?_of_walk? (append_ne_empty (append_ne_empty hpath)), parts_append_slash hslash,
      hstart _ parts_ne_nil, walk?_append_singleton, hr, Option.bind_some]

/-- The path of an entry below a folder leads to the entry. -/
theorem resolve?_below (hr : d.resolve? path = some place) (hnames : ∀ name ∈ names, IsName name)
    (hview : d.view (place ++ names) ≠ none) :
    d.resolve? (below path names) = some (place ++ names) := by
  induction names generalizing path place with
  | nil =>
    rw [List.append_nil]
    exact hr
  | cons name names ih =>
    obtain ⟨hname, hrest⟩ := List.forall_mem_cons.1 hnames
    have hview' : d.view (place ++ [name] ++ names) ≠ none := by
      rwa [List.append_assoc, List.singleton_append]
    have hstep : d.step place name = some (place ++ [name]) :=
      step_eq_some_iff.2 (.down (Entry.view_folder_of_ne_none hview) hname.1 hname.2.1
        (view_ne_none_of_append hview'))
    have hchild := (resolve?_child hr hname).trans hstep
    rw [below_cons, ih hchild hrest hview', List.append_assoc, List.singleton_append]

end Below

section Spelled

variable {init : List String}

/-- Without parts that go up, a way leads to what its parts spell. -/
theorem eq_of_walk? (h : d.walk? place parts = some next) (hdots : ".." ∉ parts) :
    next = place ++ parts.filter fun part => !isIdle part := by
  induction parts generalizing place with
  | nil =>
    cases h
    exact (List.append_nil _).symm
  | cons part parts ih =>
    rw [walk?_cons] at h
    obtain ⟨middle, hstep, hrest⟩ := Option.bind_eq_some_iff.1 h
    have hnext := ih hrest fun hmem => hdots (List.mem_cons_of_mem _ hmem)
    cases step_eq_some_iff.1 hstep with
    | stay _ hidle => rw [hnext, List.filter_cons_of_neg (by simp [hidle])]
    | up => exact (hdots List.mem_cons_self).elim
    | down _ hidle =>
      rw [hnext, List.filter_cons_of_pos (by simp [hidle]), List.append_assoc,
        List.singleton_append]

/-- A way to a name leads to what its parts spell if there is something. -/
theorem walk?_spelled (hname : isIdle name = false) (hdots : ".." ∉ init ++ [name])
    (hview : d.view (place ++ (init ++ [name]).filter fun part => !isIdle part) ≠ none) :
    d.walk? place (init ++ [name]) =
      some (place ++ (init ++ [name]).filter fun part => !isIdle part) := by
  induction init generalizing place with
  | nil =>
    have hsingle : [name].filter (fun part => !isIdle part) = [name] := by simp [hname]
    rw [List.nil_append, hsingle] at hview ⊢
    have hdots' : name ≠ ".." := fun heq => hdots (by simp [heq])
    rw [walk?_cons, step_eq_some_iff.2
      (.down (Entry.view_folder_of_ne_none hview) hname hdots' hview)]
    rfl
  | cons part init ih =>
    rw [List.cons_append] at hdots hview ⊢
    obtain ⟨hpart, hdots'⟩ := not_or.1 (mt List.mem_cons.2 hdots)
    rw [walk?_cons]
    by_cases hidle : isIdle part = true
    · rw [List.filter_cons_of_neg (by simp [hidle])] at hview ⊢
      -- The name that is still to come lies in the folder where the idle part stays.
      have hfolder : d.view place = some none := by
        obtain ⟨first, rest, hrest⟩ := List.exists_cons_of_ne_nil
          (List.ne_nil_of_mem (List.mem_filter.2 ⟨List.mem_concat_self, by simp [hname]⟩ :
            name ∈ (init ++ [name]).filter fun part => !isIdle part))
        rw [hrest] at hview
        exact Entry.view_folder_of_ne_none hview
      rw [step_eq_some_iff.2 (.stay hfolder hidle)]
      exact ih hdots' hview
    · rw [Bool.not_eq_true] at hidle
      rw [List.filter_cons_of_pos (by simp [hidle])] at hview ⊢
      have hassoc (rest : List String) : place ++ part :: rest = place ++ [part] ++ rest := by simp
      have hchild : d.view (place ++ [part]) ≠ none :=
        view_ne_none_of_append (hassoc _ ▸ hview)
      rw [step_eq_some_iff.2
        (.down (Entry.view_folder_of_ne_none hview) hidle (Ne.symm hpart) hchild),
        Option.bind_some, ih hdots' (hassoc _ ▸ hview), ← hassoc]

theorem spelled?_eq_some_iff : spelled? path = some place ↔ Text.startsWith "/" path = true ∧
    place = (FilePath.parts path).filter fun part => !isIdle part := by
  rw [spelled?]
  by_cases hstart : Text.startsWith "/" path = true <;> simp [hstart, eq_comm]

/-- A path that spells a place begins at the top. -/
theorem walk?_of_spelled (h : spelled? path = some place) :
    d.resolve? path = d.walk? [] (FilePath.parts path) := by
  obtain ⟨hstart, _⟩ := spelled?_eq_some_iff.1 h
  obtain ⟨cs, hcs⟩ := List.isPrefixOf_iff_prefix.1 hstart
  have hpath : path ≠ "" := by
    rintro rfl
    cases hcs
  have hhead : (FilePath.parts path).head? = some "" := by
    rw [FilePath.parts, ← hcs]
    rfl
  rw [resolve?_of_walk? hpath, start, if_pos hhead]

theorem dots_not_mem_of_spelled (h : spelled? path = some place)
    (hplace : ∀ name ∈ place, IsName name) : ".." ∉ FilePath.parts path := by
  obtain ⟨_, rfl⟩ := spelled?_eq_some_iff.1 h
  intro hmem
  exact (hplace ".." (List.mem_filter.2 ⟨hmem, rfl⟩)).2.1 rfl

/-- A path that spells the place of an entry leads there if it leads anywhere. -/
theorem eq_of_spelled (h : spelled? path = some place) (hplace : ∀ name ∈ place, IsName name)
    (hr : d.resolve? path = some next) : next = place := by
  rw [walk?_of_spelled h] at hr
  rw [eq_of_walk? hr (dots_not_mem_of_spelled h hplace), (spelled?_eq_some_iff.1 h).2,
    List.nil_append]

/-- A path that spells the place of an entry leads there unless more parts follow on its name. -/
theorem resolve?_of_spelled (h : spelled? path = some place)
    (hplace : ∀ name ∈ place, IsName name) (hview : d.view place ≠ none)
    (hparts : FilePath.parts path = init ++ [name]) (hname : isIdle name = false) :
    d.resolve? path = some place := by
  have hdots := dots_not_mem_of_spelled h hplace
  obtain ⟨_, rfl⟩ := spelled?_eq_some_iff.1 h
  rw [walk?_of_spelled h]
  rw [hparts] at hdots hview ⊢
  exact walk?_spelled hname hdots hview

/-- A path that leads to a file ends in the name of the file, unless it goes up before. -/
theorem parts_of_file {text : String} (hr : d.resolve? path = some place)
    (hfile : d.view place = some (some text)) (hdots : ".." ∉ FilePath.parts path) :
    ∃ init name, FilePath.parts path = init ++ [name] ∧ isIdle name = false := by
  obtain ⟨init, name, hparts⟩ := (List.eq_nil_or_concat' (FilePath.parts path)).resolve_left
    parts_ne_nil
  have hpath : path ≠ "" := by
    rintro rfl
    cases hr
  refine ⟨init, name, hparts, ?_⟩
  rw [resolve?_of_walk? hpath, hparts, walk?_append_singleton] at hr
  obtain ⟨middle, _, hstep⟩ := Option.bind_eq_some_iff.1 hr
  cases step_eq_some_iff.1 hstep with
  | stay hfolder _ =>
    rw [hfile] at hfolder
    cases hfolder
  | up => exact (hdots (by simp [hparts])).elim
  | down _ hidle => exact hidle

end Spelled

end Disk

end Apidoc
