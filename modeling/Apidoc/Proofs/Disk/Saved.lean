import Apidoc.Generate
import Apidoc.Proofs.Disk.Paths

namespace Apidoc.Disk

open FilePath

variable {d d' d'' : Disk} {path part name text : String} {new : Entry}
  {place next folder rest parts : List String}

/-- The second disk has all that the first one has, and new folders besides. -/
structure Grows (d d' : Disk) : Prop where
  home : d'.home = d.home
  kept : ∀ p, d.view p ≠ none → d'.view p = d.view p
  new : ∀ p, d.view p = none → d'.view p = none ∨ d'.view p = some none

/-- The second disk has a file with this text, all that the first one has elsewhere, and new folders
besides. -/
structure Gains (place : List String) (text : String) (d d' : Disk) : Prop where
  home : d'.home = d.home
  file : d'.view place = some (some text)
  free : d.view place ≠ some none
  kept : ∀ p, p ≠ place → d.view p ≠ none → d'.view p = d.view p
  new : ∀ p, p ≠ place → d.view p = none → d'.view p = none ∨ d'.view p = some none

section Growth

theorem Grows.refl (d : Disk) : d.Grows d :=
  ⟨rfl, fun _ _ => rfl, fun _ h => .inl h⟩

theorem Grows.trans (h : d.Grows d') (h' : d'.Grows d'') : d.Grows d'' where
  home := h'.home.trans h.home
  kept p hp := by
    have hfirst := h.kept p hp
    rw [h'.kept p (hfirst ▸ hp), hfirst]
  new p hp := by
    rcases h.new p hp with hnone | hfolder
    · exact h'.new p hnone
    · right
      rw [h'.kept p (by simp [hfolder]), hfolder]

theorem Grows.within (h : d.Grows d') : d.Within d' where
  home := h.home
  folders p hp := by rw [h.kept p (by simp [hp]), hp]
  entries p hp := by rwa [h.kept p hp]

theorem Gains.within (h : d.Gains place text d') : d.Within d' where
  home := h.home
  folders p hp := by
    have hne : p ≠ place := by
      rintro rfl
      exact h.free hp
    rw [h.kept p hne (by simp [hp]), hp]
  entries p hp := by
    by_cases hne : p = place
    · rw [hne, h.file]
      exact Option.some_ne_none _
    · rwa [h.kept p hne hp]

/-- Away from its place, files are the same before and after. -/
theorem Gains.join_view (h : d.Gains place text d') (hne : next ≠ place) :
    (d'.view next).join = (d.view next).join := by
  cases hview : d.view next with
  | none =>
    rcases h.new next hne hview with hnew | hnew
    · rw [hnew]
    · rw [hnew]
      rfl
  | some seen => rw [h.kept next hne (by simp [hview]), hview]

theorem Grows.gains (h : d.Grows d') (h' : d'.Gains place text d'') : d.Gains place text d'' where
  home := h'.home.trans h.home
  file := h'.file
  free hfolder := h'.free (by rw [h.kept place (by simp [hfolder]), hfolder])
  kept p hne hp := by
    have hfirst := h.kept p hp
    rw [h'.kept p hne (hfirst ▸ hp), hfirst]
  new p hne hp := by
    rcases h.new p hp with hnone | hfolder
    · exact h'.new p hne hnone
    · right
      rw [h'.kept p hne (by simp [hfolder]), hfolder]

end Growth

section Put

theorem view_put_self (h : d.view folder = some none) :
    (d.put (folder ++ [name]) new).view (folder ++ [name] ++ rest) = new.view rest := by
  rw [view, put, Entry.view_append, Entry.at?_put_self h]
  rfl

theorem view_put_other (h : d.view folder = some none) (hrest : ¬folder ++ [name] <+: place) :
    (d.put (folder ++ [name]) new).view place = d.view place :=
  Entry.view_put_other h hrest

theorem grows_put_empty (h : d.view folder = some none) (hnone : d.view (folder ++ [name]) = none) :
    d.Grows (d.put (folder ++ [name]) .empty) where
  home := rfl
  kept p hp := by
    refine view_put_other h ?_
    rintro ⟨rest, rfl⟩
    exact view_ne_none_of_append hp hnone
  new p hp := by
    by_cases hbelow : folder ++ [name] <+: p
    · obtain ⟨rest, rfl⟩ := hbelow
      rw [view_put_self h]
      cases rest with
      | nil => exact .inr rfl
      | cons part rest => exact .inl rfl
    · rw [view_put_other h hbelow]
      exact .inl hp

theorem gains_put_file (h : d.view folder = some none)
    (hfree : d.view (folder ++ [name]) ≠ some none) :
    d.Gains (folder ++ [name]) text (d.put (folder ++ [name]) (.file text)) where
  home := rfl
  file := by
    have hself : (d.put (folder ++ [name]) (.file text)).view (folder ++ [name] ++ []) =
        (Entry.file text).view [] := view_put_self h
    rwa [List.append_nil] at hself
  free := hfree
  kept p hne hp := by
    refine view_put_other h ?_
    rintro ⟨rest, rfl⟩
    cases rest with
    | nil => exact hne (List.append_nil _)
    | cons part rest => exact hfree (Entry.view_folder_of_ne_none hp)
  new p hne hp := by
    left
    by_cases hbelow : folder ++ [name] <+: p
    · obtain ⟨rest, rfl⟩ := hbelow
      rw [view_put_self h]
      cases rest with
      | nil => exact (hne (List.append_nil _)).elim
      | cons part rest => exact Entry.view_file_cons
    · rwa [view_put_other h hbelow]

end Put

section Folders

/-- Following a part of a path to a folder, or making a folder for it. -/
inductive Makes (d : Disk) (place : List String) (part : String) : Disk → List String → Prop
  | follow {next : List String} (hl : d.Leads place part next) (hnext : d.view next = some none) :
    Makes d place part d next
  | make (hview : d.view place = some none) (hidle : isIdle part = false) (hdots : part ≠ "..")
    (hnone : d.view (place ++ [part]) = none) :
    Makes d place part (d.put (place ++ [part]) .empty) (place ++ [part])

theorem makes_of_makeStep (h : d.makeStep place part = some (d', next)) :
    d.Makes place part d' next := by
  rw [makeStep] at h
  split at h
  · rename_i hstep
    split at h
    · rename_i hfolder
      cases h
      exact .follow (step_eq_some_iff.1 hstep) (holdsFolder_iff.1 hfolder)
    · cases h
  · rename_i hstep
    split at h
    · rename_i hmake
      cases h
      rw [Bool.and_eq_true, holdsFolder_iff, bne_iff_ne] at hmake
      obtain ⟨hview, hdots⟩ := hmake
      have hleads (q : List String) : ¬d.Leads place part q := by
        intro hl
        rw [step_eq_some_iff.2 hl] at hstep
        cases hstep
      have hidle : isIdle part = false := by
        rw [Bool.eq_false_iff]
        intro hidle
        exact hleads _ (.stay hview hidle)
      refine .make hview hidle hdots ?_
      by_contra hchild
      exact hleads _ (.down hview hidle hdots hchild)
    · cases h

theorem Makes.grows (h : d.Makes place part d' next) : d.Grows d' := by
  cases h with
  | follow => exact .refl d
  | make hview _ _ hnone => exact grows_put_empty hview hnone

/-- A part that has been followed once is followed again. -/
theorem Makes.leads (h : d.Makes place part d' next) :
    d'.Leads place part next ∧ d'.view next = some none := by
  cases h with
  | follow hl hnext => exact ⟨hl, hnext⟩
  | make hview hidle hdots hnone =>
    have hgrows := grows_put_empty hview hnone
    have hself : (d.put (place ++ [part]) .empty).view (place ++ [part]) = some none := by
      have hself : (d.put (place ++ [part]) .empty).view (place ++ [part] ++ []) =
          Entry.empty.view [] := view_put_self hview
      rwa [List.append_nil] at hself
    exact ⟨.down (hgrows.within.folders _ hview) hidle hdots (by simp [hself]), hself⟩

theorem makeStep_of_leads (hl : d.Leads place part next) (hnext : d.view next = some none) :
    d.makeStep place part = some (d, next) := by
  rw [makeStep, step_eq_some_iff.2 hl]
  simp only [holdsFolder_iff.2 hnext, if_true]

theorem makeFolders_cons : d.makeFolders place (part :: parts) =
    (d.makeStep place part).bind fun made => made.1.makeFolders made.2 parts := by
  rw [makeFolders]
  rfl

theorem makeFolders_grows (h : d.makeFolders place parts = some d') : d.Grows d' := by
  induction parts generalizing d place with
  | nil =>
    cases h
    exact .refl _
  | cons part parts ih =>
    rw [makeFolders_cons] at h
    obtain ⟨⟨middle, next⟩, hstep, hrest⟩ := Option.bind_eq_some_iff.1 h
    exact (makes_of_makeStep hstep).grows.trans (ih hrest)

/-- Folders that have been made are not made again. -/
theorem makeFolders_again (h : d.makeFolders place parts = some d') (hw : d'.Within d'') :
    d''.makeFolders place parts = some d'' := by
  induction parts generalizing d place with
  | nil => rfl
  | cons part parts ih =>
    rw [makeFolders_cons] at h ⊢
    obtain ⟨⟨middle, next⟩, hstep, hrest⟩ := Option.bind_eq_some_iff.1 h
    obtain ⟨hl, hnext⟩ := (makes_of_makeStep hstep).leads
    have hmiddle : middle.Within d'' := (makeFolders_grows hrest).within.trans hw
    rw [makeStep_of_leads (hmiddle.leads hl) (hmiddle.folders _ hnext), Option.bind_some]
    exact ih hrest

theorem Makes.proper (h : d.Makes place part d' next) (hpart : '/' ∉ part.toList)
    (hd : d.top.Proper) : d'.top.Proper := by
  cases h with
  | follow => exact hd
  | make hview hidle hdots _ =>
    refine hd.put (fun name hname => ?_) Entry.proper_empty
    rcases List.mem_append.1 hname with hname | hname
    · exact hd.isName (by rw [← view, hview]; exact Option.some_ne_none _) name hname
    · cases List.mem_singleton.1 hname
      exact ⟨hidle, hdots, hpart⟩

theorem makeFolders_proper (h : d.makeFolders place parts = some d')
    (hparts : ∀ part ∈ parts, '/' ∉ part.toList) (hd : d.top.Proper) : d'.top.Proper := by
  induction parts generalizing d place with
  | nil =>
    cases h
    exact hd
  | cons part parts ih =>
    rw [makeFolders_cons] at h
    obtain ⟨⟨middle, next⟩, hstep, hrest⟩ := Option.bind_eq_some_iff.1 h
    obtain ⟨hpart, hparts⟩ := List.forall_mem_cons.1 hparts
    exact ih hrest hparts ((makes_of_makeStep hstep).proper hpart hd)

end Folders

section Files

/-- A path leads to a file of this name in a folder, or to where such a file can be. -/
structure Targets (d : Disk) (path : String) (folder : List String) (name : String) : Prop where
  parts : FilePath.parts path = (FilePath.parts path).dropLast ++ [name]
  walks : d.walk? (d.start (FilePath.parts path)) (FilePath.parts path).dropLast = some folder
  isName : IsName name
  isFolder : d.view folder = some none
  free : d.view (folder ++ [name]) ≠ some none

theorem target?_eq_some_iff : d.target? path = some place ↔
    ∃ folder name, d.Targets path folder name ∧ place = folder ++ [name] := by
  rw [target?]
  constructor
  · intro h
    obtain ⟨folder, hwalk, h⟩ := Option.bind_eq_some_iff.1 h
    obtain ⟨name, hlast, h⟩ := Option.bind_eq_some_iff.1 h
    simp only at h
    split at h
    · cases h
    · rename_i hfree
      cases h
      simp only [Bool.or_eq_true, Bool.not_eq_true', beq_iff_eq, not_or, Bool.not_eq_true,
        Bool.not_eq_false, holdsFolder_iff] at hfree
      obtain ⟨⟨⟨hidle, hdots⟩, hfolder⟩, hplace⟩ := hfree
      have hslash : '/' ∉ name.toList := not_mem_of_mem_parts (List.mem_of_getLast? hlast)
      obtain ⟨init, hinit⟩ := List.getLast?_eq_some_iff.1 hlast
      refine ⟨folder, name, ⟨?_, hwalk, ⟨hidle, hdots, hslash⟩, hfolder, hplace⟩, rfl⟩
      rw [hinit, List.dropLast_concat]
  · rintro ⟨folder, name, ⟨hparts, hwalk, hname, hfolder, hfree⟩, rfl⟩
    have hlast : (FilePath.parts path).getLast? = some name := by
      rw [hparts, List.getLast?_concat]
    have hplace : d.holdsFolder (folder ++ [name]) = false := by
      rw [Bool.eq_false_iff]
      exact mt holdsFolder_iff.1 hfree
    simp [hwalk, hlast, hname.1, hname.2.1, holdsFolder_iff.2 hfolder, hplace]

theorem Targets.within (h : d.Targets path folder name) (hw : d.Within d')
    (hfree : d'.view (folder ++ [name]) ≠ some none) : d'.Targets path folder name where
  parts := h.parts
  walks := by
    rw [hw.start]
    exact hw.walk? h.walks
  isName := h.isName
  isFolder := hw.folders _ h.isFolder
  free := hfree

theorem Targets.resolve? (h : d.Targets path folder name)
    (hthere : d.view (folder ++ [name]) ≠ none) : d.resolve? path = some (folder ++ [name]) := by
  have hpath : path ≠ "" := by
    rintro rfl
    cases h.parts
    cases h.isName.1
  have hwalks := h.walks
  rw [resolve?_of_walk? hpath]
  generalize d.start (FilePath.parts path) = first at *
  rw [h.parts, walk?_append_singleton, hwalks, Option.bind_some]
  exact step_eq_some_iff.2 (.down h.isFolder h.isName.1 h.isName.2.1 hthere)

theorem not_mem_of_mem_folderParts (h : part ∈ folderParts path) : '/' ∉ part.toList := by
  have hdrop {ps : List String} (hpart : part ∈ folderParts.dropIdle ps) : part ∈ ps := by
    rw [folderParts.dropIdle, List.mem_reverse] at hpart
    exact List.mem_reverse.1 ((List.dropWhile_sublist _).subset hpart)
  exact not_mem_of_mem_parts (hdrop (List.dropLast_subset _ (hdrop h)))

theorem save_eq_ok_iff : d.save path text = .ok d' ↔ ∃ middle folder name,
    d.makeFolderAt (folderParts path) = some middle ∧ middle.Targets path folder name ∧
      d' = middle.put (folder ++ [name]) (.file text) := by
  rw [save]
  constructor
  · intro h
    split at h
    · cases h
    · rename_i middle hmade
      split at h
      · cases h
      · rename_i place htarget
        cases h
        obtain ⟨folder, name, htargets, rfl⟩ := target?_eq_some_iff.1 htarget
        exact ⟨middle, folder, name, hmade, htargets, rfl⟩
  · rintro ⟨middle, folder, name, hmade, htargets, rfl⟩
    simp only [hmade, target?_eq_some_iff.2 ⟨folder, name, htargets, rfl⟩]

/-- What a disk gains by a saved file, to which the path leads from then on. -/
theorem gains_of_save (h : d.save path text = .ok d') : ∃ place,
    d.Gains place text d' ∧ d'.resolve? path = some place := by
  obtain ⟨middle, folder, name, hmade, htargets, rfl⟩ := save_eq_ok_iff.1 h
  have hgains : middle.Gains (folder ++ [name]) text _ :=
    gains_put_file htargets.isFolder htargets.free
  have hafter := htargets.within hgains.within (by simp [hgains.file])
  exact ⟨folder ++ [name], (makeFolders_grows hmade).gains hgains,
    hafter.resolve? (by simp [hgains.file])⟩

theorem proper_of_save (h : d.save path text = .ok d') (hd : d.top.Proper) : d'.top.Proper := by
  obtain ⟨middle, folder, name, hmade, htargets, rfl⟩ := save_eq_ok_iff.1 h
  have hmiddle := makeFolders_proper hmade (fun _ => not_mem_of_mem_folderParts) hd
  have hfolder : middle.top.view folder ≠ none := by
    rw [← view, htargets.isFolder]
    exact Option.some_ne_none _
  refine hmiddle.put (fun part hpart => ?_) (.file text)
  rcases List.mem_append.1 hpart with hpart | hpart
  · exact hmiddle.isName hfolder part hpart
  · exact List.mem_singleton.1 hpart ▸ htargets.isName

/-- Saving the same file again changes nothing. -/
theorem save_again (h : d.save path text = .ok d') : d'.save path text = .ok d' := by
  obtain ⟨middle, folder, name, hmade, htargets, rfl⟩ := save_eq_ok_iff.1 h
  have hgains : middle.Gains (folder ++ [name]) text _ :=
    gains_put_file htargets.isFolder htargets.free
  have hagain := makeFolders_again hmade hgains.within
  have hstart : (middle.put (folder ++ [name]) (.file text)).start (folderParts path) =
      d.start (folderParts path) := by
    rw [hgains.within.start, (makeFolders_grows hmade).within.start]
  have hafter := htargets.within hgains.within (by simp [hgains.file])
  refine save_eq_ok_iff.2 ⟨_, folder, name, ?_, hafter, ?_⟩
  · rw [makeFolderAt, hstart]
    exact hagain
  · have hthere : (middle.top.put (folder ++ [name]) (.file text)).at? (folder ++ [name]) =
        some (.file text) := Entry.at?_put_self htargets.isFolder
    rw [put, put, Entry.put_of_at? hthere]

end Files

end Apidoc.Disk
