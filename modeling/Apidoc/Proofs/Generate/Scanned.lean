import Apidoc.Proofs.Generate.Project
import Mathlib

namespace Apidoc

open FilePath

variable {d : Disk} {path name ext : String} {excluded : List String} {root place : List String}
  {entries : List (String × Entry)}

namespace FilePath

/-- The name of a file with an extension: something, a dot, and the extension. -/
def HasExtension (name ext : String) : Prop :=
  ∃ stem, stem ≠ "" ∧ name = stem ++ "." ++ ext

theorem extension?_of_toList {stem ending : List Char} (hstem : stem ≠ []) (hending : '.' ∉ ending)
    (hname : name.toList = stem ++ '.' :: ending) :
    extension? name = some (String.ofList ending) := by
  obtain ⟨start, c, rfl⟩ := (List.eq_nil_or_concat' stem).resolve_left hstem
  have hreverse : name.toList.reverse = ending.reverse ++ '.' :: c :: start.reverse := by
    simp [hname]
  have htake : (ending.reverse ++ '.' :: c :: start.reverse).takeWhile (· ≠ '.') =
      ending.reverse := by
    rw [List.takeWhile_append_of_pos, List.takeWhile_cons_of_neg (by simp), List.append_nil]
    intro x hx
    simpa using fun hdot : x = '.' => hending (hdot ▸ List.mem_reverse.1 hx)
  simp only [extension?, hreverse, htake, List.drop_left, List.reverse_reverse]

theorem toList_of_extension? (h : extension? name = some ext) :
    ∃ stem, stem ≠ [] ∧ name.toList = stem ++ '.' :: ext.toList ∧ '.' ∉ ext.toList := by
  have hsplit := List.takeWhile_append_dropWhile (p := (· ≠ '.')) (l := name.toList.reverse)
  have hdrop : name.toList.reverse.drop (name.toList.reverse.takeWhile (· ≠ '.')).length =
      name.toList.reverse.dropWhile (· ≠ '.') := by
    have hleft : (name.toList.reverse.takeWhile (· ≠ '.') ++
        name.toList.reverse.dropWhile (· ≠ '.')).drop
          (name.toList.reverse.takeWhile (· ≠ '.')).length =
        name.toList.reverse.dropWhile (· ≠ '.') := List.drop_left
    rwa [hsplit] at hleft
  simp only [extension?, hdrop] at h
  split at h
  · rename_i dot c stem hrest
    cases h
    have hne : name.toList.reverse.dropWhile (· ≠ '.') ≠ [] := by
      rw [hrest]
      exact List.cons_ne_nil _ _
    have hdot : dot = '.' := by
      have hhead := List.head_dropWhile_not (· ≠ '.') hne
      simp only [hrest, List.head_cons] at hhead
      simpa using hhead
    refine ⟨(c :: stem).reverse, by simp, ?_, ?_⟩
    · calc name.toList
          = (name.toList.reverse.takeWhile (· ≠ '.') ++
              name.toList.reverse.dropWhile (· ≠ '.')).reverse := by
            rw [hsplit, List.reverse_reverse]
        _ = (c :: stem).reverse ++ '.' :: (name.toList.reverse.takeWhile (· ≠ '.')).reverse := by
            rw [hrest, hdot, List.reverse_append, List.reverse_cons, List.append_assoc,
              List.singleton_append]
        _ = _ := by rw [String.toList_ofList]
    · rw [String.toList_ofList, List.mem_reverse]
      intro hmem
      simpa using List.mem_takeWhile_imp hmem
  · cases h

/-- The extension of a name is what follows its last dot, unless the name begins with this dot. -/
theorem extension?_eq_some_iff :
    extension? name = some ext ↔ HasExtension name ext ∧ '.' ∉ ext.toList := by
  have hdot : (".".toList : List Char) = ['.'] := rfl
  constructor
  · intro h
    obtain ⟨stem, hstem, hname, hext⟩ := toList_of_extension? h
    refine ⟨⟨String.ofList stem, ?_, ?_⟩, hext⟩
    · rw [ne_eq, ← String.toList_inj, String.toList_ofList]
      exact hstem
    · rw [← String.toList_inj, hname]
      simp [hdot]
  · rintro ⟨⟨stem, hstem, rfl⟩, hext⟩
    have hname : (stem ++ "." ++ ext).toList = stem.toList ++ '.' :: ext.toList := by simp [hdot]
    rw [ne_eq, ← String.toList_inj] at hstem
    rw [extension?_of_toList hstem hext hname, String.ofList_toList]

end FilePath

namespace Scan

/-- A place with no hidden name and no build folder on the way, its own name included. -/
def IsShown (place : List String) : Prop :=
  ∀ name ∈ place, (∀ rest, name ≠ "." ++ rest) ∧ name ≠ "target"

theorem isIgnored_eq_false_iff :
    isIgnored name = false ↔ (∀ rest, name ≠ "." ++ rest) ∧ name ≠ "target" := by
  have hstart : Text.startsWith "." name = true ↔ ∃ rest, name = "." ++ rest := by
    rw [Text.startsWith, List.isPrefixOf_iff_prefix]
    constructor
    · rintro ⟨rest, hrest⟩
      refine ⟨String.ofList rest, String.toList_inj.1 ?_⟩
      rw [← hrest, String.toList_append]
      exact congrArg _ String.toList_ofList.symm
    · rintro ⟨rest, rfl⟩
      exact ⟨rest.toList, (String.toList_append ..).symm⟩
  rw [isIgnored, Bool.or_eq_false_iff, beq_eq_false_iff_ne, ← Bool.not_eq_true, hstart, not_exists]

theorem isSource_iff :
    isSource place = true ↔ ∃ name, place.getLast? = some name ∧ HasExtension name "rs" := by
  rw [isSource, beq_iff_eq, extension?, Option.bind_eq_some_iff]
  simp only [extension?_eq_some_iff]
  simp

theorem isDescriptor_iff : isDescriptor place = true ↔ ∃ name, place.getLast? = some name ∧
    (∃ ext ∈ ["yaml", "yml", "json"], HasExtension name ext) ∧ name ≠ configName := by
  rw [isDescriptor, extension?]
  cases place.getLast? with
  | none => simp
  | some name =>
    have hext : ((FilePath.extension? name).any ["yaml", "yml", "json"].contains) = true ↔
        ∃ ext ∈ ["yaml", "yml", "json"], HasExtension name ext := by
      rw [Option.any_eq_true]
      constructor
      · rintro ⟨ext, hname, hmem⟩
        exact ⟨ext, List.contains_iff_mem.1 hmem, (extension?_eq_some_iff.1 hname).1⟩
      · rintro ⟨ext, hmem, hname⟩
        have hdots : ∀ ext ∈ ["yaml", "yml", "json"], '.' ∉ ext.toList := by decide
        exact ⟨ext, extension?_eq_some_iff.2 ⟨hname, hdots ext hmem⟩, List.contains_iff_mem.2 hmem⟩
    rw [Option.bind_some, Bool.and_eq_true, hext]
    simp

end Scan

namespace Disk

theorem isFile_iff : (∃ content, d.view place = some (some content)) ↔
    ∃ content, d.at? place = some (.file content) := by
  refine exists_congr fun content => ?_
  rw [view, Entry.view, Option.map_eq_some_iff, at?]
  constructor
  · rintro ⟨e, he, hcontent⟩
    cases e with
    | file text =>
      cases hcontent
      exact he
    | folder entries => cases hcontent
  · intro he
    exact ⟨_, he, rfl⟩

end Disk

/-- A scan reports exactly the files below its folder that no hidden name and no build folder leads
to, wherever that folder lies: as sources those with the extension of sources, and as descriptors
those with the extension of descriptors, apart from configurations with the default name and from
what is excluded. Both lists are strictly ordered by the names on the way, and so hold no file
twice. -/
theorem Scan.run?_exact (hd : d.top.Proper) (hleads : d.resolve? path = some root)
    (hfolder : d.at? root = some (.folder entries)) (excluded : List String) :
    ∃ scan, Scan.run? d path excluded = some scan ∧
      (∀ place, place ∈ scan.sources ↔
        (∃ content, d.at? (root ++ place) = some (.file content)) ∧ Scan.IsShown place ∧
          ∃ name, place.getLast? = some name ∧ HasExtension name "rs") ∧
      (∀ place, place ∈ scan.descriptors ↔
        (∃ content, d.at? (root ++ place) = some (.file content)) ∧ Scan.IsShown place ∧
          (∃ name, place.getLast? = some name ∧
            (∃ ext ∈ ["yaml", "yml", "json"], HasExtension name ext) ∧ name ≠ Scan.configName) ∧
          ¬d.Excludes excluded (root ++ place)) ∧
      scan.sources.Pairwise (· < ·) ∧ scan.sources.Nodup ∧
      scan.descriptors.Pairwise (· < ·) ∧ scan.descriptors.Nodup := by
  have h : d.IsProject path root entries := ⟨hleads, hfolder⟩
  have hfiles (place : List String) : place ∈ (Entry.folder entries).files ↔
      (∃ content, d.at? (root ++ place) = some (.file content)) ∧ Scan.IsShown place := by
    rw [h.mem_files_iff hd, Disk.isFile_iff, Scan.IsShown]
    simp only [Scan.isIgnored_eq_false_iff]
  obtain ⟨scan, hscan⟩ : ∃ scan, Scan.run? d path excluded = some scan := ⟨_, h.run?_eq⟩
  have hsources := h.pairwise_sources hd hscan
  have hdescriptors := h.pairwise_descriptors hd hscan
  refine ⟨scan, hscan, fun place => ?_, fun place => ?_, hsources, hsources.imp ne_of_lt,
    hdescriptors, hdescriptors.imp ne_of_lt⟩
  · rw [h.mem_sources_iff hscan, hfiles, Scan.isSource_iff, and_assoc]
  · rw [h.mem_descriptors_iff hscan, hfiles, Scan.isDescriptor_iff, and_assoc]

section Barn

/-- What lies in the barn: a file, a descriptor that is to be excluded, and more behind names that a
scan passes over. -/
def barnEntries : List (String × Entry) :=
  [("cows.yml", .file ""), ("made.json", .file ""),
    (".git", .folder [("head.json", .file "")]), ("target", .folder [("built.rs", .file "")])]

/-- A disk with the barn in a folder that is named like a build folder itself. -/
def barn : Disk where
  top := .folder [("target", .folder barnEntries)]

theorem Entry.proper_singleton {e : Entry} (hname : IsName name) (h : e.Proper) :
    Entry.Proper (.folder [(name, e)]) :=
  .folder (by simpa using hname) (by simp) (by simpa using h)

theorem barn_proper : barn.top.Proper := by
  refine Entry.proper_singleton ⟨rfl, by decide, by decide⟩ (.folder ?_ (by decide) ?_)
  · simp [barnEntries, IsName, isIdle]
  · have hfolder {name : String} (hname : IsName name) :
        Entry.Proper (.folder [(name, .file "")]) := Entry.proper_singleton hname (.file "")
    simp only [barnEntries, List.forall_mem_cons]
    exact ⟨.file "", .file "", hfolder ⟨rfl, by decide, by decide⟩,
      hfolder ⟨rfl, by decide, by decide⟩, List.forall_mem_nil _⟩

/-- The barn itself is scanned, the folder of its own name inside it is not. A path that leads
nowhere excludes what it spells. -/
theorem barn_scanned : ∃ scan, Scan.run? barn "/target" ["/target/made.json/"] = some scan ∧
    ["cows.yml"] ∈ scan.descriptors ∧ ["made.json"] ∉ scan.descriptors ∧
    [".git", "head.json"] ∉ scan.descriptors ∧ ["target", "built.rs"] ∉ scan.sources := by
  have hleads : barn.resolve? "/target" = some ["target"] := by cbv
  have hfolder : barn.at? ["target"] = some (.folder barnEntries) := by cbv
  have hspelled : barn.canonical? "/target/made.json/" = some ["target", "made.json"] := by cbv
  obtain ⟨scan, hscan, hsources, hdescriptors, _⟩ :=
    Scan.run?_exact barn_proper hleads hfolder ["/target/made.json/"]
  have hshown : Scan.IsShown ["cows.yml"] := by
    intro name hname
    cases List.mem_singleton.1 hname
    exact Scan.isIgnored_eq_false_iff.1 (by cbv)
  have hincluded : ¬barn.Excludes ["/target/made.json/"] ["target", "cows.yml"] := by
    rintro ⟨path, hpath, hplace⟩
    cases List.mem_singleton.1 hpath
    rw [hspelled] at hplace
    simp at hplace
  refine ⟨scan, hscan, ?_, fun hmade => ?_, fun hhead => ?_, fun hbuilt => ?_⟩
  · exact (hdescriptors _).2 ⟨⟨"", by cbv⟩, hshown,
      ⟨"cows.yml", rfl, ⟨"yml", by simp, "cows", by decide, rfl⟩, by decide⟩, hincluded⟩
  · exact ((hdescriptors _).1 hmade).2.2.2 ⟨_, List.mem_singleton_self _, hspelled⟩
  · exact (((hdescriptors _).1 hhead).2.1 ".git" (by simp)).1 "git" rfl
  · exact (((hsources _).1 hbuilt).2.1 "target" (by simp)).2 rfl

end Barn

end Apidoc
