import Apidoc.Generate
import Apidoc.Proofs.Disk.Files
import Apidoc.Proofs.Disk.Paths

namespace Apidoc

open FilePath

variable {d d' : Disk} {r : Request} {project name out text : String} {excluded : List String}
  {root place : List String} {entries : List (String × Entry)} {scan : Scan}

/-- The project folder, with the place that its path leads to. -/
structure Disk.IsProject (d : Disk) (project : String) (root : List String)
    (entries : List (String × Entry)) : Prop where
  leads : d.resolve? project = some root
  folder : d.at? root = some (.folder entries)

/-- Some path that is to be excluded leads to this place, or spells it and leads nowhere. -/
def Disk.Excludes (d : Disk) (excluded : List String) (place : List String) : Prop :=
  ∃ path ∈ excluded, d.canonical? path = some place

theorem Disk.canonical?_of_resolve? (h : d.resolve? name = some place) :
    d.canonical? name = some place := by
  rw [canonical?, h]
  rfl

theorem Disk.canonical?_of_none (h : d.resolve? name = none) :
    d.canonical? name = spelled? name := by
  rw [canonical?, h]
  rfl

theorem Scan.configName_isName : IsName configName := by
  rw [IsName]
  decide

namespace Disk.IsProject

theorem view_root (h : d.IsProject project root entries) : d.view root = some none :=
  Entry.view_eq_folder_iff.2 ⟨entries, h.folder⟩

theorem view_append (h : d.IsProject project root entries) :
    d.view (root ++ place) = (Entry.folder entries).view place := by
  have hfolder : d.top.at? root = some (.folder entries) := h.folder
  rw [Disk.view, Entry.view_append, hfolder, Option.bind_some]

theorem proper (h : d.IsProject project root entries) (hd : d.top.Proper) :
    Entry.Proper (.folder entries) :=
  hd.of_at? h.folder

theorem mem_files_iff (h : d.IsProject project root entries) (hd : d.top.Proper) :
    place ∈ (Entry.folder entries).files ↔
      (∃ content, d.view (root ++ place) = some (some content)) ∧
        ∀ name ∈ place, Scan.isIgnored name = false := by
  rw [Entry.mem_files_iff (h.proper hd), h.view_append]

/-- The names on the way to a file. -/
theorem isName_of_mem_files (h : d.IsProject project root entries) (hd : d.top.Proper)
    (hplace : place ∈ (Entry.folder entries).files) : ∀ name ∈ root ++ place, IsName name := by
  obtain ⟨⟨content, hview⟩, _⟩ := (h.mem_files_iff hd).1 hplace
  have hthere : d.top.view (root ++ place) = some (some content) := hview
  exact hd.isName (by simp [hthere])

/-- The path of a file below the project leads to the file. -/
theorem leads_below (h : d.IsProject project root entries) (hd : d.top.Proper)
    (hplace : place ∈ (Entry.folder entries).files) :
    d.resolve? (below project place) = some (root ++ place) := by
  obtain ⟨⟨content, hview⟩, _⟩ := (h.mem_files_iff hd).1 hplace
  have hthere : d.view (root ++ place) ≠ none := by simp [hview]
  exact Disk.resolve?_below h.leads
    ((h.proper hd).isName (h.view_append ▸ hthere)) hthere

/-- What is read at the path of a child, whether it is there or not. -/
theorem read?_child (h : d.IsProject project root entries) (hname : IsName name) :
    d.read? (below project [name]) = (d.view (root ++ [name])).join := by
  rw [read?_eq, resolve?_child h.leads hname]
  cases hstep : d.step root name with
  | some next =>
    cases step_eq_some_iff.1 hstep with
    | stay _ hidle =>
      rw [hname.1] at hidle
      cases hidle
    | up => exact (hname.2.1 rfl).elim
    | down => rfl
  | none =>
    have hnone : d.view (root ++ [name]) = none := by
      by_contra hchild
      rw [step_eq_some_iff.2 (.down h.view_root hname.1 hname.2.1 hchild)] at hstep
      cases hstep
    rw [hnone]
    rfl

/-- Without a configuration in its folder, a project has the default one. -/
theorem findConfig_none (h : d.IsProject project root entries)
    (hnone : d.view (root ++ [Scan.configName]) = none) : d.findConfig project none = .ok {} := by
  have hfile : d.isFileAt (below project [Scan.configName]) = false := by
    rw [isFileAt, h.read?_child Scan.configName_isName, hnone]
    rfl
  simp [findConfig, hfile]

theorem run?_eq (h : d.IsProject project root entries) :
    Scan.run? d project excluded = some ((Entry.folder entries).scan fun place =>
      (excluded.filterMap d.canonical?).contains (root ++ place)) := by
  rw [Scan.run?, h.leads]
  simp only [Option.bind_eq_bind, Option.bind_some, h.folder, Entry.isFolder, if_true]

theorem mem_sources_iff (h : d.IsProject project root entries)
    (hscan : Scan.run? d project excluded = some scan) :
    place ∈ scan.sources ↔ place ∈ (Entry.folder entries).files ∧ Scan.isSource place = true := by
  rw [h.run?_eq] at hscan
  cases hscan
  exact List.mem_filter

theorem mem_descriptors_iff (h : d.IsProject project root entries)
    (hscan : Scan.run? d project excluded = some scan) :
    place ∈ scan.descriptors ↔ place ∈ (Entry.folder entries).files ∧
      Scan.isDescriptor place = true ∧ ¬d.Excludes excluded (root ++ place) := by
  rw [h.run?_eq] at hscan
  cases hscan
  simp [Entry.scan, Disk.Excludes]

theorem pairwise_sources (h : d.IsProject project root entries) (hd : d.top.Proper)
    (hscan : Scan.run? d project excluded = some scan) : scan.sources.Pairwise (· < ·) := by
  rw [h.run?_eq] at hscan
  cases hscan
  exact (Entry.pairwise_files (h.proper hd)).filter _

theorem pairwise_descriptors (h : d.IsProject project root entries) (hd : d.top.Proper)
    (hscan : Scan.run? d project excluded = some scan) : scan.descriptors.Pairwise (· < ·) := by
  rw [h.run?_eq] at hscan
  cases hscan
  exact (Entry.pairwise_files (h.proper hd)).filter _

end Disk.IsProject

namespace Request

theorem validate_eq_ok_iff : r.validate d = .ok () ↔
    (∃ root entries, d.IsProject r.project root entries) ∧
      ∀ path, r.config = some path → d.isFileAt path = true := by
  have hproject : (∃ root entries, d.IsProject r.project root entries) ↔
      ∃ entries, d.find? r.project = some (.folder entries) := by
    constructor
    · rintro ⟨root, entries, hleads, hfolder⟩
      exact ⟨entries, by rw [Disk.find?, hleads, Option.bind_some, hfolder]⟩
    · rintro ⟨entries, hfind⟩
      obtain ⟨root, hleads, hfolder⟩ := Option.bind_eq_some_iff.1 hfind
      exact ⟨root, entries, hleads, hfolder⟩
  rw [hproject, validate]
  cases hfind : d.find? r.project with
  | none => simp
  | some e =>
    cases e with
    | file content => simp
    | folder entries =>
      cases hconfig : r.config with
      | none => simp
      | some path => cases hfile : d.isFileAt path <;> simp [hfile]

theorem generate_eq_ok_iff {document : Document} : generate d r = .ok document ↔
    ∃ config scan s, d.findConfig r.project r.config = .ok config ∧
      Scan.run? d r.project r.excluded = some scan ∧ scan.descriptors ≠ [] ∧
      scan.resources d r.project = .ok s ∧
      config.document.read (scan.models d r.project) s .standard = (document, .ok ()) := by
  rw [generate]
  cases hconfig : d.findConfig r.project r.config with
  | error fault => simp
  | ok config =>
    cases hscan : Scan.run? d r.project r.excluded with
    | none => simp
    | some scan =>
      by_cases hsome : scan.descriptors = []
      · simp [hsome]
      · cases hresources : scan.resources d r.project with
        | error failure => simp [hsome, hresources, bind, Except.bind]
        | ok s =>
          rcases hread : config.document.read (scan.models d r.project) s .standard with
            ⟨document', _ | _⟩ <;> simp [hsome, hresources, hread, bind, Except.bind]

theorem text_eq_ok_iff : r.text d = .ok text ↔
    r.validate d = .ok () ∧ ∃ document, generate d r = .ok document ∧
      Document.text r.format document = text := by
  rw [Request.text]
  cases r.validate d with
  | error e => simp [bind, Except.bind]
  | ok u => cases generate d r <;> simp [bind, Except.bind, pure, Except.pure]

theorem run_eq_ok_iff (hout : r.output = some out) : r.run d = .ok (text, d') ↔
    r.text d = .ok text ∧ d.save out text = .ok d' := by
  rw [run, hout]
  cases htext : r.text d with
  | error e => simp [bind, Except.bind]
  | ok t =>
    simp only [bind, Except.bind, pure, Except.pure]
    cases hsave : d.save out t with
    | error e =>
      simp only [reduceCtorEq, false_iff, not_and, Except.ok.injEq]
      rintro rfl
      simp [hsave]
    | ok saved =>
      simp only [Except.ok.injEq, Prod.mk.injEq]
      constructor
      · rintro ⟨rfl, rfl⟩
        exact ⟨rfl, hsave⟩
      · rintro ⟨rfl, h⟩
        rw [hsave] at h
        exact ⟨rfl, Except.ok.inj h⟩

end Request

end Apidoc
