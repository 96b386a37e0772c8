import Apidoc.Proofs.Disk.Saved
import Apidoc.Proofs.Generate.Project
import Mathlib

/-!
Running again, with the output file inside the project. The second run sees the disk that the first
one has left: the output file is new or has another content, and the folders on its way are there.
From then on its path leads somewhere, so that it is excluded; before, it may lead nowhere although
a file stands at its place (`missing/../pets.yaml`), and then that file is loaded.
-/

namespace Apidoc

open FilePath

variable {d d' : Disk} {r : Request} {project text out : String} {explicit : Option String}
  {root place other next : List String} {entries entries' : List (String × Entry)}
  {scan scan' : Scan}

/-- A request whose output file lies inside the project, at this place below it: it is not the
configuration in use, is not named like the default one, and is no model source from before. -/
structure Request.WritesInside (r : Request) (d d' : Disk) (out : String)
    (root place : List String) : Prop where
  project : d.resolve? r.project = some root
  output : r.output = some out
  leads : d'.resolve? out = some (root ++ place)
  notConfig : ∀ path, r.config = some path → d.resolve? path ≠ some (root ++ place)
  notDefault : place.getLast? ≠ some Scan.configName
  notSource : Scan.isSource place = true → d.view (root ++ place) = none

/-- A fold depends on what its step does with the members of the list. -/
theorem foldlM_congr {m : Type → Type} [Monad m] {α β : Type} {f g : β → α → m β} {l : List α}
    {b : β} (h : ∀ b, ∀ a ∈ l, f b a = g b a) : l.foldlM f b = l.foldlM g b := by
  induction l generalizing b with
  | nil => rfl
  | cons a l ih =>
    rw [List.foldlM_cons, List.foldlM_cons, h b a List.mem_cons_self]
    exact congrArg _ (funext fun next => ih fun b x hx => h b x (List.mem_cons_of_mem a hx))

namespace Disk

theorem load_congr {α : Type} {path : String} {parse : String → Option α}
    (h : d'.read? path = d.read? path) : d'.load path parse = d.load path parse := by
  rw [load, load, h]

namespace Gains

/-- Files that do not lie at the place are read as before. -/
theorem read?_eq {path : String} (h : d.Gains place text d') (hleads : d.resolve? path = some next)
    (hne : next ≠ place) : d'.read? path = d.read? path := by
  rw [Disk.read?_eq, Disk.read?_eq, h.within.resolve? hleads, hleads]
  exact h.join_view hne

theorem isProject (h : d.Gains place text d') (hp : d.IsProject project root entries) :
    ∃ entries', d'.IsProject project root entries' := by
  obtain ⟨entries', hfolder⟩ := Entry.view_eq_folder_iff.1 (h.within.folders _ hp.view_root)
  exact ⟨entries', h.within.resolve? hp.leads, hfolder⟩

/-- The configuration is the same one. -/
theorem findConfig_eq (h : d.Gains place text d') (hp : d.IsProject project root entries)
    (hexplicit : ∀ path, explicit = some path → ∃ next, d.resolve? path = some next ∧ next ≠ place)
    (hdefault : root ++ [Scan.configName] ≠ place) :
    d'.findConfig project explicit = d.findConfig project explicit := by
  cases explicit with
  | some path =>
    obtain ⟨next, hleads, hne⟩ := hexplicit path rfl
    exact load_congr (h.read?_eq hleads hne)
  | none =>
    obtain ⟨entries', hp'⟩ := h.isProject hp
    have hread : d'.read? (below project [Scan.configName]) =
        d.read? (below project [Scan.configName]) := by
      rw [hp'.read?_child Scan.configName_isName,
        hp.read?_child Scan.configName_isName, h.join_view hdefault]
    have hfile : d'.isFileAt (below project [Scan.configName]) =
        d.isFileAt (below project [Scan.configName]) := by
      rw [isFileAt, isFileAt, hread]
    have hload : d'.loadConfig (below project [Scan.configName]) =
        d.loadConfig (below project [Scan.configName]) := load_congr hread
    rw [findConfig, findConfig]
    simp only [hfile, hload]

end Gains

end Disk

/-- A request that comes back to its project after the output file has been written. -/
structure Request.Revisits (r : Request) (d d' : Disk) (text out : String)
    (root place : List String) (entries entries' : List (String × Entry)) : Prop where
  inside : r.WritesInside d d' out root place
  gains : d.Gains (root ++ place) text d'
  proper : d.top.Proper
  proper' : d'.top.Proper
  project : d.IsProject r.project root entries
  project' : d'.IsProject r.project root entries'
  config : ∀ path, r.config = some path → d.isFileAt path = true
  notSource : Scan.isSource place = true → ModelSource.parse? text = none

namespace Request.Revisits

variable (h : r.Revisits d d' text out root place entries entries')

include h

/-- Away from the place of the output file, the project has the same files. -/
theorem mem_files_iff (hne : other ≠ place) :
    other ∈ (Entry.folder entries').files ↔ other ∈ (Entry.folder entries).files := by
  have hview (content : String) : d'.view (root ++ other) = some (some content) ↔
      d.view (root ++ other) = some (some content) := by
    have hne' := (List.append_right_injective root).ne hne
    rw [← Option.join_eq_some_iff, h.gains.join_view hne', Option.join_eq_some_iff]
  rw [h.project'.mem_files_iff h.proper', h.project.mem_files_iff h.proper]
  simp only [hview]

section Excluded

theorem mem_excluded_iff {path : String} :
    path ∈ r.excluded ↔ r.config = some path ∨ path = out := by
  simp [excluded, h.inside.output, eq_comm]

theorem config_leads {path : String} (hpath : r.config = some path) :
    ∃ next, d.resolve? path = some next ∧ next ≠ root ++ place := by
  have hfile := h.config path hpath
  rw [Disk.isFileAt, Disk.read?_eq] at hfile
  cases hleads : d.resolve? path with
  | none => simp [hleads] at hfile
  | some next =>
    refine ⟨next, rfl, ?_⟩
    rintro rfl
    exact h.inside.notConfig path hpath hleads

theorem output_leads (hleads : d.resolve? out = some next) : next = root ++ place := by
  have hafter := h.inside.leads
  rw [h.gains.within.resolve? hleads] at hafter
  exact Option.some_inj.1 hafter

/-- If a file stands at the place of the output file already and the path of the output file spells
this place, it leads there: it ends in the name of the file that it has come to lead to. -/
theorem leads_of_spelled (hfile : place ∈ (Entry.folder entries).files)
    (hspelled : spelled? out = some (root ++ place)) : d.resolve? out = some (root ++ place) := by
  have hnames := h.project.isName_of_mem_files h.proper hfile
  obtain ⟨⟨content, hview⟩, _⟩ := (h.project.mem_files_iff h.proper).1 hfile
  obtain ⟨init, name, hparts, hname⟩ := Disk.parts_of_file h.inside.leads h.gains.file
    (Disk.dots_not_mem_of_spelled hspelled hnames)
  exact Disk.resolve?_of_spelled hspelled hnames (by simp [hview]) hparts hname

theorem config_canonical {path : String} (hpath : r.config = some path) :
    d'.canonical? path = d.canonical? path := by
  obtain ⟨next, hnext, _⟩ := h.config_leads hpath
  rw [Disk.canonical?_of_resolve? hnext,
    Disk.canonical?_of_resolve? (h.gains.within.resolve? hnext)]

/-- Before, a file at the place of the output file is excluded if the path of the output file leads
somewhere. -/
theorem excludes_place_iff (hfile : place ∈ (Entry.folder entries).files) :
    d.Excludes r.excluded (root ++ place) ↔ d.resolve? out ≠ none := by
  constructor
  · rintro ⟨path, hpath, hplace⟩ hnone
    rcases h.mem_excluded_iff.1 hpath with hconfig | rfl
    · obtain ⟨next, hnext, hne⟩ := h.config_leads hconfig
      rw [Disk.canonical?_of_resolve? hnext] at hplace
      exact hne (Option.some_inj.1 hplace)
    · rw [Disk.canonical?_of_none hnone] at hplace
      rw [h.leads_of_spelled hfile hplace] at hnone
      cases hnone
  · intro hleads
    obtain ⟨next, hnext⟩ := Option.ne_none_iff_exists'.1 hleads
    exact ⟨out, h.mem_excluded_iff.2 (.inr rfl),
      Disk.canonical?_of_resolve? (h.output_leads hnext ▸ hnext)⟩

/-- Afterwards it is excluded. -/
theorem excludes_place : d'.Excludes r.excluded (root ++ place) :=
  ⟨out, h.mem_excluded_iff.2 (.inr rfl), Disk.canonical?_of_resolve? h.inside.leads⟩

/-- Other files are excluded as before. -/
theorem excludes_iff (hfile : other ∈ (Entry.folder entries).files) (hne : other ≠ place) :
    d'.Excludes r.excluded (root ++ other) ↔ d.Excludes r.excluded (root ++ other) := by
  have hne' : root ++ place ≠ root ++ other := (List.append_right_injective root).ne hne.symm
  constructor
  · rintro ⟨path, hpath, hother⟩
    rcases h.mem_excluded_iff.1 hpath with hconfig | rfl
    · exact ⟨path, hpath, h.config_canonical hconfig ▸ hother⟩
    · rw [Disk.canonical?_of_resolve? h.inside.leads] at hother
      exact (hne' (Option.some_inj.1 hother)).elim
  · rintro ⟨path, hpath, hother⟩
    rcases h.mem_excluded_iff.1 hpath with hconfig | rfl
    · exact ⟨path, hpath, (h.config_canonical hconfig).trans hother⟩
    · exfalso
      cases hleads : d.resolve? path with
      | some next =>
        rw [Disk.canonical?_of_resolve? hleads, h.output_leads hleads] at hother
        exact hne' (Option.some_inj.1 hother)
      | none =>
        rw [Disk.canonical?_of_none hleads] at hother
        exact hne' (Disk.eq_of_spelled hother (h.project.isName_of_mem_files h.proper hfile)
          h.inside.leads)

end Excluded

section Scans

variable (hscan : Scan.run? d r.project r.excluded = some scan)
  (hscan' : Scan.run? d' r.project r.excluded = some scan')

include hscan

theorem place_mem_descriptors_iff : place ∈ scan.descriptors ↔
    place ∈ (Entry.folder entries).files ∧ Scan.isDescriptor place = true ∧
      d.resolve? out = none := by
  rw [h.project.mem_descriptors_iff hscan]
  refine and_congr_right fun hfile => ?_
  rw [h.excludes_place_iff hfile, not_not]

theorem place_not_mem_sources : place ∉ scan.sources := by
  intro hmem
  obtain ⟨hfile, hsource⟩ := (h.project.mem_sources_iff hscan).1 hmem
  obtain ⟨⟨content, hview⟩, _⟩ := (h.project.mem_files_iff h.proper).1 hfile
  rw [h.inside.notSource hsource] at hview
  cases hview

include hscan'

/-- The second scan finds the descriptors of the first one, without the output file. -/
theorem descriptors_eq : scan'.descriptors = scan.descriptors.filter (· ≠ place) := by
  refine List.Pairwise.eq_of_mem_iff (h.project'.pairwise_descriptors h.proper' hscan')
    ((h.project.pairwise_descriptors h.proper hscan).filter _) fun other => ?_
  rw [List.mem_filter, h.project'.mem_descriptors_iff hscan', h.project.mem_descriptors_iff hscan]
  by_cases hne : other = place
  · simp [hne, h.excludes_place]
  · by_cases hfile : other ∈ (Entry.folder entries).files
    · simp [hne, h.mem_files_iff hne, h.excludes_iff hfile hne]
    · simp [h.mem_files_iff hne, hfile]

theorem descriptors_eq_of_not_mem (hplace : place ∉ scan.descriptors) :
    scan'.descriptors = scan.descriptors := by
  rw [h.descriptors_eq hscan hscan', List.filter_eq_self]
  intro other hother
  have hne : other ≠ place := fun heq => hplace (heq ▸ hother)
  simpa using hne

/-- Apart from the output file, the second scan finds the model sources of the first one. -/
theorem sources_eq : scan'.sources.filter (· ≠ place) = scan.sources := by
  refine List.Pairwise.eq_of_mem_iff ((h.project'.pairwise_sources h.proper' hscan').filter _)
    (h.project.pairwise_sources h.proper hscan) fun other => ?_
  rw [List.mem_filter]
  by_cases hne : other = place
  · simp [hne, h.place_not_mem_sources hscan]
  · simp [hne, h.project'.mem_sources_iff hscan', h.project.mem_sources_iff hscan,
      h.mem_files_iff hne]

end Scans

section Reads

/-- What is read at the files of the project away from the output file. -/
theorem read?_below (hfile : other ∈ (Entry.folder entries).files) (hne : other ≠ place) :
    d'.read? (below r.project other) = d.read? (below r.project other) :=
  h.gains.read?_eq (h.project.leads_below h.proper hfile)
    ((List.append_right_injective root).ne hne)

variable (hscan : Scan.run? d r.project r.excluded = some scan)
  (hscan' : Scan.run? d' r.project r.excluded = some scan')

include hscan hscan'

theorem models_eq : scan'.models d' r.project = scan.models d r.project := by
  have hplace : place ∈ scan'.sources →
      (d'.read? (below r.project place)).bind ModelSource.parse? = none := by
    intro hmem
    obtain ⟨hfile, hsource⟩ := (h.project'.mem_sources_iff hscan').1 hmem
    rw [Disk.read?_eq, h.project'.leads_below h.proper' hfile, Option.bind_some, h.gains.file]
    exact h.notSource hsource
  rw [Scan.models, Scan.models, ← h.sources_eq hscan hscan', List.filterMap_filter]
  refine congrArg Models.ofSources (List.filterMap_congr fun other hother => ?_)
  by_cases hne : other = place
  · subst hne
    simpa using hplace hother
  · obtain ⟨hfile, _⟩ := (h.project'.mem_sources_iff hscan').1 hother
    simp [hne, h.read?_below ((h.mem_files_iff hne).1 hfile) hne]

/-- Without the output file among the descriptors, the same resources are read. -/
theorem resources_eq (hplace : place ∉ scan.descriptors) :
    scan'.resources d' r.project = scan.resources d r.project := by
  rw [Scan.resources, Scan.resources, h.descriptors_eq_of_not_mem hscan hscan' hplace]
  refine foldlM_congr fun s other hother => ?_
  have hne : other ≠ place := fun heq => hplace (heq ▸ hother)
  obtain ⟨hfile, _⟩ := (h.project.mem_descriptors_iff hscan).1 hother
  have hload : d'.loadBundle (below r.project other) = d.loadBundle (below r.project other) :=
    Disk.load_congr (h.read?_below hfile hne)
  simp only [hload]

end Reads

section Runs

theorem findConfig_eq : d'.findConfig r.project r.config = d.findConfig r.project r.config := by
  refine h.gains.findConfig_eq h.project (fun path => h.config_leads) ?_
  intro heq
  rw [List.append_cancel_left_eq] at heq
  exact h.inside.notDefault (heq ▸ rfl)

theorem validate_eq : r.validate d' = .ok () := by
  refine validate_eq_ok_iff.2 ⟨⟨_, _, h.project'⟩, fun path hpath => ?_⟩
  obtain ⟨next, hleads, hne⟩ := h.config_leads hpath
  rw [Disk.isFileAt, h.gains.read?_eq hleads hne]
  exact h.config path hpath

variable (hscan : Scan.run? d r.project r.excluded = some scan)

include hscan

theorem generate_eq (hplace : place ∉ scan.descriptors) : generate d' r = generate d r := by
  have hscan' : Scan.run? d' r.project r.excluded = some _ := h.project'.run?_eq
  have hdescriptors := h.descriptors_eq_of_not_mem hscan hscan' hplace
  rw [generate, generate, h.findConfig_eq, hscan, hscan']
  simp only [hdescriptors, h.resources_eq hscan hscan' hplace, h.models_eq hscan hscan']

end Runs

end Request.Revisits

/-- Running again. The second run never loads the output file as a descriptor, and the first one
does so exactly if a descriptor stands there to which the path of the output file does not lead
yet. Whenever the first run does not load it, the second one gives the same text and leaves the
disk as it is. -/
theorem Request.run_again (hd : d.top.Proper) (h : r.WritesInside d d' out root place)
    (hrun : r.run d = .ok (text, d'))
    (hsource : Scan.isSource place = true → ModelSource.parse? text = none) :
    ∃ scan scan', Scan.run? d r.project r.excluded = some scan ∧
      Scan.run? d' r.project r.excluded = some scan' ∧
      scan'.descriptors = scan.descriptors.filter (· ≠ place) ∧
      (place ∈ scan.descriptors ↔ d.resolve? out = none ∧ Scan.isDescriptor place = true ∧
        (∀ name ∈ place, Scan.isIgnored name = false) ∧
        ∃ content, d.view (root ++ place) = some (some content)) ∧
      (place ∉ scan.descriptors → r.run d' = .ok (text, d')) := by
  obtain ⟨htext, hsave⟩ := (run_eq_ok_iff h.output).1 hrun
  obtain ⟨hvalid, document, hgenerate, hwritten⟩ := text_eq_ok_iff.1 htext
  obtain ⟨⟨root', entries, hproject⟩, hconfig⟩ := validate_eq_ok_iff.1 hvalid
  obtain rfl : root = root' := Option.some_inj.1 (h.project.symm.trans hproject.leads)
  obtain ⟨place', hgains, hleads⟩ := Disk.gains_of_save hsave
  obtain rfl : root ++ place = place' := Option.some_inj.1 (h.leads.symm.trans hleads)
  obtain ⟨entries', hproject'⟩ := hgains.isProject hproject
  have hrevisits : r.Revisits d d' text out root place entries entries' :=
    ⟨h, hgains, hd, Disk.proper_of_save hsave hd, hproject, hproject', hconfig, hsource⟩
  obtain ⟨scan, hscan⟩ : ∃ scan, Scan.run? d r.project r.excluded = some scan :=
    ⟨_, hproject.run?_eq⟩
  obtain ⟨scan', hscan'⟩ : ∃ scan, Scan.run? d' r.project r.excluded = some scan :=
    ⟨_, hproject'.run?_eq⟩
  refine ⟨scan, scan', hscan, hscan', hrevisits.descriptors_eq hscan hscan', ?_, fun hplace => ?_⟩
  · rw [hrevisits.place_mem_descriptors_iff hscan, hproject.mem_files_iff hd]
    constructor
    · rintro ⟨⟨hfile, hnames⟩, hdescriptor, hleads⟩
      exact ⟨hleads, hdescriptor, hnames, hfile⟩
    · rintro ⟨hleads, hdescriptor, hnames, hfile⟩
      exact ⟨⟨hfile, hnames⟩, hdescriptor, hleads⟩
  · have hgenerate' : generate d' r = .ok document := by
      rw [hrevisits.generate_eq hscan hplace, hgenerate]
    have htext' : r.text d' = .ok text :=
      text_eq_ok_iff.2 ⟨hrevisits.validate_eq, document, hgenerate', hwritten⟩
    exact (run_eq_ok_iff h.output).2 ⟨htext', Disk.save_again hsave⟩

section Yard

/-- A yard with the descriptor of the cats, a file for the pets, and more. -/
def yardEntries (pets : String) (more : List (String × Entry)) : List (String × Entry) :=
  ("cats.json", .file
    "\x7b\"resources\": [\x7b\"name\": \"Cats\", \"api\": \x7b\"tags\": [\"cats\"]\x7d\x7d]\x7d") ::
  ("pets.json", .file pets) :: more

def yard (pets : String) (more : List (String × Entry)) : Disk where
  top := .folder [("api", .folder (yardEntries pets more))]

def petsBundle : String :=
  "\x7b\"resources\": [\x7b\"name\": \"Pets\", \"api\": \x7b\"tags\": [\"pets\"]\x7d\x7d]\x7d"

def yardRequest (out : String) : Request where
  project := "/api"
  format := .json
  output := some out

def yardResource (name tag : String) : Resource where
  name := name
  api := some { tags := [tag] }

def yardDocument (tags : List String) : Document where
  tags := tags.map fun name => { name }

def yardText (tags : List String) : String := Document.text .json (yardDocument tags)

variable {pets : String} {more : List (String × Entry)}

theorem yard_proper : (yard pets []).top.Proper := by
  refine .folder ?_ ?_ ?_
  all_goals simp [IsName, isIdle]
  refine .folder ?_ ?_ ?_
  all_goals simp [yardEntries, IsName, isIdle]
  exact ⟨.file _, .file _⟩

theorem yard_isProject : (yard pets more).IsProject "/api" ["api"] (yardEntries pets more) :=
  ⟨by cbv, by cbv⟩

/-- What more the yard has is at most an empty folder that a scan passes over. -/
theorem filesOf_more (hmore : more = [] ∨ more = [("target", .empty)]) :
    Entry.filesOf more = [] := by
  have hignored : Scan.isIgnored "target" = true := by cbv
  rcases hmore with rfl | rfl <;> simp [Entry.filesOf, hignored]

theorem yard_findConfig (hmore : more = [] ∨ more = [("target", .empty)]) :
    (yard pets more).findConfig "/api" none = .ok {} := by
  refine yard_isProject.findConfig_none ?_
  rcases hmore with rfl | rfl
  · cbv
  · cbv

theorem yard_files (hmore : more = [] ∨ more = [("target", .empty)]) :
    (Entry.folder (yardEntries pets more)).files = [["cats.json"], ["pets.json"]] := by
  have hchildren : Entry.filesOf (yardEntries pets more) =
      ("cats.json", [[]]) :: ("pets.json", [[]]) :: Entry.filesOf more := by
    rw [yardEntries, Entry.filesOf, Entry.filesOf, Entry.files_file, Entry.files_file]
    rfl
  rw [Entry.files_folder, hchildren, filesOf_more hmore]
  cbv

theorem yard_detour (hmore : more = [] ∨ more = [("target", .empty)]) :
    (yard pets more).save "/api/target/../pets.json" text =
      .ok (yard text [("target", .empty)]) := by
  rcases hmore with rfl | rfl
  · cbv
  · cbv

theorem yard_run {places : List (List String)} {s : ResourceSet} {tags : List String}
    (hmore : more = [] ∨ more = [("target", .empty)])
    (hscan : Scan.run? (yard pets more) "/api" [out] = some ⟨[], places⟩) (hsome : places ≠ [])
    (hresources : Scan.resources ⟨[], places⟩ (yard pets more) "/api" = .ok s)
    (hread : ({} : Document).read (.ofSources []) s .standard = (yardDocument tags, .ok ()))
    (hsave : (yard pets more).save out (yardText tags) = .ok d') :
    (yardRequest out).run (yard pets more) = .ok (yardText tags, d') := by
  have hvalid : (yardRequest out).validate (yard pets more) = .ok () :=
    Request.validate_eq_ok_iff.2 ⟨⟨_, _, yard_isProject⟩, fun _ hpath => by cases hpath⟩
  have hgenerate : generate (yard pets more) (yardRequest out) = .ok (yardDocument tags) :=
    Request.generate_eq_ok_iff.2 ⟨{}, ⟨[], places⟩, s, yard_findConfig hmore, hscan, hsome,
      hresources, hread⟩
  exact (Request.run_eq_ok_iff rfl).2
    ⟨Request.text_eq_ok_iff.2 ⟨hvalid, _, hgenerate, rfl⟩, hsave⟩

theorem yard_run_cats (hmore : more = [] ∨ more = [("target", .empty)])
    (hscan : Scan.run? (yard pets more) "/api" [out] = some ⟨[], [["cats.json"]]⟩)
    (hsave : (yard pets more).save out (yardText ["cats"]) = .ok d') :
    (yardRequest out).run (yard pets more) = .ok (yardText ["cats"], d') := by
  have hresources : Scan.resources ⟨[], [["cats.json"]]⟩ (yard pets more) "/api" =
      .ok { roots := ["Cats"], resources := [yardResource "Cats" "cats"] } := by cbv
  exact yard_run hmore hscan (by simp) hresources (by cbv) hsave

/-- The output file replaces the descriptor of the pets, which neither run loads. -/
theorem yard_again :
    let r := yardRequest "/api/pets.json"
    let d := yard petsBundle []
    let d' := yard (yardText ["cats"]) []
    d.top.Proper ∧ r.WritesInside d d' "/api/pets.json" ["api"] ["pets.json"] ∧
      r.run d = .ok (yardText ["cats"], d') ∧
      (Scan.isSource ["pets.json"] = true → ModelSource.parse? (yardText ["cats"]) = none) ∧
      r.run d' = .ok (yardText ["cats"], d') := by
  intro r d d'
  have hsource : Scan.isSource ["pets.json"] = false := by cbv
  have hleads {pets : String} :
      (yard pets []).resolve? "/api/pets.json" = some ["api", "pets.json"] := by cbv
  have hinside : r.WritesInside d d' "/api/pets.json" ["api"] ["pets.json"] :=
    ⟨yard_isProject.leads, rfl, hleads, fun _ hpath => (by cases hpath), by decide,
      by simp [hsource]⟩
  have hscan : Scan.run? d "/api" ["/api/pets.json"] = some ⟨[], [["cats.json"]]⟩ := by
    rw [yard_isProject.run?_eq, Entry.scan, yard_files (.inl rfl)]
    cbv
  have hsave {text : String} : d.save "/api/pets.json" text = .ok (yard text []) := by cbv
  have hrun : r.run d = .ok (yardText ["cats"], d') := yard_run_cats (.inl rfl) hscan hsave
  obtain ⟨scan, scan', _, _, _, hmem, hagain⟩ :=
    Request.run_again yard_proper hinside hrun (by simp [hsource])
  refine ⟨yard_proper, hinside, hrun, by simp [hsource], hagain fun h => ?_⟩
  have hnone := (hmem.1 h).1
  rw [hleads] at hnone
  cases hnone

theorem yardText_ne : yardText ["cats", "pets"] ≠ yardText ["cats"] := by
  have hboth : yardText ["cats", "pets"] =
      "\x7b\n  \"swagger\": \"2.0\",\n  \"info\": \x7b\n    \"title\": \"Generated API\",\n    " ++
      "\"version\": \"1.0.0\"\n  \x7d,\n  \"tags\": [\n    \x7b\n      \"name\": \"cats\"\n    " ++
      "\x7d,\n    \x7b\n      \"name\": \"pets\"\n    \x7d\n  ],\n  \"paths\": \x7b\x7d\n\x7d" := by
    cbv
  have hcats : yardText ["cats"] =
      "\x7b\n  \"swagger\": \"2.0\",\n  \"info\": \x7b\n    \"title\": \"Generated API\",\n    " ++
      "\"version\": \"1.0.0\"\n  \x7d,\n  \"tags\": [\n    \x7b\n      \"name\": \"cats\"\n    " ++
      "\x7d\n  ],\n  \"paths\": \x7b\x7d\n\x7d" := by
    cbv
  rw [hboth, hcats]
  simp

/-- The path of the output file leads nowhere as long as the folder on its way is missing. The first
run loads the descriptor of the pets and replaces it; the second one excludes what has replaced
it. -/
theorem yard_differs :
    let r := yardRequest "/api/target/../pets.json"
    let d := yard petsBundle []
    let d' := yard (yardText ["cats", "pets"]) [("target", .empty)]
    let d'' := yard (yardText ["cats"]) [("target", .empty)]
    d.top.Proper ∧ r.WritesInside d d' "/api/target/../pets.json" ["api"] ["pets.json"] ∧
      r.run d = .ok (yardText ["cats", "pets"], d') ∧ r.run d' = .ok (yardText ["cats"], d'') ∧
      yardText ["cats", "pets"] ≠ yardText ["cats"] := by
  intro r d d' d''
  have hsource : Scan.isSource ["pets.json"] = false := by cbv
  have hleads {pets : String} : (yard pets [("target", .empty)]).resolve?
      "/api/target/../pets.json" = some ["api", "pets.json"] := by cbv
  have hinside : r.WritesInside d d' "/api/target/../pets.json" ["api"] ["pets.json"] :=
    ⟨yard_isProject.leads, rfl, hleads, fun _ hpath => (by cases hpath), by decide,
      by simp [hsource]⟩
  have hscan : Scan.run? d "/api" ["/api/target/../pets.json"] =
      some ⟨[], [["cats.json"], ["pets.json"]]⟩ := by
    rw [yard_isProject.run?_eq, Entry.scan, yard_files (.inl rfl)]
    cbv
  have hresources : Scan.resources ⟨[], [["cats.json"], ["pets.json"]]⟩ d "/api" =
      .ok { roots := ["Cats", "Pets"],
            resources := [yardResource "Cats" "cats", yardResource "Pets" "pets"] } := by cbv
  have hscan' : Scan.run? d' "/api" ["/api/target/../pets.json"] =
      some ⟨[], [["cats.json"]]⟩ := by
    rw [yard_isProject.run?_eq, Entry.scan, yard_files (.inr rfl)]
    cbv
  have hread : ({} : Document).read (.ofSources [])
      { roots := ["Cats", "Pets"],
        resources := [yardResource "Cats" "cats", yardResource "Pets" "pets"] } .standard =
      (yardDocument ["cats", "pets"], .ok ()) := by cbv
  exact ⟨yard_proper, hinside,
    yard_run (.inl rfl) hscan (by simp) hresources hread (yard_detour (.inl rfl)),
    yard_run_cats (.inr rfl) hscan' (yard_detour (.inr rfl)), yardText_ne⟩

end Yard

end Apidoc
