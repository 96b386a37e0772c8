import Apidoc.Proofs.Source.Marks
import Mathlib

namespace Apidoc

namespace Source

open Rule

section Attributes

variable {children : List (Tree Rule)} {groups : List (List Mark)} {ms : List Mark}
  {marks : Marks} {name : String}

/-- The tokens between the delimiters of a serialization attribute. -/
def markTokens? : Tree Rule → Option (List Token)
  | .node .attr [_, _, .node .metaItem (.node .metaPath [.leaf (.ident "serde")] ::
      .leaf (.opening _) :: inner), _] => some (allTokens inner).dropLast
  | _ => none

theorem addMarks_eq (marks : Marks) (t : Tree Rule) :
    addMarks marks t = ((markTokens? t).map (readGroup marks)).getD marks := by
  by_cases h : ∃ a b d inner c, t = .node .attr [a, b, .node .metaItem
      (.node .metaPath [.leaf (.ident "serde")] :: .leaf (.opening d) :: inner), c]
  · obtain ⟨a, b, d, inner, c, rfl⟩ := h
    rfl
  · have htokens : markTokens? t = none := by
      unfold markTokens?
      split
      · exact (h ⟨_, _, _, _, _, rfl⟩).elim
      · rfl
    have hmarks : addMarks marks t = marks := by
      unfold addMarks
      split
      · exact (h ⟨_, _, _, _, _, rfl⟩).elim
      · rfl
    rw [htokens, hmarks]
    rfl

theorem marksOf_eq : marksOf children = (children.filterMap markTokens?).foldl readGroup {} := by
  rw [marksOf, List.foldl_filterMap]
  congr 1
  funext marks t
  rw [addMarks_eq]
  cases markTokens? t <;> rfl

/-- What marks say together. -/
def together (ms : List Mark) : Marks :=
  ms.foldl (fun marks m => m.addTo marks) {}

/-- The serialization attributes among the children list these groups of marks. -/
def Lists (children : List (Tree Rule)) (groups : List (List Mark)) : Prop :=
  List.Forall₂ Listed groups (children.filterMap markTokens?)

/-- Of every attribute the marks count up to the first one that stops the reading. -/
theorem marksOf_lists (h : Lists children groups) :
    marksOf children = together (groups.flatMap heeded) := by
  rw [marksOf_eq, together]
  unfold Lists at h
  generalize children.filterMap markTokens? = texts at h
  generalize ({} : Marks) = marks
  induction h generalizing marks with
  | nil => rfl
  | cons hts _ ih =>
    rw [List.foldl_cons, List.flatMap_cons, List.foldl_append, ih]
    congr 1
    exact readMarks_listed hts (Nat.le_refl _)

end Attributes

section Documented

variable {m : Mark} {ms ms' kept : List Mark} {marks : Marks} {name text : String}

/-- The name under which something is documented that has these marks, if it is documented. -/
def Marks.documented? (marks : Marks) (name : String) : Option String :=
  if marks.skip then none else some (marks.rename.getD name)

/-- The texts that marks rename to. -/
def renamings (ms : List Mark) : List String :=
  ms.filterMap Mark.rename?

theorem foldl_addTo : ms.foldl (fun marks m => m.addTo marks) marks =
    ⟨(renamings ms).getLast?.or marks.rename, marks.skip || ms.any Mark.skips⟩ := by
  induction ms generalizing marks with
  | nil => simp [renamings]
  | cons m ms ih =>
    have hlast : (renamings (m :: ms)).getLast? = (renamings ms).getLast?.or m.rename? := by
      rw [renamings, List.filterMap_cons, ← renamings]
      cases m.rename? with
      | none => exact Option.or_none.symm
      | some text =>
        change (text :: renamings ms).getLast? = _
        rw [List.getLast?_cons]
        cases (renamings ms).getLast? <;> rfl
    rw [List.foldl_cons, ih, hlast, Mark.addTo, List.any_cons, Option.or_assoc, Bool.or_assoc]

theorem skip_together : (together ms).skip = ms.any Mark.skips := by
  rw [together, foldl_addTo]
  rfl

theorem rename_together : (together ms).rename = (renamings ms).getLast? := by
  rw [together, foldl_addTo]
  exact Option.or_none

/-- The name under which something is documented that has all these marks, if it is documented. -/
def documented? (ms : List Mark) (name : String) : Option String :=
  (together ms).documented? name

theorem documented?_of_skip (h : ms.any Mark.skips = true) : documented? ms name = none := by
  rw [documented?, Marks.documented?, skip_together, h, if_pos rfl]

theorem documented?_of_no_skip (h : ms.any Mark.skips = false) :
    documented? ms name = some ((renamings ms).getLast?.getD name) := by
  rw [documented?, Marks.documented?, skip_together, rename_together, h, if_neg Bool.false_ne_true]

theorem documented?_eq_none_iff : documented? ms name = none ↔ ∃ m ∈ ms, m.skips = true := by
  rw [← List.any_eq_true]
  cases h : ms.any Mark.skips with
  | true => simp [documented?_of_skip h]
  | false => simp [documented?_of_no_skip h]

theorem renamings_subset (h : kept ⊆ ms) : renamings kept ⊆ renamings ms :=
  List.filterMap_subset _ h

/-- Marks with at most one renaming say the same in every order. -/
theorem documented?_perm (h : ms.Perm ms') (hone : (renamings ms).length ≤ 1) :
    documented? ms name = documented? ms' name := by
  have hskips : ms.any Mark.skips = ms'.any Mark.skips := h.any_eq
  have hrenamings : renamings ms = renamings ms' := by
    have hperm : (renamings ms).Perm (renamings ms') := h.filterMap _
    match hms : renamings ms, hone with
    | [], _ =>
      rw [hms] at hperm
      exact hperm.nil_eq
    | [text], _ =>
      rw [hms] at hperm
      exact (List.perm_singleton.1 hperm.symm).symm
  rw [documented?, documented?, Marks.documented?, Marks.documented?, skip_together, skip_together,
    rename_together, rename_together, hskips, hrenamings]

/-- Where one mark says what all say together, so do some of them with this one among them. -/
theorem documented?_of_subset (hone : (renamings ms).length ≤ 1) (hsubset : kept ⊆ ms)
    (hm : m ∈ kept) (hsame : documented? [m] name = documented? ms name) :
    documented? kept name = documented? ms name := by
  cases hskips : ms.any Mark.skips with
  | true =>
    rw [documented?_of_skip hskips] at hsame ⊢
    obtain ⟨m', hm', hskips'⟩ := documented?_eq_none_iff.1 hsame
    cases List.mem_singleton.1 hm'
    exact documented?_eq_none_iff.2 ⟨m, hm, hskips'⟩
  | false =>
    have hkept : kept.any Mark.skips = false := by
      rw [List.any_eq_false] at hskips ⊢
      exact fun m' hm' => hskips m' (hsubset hm')
    rw [documented?_of_no_skip hkept]
    cases hlast : (renamings kept).getLast? with
    | some text =>
      have htext : text ∈ renamings ms := renamings_subset hsubset (List.mem_of_getLast? hlast)
      have hall : renamings ms = [text] := by
        match hms : renamings ms, hone with
        | [], _ =>
          rw [hms] at htext
          cases htext
        | [text'], _ =>
          rw [hms] at htext
          rw [List.mem_singleton.1 htext]
      rw [documented?_of_no_skip hskips, hall]
      rfl
    | none =>
      have hnil := List.getLast?_eq_none_iff.1 hlast
      have hrename : m.rename? = none := List.filterMap_eq_nil_iff.1 hnil m hm
      have hm' : [m].any Mark.skips = false := by
        rw [List.any_eq_false] at hkept ⊢
        exact fun m' hm' => hkept m' (List.mem_singleton.1 hm' ▸ hm)
      rw [← hsame, documented?_of_no_skip hm', renamings, List.filterMap_cons, hrename]
      rfl

end Documented

section Arranged

variable {m : Mark} {ms : List Mark} {groups : List (List Mark)} {children : List (Tree Rule)}
  {name : String}

theorem heeded_subset : heeded ms ⊆ ms := by
  induction ms with
  | nil => exact List.Subset.refl _
  | cons m ms ih =>
    rw [heeded]
    split
    · exact List.cons_subset_cons _ (List.nil_subset _)
    · exact List.cons_subset_cons _ ih

theorem heeded_of_not_stops (h : ∀ m ∈ ms, m.stops = false) : heeded ms = ms := by
  induction ms with
  | nil => rfl
  | cons m ms ih =>
    rw [heeded, h m List.mem_cons_self, if_neg Bool.false_ne_true,
      ih fun m' hm' => h m' (List.mem_cons_of_mem _ hm')]

/-- Where a mark stops the reading, the one that stops it first is heeded. -/
theorem exists_heeded_stops (hm : m ∈ ms) (hstops : m.stops = true) :
    ∃ m' ∈ heeded ms, m'.stops = true := by
  induction ms with
  | nil => cases hm
  | cons m' ms ih =>
    rw [heeded]
    cases h : m'.stops with
    | true => exact ⟨m', List.mem_cons_self, h⟩
    | false =>
      rcases List.mem_cons.1 hm with rfl | hm
      · rw [h] at hstops
        cases hstops
      · obtain ⟨first, hfirst, hstops'⟩ := ih hm
        exact ⟨first, List.mem_cons_of_mem _ hfirst, hstops'⟩

theorem documented?_heeded (hone : (renamings ms).length ≤ 1) (hperm : groups.flatten.Perm ms)
    (hsettled : ∀ m ∈ ms, m.stops = true → documented? [m] name = documented? ms name) :
    documented? (groups.flatMap heeded) name = documented? ms name := by
  have hsubset : groups.flatMap heeded ⊆ ms := by
    intro m hm
    obtain ⟨group, hgroup, hm⟩ := List.mem_flatMap.1 hm
    exact hperm.subset (List.mem_flatten_of_mem hgroup (heeded_subset hm))
  by_cases hstops : ∃ m ∈ ms, m.stops = true
  · obtain ⟨m, hm, hstops⟩ := hstops
    obtain ⟨group, hgroup, hm⟩ := List.mem_flatten.1 (hperm.symm.subset hm)
    obtain ⟨first, hfirst, hstops'⟩ := exists_heeded_stops hm hstops
    have hkept : first ∈ groups.flatMap heeded := List.mem_flatMap.2 ⟨group, hgroup, hfirst⟩
    exact documented?_of_subset hone hsubset hkept (hsettled first (hsubset hkept) hstops')
  · have hnone : ∀ m ∈ ms, m.stops = false := by simpa using hstops
    have heach : ∀ group ∈ groups, heeded group = group := fun group hgroup =>
      heeded_of_not_stops fun m hm => hnone m (hperm.subset (List.mem_flatten_of_mem hgroup hm))
    rw [List.flatMap_def, List.map_congr_left heach, List.map_id']
    exact (documented?_perm hperm.symm hone).symm

/-- The attributes among the children hold these marks, in some order and in some distribution. -/
def Holds (children : List (Tree Rule)) (ms : List Mark) : Prop :=
  ∃ groups, groups.flatten.Perm ms ∧ Lists children groups

theorem name_fieldOf? (hname : nameOf? children = some name) :
    (fieldOf? (.node .field children)).map Field.name = (marksOf children).documented? name := by
  rw [fieldOf?, Marks.documented?, hname]
  split <;> rfl

theorem variantOf?_eq (hname : nameOf? children = some name) :
    variantOf? (.node .variant children) = (marksOf children).documented? name := by
  rw [variantOf?, Marks.documented?, hname]
  split <;> rfl

theorem exists_listed (ms : List Mark) : ∃ ts, Listed ms ts := by
  induction ms with
  | nil => exact ⟨[], .nil⟩
  | cons m ms ih =>
    obtain ⟨ts, h⟩ := ih
    exact ⟨_, .more m false h⟩

/-- The attribute whose delimiters hold these tokens, up to how they are nested. -/
def attributeOf (ts : List Token) : Tree Rule :=
  .node .attr [.leaf (.punct '#' false), .leaf (.opening .bracket),
    .node .metaItem (.node .metaPath [.leaf (.ident "serde")] :: .leaf (.opening .paren) ::
      (ts ++ [Token.closing .paren]).map .leaf),
    .leaf (.closing .bracket)]

theorem allTokens_map_leaf (ts : List Token) : allTokens (ts.map .leaf) = ts := by
  induction ts with
  | nil => rfl
  | cons t ts ih =>
    rw [List.map_cons, allTokens, ih]
    rfl

theorem markTokens?_attributeOf (ts : List Token) : markTokens? (attributeOf ts) = some ts := by
  rw [attributeOf, markTokens?, allTokens_map_leaf, List.dropLast_concat]

/-- The name under which a field or a variant is documented, and whether it is documented at all,
do not depend on how its marks are arranged exactly when each mark that stops the reading of its
attribute says by itself what all of them say together: that nothing is documented, if one of them
skips. -/
theorem documented_arranged_iff (hone : (renamings ms).length ≤ 1) (name : String) :
    (documented? ms name = none ↔ ∃ m ∈ ms, m.skips = true) ∧
    ((∀ children, Holds children ms → nameOf? children = some name →
      (fieldOf? (.node .field children)).map Field.name = documented? ms name ∧
      variantOf? (.node .variant children) = documented? ms name) ↔
    ∀ m ∈ ms, m.stops = true → documented? [m] name = documented? ms name) := by
  refine ⟨documented?_eq_none_iff, ?_, ?_⟩
  · intro hall m hm hstops
    obtain ⟨before, after, rfl⟩ := List.append_of_mem hm
    obtain ⟨ts, hts⟩ := exists_listed (m :: (before ++ after))
    -- In the attribute that begins with this mark nothing else is heeded.
    have hlists : Lists [attributeOf ts, .leaf (.ident name)] [m :: (before ++ after)] := by
      have htokens : [attributeOf ts, .leaf (.ident name)].filterMap markTokens? = [ts] := by
        rw [List.filterMap_cons_some (markTokens?_attributeOf ts)]
        rfl
      rw [Lists, htokens]
      exact .cons hts .nil
    have hholds : Holds [attributeOf ts, .leaf (.ident name)] (before ++ m :: after) :=
      ⟨_, by simpa using List.perm_middle.symm, hlists⟩
    have hheeded : heeded (m :: (before ++ after)) = [m] := by rw [heeded, if_pos hstops]
    rw [← (hall _ hholds rfl).2, variantOf?_eq rfl, marksOf_lists hlists, List.flatMap_singleton,
      hheeded]
    rfl
  · rintro hsettled children ⟨groups, hperm, hlists⟩ hname
    have hmarks : (marksOf children).documented? name = documented? ms name := by
      rw [marksOf_lists hlists]
      exact documented?_heeded hone hperm hsettled
    exact ⟨(name_fieldOf? hname).trans hmarks, (variantOf?_eq hname).trans hmarks⟩

/-- What a group holds that bounds a type parameter. -/
def boundTokens : List Token :=
  [.ident "deserialize", .punct '=' false, .literal (.string "T: Default")]

/-- A group, a renaming, a flag and a value, as they mark a field `pet_id`, which keeps its name. -/
def petMarks : List Mark :=
  [⟨{ first := "bound" }, .group .paren boundTokens⟩,
    ⟨{ first := "rename" }, .assigned false [.literal (.string "pet_id")] (isValue_literal _)⟩,
    ⟨{ first := "default" }, .flag⟩,
    ⟨{ first := "skip_serializing_if" },
      .assigned false [.literal (.string "Option::is_none")] (isValue_literal _)⟩]

/-- The marks in two attributes; in the second one the group hides the renaming. -/
def petChildren : List (Tree Rule) :=
  [attributeOf [.ident "default", .punct ',' false, .ident "skip_serializing_if", .punct '=' false,
      .literal (.string "Option::is_none")],
    attributeOf ([.ident "bound", .opening .paren] ++ boundTokens ++ [.closing .paren,
      .punct ',' false, .ident "rename", .punct '=' false, .literal (.string "pet_id"),
      .punct ',' false]),
    .leaf (.ident "pet_id")]

theorem petMarks_arranged :
    (renamings petMarks).length ≤ 1 ∧
      (∀ m ∈ petMarks, m.stops = true → documented? [m] "pet_id" = documented? petMarks "pet_id") ∧
      (∃ m ∈ petMarks, m.stops = true) ∧
      Holds petChildren petMarks ∧ nameOf? petChildren = some "pet_id" ∧
      (fieldOf? (.node .field petChildren)).map Field.name = some "pet_id" ∧
      variantOf? (.node .variant petChildren) = some "pet_id" := by
  have hone : (renamings petMarks).length ≤ 1 := by decide
  have hsettled : ∀ m ∈ petMarks,
      m.stops = true → documented? [m] "pet_id" = documented? petMarks "pet_id" := by decide
  have hstops : ∃ m ∈ petMarks, m.stops = true := ⟨_, List.mem_cons_self, rfl⟩
  have hholds : Holds petChildren petMarks := by
    refine ⟨[petMarks.drop 2, petMarks.take 2], List.perm_append_comm, ?_⟩
    have hfirst : Listed (petMarks.drop 2) _ := .more _ false (.last _)
    have hsecond : Listed (petMarks.take 2) _ := .more _ false (.more _ false .nil)
    exact .cons hfirst (.cons hsecond .nil)
  have hall := (documented_arranged_iff hone "pet_id").2.2 hsettled petChildren hholds rfl
  exact ⟨hone, hsettled, hstops, hholds, rfl, hall⟩

end Arranged

end Source

/-- The names under which the fields or the variants of a definition are documented. -/
def Definition.documented (d : Definition) : List String :=
  match d.kind with
  | .record fields => fields.map (·.name)
  | .choice variants => variants

/-- A field is left out if the mark that says so stands before one with a group, and is documented
if it stands behind it. -/
theorem keeper_rearranged :
    (ModelSource.parse?
        "struct Cage<T> \x7b #[serde(skip, bound(deserialize = \"T: Default\"))] keeper: T \x7d").map
          (·.definitions.map (·.documented)) = some [[]] ∧
      (ModelSource.parse?
        "struct Cage<T> \x7b #[serde(bound(deserialize = \"T: Default\"), skip)] keeper: T \x7d").map
          (·.definitions.map (·.documented)) = some [["keeper"]] := by
  constructor
  · decide +kernel
  · decide +kernel

end Apidoc
