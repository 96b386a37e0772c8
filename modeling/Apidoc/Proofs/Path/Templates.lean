import Apidoc.Path
import Mathlib.Data.List.TakeWhile

namespace Apidoc.Path

/-- A template constrains no parameter whose name has braces. -/
def PlainName (inner : List Char) : Prop :=
  ∀ constraint ∈ constraint? inner, ∀ c ∈ constraint.1, c ≠ '{' ∧ c ≠ '}'

/-- The templates of a path are all closed, and these constraints stand in them. -/
inductive Templated : List Char → List (List Char × List Char) → Prop
  | nil : Templated [] []
  | char {c : Char} {rest : List Char} {found : List (List Char × List Char)} (hc : c ≠ '{')
    (h : Templated rest found) : Templated (c :: rest) found
  | template {rest inner after : List Char} {found : List (List Char × List Char)}
    (hclose : closing? 0 rest = some (inner, after)) (hname : PlainName inner)
    (h : Templated after found) : Templated ('{' :: rest) ((constraint? inner).toList ++ found)

variable {depth : Nat} {c : Char} {cs rest inner after name pattern path : List Char}
  {found found' : List (List Char × List Char)}

section Closing

theorem closing?_split (h : closing? depth cs = some (inner, after)) :
    cs = inner ++ '}' :: after ∧
      ∀ after', closing? depth (inner ++ '}' :: after') = some (inner, after') := by
  fun_induction closing? depth cs generalizing inner after with
  | case1 => cases h
  | case2 depth rest ih =>
    obtain ⟨⟨i, a⟩, hi, he⟩ := Option.map_eq_some_iff.1 h
    cases he
    obtain ⟨hsplit, hother⟩ := ih hi
    refine ⟨by rw [hsplit]; rfl, fun after' => ?_⟩
    rw [List.cons_append, closing?, hother]
    rfl
  | case3 rest =>
    cases h
    exact ⟨rfl, fun _ => rfl⟩
  | case4 rest depth ih =>
    obtain ⟨⟨i, a⟩, hi, he⟩ := Option.map_eq_some_iff.1 h
    cases he
    obtain ⟨hsplit, hother⟩ := ih hi
    refine ⟨by rw [hsplit]; rfl, fun after' => ?_⟩
    rw [List.cons_append, closing?, hother]
    rfl
  | case5 depth c rest hopen hclose hclose' ih =>
    obtain ⟨⟨i, a⟩, hi, he⟩ := Option.map_eq_some_iff.1 h
    cases he
    obtain ⟨hsplit, hother⟩ := ih hi
    refine ⟨by rw [hsplit]; rfl, fun after' => ?_⟩
    rw [List.cons_append, closing?, hother]
    · rfl
    · exact hopen
    · exact hclose
    · exact hclose'

theorem closing?_no_braces (h : ∀ c ∈ name, c ≠ '{' ∧ c ≠ '}') :
    closing? 0 (name ++ '}' :: after) = some (name, after) := by
  induction name with
  | nil => rfl
  | cons c name ih =>
    obtain ⟨hopen, hclose⟩ := h c List.mem_cons_self
    have hrest := ih fun c' hc' => h c' (List.mem_cons_of_mem _ hc')
    rw [List.cons_append, closing?, hrest]
    · rfl
    · exact hopen
    · exact fun _ => hclose
    · exact fun _ _ => hclose

end Closing

theorem templates_char (hc : c ≠ '{') :
    templates (c :: rest) = (c :: (templates rest).1, (templates rest).2) := by
  rw [templates, if_neg hc]

theorem templates_template (h : closing? 0 rest = some (inner, after)) :
    templates ('{' :: rest) =
      (plain inner ++ (templates after).1, (constraint? inner).toList ++ (templates after).2) := by
  rw [templates, if_pos rfl]
  split
  · rename_i h'
    rw [h] at h'
    cases h'
    rfl
  · rename_i h'
    rw [h] at h'
    cases h'

theorem mem_of_mem_trimChars (h : c ∈ Text.trimChars cs) : c ∈ cs := by
  rw [Text.trimChars, Text.dropEndWhile, List.mem_reverse] at h
  have hstart := List.mem_reverse.1 ((List.dropWhile_suffix _).subset h)
  exact (List.dropWhile_suffix _).subset hstart

theorem colon_not_mem_name (h : constraint? inner = some (name, pattern)) : ':' ∉ name := by
  unfold constraint? at h
  split at h
  · cases h
    intro hc
    have hall := List.all_eq_true.1 (List.all_takeWhile (p := (· != ':')) (l := inner))
    have hne := hall ':' (mem_of_mem_trimChars hc)
    simp at hne
  · cases h

theorem constraint?_eq_none (h : ':' ∉ inner) : constraint? inner = none := by
  have hdrop : inner.dropWhile (· != ':') = [] := by
    refine List.dropWhile_eq_nil_iff.2 fun c hc => ?_
    simp only [bne_iff_ne, ne_eq]
    rintro rfl
    exact h hc
  rw [constraint?, hdrop]

namespace Templated

theorem found_eq (h : Templated path found) : (templates path).2 = found := by
  induction h with
  | nil => rw [templates]
  | char hc _ ih => rw [templates_char hc, ih]
  | template hclose _ _ ih => rw [templates_template hclose, ih]

theorem append (h : Templated path found) (h' : Templated rest found') :
    Templated (path ++ rest) (found ++ found') := by
  induction h with
  | nil => exact h'
  | char hc _ ih => exact .char hc ih
  | template hclose hname _ ih =>
    obtain ⟨rfl, hother⟩ := closing?_split hclose
    rw [List.append_assoc, List.cons_append, List.append_assoc, List.cons_append]
    exact .template (hother _) hname ih

theorem plain (hother : ∀ after, closing? 0 (inner ++ '}' :: after) = some (inner, after))
    (hname : PlainName inner) : Templated (Path.plain inner) [] := by
  cases hc : constraint? inner with
  | none =>
    have htemplate := template (hother []) hname .nil
    rw [hc] at htemplate
    rw [Path.plain, hc]
    exact htemplate
  | some constraint =>
    obtain ⟨name, pattern⟩ := constraint
    have hnone : constraint? name = none := constraint?_eq_none (colon_not_mem_name hc)
    have hclose : closing? 0 (name ++ ['}']) = some (name, []) :=
      closing?_no_braces (hname _ hc)
    have htemplate := template hclose (by simp [PlainName, hnone]) .nil
    rw [hnone] at htemplate
    rw [Path.plain, hc]
    exact htemplate

/-- No constraint is left in a path that has been rewritten. -/
theorem rewritten (h : Templated path found) : Templated (templates path).1 [] := by
  induction h with
  | nil =>
    rw [templates]
    exact .nil
  | char hc _ ih =>
    rw [templates_char hc]
    exact .char hc ih
  | template hclose hname _ ih =>
    obtain ⟨_, hother⟩ := closing?_split hclose
    rw [templates_template hclose]
    exact (plain hother hname).append ih

section Slashes

variable {a segment : List Char}

theorem of_append_slash (h : Templated path found) (hp : path = a ++ ['/']) :
    Templated a found := by
  induction h generalizing a with
  | nil => simp at hp
  | char hc h ih =>
    cases a with
    | nil =>
      cases hp
      exact h
    | cons c' a =>
      cases hp
      exact .char hc (ih rfl)
  | @template rest inner after found hclose hname _ ih =>
    obtain ⟨hsplit, hother⟩ := closing?_split hclose
    cases a with
    | nil => cases hp
    | cons c' a =>
      obtain ⟨rfl, hrest⟩ := List.cons.inj hp
      have hend : inner ++ '}' :: after = a ++ ['/'] := hsplit.symm.trans hrest
      -- The slash is not the brace that closes the template, so it stands behind it.
      rcases List.eq_nil_or_concat after with rfl | ⟨before, c, rfl⟩
      · have hlast := (List.append_inj' hend rfl).2
        cases hlast
      · rw [List.concat_eq_append] at hend ih
        have hcut : (inner ++ '}' :: before) ++ [c] = a ++ ['/'] := by
          rw [← hend, List.append_assoc, List.cons_append]
        obtain ⟨rfl, hc⟩ := List.append_inj' hcut rfl
        cases hc
        exact .template (hother _) hname (ih rfl)

theorem dropLastSlash (h : Templated path found) : Templated (Path.dropLastSlash path) found := by
  unfold Path.dropLastSlash
  split
  · rename_i hend
    have hlast : path.getLast? = some '/' := by simpa [endsWithSlash] using hend
    obtain ⟨before, rfl⟩ := List.getLast?_eq_some_iff.1 hlast
    rw [List.dropLast_concat]
    exact h.of_append_slash rfl
  · exact h

theorem slash (h : Templated path found) : Templated ('/' :: path) found :=
  .char (by decide) h

theorem of_slash (h : Templated ('/' :: path) found) : Templated path found := by
  cases h with
  | char _ h => exact h

theorem dropSlashes (h : Templated path found) : Templated (path.dropWhile (· == '/')) found := by
  induction h with
  | nil => exact .nil
  | @char c rest found hc h ih =>
    by_cases hslash : c = '/'
    · simpa [hslash] using ih
    · simpa [hslash] using Templated.char hc h
  | template hclose hname h _ => exact .template hclose hname h

theorem normalize (h : Templated path found) : Templated (Path.normalize path) found := by
  have hdrop := h.dropSlashes
  unfold Path.normalize
  split
  · rename_i hnil
    rw [hnil] at hdrop
    exact hdrop.slash
  · exact hdrop.dropLastSlash.slash

theorem base (h : Templated path found) : Templated (Path.base path) found := by
  unfold Path.base
  split
  · rename_i hshort
    rcases hshort with rfl | rfl
    · exact h
    · exact h.of_slash
  · split
    · exact h.dropLastSlash
    · exact h.dropLastSlash.slash

theorem join (h : Templated path found) (h' : Templated segment found') :
    Templated (Path.append path segment) (found ++ found') := by
  cases segment with
  | nil =>
    cases h'
    rw [List.append_nil]
    exact h
  | cons c rest =>
    simp only [Path.append]
    split
    · split
      · rename_i hc
        subst hc
        exact h.append h'.of_slash
      · exact h.append h'
    · split
      · exact h.append h'
      · exact h.append h'.slash

end Slashes

end Templated

def TemplatedOption (path : Option (List Char)) (found : List (List Char × List Char)) : Prop :=
  match path with
  | some path => Templated path found
  | none => found = []

/-- A composed path has the constraints of its pieces, in order. -/
theorem Templated.composeChars {parent : List Char} {cls method : Option (List Char)}
    {inherited : List (List Char × List Char)} (hparent : Templated parent inherited)
    (hcls : TemplatedOption cls found) (hmethod : TemplatedOption method found')
    (h : Path.composeChars parent cls method = some path) :
    Templated path (inherited ++ found ++ found') := by
  unfold Path.composeChars at h
  split at h
  · cases h
  · cases h
    have hclass : Templated (appendClass (Path.base parent) cls) (inherited ++ found) := by
      cases cls with
      | none =>
        cases hcls
        rw [List.append_nil]
        exact hparent.base
      | some c => exact hparent.base.join hcls
    refine Templated.normalize ?_
    cases method with
    | none =>
      cases hmethod
      rw [List.append_nil]
      exact hclass
    | some m =>
      simp only [appendMethod]
      split
      · rename_i hm
        subst hm
        have hnil : Templated [] found' := of_slash hmethod
        cases hnil
        rw [List.append_nil]
        exact hclass
      · exact hclass.join (dropLastSlash hmethod)

section Check

def isPlainName (inner : List Char) : Bool :=
  (constraint? inner).all fun constraint => constraint.1.all fun c => c != '{' && c != '}'

theorem isPlainName_iff : isPlainName inner = true ↔ PlainName inner := by
  cases h : constraint? inner <;> simp [isPlainName, PlainName, h]

/-- Whether the templates of a path are all closed and have plain names. -/
def isTemplated (path : List Char) : Bool :=
  match path with
  | [] => true
  | c :: rest =>
    if c = '{' then
      match h : closing? 0 rest with
      | some (inner, after) =>
        have := closing?_length h
        isPlainName inner && isTemplated after
      | none => false
    else isTemplated rest
termination_by path.length

theorem isTemplated_template (h : closing? 0 rest = some (inner, after)) :
    isTemplated ('{' :: rest) = (isPlainName inner && isTemplated after) := by
  rw [isTemplated, if_pos rfl]
  split
  · rename_i h'
    rw [h] at h'
    cases h'
    rfl
  · rename_i h'
    rw [h] at h'
    cases h'

theorem isTemplated_iff : isTemplated path = true ↔ ∃ found, Templated path found := by
  constructor
  · intro h
    fun_induction isTemplated path with
    | case1 => exact ⟨[], .nil⟩
    | case2 rest inner after hclose _ ih =>
      obtain ⟨hname, hafter⟩ := Bool.and_eq_true_iff.1 h
      obtain ⟨found, hfound⟩ := ih hafter
      exact ⟨_, .template hclose (isPlainName_iff.1 hname) hfound⟩
    | case3 => cases h
    | case4 c rest hc ih =>
      obtain ⟨found, hfound⟩ := ih h
      exact ⟨found, .char hc hfound⟩
  · rintro ⟨found, h⟩
    induction h with
    | nil => rw [isTemplated]
    | char hc _ ih => rw [isTemplated, if_neg hc, ih]
    | template hclose hname _ ih =>
      rw [isTemplated_template hclose, isPlainName_iff.2 hname, ih]
      rfl

end Check

section Strings

/-- The constraints in a path, each with the name of its parameter. -/
def constraints (path : String) : List (String × String) :=
  (templates path.toList).2.map fun (name, pattern) => (String.ofList name, String.ofList pattern)

def IsTemplated (path : String) : Prop :=
  ∃ found, Templated path.toList found

theorem templatedOption_of_isTemplated {fragment : Option String}
    (h : ∀ path ∈ fragment, IsTemplated path) :
    TemplatedOption (fragment.map String.toList)
      (fragment.toList.flatMap fun path => (templates path.toList).2) := by
  cases fragment with
  | none => rfl
  | some path =>
    obtain ⟨found, hfound⟩ := h path rfl
    have hpath : Templated path.toList (templates path.toList).2 := by
      rw [hfound.found_eq]
      exact hfound
    simpa [TemplatedOption] using hpath

/-- Below a path without constraints, a composed path has those that are declared, and rewriting it
leaves none. -/
theorem constraints_compose {parent composed : String} {cls method : Option String}
    (hparent : Templated parent.toList []) (hcls : ∀ path ∈ cls, IsTemplated path)
    (hmethod : ∀ path ∈ method, IsTemplated path)
    (h : compose parent cls method = some composed) :
    constraints composed = (cls.toList ++ method.toList).flatMap constraints ∧
      Templated (extract composed).1.toList [] := by
  obtain ⟨path, hpath, rfl⟩ := Option.map_eq_some_iff.1 h
  have htemplated := hparent.composeChars (templatedOption_of_isTemplated hcls)
    (templatedOption_of_isTemplated hmethod) hpath
  constructor
  · rw [constraints, String.toList_ofList, htemplated.found_eq]
    simp only [List.nil_append, ← List.flatMap_append, List.map_flatMap]
    rfl
  · rw [extract, String.toList_ofList, String.toList_ofList]
    exact htemplated.rewritten

end Strings

end Apidoc.Path
