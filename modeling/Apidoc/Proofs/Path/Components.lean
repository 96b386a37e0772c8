import Apidoc.Proofs.Path.Joined
import Mathlib

namespace Apidoc.Path

/-- The texts between slashes that are not empty. -/
def pieces (path : List Char) : List (List Char) :=
  (path.splitOn '/').filter (· ≠ [])

def components (path : String) : List String :=
  (pieces path.toList).map String.ofList

/-- The components of the fragments that a path is composed from. -/
def allComponents (parent : String) (cls method : Option String) : List String :=
  components parent ++ components (cls.getD "") ++ components (method.getD "")

/-- A path composed in two steps: first without the method path, then with it alone. -/
def composeInSteps (parent : String) (cls method : Option String) : Option String :=
  (compose parent cls (some "")).bind fun inner => compose inner none method

/-- A fragment without two slashes in a row. -/
def IsSingle (fragment : String) : Prop :=
  ¬['/', '/'] <:+: fragment.toList

variable {a b c path segment : List Char}

section Pieces

theorem pieces_nil : pieces [] = [] := rfl

/-- A slash parts the pieces before it from those behind it. -/
theorem pieces_parted : pieces (a ++ '/' :: b) = pieces a ++ pieces b := by
  rw [pieces, List.splitOn_append_cons_self, List.filter_append]
  rfl

theorem pieces_slash : pieces ('/' :: a) = pieces a :=
  pieces_parted (a := [])

theorem pieces_concat_slash : pieces (a ++ ['/']) = pieces a := by
  rw [pieces_parted, pieces_nil, List.append_nil]

theorem pieces_dropLastSlash : pieces (dropLastSlash path) = pieces path := by
  by_cases hback : path.getLast? = some '/'
  · obtain ⟨before, rfl⟩ := List.getLast?_eq_some_iff.1 hback
    rw [dropLastSlash_concat, pieces_concat_slash]
  · rw [dropLastSlash_of_ne hback]

theorem pieces_dropFirstSlash : pieces (dropFirstSlash path) = pieces path := by
  by_cases hfront : path.head? = some '/'
  · obtain ⟨rest, rfl⟩ := List.head?_eq_some_iff.1 hfront
    rw [dropFirstSlash, if_pos rfl, pieces_slash]
  · rw [dropFirstSlash_of_ne hfront]

theorem pieces_stripSlashes : pieces (stripSlashes path) = pieces path := by
  rw [stripSlashes, pieces_dropLastSlash, pieces_dropFirstSlash]

theorem pieces_dropSlashes (path : List Char) :
    pieces (path.dropWhile (· == '/')) = pieces path := by
  induction path with
  | nil => rfl
  | cons c rest ih =>
    by_cases hc : c = '/'
    · subst hc
      rw [List.dropWhile_cons_of_pos rfl, ih, pieces_slash]
    · rw [List.dropWhile_cons_of_neg (by simpa using hc)]

theorem pieces_append : pieces (append path segment) = pieces path ++ pieces segment := by
  by_cases hpath : path = []
  · subst hpath
    have hjoin : append [] segment = segment := by
      cases segment <;> simp [append, endsWithSlash]
    rw [hjoin, pieces_nil, List.nil_append]
  · by_cases hsegment : segment = []
    · subst hsegment
      rw [append, pieces_nil, List.append_nil]
    · rw [append_eq hpath hsegment, pieces_parted, pieces_dropLastSlash, pieces_dropFirstSlash]

theorem pieces_base : pieces (base path) = pieces path := by
  rw [base]
  split
  · rename_i hshort
    rcases hshort with rfl | rfl <;> rfl
  · split
    · exact pieces_dropLastSlash
    · exact pieces_slash.trans pieces_dropLastSlash

theorem pieces_normalize : pieces (normalize path) = pieces path := by
  rw [← pieces_dropSlashes path, normalize]
  split
  · rename_i hnil
    rw [hnil]
    rfl
  · exact pieces_slash.trans pieces_dropLastSlash

end Pieces

section Joining

theorem intercalate_append {xs ys : List (List Char)} (hx : xs ≠ []) (hy : ys ≠ []) :
    ['/'].intercalate (xs ++ ys) = ['/'].intercalate xs ++ '/' :: ['/'].intercalate ys := by
  induction xs with
  | nil => exact (hx rfl).elim
  | cons x xs ih =>
    by_cases hxs : xs = []
    · rw [hxs, List.singleton_append, List.intercalate_cons_of_ne_nil hy,
        List.intercalate_singleton, List.append_assoc, List.singleton_append]
    · rw [List.cons_append, List.intercalate_cons_of_ne_nil (by simp [hxs]), ih hxs,
        List.intercalate_cons_of_ne_nil hxs, ← List.append_assoc]

/-- Between single slashes, none of them at an end, nothing is empty. -/
theorem nil_not_mem_splitOn (ha : Bare a) (hne : a ≠ []) (hsingle : ¬['/', '/'] <:+: a) :
    [] ∉ a.splitOn '/' := by
  intro hmem
  obtain ⟨before, after, hsplit⟩ := List.append_of_mem hmem
  have hjoined : a = ['/'].intercalate (before ++ [] :: after) := by
    rw [← hsplit, List.intercalate_splitOn]
  have hnil : ['/'].intercalate [([] : List Char)] = [] := rfl
  -- Where the empty text stands: alone, in front, at the back, or between two slashes.
  by_cases hbefore : before = [] <;> by_cases hafter : after = []
  · rw [hbefore, hafter, List.nil_append, hnil] at hjoined
    exact hne hjoined
  · rw [hbefore, List.nil_append, List.intercalate_cons_of_ne_nil hafter] at hjoined
    apply ha.front
    rw [hjoined]
    rfl
  · rw [hafter, intercalate_append hbefore (by simp), hnil] at hjoined
    apply ha.back
    rw [hjoined]
    simp
  · rw [intercalate_append hbefore (by simp), List.intercalate_cons_of_ne_nil hafter] at hjoined
    apply hsingle
    rw [hjoined]
    exact ⟨['/'].intercalate before, ['/'].intercalate after, by simp⟩

/-- A path without two slashes in a row is its pieces, but for the slashes at its ends. -/
theorem stripSlashes_eq (hsingle : ¬['/', '/'] <:+: path) :
    stripSlashes path = ['/'].intercalate (pieces path) := by
  have hspells := spells_stripSlashes hsingle
  by_cases hne : stripSlashes path = []
  · rw [← pieces_stripSlashes, hne]
    rfl
  · obtain ⟨front, back, _, _, _, hpath⟩ := hspells.edges
    have hinner : ¬['/', '/'] <:+: stripSlashes path := by
      intro hinfix
      apply hsingle
      rw [hpath]
      exact hinfix.trans ⟨front, back, rfl⟩
    have hfull : ∀ piece ∈ (stripSlashes path).splitOn '/', piece ≠ [] := by
      rintro piece hpiece rfl
      exact nil_not_mem_splitOn hspells.bare hne hinner hpiece
    have hall : pieces (stripSlashes path) = (stripSlashes path).splitOn '/' :=
      List.filter_eq_self.2 fun piece hpiece => by simpa using hfull piece hpiece
    rw [← pieces_stripSlashes, hall, List.intercalate_splitOn]

theorem ne_nil_of_mem_pieces (h : a ∈ pieces path) : a ≠ [] := by
  simpa using (List.mem_filter.1 h).2

theorem intercalate_ne_nil {xs : List (List Char)} (hx : ∀ x ∈ xs, x ≠ []) (hne : xs ≠ []) :
    ['/'].intercalate xs ≠ [] := by
  obtain ⟨x, xs, rfl⟩ := List.exists_cons_of_ne_nil hne
  have hfirst := hx x List.mem_cons_self
  by_cases hxs : xs = []
  · rw [hxs, List.intercalate_singleton]
    exact hfirst
  · rw [List.intercalate_cons_of_ne_nil hxs]
    simp

theorem glue_intercalate {xs ys : List (List Char)} (hx : ∀ x ∈ xs, x ≠ [])
    (hy : ∀ y ∈ ys, y ≠ []) :
    glue (['/'].intercalate xs) (['/'].intercalate ys) = ['/'].intercalate (xs ++ ys) := by
  by_cases hxs : xs = []
  · rw [hxs, List.intercalate_nil, glue_nil_left, List.nil_append]
  · by_cases hys : ys = []
    · rw [hys, List.intercalate_nil, glue_nil_right, List.append_nil]
    · rw [glue_eq (intercalate_ne_nil hx hxs) (intercalate_ne_nil hy hys),
        intercalate_append hxs hys]

end Joining

section Composing

variable {parent path : String} {cls method : Option String}

/-- Fragments that spell texts are composed to these texts, joined with slashes. -/
theorem composed_of_spells (ha : Spells parent.toList a) (hb : Spells (cls.getD "").toList b)
    (hc : Spells (method.getD "").toList c) (h : compose parent cls method = some path) :
    path.toList = '/' :: glue (glue a b) c := by
  obtain ⟨chars, hchars, rfl⟩ := Option.map_eq_some_iff.1 h
  rw [composeChars] at hchars
  split at hchars
  · cases hchars
  · cases hchars
    rw [String.toList_ofList, appendMethod_eq, appendClass_eq, toList_getD, toList_getD]
    exact ((ha.base.append hb).append hc.dropLastSlash).normalize

theorem isSingle_empty : IsSingle "" := by
  rw [IsSingle]
  decide

theorem IsSingle.spells (h : IsSingle path) :
    Spells path.toList (['/'].intercalate (pieces path.toList)) := by
  rw [← stripSlashes_eq h]
  exact spells_stripSlashes h

theorem isSingle_getD {fragment : Option String} (h : ∀ f ∈ fragment, IsSingle f) :
    IsSingle (fragment.getD "") := by
  cases fragment with
  | none => exact isSingle_empty
  | some f => exact h f rfl

theorem compose_eq_none_iff : compose parent cls method = none ↔ cls = none ∧ method = none := by
  rw [compose, Option.map_eq_none_iff, composeChars]
  cases cls <;> cases method <;> simp

theorem exists_compose (parent : String) (h : cls.isSome ∨ method.isSome) :
    ∃ path, compose parent cls method = some path := by
  rw [← Option.ne_none_iff_exists']
  intro hnone
  obtain ⟨rfl, rfl⟩ := compose_eq_none_iff.1 hnone
  simp at h

/-- Joining, cutting slashes off and putting them in front leave the components alone. -/
theorem components_compose (h : compose parent cls method = some path) :
    components path = allComponents parent cls method := by
  obtain ⟨chars, hchars, rfl⟩ := Option.map_eq_some_iff.1 h
  rw [composeChars] at hchars
  split at hchars
  · cases hchars
  · cases hchars
    rw [components, String.toList_ofList, appendMethod_eq, appendClass_eq, pieces_normalize,
      pieces_append, pieces_append, pieces_base, pieces_dropLastSlash, toList_getD, toList_getD]
    simp only [List.map_append, allComponents, components]

theorem exists_slash_of_compose (h : compose parent cls method = some path) :
    ∃ rest, path.toList = '/' :: rest := by
  obtain ⟨chars, hchars, rfl⟩ := Option.map_eq_some_iff.1 h
  rw [composeChars] at hchars
  split at hchars
  · cases hchars
  · cases hchars
    rw [String.toList_ofList]
    exact exists_normalize_eq _

theorem toList_joinedComponents :
    ("/" ++ "/".intercalate (allComponents parent cls method)).toList =
    '/' :: ['/'].intercalate
      (pieces parent.toList ++ pieces (cls.getD "").toList ++ pieces (method.getD "").toList) := by
  rw [String.toList_append, String.toList_intercalate, allComponents]
  simp only [components, List.map_append, List.map_map]
  simp [Function.comp_def]

variable (hparent : IsSingle parent) (hcls : ∀ c ∈ cls, IsSingle c)
  (hmethod : ∀ m ∈ method, IsSingle m)
include hparent hcls hmethod

/-- Without two slashes in a row, a path is its components behind single slashes. -/
theorem compose_single (h : compose parent cls method = some path) :
    path = "/" ++ "/".intercalate (allComponents parent cls method) := by
  have hpath := composed_of_spells hparent.spells (isSingle_getD hcls).spells
    (isSingle_getD hmethod).spells h
  rw [glue_intercalate (fun _ => ne_nil_of_mem_pieces) (fun _ => ne_nil_of_mem_pieces),
    glue_intercalate _ (fun _ => ne_nil_of_mem_pieces), ← toList_joinedComponents] at hpath
  · exact String.toList_inj.1 hpath
  · intro piece hpiece
    rcases List.mem_append.1 hpiece with hpiece | hpiece <;> exact ne_nil_of_mem_pieces hpiece

/-- The second step puts a method path where a single one would. -/
theorem composeInSteps_of_method (hm : method.isSome) :
    composeInSteps parent cls method = compose parent cls method := by
  have hcls' := (isSingle_getD hcls).spells
  have hmethod' := (isSingle_getD hmethod).spells
  have hempty : Spells ((some "").getD "").toList [] := spells_self bare_nil
  have hnone : Spells ((none : Option String).getD "").toList [] := spells_self bare_nil
  have hbare := hparent.spells.bare.glue hcls'.bare
  obtain ⟨inner, hinner⟩ := exists_compose parent (.inr rfl : cls.isSome ∨ (some "").isSome)
  have hbelow := composed_of_spells hparent.spells hcls' hempty hinner
  rw [glue_nil_right] at hbelow
  obtain ⟨path, hpath⟩ := exists_compose parent (.inr hm : cls.isSome ∨ method.isSome)
  obtain ⟨path', hpath'⟩ := exists_compose inner (.inr hm : none.isSome ∨ method.isSome)
  have hsame : path'.toList = path.toList := by
    rw [composed_of_spells hparent.spells hcls' hmethod' hpath,
      composed_of_spells (hbelow ▸ spells_slash hbare) hnone hmethod' hpath', glue_nil_right]
  rw [composeInSteps, hinner, Option.bind_some, hpath', hpath, String.toList_inj.1 hsame]

theorem composeInSteps_eq_iff :
    composeInSteps parent cls method = compose parent cls method ↔
      (method = none → cls = none) := by
  cases method with
  | some m => exact iff_of_true (composeInSteps_of_method hparent hcls hmethod rfl) (by simp)
  | none =>
    obtain ⟨inner, hinner⟩ := exists_compose parent (.inr rfl : cls.isSome ∨ (some "").isSome)
    have hlast : composeInSteps parent cls none = none := by
      rw [composeInSteps, hinner, Option.bind_some]
      exact compose_eq_none_iff.2 ⟨rfl, rfl⟩
    rw [hlast, eq_comm, compose_eq_none_iff]
    simp

end Composing

/-- Composing keeps the components of all fragments, in order, behind a slash, and gives no path
exactly when neither the class nor the method has one. Where no fragment has two slashes in a row,
the path is its components behind single slashes, and composing in two steps makes no difference,
unless there is a class path and no method path: then the second step has nothing to compose. -/
theorem compose_components (parent : String) (cls method : Option String) :
    (compose parent cls method = none ↔ cls = none ∧ method = none) ∧
      (∀ path, compose parent cls method = some path → path.toList.head? = some '/' ∧
        components path = allComponents parent cls method) ∧
      (IsSingle parent → (∀ c ∈ cls, IsSingle c) → (∀ m ∈ method, IsSingle m) →
        (∀ path, compose parent cls method = some path →
          path = "/" ++ "/".intercalate (allComponents parent cls method)) ∧
        (composeInSteps parent cls method = compose parent cls method ↔
          (method = none → cls = none))) := by
  refine ⟨compose_eq_none_iff, fun path h => ⟨?_, components_compose h⟩,
    fun hparent hcls hmethod => ⟨fun path h => compose_single hparent hcls hmethod h,
      composeInSteps_eq_iff hparent hcls hmethod⟩⟩
  obtain ⟨rest, hrest⟩ := exists_slash_of_compose h
  rw [hrest]
  rfl

/-- Slashes at either side of every junction. -/
theorem compose_components_versioned :
    IsSingle "v1/" ∧ (∀ c ∈ some "/pets/", IsSingle c) ∧ (∀ m ∈ some "/{id}/", IsSingle m) ∧
      allComponents "v1/" (some "/pets/") (some "/{id}/") = ["v1", "pets", "{id}"] ∧
      compose "v1/" (some "/pets/") (some "/{id}/") = some "/v1/pets/{id}" ∧
      components "/v1/pets/{id}" = ["v1", "pets", "{id}"] ∧
      composeInSteps "v1/" (some "/pets/") (some "/{id}/") = some "/v1/pets/{id}" := by
  have hparent : IsSingle "v1/" := by
    rw [IsSingle]
    decide
  have hcls : ∀ c ∈ some "/pets/", IsSingle c := by
    rintro c ⟨⟩
    rw [IsSingle]
    decide
  have hmethod : ∀ m ∈ some "/{id}/", IsSingle m := by
    rintro m ⟨⟩
    rw [IsSingle]
    decide
  have hall : allComponents "v1/" (some "/pets/") (some "/{id}/") = ["v1", "pets", "{id}"] := by
    cbv
  have hpath : compose "v1/" (some "/pets/") (some "/{id}/") = some "/v1/pets/{id}" := by cbv
  obtain ⟨_, hkept, hexact⟩ := compose_components "v1/" (some "/pets/") (some "/{id}/")
  obtain ⟨_, hcomponents⟩ := hkept _ hpath
  obtain ⟨_, hsteps⟩ := hexact hparent hcls hmethod
  exact ⟨hparent, hcls, hmethod, hall, hpath, hcomponents.trans hall,
    (hsteps.2 (by simp)).trans hpath⟩

/-- Without a method path the second step composes nothing, although the class has a path. -/
theorem composeInSteps_without_method :
    IsSingle "/v1" ∧ IsSingle "/pets" ∧ compose "/v1" (some "/pets") none = some "/v1/pets" ∧
      composeInSteps "/v1" (some "/pets") none = none := by
  refine ⟨?_, ?_, by cbv, by cbv⟩ <;> rw [IsSingle] <;> decide

end Apidoc.Path
