import Apidoc.Proofs.Path.Templates
import Mathlib.Data.List.Induction

namespace Apidoc.Path

/-- The number of slashes behind the last other character, if there is another one. -/
def slashes? : List Char → Option Nat
  | [] => none
  | c :: rest =>
    match slashes? rest with
    | some n => some n
    | none => if c = '/' then none else some rest.length

/-- The slashes at the end once a fragment is joined to a path that ends in so many. -/
def slashesAfter? (before : Option Nat) (segment : List Char) : Option Nat :=
  (slashes? segment).or (before.map fun n =>
    if segment = [] then n else max n 1 + (segment.length - 1))

/-- The slashes at the end of a composed path, by those of the inherited path. One is cut off the
inherited path, one off the fragment of the method, and one off the whole. -/
def slashesBelow? (inherited : Option Nat) (cls method : Option String) : Option Nat :=
  let afterClass := slashesAfter? (inherited.map (· - 1)) (cls.getD "").toList
  (slashesAfter? afterClass (dropLastSlash (method.getD "").toList)).map (· - 1)

/-- One slash in front and none at the end, unless it is the only character. -/
def IsCanonical (path : String) : Prop :=
  path.toList.head? = some '/' ∧ (path.toList.getLast? = some '/' → path = "/")

variable {c : Char} {n : Nat} {path rest segment inner after : List Char}

theorem slashes?_slash : slashes? ('/' :: path) = slashes? path := by
  rw [slashes?]
  cases slashes? path <;> rfl

theorem slashes?_cons_eq_none_iff :
    slashes? (c :: path) = none ↔ c = '/' ∧ slashes? path = none := by
  rw [slashes?]
  cases slashes? path <;> simp

theorem slashes?_append :
    slashes? (path ++ segment) =
      (slashes? segment).or ((slashes? path).map (· + segment.length)) := by
  induction path with
  | nil => simp [slashes?]
  | cons c path ih =>
    rw [List.cons_append, slashes?, ih, slashes?]
    cases slashes? segment with
    | some n => rfl
    | none =>
      cases slashes? path with
      | some n => rfl
      | none => by_cases hc : c = '/' <;> simp [hc]

theorem slashes?_concat_slash : slashes? (path ++ ['/']) = (slashes? path).map (· + 1) :=
  slashes?_append

theorem slashes?_concat (hc : c ≠ '/') : slashes? (path ++ [c]) = some 0 := by
  rw [slashes?_append, slashes?, slashes?, if_neg hc]
  rfl

/-- A path without another character consists of slashes. -/
theorem eq_replicate_of_slashes? (h : slashes? path = none) :
    path = List.replicate path.length '/' := by
  induction path with
  | nil => rfl
  | cons c path ih =>
    obtain ⟨rfl, hpath⟩ := slashes?_cons_eq_none_iff.1 h
    rw [List.length_cons, List.replicate_succ, ← ih hpath]

theorem suffix_of_slashes? (h : slashes? path = some n) : List.replicate n '/' <:+ path := by
  induction path with
  | nil => cases h
  | cons c path ih =>
    rw [slashes?] at h
    cases hrest : slashes? path with
    | some k =>
      rw [hrest] at h
      cases h
      exact (ih hrest).trans (List.suffix_cons _ _)
    | none =>
      simp only [hrest] at h
      split at h
      · cases h
      · cases h
        rw [← eq_replicate_of_slashes? hrest]
        exact List.suffix_cons _ _

theorem endsWithSlash_iff (h : slashes? path = some n) : endsWithSlash path = true ↔ n ≠ 0 := by
  rcases List.eq_nil_or_concat path with rfl | ⟨before, c, rfl⟩
  · cases h
  · rw [List.concat_eq_append] at h ⊢
    by_cases hc : c = '/'
    · subst hc
      rw [slashes?_concat_slash] at h
      obtain ⟨k, _, rfl⟩ := Option.map_eq_some_iff.1 h
      simp [endsWithSlash]
    · rw [slashes?_concat hc] at h
      cases h
      simp [endsWithSlash, hc]

theorem slashes?_dropLastSlash :
    slashes? (dropLastSlash path) = (slashes? path).map (· - 1) := by
  rcases List.eq_nil_or_concat path with rfl | ⟨before, c, rfl⟩
  · rfl
  · rw [List.concat_eq_append, dropLastSlash]
    by_cases hc : c = '/'
    · subst hc
      have hend : endsWithSlash (before ++ ['/']) = true := by simp [endsWithSlash]
      rw [if_pos hend, List.dropLast_concat, slashes?_concat_slash, Option.map_map]
      cases slashes? before <;> simp
    · have hend : ¬endsWithSlash (before ++ [c]) = true := by simp [endsWithSlash, hc]
      rw [if_neg hend, slashes?_concat hc]
      rfl

/-- A slash that a fragment begins with counts once where the path ends in one. -/
theorem slashes?_join_slash :
    slashes? (append path ('/' :: rest)) = slashesAfter? (slashes? path) ('/' :: rest) := by
  simp only [append, slashesAfter?, slashes?_slash, true_or, if_true]
  by_cases hpath : endsWithSlash path = true
  · rw [if_pos hpath, slashes?_append]
    congr 1
    cases hn : slashes? path with
    | none => rfl
    | some n =>
      have hpos := (endsWithSlash_iff hn).1 hpath
      simp
      omega
  · rw [if_neg hpath, slashes?_append, slashes?_slash]
    congr 1
    cases hn : slashes? path with
    | none => rfl
    | some n =>
      have hzero : n = 0 := by
        by_contra hpos
        exact hpath ((endsWithSlash_iff hn).2 hpos)
      simp [hzero]
      omega

/-- Another character in a fragment decides, whatever the fragment is joined to. -/
theorem slashes?_join_other (hc : c ≠ '/') :
    slashes? (append path (c :: rest)) = slashesAfter? (slashes? path) (c :: rest) := by
  obtain ⟨n, hn⟩ : ∃ n, slashes? (c :: rest) = some n := by
    rw [← Option.ne_none_iff_exists']
    intro hnone
    exact hc (slashes?_cons_eq_none_iff.1 hnone).1
  simp only [append, slashesAfter?, hn, Option.some_or, if_neg hc]
  split
  · rw [slashes?_append, hn, Option.some_or]
  · split
    · rw [slashes?_append, hn, Option.some_or]
    · rw [slashes?_append, slashes?_slash, hn, Option.some_or]

theorem slashes?_join :
    slashes? (append path segment) = slashesAfter? (slashes? path) segment := by
  cases segment with
  | nil => simp [append, slashesAfter?, slashes?]
  | cons c rest =>
    by_cases hc : c = '/'
    · rw [hc]
      exact slashes?_join_slash
    · exact slashes?_join_other hc

theorem slashes?_base : slashes? (base path) = (slashes? path).map (· - 1) := by
  rw [base]
  split
  · rename_i h
    rcases h with rfl | rfl <;> rfl
  · split
    · exact slashes?_dropLastSlash
    · exact slashes?_slash.trans slashes?_dropLastSlash

theorem slashes?_dropSlashes (path : List Char) :
    slashes? (path.dropWhile (· == '/')) = slashes? path := by
  induction path with
  | nil => rfl
  | cons c path ih =>
    by_cases hc : c = '/'
    · subst hc
      rw [slashes?_slash, ← ih]
      rfl
    · rw [List.dropWhile_cons_of_neg (by simpa using hc)]

theorem slashes?_normalize : slashes? (normalize path) = (slashes? path).map (· - 1) := by
  rw [← slashes?_dropSlashes path, normalize]
  split
  · rename_i h
    rw [h]
    rfl
  · exact slashes?_slash.trans slashes?_dropLastSlash

/-- Only the one slash stays where there is nothing else. -/
theorem normalize_of_slashes? (h : slashes? (normalize path) = none) : normalize path = ['/'] := by
  rw [slashes?_normalize, Option.map_eq_none_iff, ← slashes?_dropSlashes] at h
  rw [normalize]
  cases hrest : path.dropWhile (· == '/') with
  | nil => rfl
  | cons c rest =>
    have hhead := List.head?_dropWhile_not (· == '/') path
    rw [hrest] at h hhead
    obtain ⟨rfl, _⟩ := slashes?_cons_eq_none_iff.1 h
    simp at hhead

section Rewriting

theorem templates_unclosed (h : closing? 0 rest = none) :
    templates ('{' :: rest) = ('{' :: rest, []) := by
  rw [templates, if_pos rfl]
  split
  · rename_i h'
    rw [h] at h'
    cases h'
  · rfl

theorem exists_plain_eq (inner : List Char) : ∃ text, plain inner = text ++ ['}'] := by
  rw [plain]
  cases constraint? inner with
  | none => exact ⟨'{' :: inner, rfl⟩
  | some constraint => exact ⟨'{' :: constraint.1, rfl⟩

theorem templates_slashes (h : slashes? path = none) : (templates path).1 = path := by
  induction path with
  | nil => rw [templates]
  | cons c path ih =>
    obtain ⟨rfl, hpath⟩ := slashes?_cons_eq_none_iff.1 h
    rw [templates_char (by decide), ih hpath]

theorem slashes?_append_congr {p q a b : List Char} (hp : slashes? p = slashes? q)
    (h : slashes? a = slashes? b) (hsame : slashes? b = none → a = b) :
    slashes? (p ++ a) = slashes? (q ++ b) := by
  rw [slashes?_append, slashes?_append, h, hp]
  cases hb : slashes? b with
  | some n => rfl
  | none => rw [hsame hb]

/-- Rewriting templates changes no slash at the end: a template ends in its brace. -/
theorem slashes?_templates : slashes? (templates path).1 = slashes? path := by
  induction hn : path.length using Nat.strongRecOn generalizing path with
  | _ n ih =>
    cases path with
    | nil => rw [templates]
    | cons c rest =>
      rw [List.length_cons] at hn
      by_cases hc : c = '{'
      · subst hc
        cases hclose : closing? 0 rest with
        | none => rw [templates_unclosed hclose]
        | some found =>
          obtain ⟨inner, after⟩ := found
          obtain ⟨hsplit, _⟩ := closing?_split hclose
          have hlt := closing?_length hclose
          have hafter : slashes? (templates after).1 = slashes? after := ih _ (by omega) rfl
          obtain ⟨text, htext⟩ := exists_plain_eq inner
          have hbrace : slashes? (text ++ ['}']) = slashes? ('{' :: inner ++ ['}']) := by
            rw [slashes?_concat (by decide), slashes?_concat (by decide)]
          rw [templates_template hclose, htext, hsplit]
          have hall := slashes?_append_congr hbrace hafter templates_slashes
          simpa using hall
      · have hrest : slashes? (templates rest).1 = slashes? rest := ih _ (by omega) rfl
        rw [templates_char hc]
        exact slashes?_append_congr (p := [c]) rfl hrest templates_slashes

end Rewriting

section Composing

variable {parent cls method : Option (List Char)}

theorem appendClass_eq {cls : Option (List Char)} :
    appendClass path cls = append path (cls.getD []) := by
  cases cls <;> rfl

theorem appendMethod_eq {method : Option (List Char)} :
    appendMethod path method = append path (dropLastSlash (method.getD [])) := by
  cases method with
  | none => rfl
  | some m =>
    rw [appendMethod]
    split
    · rename_i hm
      subst hm
      rfl
    · rfl

theorem toList_getD (fragment : Option String) :
    (fragment.map String.toList).getD [] = (fragment.getD "").toList := by
  cases fragment <;> rfl

theorem exists_normalize_eq (path : List Char) : ∃ rest, normalize path = '/' :: rest := by
  rw [normalize]
  split
  · exact ⟨[], rfl⟩
  · exact ⟨_, rfl⟩

theorem exists_of_compose {parent composed : String} {cls method : Option String}
    (h : compose parent cls method = some composed) :
    ∃ joined, (extract composed).1.toList = (templates (normalize joined)).1 ∧
      (slashes? joined).map (· - 1) = slashesBelow? (slashes? parent.toList) cls method := by
  obtain ⟨path, hpath, rfl⟩ := Option.map_eq_some_iff.1 h
  rw [composeChars] at hpath
  split at hpath
  · cases hpath
  · cases hpath
    refine ⟨appendMethod (appendClass (base parent.toList) (cls.map String.toList))
      (method.map String.toList), ?_, ?_⟩
    · rw [extract, String.toList_ofList, String.toList_ofList]
    · rw [appendMethod_eq, appendClass_eq, slashes?_join, slashes?_join, slashes?_base, toList_getD,
        toList_getD]
      rfl

/-- The rewritten path of a method begins with a slash, and the fragments say how many it ends in;
where there is nothing else it is the only one. -/
theorem slashes?_composed {parent composed : String} {cls method : Option String}
    (h : compose parent cls method = some composed) :
    (extract composed).1.toList.head? = some '/' ∧
      slashes? (extract composed).1.toList =
        slashesBelow? (slashes? parent.toList) cls method ∧
      (slashes? (extract composed).1.toList = none → (extract composed).1 = "/") := by
  obtain ⟨joined, hpath, hslashes⟩ := exists_of_compose h
  obtain ⟨rest, hrest⟩ := exists_normalize_eq joined
  refine ⟨?_, ?_, ?_⟩
  · rw [hpath, hrest, templates_char (by decide)]
    rfl
  · rw [hpath, slashes?_templates, slashes?_normalize, hslashes]
  · intro hnone
    rw [hpath, slashes?_templates] at hnone
    have honly : (extract composed).1.toList = ['/'] := by
      rw [hpath, templates_slashes hnone, normalize_of_slashes? hnone]
    exact String.toList_inj.1 honly

/-- A path of slashes is the one slash; any other is canonical when it ends in none. -/
theorem isCanonical_iff {path : String} (hhead : path.toList.head? = some '/')
    (hroot : slashes? path.toList = none → path = "/") :
    IsCanonical path ↔ (slashes? path.toList).getD 0 = 0 := by
  cases hn : slashes? path.toList with
  | none => exact iff_of_true ⟨hhead, fun _ => hroot hn⟩ rfl
  | some n =>
    have hend : path.toList.getLast? = some '/' ↔ n ≠ 0 := by
      rw [← endsWithSlash_iff hn]
      simp [endsWithSlash]
    have hne : path ≠ "/" := by
      rintro rfl
      cases hn
    rw [IsCanonical, hend, Option.getD_some]
    constructor
    · intro h
      by_contra hpos
      exact hne (h.2 hpos)
    · intro h
      exact ⟨hhead, fun hpos => (hpos h).elim⟩

end Composing

section Bounds

/-- A path that ends in so many slashes at most, if it has another character. -/
def AtMost (k : Nat) (slashes : Option Nat) : Prop :=
  ∀ n ∈ slashes, n ≤ k

theorem two_slashes_suffix (h : 2 ≤ n) : ['/', '/'] <:+ List.replicate n '/' := by
  refine ⟨List.replicate (n - 2) '/', ?_⟩
  change _ ++ List.replicate 2 '/' = _
  rw [List.replicate_append_replicate, Nat.sub_add_cancel h]

theorem AtMost.slashesAfter {before : Option Nat} (h : AtMost 1 before)
    (hsegment : ¬['/', '/'] <:+ segment) : AtMost 1 (slashesAfter? before segment) := by
  intro n hn
  rw [slashesAfter?] at hn
  cases hs : slashes? segment with
  | some k =>
    rw [hs] at hn
    cases hn
    by_contra hlarge
    exact hsegment ((two_slashes_suffix (by omega)).trans (suffix_of_slashes? hs))
  | none =>
    rw [hs] at hn
    obtain ⟨k, hk, rfl⟩ := Option.map_eq_some_iff.1 hn
    have hbefore := h k hk
    have hlength : segment.length ≤ 1 := by
      by_contra hlarge
      have htwo := two_slashes_suffix (n := segment.length) (by omega)
      rw [← eq_replicate_of_slashes? hs] at htwo
      exact hsegment htwo
    split <;> omega

theorem suffix_of_dropLastSlash (h : ['/', '/'] <:+ dropLastSlash path) :
    ['/', '/', '/'] <:+ path := by
  rw [dropLastSlash] at h
  split at h
  · rename_i hend
    have hlast : path.getLast? = some '/' := by simpa [endsWithSlash] using hend
    obtain ⟨before, rfl⟩ := List.getLast?_eq_some_iff.1 hlast
    rw [List.dropLast_concat] at h
    obtain ⟨start, rfl⟩ := h
    exact ⟨start, by simp⟩
  · rename_i hend
    obtain ⟨start, rfl⟩ := h
    simp [endsWithSlash] at hend

/-- One slash too many at the end of a class path and two at the end of a method path do no harm. -/
theorem atMost_slashesBelow? {inherited : Option Nat} {cls method : Option String}
    (h : AtMost 0 inherited) (hcls : ∀ path ∈ cls, ¬['/', '/'] <:+ path.toList)
    (hmethod : ∀ path ∈ method, ¬['/', '/', '/'] <:+ path.toList) :
    AtMost 0 (slashesBelow? inherited cls method) := by
  have hinherited : AtMost 1 (inherited.map (· - 1)) := by
    intro n hn
    obtain ⟨k, hk, rfl⟩ := Option.map_eq_some_iff.1 hn
    have hzero := h k hk
    omega
  have hcls' : ¬['/', '/'] <:+ (cls.getD "").toList := by
    cases cls with
    | none => decide
    | some path => exact hcls path rfl
  have hmethod' : ¬['/', '/'] <:+ dropLastSlash (method.getD "").toList := by
    cases method with
    | none => decide
    | some path => exact fun hsuffix => hmethod path rfl (suffix_of_dropLastSlash hsuffix)
  intro n hn
  obtain ⟨k, hk, rfl⟩ := Option.map_eq_some_iff.1 hn
  have hone := (hinherited.slashesAfter hcls').slashesAfter hmethod' k hk
  omega

end Bounds

end Apidoc.Path
