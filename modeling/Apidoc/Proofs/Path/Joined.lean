import Apidoc.Proofs.Path.Slashes
import Mathlib.Data.List.Infix

namespace Apidoc.Path

def dropFirstSlash : List Char → List Char
  | [] => []
  | c :: rest => if c = '/' then rest else c :: rest

/-- The text without a slash in front of it and one behind it. -/
def stripSlashes (path : List Char) : List Char :=
  dropLastSlash (dropFirstSlash path)

/-- Joins two texts with a slash; an empty one is left out. -/
def glue (a b : List Char) : List Char :=
  if a = [] then b
  else if b = [] then a
  else a ++ '/' :: b

def strip (fragment : String) : String :=
  String.ofList (stripSlashes fragment.toList)

/-- The fragments without the slashes at their ends, joined with slashes; empty ones are left
out. -/
def joined (fragments : List String) : String :=
  "/".intercalate ((fragments.map strip).filter (· ≠ ""))

/-- A fragment without two slashes in a row, whose templates are all closed. -/
structure IsTidy (fragment : String) : Prop where
  templated : IsTemplated fragment
  single : ¬['/', '/'] <:+: fragment.toList

structure Bare (a : List Char) : Prop where
  front : a.head? ≠ some '/'
  back : a.getLast? ≠ some '/'

def IsEdge (edge : List Char) : Prop :=
  edge = [] ∨ edge = ['/']

/-- A path spells a text when it is the text with at most one slash at each end. -/
structure Spells (path a : List Char) : Prop where
  bare : Bare a
  edges : ∃ front back, IsEdge front ∧ IsEdge back ∧ (a = [] → back = []) ∧
    path = front ++ a ++ back

variable {a b c path segment rest : List Char} {found found' : List (List Char × List Char)}

section Glue

theorem glue_nil_left : glue [] b = b := by
  rw [glue, if_pos rfl]

theorem glue_nil_right : glue a [] = a := by
  rw [glue]
  by_cases ha : a = []
  · rw [if_pos ha, ha]
  · rw [if_neg ha, if_pos rfl]

theorem glue_eq (ha : a ≠ []) (hb : b ≠ []) : glue a b = a ++ '/' :: b := by
  rw [glue, if_neg ha, if_neg hb]

theorem glue_assoc : glue (glue a b) c = glue a (glue b c) := by
  by_cases ha : a = []
  · rw [ha, glue_nil_left, glue_nil_left]
  · by_cases hb : b = []
    · rw [hb, glue_nil_right, glue_nil_left]
    · by_cases hc : c = []
      · rw [hc, glue_nil_right, glue_nil_right]
      · have hab : a ++ '/' :: b ≠ [] := by simp
        have hbc : b ++ '/' :: c ≠ [] := by simp
        rw [glue_eq ha hb, glue_eq hb hc, glue_eq hab hc, glue_eq ha hbc, List.append_assoc,
          List.cons_append]

theorem bare_nil : Bare [] where
  front := by simp
  back := by simp

theorem Bare.append_slash (ha : Bare a) (hb : Bare b) (hna : a ≠ []) (hnb : b ≠ []) :
    Bare (a ++ '/' :: b) where
  front := by
    obtain ⟨c, rest, rfl⟩ := List.exists_cons_of_ne_nil hna
    exact ha.front
  back := by
    obtain ⟨last, hlast⟩ := Option.ne_none_iff_exists'.1 (mt List.getLast?_eq_none_iff.1 hnb)
    have hback := hb.back
    rw [List.getLast?_append, List.getLast?_cons, hlast, Option.some_or]
    rw [hlast] at hback
    exact hback

theorem Bare.glue (ha : Bare a) (hb : Bare b) : Bare (glue a b) := by
  by_cases hna : a = []
  · rw [hna, glue_nil_left]
    exact hb
  · by_cases hnb : b = []
    · rw [hnb, glue_nil_right]
      exact ha
    · rw [glue_eq hna hnb]
      exact ha.append_slash hb hna hnb

/-- Joining texts one after the other joins those that are not empty. -/
theorem foldl_glue (texts : List (List Char)) :
    texts.foldl glue a = glue a (['/'].intercalate (texts.filter (· ≠ []))) := by
  induction texts generalizing a with
  | nil => exact glue_nil_right.symm
  | cons text texts ih =>
    rw [List.foldl_cons, ih, glue_assoc]
    congr 1
    by_cases htext : text = []
    · rw [htext, glue_nil_left]
      rfl
    · rw [List.filter_cons_of_pos (by simpa using htext)]
      cases hrest : texts.filter (· ≠ []) with
      | nil => rw [List.intercalate_nil, List.intercalate_singleton, glue_nil_right]
      | cons other others =>
        have hother : other ∈ texts.filter (· ≠ []) := by
          rw [hrest]
          exact List.mem_cons_self
        have hne : other ≠ [] := by simpa using (List.mem_filter.1 hother).2
        have hjoined : ['/'].intercalate (other :: others) ≠ [] := by
          cases others with
          | nil =>
            rw [List.intercalate_singleton]
            exact hne
          | cons third others =>
            rw [List.intercalate_cons_cons]
            simp
        rw [glue_eq htext hjoined, List.intercalate_cons_cons, List.append_assoc]
        rfl

end Glue

section Spelling

theorem spells_self (h : Bare a) : Spells a a where
  bare := h
  edges := ⟨[], [], .inl rfl, .inl rfl, fun _ => rfl, by simp⟩

theorem spells_slash (h : Bare a) : Spells ('/' :: a) a where
  bare := h
  edges := ⟨['/'], [], .inr rfl, .inl rfl, fun _ => rfl, by simp⟩

theorem dropLastSlash_of_ne (h : a.getLast? ≠ some '/') : dropLastSlash a = a := by
  rw [dropLastSlash, endsWithSlash, if_neg]
  simpa using h

theorem dropLastSlash_concat : dropLastSlash (a ++ ['/']) = a := by
  have hend : endsWithSlash (a ++ ['/']) = true := by simp [endsWithSlash]
  rw [dropLastSlash, if_pos hend, List.dropLast_concat]

theorem dropLastSlash_edges {front back : List Char} (ha : Bare a) (hne : a ≠ [])
    (hback : IsEdge back) : dropLastSlash (front ++ a ++ back) = front ++ a := by
  rcases hback with rfl | rfl
  · obtain ⟨last, hlast⟩ := Option.ne_none_iff_exists'.1 (mt List.getLast?_eq_none_iff.1 hne)
    have hlast' := ha.back
    rw [List.append_nil]
    apply dropLastSlash_of_ne
    rw [List.getLast?_append, hlast, Option.some_or]
    rw [hlast] at hlast'
    exact hlast'
  · exact dropLastSlash_concat

theorem dropFirstSlash_of_ne (h : a.head? ≠ some '/') : dropFirstSlash a = a := by
  cases a with
  | nil => rfl
  | cons c rest =>
    rw [dropFirstSlash, if_neg]
    rintro rfl
    exact h rfl

theorem dropFirstSlash_edges {front back : List Char} (ha : Bare a) (hne : a ≠ [])
    (hfront : IsEdge front) : dropFirstSlash (front ++ a ++ back) = a ++ back := by
  rcases hfront with rfl | rfl
  · obtain ⟨c, rest, rfl⟩ := List.exists_cons_of_ne_nil hne
    exact dropFirstSlash_of_ne ha.front
  · rw [List.append_assoc, List.singleton_append, dropFirstSlash, if_pos rfl]

theorem Spells.short_iff (h : Spells path a) : path = [] ∨ path = ['/'] ↔ a = [] := by
  obtain ⟨front, back, hfront, _, hback, rfl⟩ := h.edges
  constructor
  · intro hshort
    by_contra hne
    have hfirst : dropFirstSlash (front ++ a ++ back) = a ++ back :=
      dropFirstSlash_edges h.bare hne hfront
    have hnil : a ++ back = [] := by
      rw [← hfirst]
      rcases hshort with hpath | hpath <;> rw [hpath] <;> rfl
    exact hne (List.append_eq_nil_iff.1 hnil).1
  · rintro rfl
    rw [hback rfl, List.append_nil, List.append_nil]
    exact hfront

theorem Spells.dropLastSlash_eq (h : Spells path a) : ∃ front, IsEdge front ∧
    (a = [] → front = []) ∧ dropLastSlash path = front ++ a := by
  by_cases hne : a = []
  · subst hne
    rcases h.short_iff.2 rfl with rfl | rfl <;> exact ⟨[], .inl rfl, fun _ => rfl, rfl⟩
  · obtain ⟨front, back, hfront, hback, _, rfl⟩ := h.edges
    exact ⟨front, hfront, fun ha => (hne ha).elim, dropLastSlash_edges h.bare hne hback⟩

theorem Spells.dropFirstSlash_eq (h : Spells path a) : ∃ back, IsEdge back ∧
    (a = [] → back = []) ∧ dropFirstSlash path = a ++ back := by
  by_cases hne : a = []
  · subst hne
    rcases h.short_iff.2 rfl with rfl | rfl <;> exact ⟨[], .inl rfl, fun _ => rfl, rfl⟩
  · obtain ⟨front, back, hfront, hback, hnil, rfl⟩ := h.edges
    exact ⟨back, hback, hnil, dropFirstSlash_edges h.bare hne hfront⟩

theorem Spells.dropLastSlash (h : Spells path a) : Spells (dropLastSlash path) a := by
  obtain ⟨front, hfront, _, heq⟩ := h.dropLastSlash_eq
  rw [heq]
  exact ⟨h.bare, front, [], hfront, .inl rfl, fun _ => rfl, by simp⟩

theorem exists_front (h : ¬['/', '/'] <:+: path) : ∃ front, IsEdge front ∧
    path = front ++ dropFirstSlash path ∧ (dropFirstSlash path).head? ≠ some '/' := by
  by_cases hfront : path.head? = some '/'
  · obtain ⟨rest, rfl⟩ := List.head?_eq_some_iff.1 hfront
    refine ⟨['/'], .inr rfl, ?_, ?_⟩
    · rw [dropFirstSlash, if_pos rfl, List.singleton_append]
    · rw [dropFirstSlash, if_pos rfl]
      intro hrest
      obtain ⟨rest', rfl⟩ := List.head?_eq_some_iff.1 hrest
      exact h ⟨[], rest', by simp⟩
  · rw [dropFirstSlash_of_ne hfront]
    exact ⟨[], .inl rfl, by simp, hfront⟩

theorem exists_back (h : ¬['/', '/'] <:+: path) : ∃ back, IsEdge back ∧
    path = Path.dropLastSlash path ++ back ∧ (Path.dropLastSlash path).getLast? ≠ some '/' := by
  by_cases hback : path.getLast? = some '/'
  · obtain ⟨before, rfl⟩ := List.getLast?_eq_some_iff.1 hback
    rw [dropLastSlash_concat]
    refine ⟨['/'], .inr rfl, rfl, ?_⟩
    intro hbefore
    obtain ⟨before', rfl⟩ := List.getLast?_eq_some_iff.1 hbefore
    exact h ⟨before', [], by simp⟩
  · rw [dropLastSlash_of_ne hback]
    exact ⟨[], .inl rfl, by simp, hback⟩

/-- A path without two slashes in a row spells what is left without those at its ends. -/
theorem spells_stripSlashes (h : ¬['/', '/'] <:+: path) : Spells path (stripSlashes path) := by
  obtain ⟨front, hfront, hpath, hhead⟩ := exists_front h
  have hinner : ¬['/', '/'] <:+: dropFirstSlash path := by
    intro hinfix
    apply h
    rw [hpath]
    exact hinfix.trans (List.suffix_append _ _).isInfix
  obtain ⟨back, hback, hsplit, hlast⟩ := exists_back hinner
  rw [stripSlashes]
  generalize Path.dropLastSlash (dropFirstSlash path) = a at *
  rw [hsplit] at hpath hhead
  refine ⟨⟨?_, hlast⟩, front, back, hfront, hback, ?_, ?_⟩
  · intro ha
    rw [List.head?_append, ha] at hhead
    exact hhead rfl
  · intro ha
    rcases hback with hnil | hslash
    · exact hnil
    · rw [ha, hslash] at hhead
      exact (hhead rfl).elim
  · rw [List.append_assoc]
    exact hpath

/-- Where both are there, a fragment is joined to a path with one slash. -/
theorem append_eq (hpath : path ≠ []) (hsegment : segment ≠ []) :
    append path segment = Path.dropLastSlash path ++ '/' :: dropFirstSlash segment := by
  obtain ⟨c, rest, rfl⟩ := List.exists_cons_of_ne_nil hsegment
  rw [append, dropFirstSlash]
  by_cases hback : path.getLast? = some '/'
  · obtain ⟨before, rfl⟩ := List.getLast?_eq_some_iff.1 hback
    have hend : endsWithSlash (before ++ ['/']) = true := by simp [endsWithSlash]
    rw [if_pos hend, dropLastSlash_concat, List.append_assoc, List.singleton_append]
  · have hend : ¬endsWithSlash path = true := by simpa [endsWithSlash] using hback
    rw [if_neg hend, dropLastSlash_of_ne hback]
    by_cases hc : c = '/'
    · rw [if_pos (.inl hc), if_pos hc, hc]
    · rw [if_neg (by simp [hc, hpath]), if_neg hc]

theorem Spells.append (hx : Spells path a) (hf : Spells segment b) :
    Spells (Path.append path segment) (Path.glue a b) := by
  have hbare := hx.bare.glue hf.bare
  by_cases hpath : path = []
  · subst hpath
    have hjoin : Path.append [] segment = segment := by
      cases segment <;> simp [Path.append, endsWithSlash]
    rw [hjoin, hx.short_iff.1 (.inl rfl), glue_nil_left]
    exact hf
  · by_cases hsegment : segment = []
    · subst hsegment
      rw [hf.short_iff.1 (.inl rfl), glue_nil_right]
      exact hx
    · obtain ⟨front, hfront, hfrontnil, hleft⟩ := hx.dropLastSlash_eq
      obtain ⟨back, hback, hbacknil, hright⟩ := hf.dropFirstSlash_eq
      rw [append_eq hpath hsegment, hleft, hright]
      refine ⟨hbare, ?_⟩
      by_cases ha : a = []
      · rw [hfrontnil ha, ha, glue_nil_left]
        exact ⟨['/'], back, .inr rfl, hback, hbacknil, by simp⟩
      · by_cases hb : b = []
        · rw [hbacknil hb, hb, glue_nil_right]
          exact ⟨front, ['/'], hfront, .inr rfl, fun hnil => (ha hnil).elim, by simp⟩
        · rw [glue_eq ha hb]
          exact ⟨front, back, hfront, hback, by simp, by simp⟩

theorem Spells.normalize (h : Spells path a) : Path.normalize path = '/' :: a := by
  by_cases hne : a = []
  · subst hne
    rcases h.short_iff.2 rfl with rfl | rfl <;> rfl
  · obtain ⟨front, back, hfront, hback, _, rfl⟩ := h.edges
    obtain ⟨c, rest, rfl⟩ := List.exists_cons_of_ne_nil hne
    have hc : c ≠ '/' := by
      rintro rfl
      exact h.bare.front rfl
    have hdrop : (front ++ c :: rest ++ back).dropWhile (· == '/') = c :: rest ++ back := by
      have hstop : (c :: rest ++ back).dropWhile (· == '/') = c :: rest ++ back := by
        rw [List.cons_append, List.dropWhile_cons_of_neg (by simpa using hc)]
      rcases hfront with rfl | rfl
      · exact hstop
      · exact hstop
    have hlast : Path.dropLastSlash ([] ++ c :: rest ++ back) = [] ++ c :: rest :=
      dropLastSlash_edges h.bare hne hback
    rw [Path.normalize, hdrop]
    exact congrArg ('/' :: ·) hlast

theorem Spells.base (h : Spells path a) : Spells (Path.base path) a := by
  rw [Path.base]
  by_cases hne : a = []
  · subst hne
    rw [if_pos (h.short_iff.2 rfl)]
    exact spells_self bare_nil
  · obtain ⟨front, back, hfront, hback, _, hpath⟩ := h.edges
    have hshort : ¬(path = [] ∨ path = ['/']) := mt h.short_iff.1 hne
    have hlast : Path.dropLastSlash path = front ++ a := by
      rw [hpath]
      exact dropLastSlash_edges h.bare hne hback
    rw [if_neg hshort, hlast]
    by_cases hhead : path.head? = some '/'
    · rw [if_pos hhead]
      exact ⟨h.bare, front, [], hfront, .inl rfl, fun _ => rfl, by simp⟩
    · rw [if_neg hhead]
      have hnil : front = [] := by
        rcases hfront with hnil | hslash
        · exact hnil
        · rw [hpath, hslash] at hhead
          exact (hhead rfl).elim
      rw [hnil]
      exact spells_slash h.bare

end Spelling

section Rewriting

theorem Templated.templates_append (h : Templated a found) :
    (templates (a ++ b)).1 = (templates a).1 ++ (templates b).1 := by
  induction h with
  | nil => simp [templates]
  | @char c rest _ hc _ ih =>
    rw [List.cons_append, templates_char hc, templates_char hc, ih, List.cons_append]
  | @template rest inner after _ hclose _ _ ih =>
    obtain ⟨rfl, hother⟩ := closing?_split hclose
    rw [List.cons_append, List.append_assoc, List.cons_append, templates_template (hother _),
      templates_template hclose, ih, List.append_assoc]

/-- Where nothing is constrained, rewriting changes nothing. -/
theorem Templated.templates_eq (h : Templated path found) (hfound : found = []) :
    (templates path).1 = path := by
  induction h with
  | nil => rw [templates]
  | char hc _ ih => rw [templates_char hc, ih hfound]
  | @template rest inner after _ hclose _ _ ih =>
    obtain ⟨rfl, _⟩ := closing?_split hclose
    obtain ⟨hinner, hafter⟩ := List.append_eq_nil_iff.1 hfound
    have hnone : constraint? inner = none := by simpa using hinner
    rw [templates_template hclose, ih hafter, Path.plain, hnone]
    simp

theorem Templated.glue (ha : Templated a found) (hb : Templated b found') :
    ∃ all, Templated (Path.glue a b) all := by
  by_cases hna : a = []
  · rw [hna, glue_nil_left]
    exact ⟨_, hb⟩
  · by_cases hnb : b = []
    · rw [hnb, glue_nil_right]
      exact ⟨_, ha⟩
    · rw [glue_eq hna hnb]
      exact ⟨_, ha.append hb.slash⟩

theorem head?_templates : (templates path).1.head? = path.head? := by
  cases path with
  | nil => simp [templates]
  | cons c rest =>
    by_cases hc : c = '{'
    · subst hc
      cases hclose : closing? 0 rest with
      | none => rw [templates_unclosed hclose]
      | some closed =>
        obtain ⟨inner, after⟩ := closed
        rw [templates_template hclose, plain]
        cases constraint? inner <;> rfl
    · rw [templates_char hc]
      rfl

theorem templates_eq_nil_iff : (templates path).1 = [] ↔ path = [] := by
  rw [← List.head?_eq_none_iff, head?_templates, List.head?_eq_none_iff]

theorem Templated.templates_glue (ha : Templated a found) :
    (templates (Path.glue a b)).1 = Path.glue (templates a).1 (templates b).1 := by
  by_cases hna : a = []
  · have hnil : (templates []).1 = [] := by simp [templates]
    rw [hna, hnil, glue_nil_left, glue_nil_left]
  · by_cases hnb : b = []
    · have hnil : (templates []).1 = [] := by simp [templates]
      rw [hnb, hnil, glue_nil_right, glue_nil_right]
    · rw [glue_eq hna hnb, ha.templates_append, templates_char (by decide),
        glue_eq (mt templates_eq_nil_iff.1 hna) (mt templates_eq_nil_iff.1 hnb)]

theorem Bare.templates (h : Bare a) : Bare (Path.templates a).1 where
  front := by
    rw [head?_templates]
    exact h.front
  back := by
    rcases List.eq_nil_or_concat a with rfl | ⟨before, c, rfl⟩
    · simp [Path.templates]
    · rw [List.concat_eq_append] at h ⊢
      have hc : c ≠ '/' := by simpa using h.back
      have hnone : slashes? (Path.templates (before ++ [c])).1 = some 0 := by
        rw [slashes?_templates, slashes?_concat hc]
      have hend := mt (endsWithSlash_iff hnone).1 (not_not.2 rfl)
      simpa [endsWithSlash] using hend

end Rewriting

section Composing

/-- A text as it stands between slashes, with closed templates. -/
structure IsText (a : List Char) : Prop where
  bare : Bare a
  templated : ∃ found, Templated a found

theorem isText_nil : IsText [] where
  bare := bare_nil
  templated := ⟨[], .nil⟩

theorem IsText.glue (ha : IsText a) (hb : IsText b) : IsText (Path.glue a b) := by
  obtain ⟨found, hfound⟩ := ha.templated
  obtain ⟨found', hfound'⟩ := hb.templated
  exact ⟨ha.bare.glue hb.bare, hfound.glue hfound'⟩

theorem Templated.dropFirstSlash (h : Templated path found) :
    Templated (Path.dropFirstSlash path) found := by
  by_cases hfront : path.head? = some '/'
  · obtain ⟨rest, rfl⟩ := List.head?_eq_some_iff.1 hfront
    rw [Path.dropFirstSlash, if_pos rfl]
    exact h.of_slash
  · rw [dropFirstSlash_of_ne hfront]
    exact h

theorem IsTidy.isText {fragment : String} (h : IsTidy fragment) :
    IsText (stripSlashes fragment.toList) := by
  obtain ⟨found, hfound⟩ := h.templated
  exact ⟨(spells_stripSlashes h.single).bare, found, hfound.dropFirstSlash.dropLastSlash⟩

theorem isTidy_empty : IsTidy "" where
  templated := ⟨[], .nil⟩
  single := by decide

theorem isTidy_getD {fragment : Option String} (h : ∀ f ∈ fragment, IsTidy f) :
    IsTidy (fragment.getD "") := by
  cases fragment with
  | none => exact isTidy_empty
  | some f => exact h f rfl

/-- Below a path that spells a rewritten text, the rewritten path of a method is that of the text
joined with the fragments. -/
theorem extract_compose_joined {parent composed : String} {cls method : Option String}
    (hparent : Spells parent.toList (templates a).1) (ha : IsText a)
    (hcls : IsTidy (cls.getD "")) (hmethod : IsTidy (method.getD ""))
    (h : compose parent cls method = some composed) :
    (extract composed).1.toList = '/' :: (templates (glue
      (glue a (stripSlashes (cls.getD "").toList)) (stripSlashes (method.getD "").toList))).1 := by
  obtain ⟨found, hfound⟩ := ha.templated
  obtain ⟨_, hc⟩ := hcls.isText.templated
  obtain ⟨_, hac⟩ := hfound.glue hc
  obtain ⟨_, hac'⟩ := hfound.rewritten.glue hc
  have hspells := (hparent.base.append (spells_stripSlashes hcls.single)).append
    (spells_stripSlashes hmethod.single).dropLastSlash
  obtain ⟨path, hpath, rfl⟩ := Option.map_eq_some_iff.1 h
  rw [composeChars] at hpath
  split at hpath
  · cases hpath
  · cases hpath
    rw [extract, String.toList_ofList, String.toList_ofList, appendMethod_eq, appendClass_eq,
      toList_getD, toList_getD, hspells.normalize, templates_char (by decide),
      hac'.templates_glue, hfound.rewritten.templates_glue, hfound.rewritten.templates_eq rfl,
      hac.templates_glue, hfound.templates_glue]

theorem toList_strip (fragment : String) :
    (strip fragment).toList = stripSlashes fragment.toList := by
  rw [strip, String.toList_ofList]

theorem toList_joined (fragments : List String) :
    (joined fragments).toList = (fragments.map fun f => stripSlashes f.toList).foldl glue [] := by
  rw [foldl_glue, glue_nil_left, joined, String.toList_intercalate]
  congr 1
  induction fragments with
  | nil => rfl
  | cons f fragments ih =>
    have hempty : strip f = "" ↔ stripSlashes f.toList = [] := by
      rw [← toList_strip, ← String.toList_inj]
      rfl
    by_cases hf : strip f = ""
    · simpa [hf, hempty.1 hf] using ih
    · simpa [hf, mt hempty.2 hf, toList_strip] using ih

theorem isText_joined {fragments : List String} (h : ∀ f ∈ fragments, IsTidy f) :
    IsText (joined fragments).toList := by
  rw [toList_joined]
  induction fragments using List.reverseRecOn with
  | nil => exact isText_nil
  | append_singleton fragments f ih =>
    rw [List.map_append, List.foldl_append]
    exact (ih fun f' hf' => h f' (List.mem_append_left _ hf')).glue (h f (by simp)).isText

theorem toList_joined_append (fragments : List String) (cls method : Option String) :
    (joined (fragments ++ (cls.toList ++ method.toList))).toList =
      glue (glue (joined fragments).toList (stripSlashes (cls.getD "").toList))
        (stripSlashes (method.getD "").toList) := by
  have hempty : stripSlashes [] = [] := rfl
  rw [toList_joined, toList_joined, List.map_append, List.foldl_append]
  cases cls <;> cases method <;> simp [hempty, glue_nil_right]

end Composing

end Apidoc.Path
