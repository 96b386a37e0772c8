import Apidoc.Proofs.Distinct
import Apidoc.Proofs.Path.Templates
import Apidoc.Proofs.Table

namespace Apidoc

namespace Path

/-- A text that closes `depth` open braces and every brace that it opens itself. -/
inductive Closes : Nat → List Char → Prop
  | nil : Closes 0 []
  | char {depth : Nat} {c : Char} {cs : List Char} (hopen : c ≠ '{') (hclose : c ≠ '}')
    (h : Closes depth cs) : Closes depth (c :: cs)
  | opening {depth : Nat} {cs : List Char} (h : Closes (depth + 1) cs) : Closes depth ('{' :: cs)
  | closing {depth : Nat} {cs : List Char} (h : Closes depth cs) : Closes (depth + 1) ('}' :: cs)

/-- A text in which braces stand in pairs, one inside or beside the other. -/
def IsBalanced (cs : List Char) : Prop := Closes 0 cs

/-- A part of a path. -/
inductive Part where
  | text (cs : List Char) (hopen : '{' ∉ cs)
  | template (inner : List Char) (hbalanced : IsBalanced inner) (hcolon : ':' ∉ inner)
  | constrained (name pattern : List Char) (hname : ∀ c ∈ name, c ≠ '{' ∧ c ≠ '}' ∧ c ≠ ':')
    (hpattern : IsBalanced pattern)

namespace Part

def written : Part → List Char
  | text cs _ => cs
  | template inner _ _ => '{' :: inner ++ ['}']
  | constrained name pattern _ _ => '{' :: (name ++ ':' :: pattern) ++ ['}']

def rewritten : Part → List Char
  | text cs _ => cs
  | template inner _ _ => '{' :: inner ++ ['}']
  | constrained name _ _ _ => '{' :: Text.trimChars name ++ ['}']

/-- The name of the parameter that the part constrains, with the pattern. -/
def constraint? : Part → Option (List Char × List Char)
  | constrained name pattern _ _ => some (Text.trimChars name, Text.trimChars pattern)
  | _ => none

def pattern? (p : Part) : Option (String × String) :=
  p.constraint?.map fun (name, pattern) => (String.ofList name, String.ofList pattern)

end Part

/-- What stands behind the parts of a path: nothing, or a brace that is never closed. -/
inductive Tail where
  | nothing
  | unclosed (rest : List Char)
    (hopen : ∀ inner after, IsBalanced inner → rest ≠ inner ++ '}' :: after)

def Tail.written : Tail → List Char
  | nothing => []
  | unclosed rest _ => '{' :: rest

variable {depth : Nat} {cs inner after rest name pattern : List Char}

section Closes

theorem Closes.closing?_eq (h : Closes depth inner) :
    closing? depth (inner ++ '}' :: after) = some (inner, after) := by
  induction h with
  | nil => rfl
  | char hopen hclose _ ih =>
    rw [List.cons_append, closing?, ih]
    · rfl
    · exact hopen
    · exact fun _ => hclose
    · exact fun _ _ => hclose
  | opening _ ih =>
    rw [List.cons_append, closing?, ih]
    rfl
  | closing _ ih =>
    rw [List.cons_append, closing?, ih]
    rfl

theorem closes_of_closing? (h : closing? depth cs = some (inner, after)) : Closes depth inner := by
  fun_induction closing? depth cs generalizing inner after with
  | case1 => cases h
  | case2 depth rest ih =>
    obtain ⟨⟨i, a⟩, hi, he⟩ := Option.map_eq_some_iff.1 h
    cases he
    exact .opening (ih hi)
  | case3 =>
    cases h
    exact .nil
  | case4 rest depth ih =>
    obtain ⟨⟨i, a⟩, hi, he⟩ := Option.map_eq_some_iff.1 h
    cases he
    exact .closing (ih hi)
  | case5 depth c rest hopen hclose hclose' ih =>
    obtain ⟨⟨i, a⟩, hi, he⟩ := Option.map_eq_some_iff.1 h
    cases he
    refine .char hopen ?_ (ih hi)
    cases depth with
    | zero => exact hclose rfl
    | succ depth => exact hclose' depth rfl

theorem closing?_eq_none (h : ∀ inner after, IsBalanced inner → rest ≠ inner ++ '}' :: after) :
    closing? 0 rest = none := by
  cases hc : closing? 0 rest with
  | none => rfl
  | some cut =>
    obtain ⟨inner, after⟩ := cut
    exact (h inner after (closes_of_closing? hc) (closing?_split hc).1).elim

end Closes

theorem constraint?_colon (h : ':' ∉ name) :
    constraint? (name ++ ':' :: pattern) = some (Text.trimChars name, Text.trimChars pattern) := by
  have hname : ∀ c ∈ name, (c != ':') = true := by
    intro c hc
    rw [bne_iff_ne]
    rintro rfl
    exact h hc
  unfold constraint?
  rw [List.dropWhile_append_of_pos hname, List.takeWhile_append_of_pos hname]
  simp

theorem templates_text (h : '{' ∉ cs) :
    templates (cs ++ rest) = (cs ++ (templates rest).1, (templates rest).2) := by
  induction cs with
  | nil => rfl
  | cons c cs ih =>
    rw [List.mem_cons, not_or] at h
    rw [List.cons_append, templates_char (Ne.symm h.1), ih h.2]
    rfl

theorem Closes.append {tail : List Char} {d : Nat} (h : Closes depth cs) (h' : Closes d tail) :
    Closes (depth + d) (cs ++ tail) := by
  induction h with
  | nil => simpa using h'
  | char hopen hclose _ ih => exact .char hopen hclose ih
  | opening _ ih =>
    rw [Nat.add_right_comm] at ih
    exact .opening ih
  | closing _ ih =>
    rw [Nat.add_right_comm]
    exact .closing ih

theorem isBalanced_of_no_braces (h : ∀ c ∈ cs, c ≠ '{' ∧ c ≠ '}') : IsBalanced cs := by
  induction cs with
  | nil => exact .nil
  | cons c cs ih =>
    obtain ⟨hopen, hclose⟩ := h c List.mem_cons_self
    exact .char hopen hclose (ih fun c' hc => h c' (List.mem_cons_of_mem _ hc))

theorem templates_balanced (h : IsBalanced inner) :
    templates ('{' :: inner ++ ['}'] ++ rest) =
      (plain inner ++ (templates rest).1, (constraint? inner).toList ++ (templates rest).2) := by
  have hclose : closing? 0 (inner ++ '}' :: rest) = some (inner, rest) := h.closing?_eq
  rw [List.append_assoc]
  exact templates_template hclose

namespace Part

variable (p : Part)

theorem templates_append :
    templates (p.written ++ rest) =
      (p.rewritten ++ (templates rest).1, p.constraint?.toList ++ (templates rest).2) := by
  cases p with
  | text cs hopen => exact templates_text hopen
  | template inner hbalanced hcolon =>
    have hnone : Path.constraint? inner = none := constraint?_eq_none hcolon
    rw [written, templates_balanced hbalanced, plain, hnone]
    rfl
  | constrained name pattern hname hpattern =>
    have hcolon : ':' ∉ name := fun hc => (hname _ hc).2.2 rfl
    have hinner : IsBalanced (name ++ ':' :: pattern) := by
      have hplain : IsBalanced name :=
        isBalanced_of_no_braces fun c hc => ⟨(hname c hc).1, (hname c hc).2.1⟩
      exact hplain.append (.char (by decide) (by decide) hpattern)
    rw [written, templates_balanced hinner, plain, constraint?_colon hcolon]
    rfl

/-- The part that is left when its constraint is taken out. -/
def plain : Part → Part
  | constrained name _ hname _ =>
    template (Text.trimChars name)
      (isBalanced_of_no_braces fun c hc =>
        ⟨(hname c (mem_of_mem_trimChars hc)).1, (hname c (mem_of_mem_trimChars hc)).2.1⟩)
      fun hc => (hname _ (mem_of_mem_trimChars hc)).2.2 rfl
  | part => part

theorem written_plain : p.plain.written = p.rewritten := by
  cases p <;> rfl

theorem rewritten_plain : p.plain.rewritten = p.rewritten := by
  cases p <;> rfl

theorem pattern?_plain : p.plain.pattern? = none := by
  cases p <;> rfl

end Part

theorem templates_tail (tail : Tail) : templates tail.written = (tail.written, []) := by
  cases tail with
  | nothing => rw [Tail.written, templates]
  | unclosed rest hopen =>
    have hnone : closing? 0 rest = none := closing?_eq_none hopen
    rw [Tail.written, templates, if_pos rfl]
    split
    · rename_i h
      rw [hnone] at h
      cases h
    · rfl

theorem templates_written (parts : List Part) (tail : Tail) :
    templates (parts.flatMap Part.written ++ tail.written) =
      (parts.flatMap Part.rewritten ++ tail.written, parts.filterMap Part.constraint?) := by
  induction parts with
  | nil => exact templates_tail tail
  | cons p parts ih =>
    rw [List.flatMap_cons, List.append_assoc, p.templates_append, ih, List.flatMap_cons,
      List.append_assoc]
    cases h : p.constraint? with
    | none => rw [List.filterMap_cons_none h]; rfl
    | some constraint => rw [List.filterMap_cons_some h]; rfl

theorem extract_parts (parts : List Part) (tail : Tail) :
    extract (String.ofList (parts.flatMap Part.written ++ tail.written)) =
      (String.ofList (parts.flatMap Part.rewritten ++ tail.written),
        Table.ofList (parts.filterMap Part.pattern?)) := by
  have hpatterns : parts.filterMap Part.pattern? = (parts.filterMap Part.constraint?).map
      fun (name, pattern) => (String.ofList name, String.ofList pattern) := by
    rw [List.map_filterMap]
    rfl
  rw [extract, String.toList_ofList, templates_written, hpatterns]

/-- Extraction rewrites the templates that constrain a parameter and nothing else. It finds the last
pattern of each name, in the order in which the names first appear, and finds nothing to do in the
path that it returns. -/
theorem extract_written (parts : List Part) (tail : Tail) :
    let path := String.ofList (parts.flatMap Part.written ++ tail.written)
    let rewritten := String.ofList (parts.flatMap Part.rewritten ++ tail.written)
    let found := parts.filterMap Part.pattern?
    (extract path).1 = rewritten ∧
      (extract path).2.keys = (found.map (·.1)).eraseDups ∧
      (∀ name, (extract path).2.get? name = found.reverse.lookup name) ∧
      extract rewritten = (rewritten, {}) := by
  intro path rewritten found
  have hextract : extract path = (rewritten, Table.ofList found) := extract_parts parts tail
  refine ⟨by rw [hextract], ?_, fun name => ?_, ?_⟩
  · rw [hextract]
    exact Table.keys_ofList
  · rw [hextract]
    exact Table.get?_ofList
  · -- The rewritten path is that of the same parts without their constraints.
    have hnone : (parts.map Part.plain).filterMap Part.pattern? = [] := by
      refine List.filterMap_eq_nil_iff.2 fun p hp => ?_
      obtain ⟨q, _, rfl⟩ := List.mem_map.1 hp
      exact q.pattern?_plain
    have hplain := extract_parts (parts.map Part.plain) tail
    simp only [hnone, List.flatMap_map, Part.written_plain, Part.rewritten_plain] at hplain
    exact hplain

end Path

end Apidoc
