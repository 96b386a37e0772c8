import Apidoc.Proofs.Source.Peg
import Apidoc.Proofs.Source.Token
import Apidoc.Source.Type

namespace Apidoc

namespace TypeRef

mutual

/-- The names of a type and of its arguments. -/
def names : TypeRef → List String
  | ⟨name, args⟩ => name :: namesAll args

def namesAll : List TypeRef → List String
  | [] => []
  | a :: as => a.names ++ namesAll as

end

theorem mem_namesAll {name : String} {args : List TypeRef} :
    name ∈ namesAll args ↔ ∃ a ∈ args, name ∈ a.names := by
  induction args with
  | nil => simp [namesAll]
  | cons a as ih => simp [namesAll, ih]

end TypeRef

namespace Source

open Rule Peg

section Reduced

/-- The words that begin a path although they are no identifiers. -/
def pathWords : List String := ["super", "self", "crate", "try"]

/-- What a type can reduce to: the empty type, a word, or an identifier with arguments. -/
inductive Reduced : TypeRef → Prop
  | void : Reduced .void
  | word {name : String} (h : name ∈ pathWords) : Reduced ⟨name, []⟩
  | named {name : String} {args : List TypeRef} (hname : IsIdent name)
    (h : isIdentifier name = true ∨ name = "Self") (hargs : ∀ a ∈ args, Reduced a) :
    Reduced ⟨name, args⟩

variable {trees : List (Tree Rule)} {tree : Tree Rule} {ts : List (Tree Rule)} {t : TypeRef}
  {name : String} {wide : Bool}

/-- A tree that the grammar can build from the tokens of a text. -/
def Grown (tree : Tree Rule) : Prop :=
  ∃ p trees, Consumes body Token.Written p trees ∧ tree ∈ trees

theorem Grown.consumes {r : Rule} (h : Grown (.node r ts)) :
    Consumes body Token.Written (body r) ts := by
  obtain ⟨p, trees, hconsumes, hmem⟩ := h
  exact hconsumes.children hmem

theorem Grown.children {r : Rule} (h : Grown (.node r ts)) : ∀ t ∈ ts, Grown t :=
  fun _ ht => ⟨body r, ts, h.consumes, ht⟩

theorem consumed_word {w : String} (h : Consumes body Token.Written (Peg.word w) trees) :
    trees = [.leaf (.ident w)] ∧ IsIdent w := by
  cases h with
  | @token accepts t h ht =>
    cases t with
    | ident name =>
      cases beq_iff_eq.1 h
      exact ⟨rfl, ht⟩
    | literal => cases h
    | punct => cases h
    | opening => cases h
    | closing => cases h

theorem consumed_pathWord (h : Consumes body Token.Written pathWord trees) :
    ∃ name ∈ pathWords, trees = [.leaf (.ident name)] := by
  cases h with
  | first h => exact ⟨"super", by decide, (consumed_word h).1⟩
  | second h =>
    cases h with
    | first h => exact ⟨"self", by decide, (consumed_word h).1⟩
    | second h =>
      cases h with
      | first h => exact ⟨"crate", by decide, (consumed_word h).1⟩
      | second h => exact ⟨"try", by decide, (consumed_word h).1⟩

theorem consumed_name (h : Consumes body Token.Written (first [identifier, word "Self"]) trees) :
    ∃ name, trees = [.leaf (.ident name)] ∧ IsIdent name ∧
      (isIdentifier name = true ∨ name = "Self") := by
  cases h with
  | first h =>
    cases h with
    | @token accepts t h ht =>
      cases t with
      | ident name => exact ⟨name, rfl, ht, .inl h⟩
      | literal => cases h
      | punct => cases h
      | opening => cases h
      | closing => cases h
  | second h =>
    obtain ⟨rfl, hword⟩ := consumed_word h
    exact ⟨"Self", rfl, hword, .inr rfl⟩

theorem consumed_segment (h : Consumes body Token.Written (body (.segment wide)) trees) :
    (∃ name ∈ pathWords, trees = [.leaf (.ident name)]) ∨
      ∃ name after, trees = .leaf (.ident name) :: after ∧ IsIdent name ∧
        (isIdentifier name = true ∨ name = "Self") := by
  cases h with
  | first h => exact .inl (consumed_pathWord h)
  | second h =>
    cases h with
    | seq ha hb =>
      obtain ⟨name, rfl, hname, hword⟩ := consumed_name ha
      exact .inr ⟨name, _, rfl, hname, hword⟩

/-- The forms of the trees that stand for types. -/
inductive TypeForm : Tree Rule → Prop
  | type (wide : Bool) (tree : Tree Rule) : TypeForm (.node (.type wide) [tree])
  | unit (wide : Bool) (a b : Tree Rule) : TypeForm (.node (.parenType wide) [a, b])
  | paren (wide : Bool) (a tree : Tree Rule) :
    TypeForm (.node (.parenType wide) [a, tree, .leaf (.closing .paren)])
  | pathType (wide : Bool) (tree : Tree Rule) : TypeForm (.node (.pathType wide) [tree])
  | qualifiedPath (inExpr : Bool) (ts : List (Tree Rule)) :
    TypeForm (.node (.qualifiedPath inExpr) ts)
  | path (inExpr : Bool) (ts : List (Tree Rule)) : TypeForm (.node (.path inExpr) ts)
  | word (wide : Bool) (name : String) : TypeForm (.node (.segment wide) [.leaf (.ident name)])
  | applied (wide : Bool) (name : String) (ts : List (Tree Rule)) :
    TypeForm (.node (.segment wide) [.leaf (.ident name), .node .arguments ts])
  | bracket (a tree : Tree Rule) (ts : List (Tree Rule)) :
    TypeForm (.node .bracketType (a :: tree :: ts))
  | reference (ts : List (Tree Rule)) : TypeForm (.node .referenceType ts)

theorem typeForm_of_typeOf? (h : typeOf? tree = some t) : TypeForm tree := by
  unfold typeOf? at h
  split at h
  all_goals first
    | constructor
    | cases h

theorem reduced_of_lastType? (hts : ∀ tree ∈ ts, ∀ t, typeOf? tree = some t → Reduced t)
    (h : lastType? ts = some t) : Reduced t := by
  induction ts with
  | nil => cases h
  | cons tree rest ih =>
    cases rest with
    | nil => exact hts tree List.mem_cons_self t h
    | cons next rest => exact ih (fun tree htree => hts tree (List.mem_cons_of_mem _ htree)) h

theorem reduced_of_argumentTypes? {args : List TypeRef}
    (hts : ∀ tree, .node .typeArgument [tree] ∈ ts → ∀ t, typeOf? tree = some t → Reduced t)
    (h : argumentTypes? ts = some args) : ∀ a ∈ args, Reduced a := by
  induction ts generalizing args with
  | nil =>
    cases h
    exact List.forall_mem_nil _
  | cons node rest ih =>
    have hrest := fun tree htree => hts tree (List.mem_cons_of_mem _ htree)
    by_cases hargument : ∃ tree, node = .node .typeArgument [tree]
    · obtain ⟨tree, rfl⟩ := hargument
      rw [argumentTypes?] at h
      split at h
      · rename_i a as ha has
        cases h
        exact List.forall_mem_cons.2 ⟨hts tree List.mem_cons_self a ha, ih hrest has⟩
      · cases h
    · rw [argumentTypes?.eq_3 node rest fun tree he => hargument ⟨tree, he⟩] at h
      exact ih hrest h

theorem sizeOf_lt_of_mem {r : Rule} (h : tree ∈ ts) : sizeOf tree < sizeOf (Tree.node r ts) := by
  have hmem := List.sizeOf_lt_of_mem h
  rw [Tree.node.sizeOf_spec]
  omega

/-- What a tree of a text reduces to is reduced. -/
theorem Grown.reduced (hgrown : Grown tree) (h : typeOf? tree = some t) : Reduced t := by
  induction hn : sizeOf tree using Nat.strongRecOn generalizing tree t with
  | _ n ih =>
    subst hn
    have hchild {r : Rule} {ts : List (Tree Rule)} (htree : tree = .node r ts) :
        ∀ t ∈ ts, ∀ a, typeOf? t = some a → Reduced a := by
      subst htree
      exact fun t ht a ha => ih _ (sizeOf_lt_of_mem ht) (hgrown.children t ht) ha rfl
    cases typeForm_of_typeOf? h with
    | type wide tree => exact hchild rfl tree List.mem_cons_self t h
    | unit wide a b =>
      cases h
      exact .void
    | paren wide a tree =>
      exact hchild rfl tree (List.mem_cons_of_mem _ List.mem_cons_self) t h
    | pathType wide tree => exact hchild rfl tree List.mem_cons_self t h
    | qualifiedPath inExpr ts => exact reduced_of_lastType? (hchild rfl) h
    | path inExpr ts => exact reduced_of_lastType? (hchild rfl) h
    | word wide name =>
      cases h
      rcases consumed_segment hgrown.consumes with ⟨_, hname, he⟩ | ⟨_, after, he, hname, hword⟩
      · cases he
        exact .word hname
      · cases he
        exact .named hname hword fun _ ha => (List.not_mem_nil ha).elim
    | applied wide name ts =>
      obtain ⟨args, hargs, rfl⟩ := Option.map_eq_some_iff.1 h
      rcases consumed_segment hgrown.consumes with ⟨_, hname, he⟩ | ⟨_, after, he, hname, hword⟩
      · cases he
      · cases he
        have harguments : .node .arguments ts ∈ [Tree.leaf (.ident name), .node .arguments ts] :=
          List.mem_cons_of_mem _ List.mem_cons_self
        have hgrownArgs := (hgrown.children _ harguments).children
        refine .named hname hword (reduced_of_argumentTypes? (fun tree htree a ha => ?_) hargs)
        have hmem : tree ∈ [tree] := List.mem_singleton_self tree
        have hlt : sizeOf tree < sizeOf (Tree.node .arguments ts) :=
          Nat.lt_trans (sizeOf_lt_of_mem hmem) (sizeOf_lt_of_mem htree)
        exact ih _ (Nat.lt_trans hlt (sizeOf_lt_of_mem harguments))
          ((hgrownArgs _ htree).children tree hmem) ha rfl
    | bracket a tree ts =>
      obtain ⟨element, helement, rfl⟩ := Option.map_eq_some_iff.1 h
      have hreduced :=
        hchild rfl tree (List.mem_cons_of_mem _ List.mem_cons_self) element helement
      have hvec : IsWord ['V', 'e', 'c'] := isWord_cons (by decide) (by decide)
      exact .named (.word hvec) (.inl (by decide)) fun _ ha => List.mem_singleton.1 ha ▸ hreduced
    | reference ts => exact reduced_of_lastType? (hchild rfl) h

theorem reduced_of_run {tokens rest : List Token} {fuel : Nat}
    (hwritten : ∀ t ∈ tokens, t.Written)
    (hrun : run body fuel (.rule (.type true)) tokens = some ([tree], rest))
    (h : typeOf? tree = some t) : Reduced t :=
  have hgrown : Grown tree :=
    ⟨_, _, (consumes_of_run hwritten hrun).1, List.mem_singleton_self _⟩
  hgrown.reduced h

end Reduced

section Printed

mutual

/-- The tokens of a printed type. `joint` says whether punctuation follows the type directly. -/
def printed : TypeRef → Bool → List Token
  | ⟨name, []⟩, _ =>
    if name = TypeRef.void.name then [.opening .paren, .closing .paren] else [.ident name]
  | ⟨name, a :: as⟩, joint =>
    .ident name :: .punct '<' false :: (printed a true ++ printedRest as joint)

/-- The tokens of further arguments and of the bracket that closes them. -/
def printedRest : List TypeRef → Bool → List Token
  | [], joint => [.punct '>' joint]
  | a :: as, joint => .punct ',' false :: (printed a true ++ printedRest as joint)

end

variable {name : String} {t : TypeRef} {as : List TypeRef} {stack : List Delimiter}
  {tokens : List Token} {follow : List Char}

theorem IsIdent.first (h : IsIdent name) : ∃ c cs, name.toList = c :: cs ∧ isPlain c = true := by
  cases h with
  | word h =>
    obtain ⟨c, cs, rfl, hc, _⟩ := h
    exact ⟨c, cs, String.toList_ofList, isPlain_of_isIdentStart hc⟩
  | raw h => exact ⟨'r', _, String.toList_append, by decide⟩

theorem IsIdent.ne_void (h : IsIdent name) : name ≠ TypeRef.void.name := by
  obtain ⟨c, cs, hname, hc⟩ := h.first
  rintro rfl
  cases hname
  exact absurd hc (by decide)

theorem printed_name {joint : Bool} (h : IsIdent name) :
    printed ⟨name, []⟩ joint = [.ident name] := by
  rw [printed, if_neg h.ne_void]

theorem length_printed {a : TypeRef} {joint : Bool} : (printed ⟨name, a :: as⟩ joint).length =
    (printed a true).length + (printedRest as joint).length + 2 := by
  rw [printed, List.length_cons, List.length_cons, List.length_append]

theorem length_printedRest {a : TypeRef} {joint : Bool} : (printedRest (a :: as) joint).length =
    (printed a true).length + (printedRest as joint).length + 1 := by
  rw [printedRest, List.length_cons, List.length_append]

theorem isBlank_of_isPlain {c : Char} (h : isPlain c = true) : Text.isBlank c = false := by
  simp only [isPlain, isSourceBlank, Bool.and_eq_true, Bool.not_eq_true', Bool.or_eq_false_iff] at h
  exact h.1.1.1.1.1.1.1

theorem IsWord.last {cs : List Char} (h : IsWord cs) :
    ∃ c, cs.getLast? = some c ∧ Text.isBlank c = false := by
  obtain ⟨c, cs, rfl, hc, hcs⟩ := h
  refine ⟨(c :: cs).getLast (List.cons_ne_nil _ _), List.getLast?_eq_some_getLast _, ?_⟩
  rcases List.mem_cons.1 (List.getLast_mem (List.cons_ne_nil c cs)) with hlast | hlast
  · rw [hlast]
    exact isBlank_of_isPlain (isPlain_of_isIdentStart hc)
  · exact isBlank_of_isPlain (isPlain_of_isIdentRest (hcs _ hlast))

theorem IsIdent.last (h : IsIdent name) :
    ∃ c, name.toList.getLast? = some c ∧ Text.isBlank c = false := by
  cases h with
  | word h =>
    rw [String.toList_ofList]
    exact h.last
  | raw h =>
    obtain ⟨c, hlast, hc⟩ := h.last
    exact ⟨c, by simp [List.getLast?_cons, hlast], hc⟩

theorem isIdent_of_mem_pathWords (h : name ∈ pathWords) : IsIdent name := by
  simp only [pathWords, List.mem_cons, List.not_mem_nil, or_false] at h
  rcases h with rfl | rfl | rfl | rfl
  · have hword : IsWord ['s', 'u', 'p', 'e', 'r'] := isWord_cons (by decide) (by decide)
    exact .word hword
  · have hword : IsWord ['s', 'e', 'l', 'f'] := isWord_cons (by decide) (by decide)
    exact .word hword
  · have hword : IsWord ['c', 'r', 'a', 't', 'e'] := isWord_cons (by decide) (by decide)
    exact .word hword
  · have hword : IsWord ['t', 'r', 'y'] := isWord_cons (by decide) (by decide)
    exact .word hword

theorem toList_text {a : TypeRef} : (TypeRef.mk name (a :: as)).text.toList =
    name.toList ++ '<' :: (a.text.toList ++ ((TypeRef.restText as).toList ++ ['>'])) := by
  simp [TypeRef.text]

theorem Reduced.first (h : Reduced t) :
    ∃ c cs, t.text.toList = c :: cs ∧ (isPlain c = true ∨ c = '(') := by
  cases h with
  | void => exact ⟨'(', [')'], rfl, .inr rfl⟩
  | word h =>
    obtain ⟨c, cs, hname, hc⟩ := (isIdent_of_mem_pathWords h).first
    exact ⟨c, cs, hname, .inl hc⟩
  | @named name args hname =>
    obtain ⟨c, cs, hname, hc⟩ := hname.first
    cases args with
    | nil => exact ⟨c, cs, hname, .inl hc⟩
    | cons a as => exact ⟨c, _, by rw [toList_text, hname, List.cons_append], .inl hc⟩

theorem Reduced.last (h : Reduced t) :
    ∃ c, t.text.toList.getLast? = some c ∧ Text.isBlank c = false := by
  cases h with
  | void => exact ⟨')', rfl, by decide⟩
  | word h => exact (isIdent_of_mem_pathWords h).last
  | @named name args hname =>
    cases args with
    | nil => exact hname.last
    | cons a as =>
      refine ⟨'>', ?_, by decide⟩
      rw [TypeRef.text, String.toList_append]
      exact List.getLast?_concat

theorem follows_rest : Follows ((TypeRef.restText as).toList ++ '>' :: follow) := by
  intro d hd
  cases as with
  | nil =>
    cases hd
    exact .inr (.inr rfl)
  | cons a as =>
    rw [TypeRef.restText, String.append_assoc, String.toList_append, List.append_assoc] at hd
    cases hd
    exact .inr (.inl rfl)

theorem Follows.startsPunct (h : Follows follow) (hne : follow ≠ []) :
    startsPunct follow = true := by
  cases follow with
  | nil => exact (hne rfl).elim
  | cons d follow => rcases h d rfl with rfl | rfl | rfl <;> rfl

theorem not_startsPunct (h : Reduced t) : startsPunct (t.text.toList ++ follow) = false := by
  obtain ⟨c, cs, htext, hc⟩ := h.first
  have hpunct : isPunct c = false := by
    rcases hc with hc | rfl
    · simp only [isPlain, Bool.and_eq_true, Bool.not_eq_true'] at hc
      exact hc.1.1.1.1.2
    · decide
  rw [htext, List.cons_append, startsPunct, hpunct, Bool.and_false]

theorem lexes_rest (hargs : ∀ a ∈ as, Reduced a ∧ ∀ follow tokens, Follows follow →
      Lexes stack follow tokens →
      Lexes stack (a.text.toList ++ follow) (printed a (startsPunct follow) ++ tokens))
    (hrest : Lexes stack follow tokens) :
    Lexes stack ((TypeRef.restText as).toList ++ '>' :: follow)
      (printedRest as (startsPunct follow) ++ tokens) := by
  induction as with
  | nil => exact hrest.greater
  | cons a as ih =>
    have hfollow : Follows ((TypeRef.restText as).toList ++ '>' :: follow) := follows_rest
    have has := ih fun b hb => hargs b (List.mem_cons_of_mem _ hb)
    have ha := (hargs a List.mem_cons_self).2 _ _ hfollow has
    rw [hfollow.startsPunct (by simp)] at ha
    have h : Lexes stack _ (.punct ',' false :: _) := ha.space.comma
    simpa [TypeRef.restText, printedRest] using h

theorem lexes_type (h : Reduced t) (hfollow : Follows follow) (hrest : Lexes stack follow tokens) :
    Lexes stack (t.text.toList ++ follow) (printed t (startsPunct follow) ++ tokens) := by
  induction h generalizing follow tokens with
  | void => exact hrest.parens
  | word h =>
    have hname := isIdent_of_mem_pathWords h
    rw [printed_name hname]
    exact hrest.ident hname hfollow
  | @named name args hname h hargs ih =>
    cases args with
    | nil =>
      rw [printed_name hname]
      exact hrest.ident hname hfollow
    | cons a as =>
      have hclose : Follows ((TypeRef.restText as).toList ++ '>' :: follow) := follows_rest
      have has : Lexes stack ((TypeRef.restText as).toList ++ '>' :: follow)
          (printedRest as (startsPunct follow) ++ tokens) :=
        lexes_rest (fun b hb => ⟨hargs b (List.mem_cons_of_mem _ hb), fun _ _ =>
          ih b (List.mem_cons_of_mem _ hb)⟩) hrest
      have ha := ih a List.mem_cons_self hclose has
      rw [hclose.startsPunct (by simp)] at ha
      have h := ha.less.ident hname (by intro d hd; cases hd; exact .inl rfl)
      rw [not_startsPunct (hargs a List.mem_cons_self)] at h
      simpa [toList_text, printed] using h

end Printed

section Whole

variable {cs : List Char} {t : TypeRef}

theorem dropWhile_isBlank (h : ∀ c, cs.head? = some c → Text.isBlank c = false) :
    cs.dropWhile Text.isBlank = cs := by
  cases cs with
  | nil => rfl
  | cons c cs => exact List.dropWhile_cons_of_neg (by rw [h c rfl]; exact Bool.false_ne_true)

theorem trimChars_eq_self (hfirst : ∀ c, cs.head? = some c → Text.isBlank c = false)
    (hlast : ∀ c, cs.getLast? = some c → Text.isBlank c = false) : Text.trimChars cs = cs := by
  have hreverse : cs.reverse.dropWhile Text.isBlank = cs.reverse := by
    apply dropWhile_isBlank
    rw [List.head?_reverse]
    exact hlast
  rw [Text.trimChars, dropWhile_isBlank hfirst, Text.dropEndWhile, hreverse, List.reverse_reverse]

/-- The tokens of a printed type, read as a text of its own. -/
theorem tokens?_text (h : Reduced t) :
    tokens? (Text.trimChars t.text.toList) = some (printed t false) := by
  obtain ⟨c, cs, htext, hc⟩ := h.first
  obtain ⟨d, hlast, hd⟩ := h.last
  have hfirst : Text.isBlank c = false := by
    rcases hc with hc | rfl
    · exact isBlank_of_isPlain hc
    · decide
  have hmark : c.toNat ≠ 0xFEFF := by
    rcases hc with hc | rfl
    · simp only [isPlain, Bool.and_eq_true, bne_iff_ne] at hc
      exact hc.2
    · decide
  have htrim : Text.trimChars t.text.toList = t.text.toList := by
    apply trimChars_eq_self
    · intro e he
      rw [htext] at he
      cases he
      exact hfirst
    · intro e he
      rw [hlast] at he
      cases he
      exact hd
  have hdrop : dropMark t.text.toList = t.text.toList := by
    rw [htext, dropMark, if_neg hmark]
  have hfollow : Follows [] := by
    intro d hd
    cases hd
  have hlexes := lexes_type h hfollow lexes_nil
  rw [List.append_nil, List.append_nil] at hlexes
  rw [htrim, tokens?, hdrop]
  exact hlexes _ (Nat.lt_succ_self _)

end Whole

end Source

end Apidoc
