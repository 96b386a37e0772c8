import Apidoc.Proofs.Source.Printed

/-!
With the word `try` among its names a printed type is not read to its end; every other one is read
as itself. The grammar tries much before it takes a name as a path or as an argument, and the token
that comes next tells that none of it applies.
-/

namespace Apidoc

namespace Source

open Rule Peg

section Reading

/-- What can come next where a type has ended. -/
def ends : List (Option Token) :=
  [none, some (.punct ',' false), some (.punct ',' true), some (.punct '>' false),
    some (.punct '>' true)]

/-- What can come next after a name: an end, or arguments. -/
def stops : List (Option Token) := some (.punct '<' false) :: ends

/-- What the grammar takes for a name where a path can begin. -/
def IsName (name : String) : Prop :=
  name ∈ pathWords ∨ isIdentifier name = true ∨ name = "Self"

variable {name : String} {t a : TypeRef} {as : List TypeRef} {rest left : List Token}
  {tree : Tree Rule} {trees : List (Tree Rule)} {joint : Bool} {n : Nat}
  {result : Option (List (Tree Rule) × List Token)}

theorem mem_stops_of_mem_ends (h : rest.head? ∈ ends) : rest.head? ∈ stops :=
  List.mem_cons_of_mem _ h

theorem runs_word_fails {w : String} (h : name ≠ w) :
    Runs body (n + 1) (word w) (.ident name :: rest) none :=
  .token_fails fun he => h (beq_iff_eq.1 he)

theorem runs_pathWord (hname : name ∈ pathWords) :
    Runs body 5 pathWord (.ident name :: rest) (some ([.leaf (.ident name)], rest)) := by
  simp only [pathWords, List.mem_cons, List.not_mem_nil, or_false] at hname
  rcases hname with rfl | rfl | rfl | rfl <;> exact .of_run fun _ => rfl

theorem not_isIdentifier (hname : name ∈ pathWords) : isIdentifier name = false := by
  simp only [pathWords, List.mem_cons, List.not_mem_nil, or_false] at hname
  rcases hname with rfl | rfl | rfl | rfl <;> decide

theorem runs_pathWord_fails (hname : name ∉ pathWords) :
    Runs body 5 pathWord (.ident name :: rest) none := by
  simp only [pathWords, List.mem_cons, List.not_mem_nil, or_false, not_or] at hname
  obtain ⟨hsuper, hself, hcrate, htry⟩ := hname
  exact .alt_second (runs_word_fails hsuper) (.alt_second (runs_word_fails hself)
    (.alt_second (runs_word_fails hcrate) (runs_word_fails htry)))

theorem runs_identifier_fails (hname : isIdentifier name = false) :
    Runs body (n + 1) identifier (.ident name :: rest) none :=
  .token_fails (Bool.eq_false_iff.1 hname)

/-- A name is taken as an identifier or as one of the words that can stand for one. -/
theorem runs_name (hname : IsName name) :
    Runs body 7 (first [identifier, pathWord, word "Self"]) (.ident name :: rest)
      (some ([.leaf (.ident name)], rest)) := by
  rcases hname with hname | hname | rfl
  · have hidentifier := not_isIdentifier hname
    exact .alt_second (runs_identifier_fails hidentifier) (.alt (runs_pathWord hname))
  · exact .alt (.token hname)
  · exact .of_run fun _ => rfl

theorem runs_modulePath (hname : IsName name) (hrest : rest.head? ∈ stops) :
    Runs body 11 modulePath (.ident name :: rest) (some ([.leaf (.ident name)], rest)) := by
  have hlead : Runs body 10 (opt (op "::")) (.ident name :: rest)
      (some ([], .ident name :: rest)) := .of_passes rfl
  have hmore : Runs body 9 (.many (.seq (op "::") (first [identifier, pathWord, word "Self"]))) rest
      (some ([], rest)) :=
    .passes_among (by decide) hrest
  exact .seq hlead (.seq ((runs_name hname).mono (by decide)) hmore)

/-- The tree of a type that is a path of one segment. -/
def pathTree (segment : Tree Rule) : Tree Rule :=
  .node (.type true) [.node (.pathType true) [.node (.path false) [segment]]]

theorem runs_path (hleft : left.head? ∈ stops)
    (h : Runs body n (.rule (.segment false)) (.ident name :: rest) (some ([tree], left))) :
    Runs body (n + 12) (.rule (.path false)) (.ident name :: rest)
      (some ([.node (.path false) [tree]], left)) := by
  have hlead : Runs body 10 (opt (op "::")) (.ident name :: rest)
      (some ([], .ident name :: rest)) := .of_passes rfl
  have hmore : Runs body 9 (.many (all [op "::", .unless (openDelim .paren),
      .rule (.segment false)])) left (some ([], left)) :=
    .passes_among (by decide) hleft
  exact .rule (.seq (hlead.mono (by omega)) (.seq (h.mono (by omega)) (hmore.mono (by omega))))

theorem runs_type_of_segment (hname : IsName name) (htry : name ≠ "try")
    (hrest : rest.head? ∈ stops) (hleft : left.head? ∈ stops)
    (h : Runs body n (.rule (.segment false)) (.ident name :: rest) (some ([tree], left))) :
    Runs body (n + 24) anyType (.ident name :: rest) (some ([pathTree tree], left)) := by
  have hqualified : Runs body 10 (all [Peg.ahead (char '<' false), .rule (.qualifiedPath false)])
      (.ident name :: rest) none := .of_fails rfl
  have hbang : Runs body 10 (all [.unless (op "!="), char '!' false, group]) rest none :=
    .fails_among (by decide) hrest
  have hbanged : Runs body 12 (all [modulePath, .unless (op "!="), char '!' false, group])
      (.ident name :: rest) none :=
    .seq_fails_second (runs_modulePath hname hrest) (hbang.mono (by decide))
  have hbounds : Runs body 10 (moreBounds (.rule .bound)) left (some ([], left)) :=
    .passes_among (by decide) hleft
  have hpath : Runs body (n + 13) (all [.rule (.path false), moreBounds (.rule .bound)])
      (.ident name :: rest) (some ([.node (.path false) [tree]], left)) :=
    .seq (runs_path hleft h) (hbounds.mono (by omega))
  have hpathBody : Runs body (n + 18) (body (.pathType true)) (.ident name :: rest)
      (some ([.node (.path false) [tree]], left)) :=
    .seq (.absent (runs_word_fails htry)) (.alt_second (hqualified.mono (by omega))
      (.alt_second (hbanged.mono (by omega)) (hpath.mono (by omega))))
  have hparen : Runs body 10 (.rule (.parenType true)) (.ident name :: rest) none := .of_fails rfl
  have htype : Runs body (n + 22) (body (.type true)) (.ident name :: rest)
      (some ([.node (.pathType true) [.node (.path false) [tree]]], left)) :=
    .alt_second (hparen.mono (by omega)) (.alt (hpathBody.rule.mono (by omega)))
  exact (Runs.rule htype).mono (by omega)

/-- The tree of the empty type. -/
def voidTree : Tree Rule :=
  .node (.type true) [.node (.parenType true) [.leaf (.opening .paren), .leaf (.closing .paren)]]

theorem runs_void :
    Runs body 12 anyType (.opening .paren :: .closing .paren :: rest) (some ([voidTree], rest)) :=
  .of_run fun _ => rfl

theorem runs_try_fails : Runs body 20 anyType (.ident "try" :: rest) none :=
  .of_fails rfl

/-- An argument of a type, as the grammar of arguments has it. -/
def argument : Peg Rule := first [.rule .otherArgument, .rule .typeArgument]

theorem runs_nameAhead (hname : IsName name) (hrest : rest.head? ∈ stops) :
    Runs body 12 nameAhead (.ident name :: rest) (some ([], .ident name :: rest)) := by
  have hseparator : Runs body 9 (.unless (all [op "::", .unless (char '<' false)])) rest
      (some ([], rest)) :=
    .passes_among (by decide) hrest
  exact .ahead (.seq ((runs_name hname).mono (by decide)) hseparator)

theorem runs_otherArgument_fails (hname : IsName name) :
    Runs body 12 (.rule .otherArgument) (.ident name :: rest) none := by
  have hne (w : String) (hpath : w ∉ pathWords) (hword : isIdentifier w = false)
      (hself : w ≠ "Self") : name ≠ w := by
    rintro rfl
    rcases hname with h | h | h
    · exact hpath h
    · rw [hword] at h
      cases h
    · exact hself h
  have htrue := hne "true" (by decide) (by decide) (by decide)
  have hfalse := hne "false" (by decide) (by decide) (by decide)
  have hlifetime : Runs body 10 (all [lifetime, .unless (char '+' false)]) (.ident name :: rest)
      none := .of_fails rfl
  have hliteral : Runs body 8 literal (.ident name :: rest) none :=
    .alt_second (.of_fails rfl) (.alt_second (runs_word_fails htrue)
      (.alt_second (runs_word_fails hfalse) (.of_fails rfl)))
  have hblock : Runs body 8 (.rule .block) (.ident name :: rest) none := .of_fails rfl
  exact .rule_fails (.alt_second hlifetime (.alt_second (hliteral.mono (by decide))
    (hblock.mono (by decide))))

theorem runs_argument (hname : IsName name) (hrest : rest.head? ∈ stops)
    (hleft : left.head? ∈ stops)
    (h : Runs body n anyType (.ident name :: rest) (some (trees, left))) :
    Runs body (n + 24) argument (.ident name :: rest)
      (some ([.node .typeArgument trees], left)) := by
  have hmore : Runs body 12 (opt (first [all [equals, first [literalArgument, anyType]],
      all [colon, optionalBounds]])) left (some ([], left)) :=
    .passes_among (by decide) hleft
  have htype : Runs body (n + 13) (all [anyType, opt (first [
      all [equals, first [literalArgument, anyType]], all [colon, optionalBounds]])])
      (.ident name :: rest) (some (trees ++ [], left)) :=
    .seq (h.mono (by omega)) (hmore.mono (by omega))
  rw [List.append_nil] at htype
  have hbody : Runs body (n + 15) (body .typeArgument) (.ident name :: rest)
      (some (trees, left)) :=
    .alt (.seq ((runs_nameAhead hname hrest).mono (by omega)) htype)
  exact .alt_second ((runs_otherArgument_fails hname).mono (by omega)) (hbody.rule.mono (by omega))

theorem runs_argument_fails (hname : IsName name) (hrest : rest.head? ∈ stops)
    (h : Runs body n anyType (.ident name :: rest) none) :
    Runs body (n + 24) argument (.ident name :: rest) none := by
  have hbody : Runs body (n + 15) (body .typeArgument) (.ident name :: rest) none :=
    .alt_second (.seq_fails_second ((runs_nameAhead hname hrest).mono (by omega))
      (.seq_fails (h.mono (by omega))))
      (.seq_fails (.absent_fails ((runs_nameAhead hname hrest).mono (by omega))))
  exact .alt_second ((runs_otherArgument_fails hname).mono (by omega))
    (hbody.rule_fails.mono (by omega))

theorem runs_argument_void : Runs body 24 argument (.opening .paren :: .closing .paren :: rest)
    (some ([.node .typeArgument [voidTree]], rest)) :=
  .of_run fun _ => rfl

theorem runs_segment_word (hname : name ∈ pathWords) :
    Runs body 8 (.rule (.segment false)) (.ident name :: rest)
      (some ([.node (.segment false) [.leaf (.ident name)]], rest)) :=
  .rule (.alt ((runs_pathWord hname).mono (by decide)))

theorem runs_segment (hname : isIdentifier name = true ∨ name = "Self")
    (h : Runs body n (opt (all [argumentsAhead false, .rule .arguments])) rest
      (some (trees, left))) : Runs body (n + 12) (.rule (.segment false)) (.ident name :: rest)
      (some ([.node (.segment false) (.leaf (.ident name) :: trees)], left)) := by
  have hword : name ∉ pathWords := by
    intro hmem
    rcases hname with h | rfl
    · rw [not_isIdentifier hmem] at h
      cases h
    · exact absurd hmem (by decide)
  have htaken : Runs body 3 (first [identifier, word "Self"]) (.ident name :: rest)
      (some ([.leaf (.ident name)], rest)) := by
    rcases hname with h | rfl
    · exact .alt (.token h)
    · exact .of_run fun _ => rfl
  have hseq : Runs body (n + 10) (all [first [identifier, word "Self"],
      opt (all [argumentsAhead false, .rule .arguments])]) (.ident name :: rest)
      (some (.leaf (.ident name) :: trees, left)) :=
    .seq (htaken.mono (by omega)) (h.mono (by omega))
  exact .rule (.alt_second ((runs_pathWord_fails hword).mono (by omega)) hseq)

/-- The type of a name without arguments. -/
theorem runs_type_of_name (hname : IsName name) (htry : name ≠ "try")
    (hrest : rest.head? ∈ ends) : Runs body 60 anyType (.ident name :: rest)
      (some ([pathTree (.node (.segment false) [.leaf (.ident name)])], rest)) := by
  have hstops := mem_stops_of_mem_ends hrest
  have hsegment : Runs body 36 (.rule (.segment false)) (.ident name :: rest)
      (some ([.node (.segment false) [.leaf (.ident name)]], rest)) := by
    have hnone : Runs body 24 (opt (all [argumentsAhead false, .rule .arguments])) rest
        (some ([], rest)) :=
      .passes_among (by decide) hrest
    by_cases hword : name ∈ pathWords
    · exact (runs_segment_word hword).mono (by decide)
    · exact runs_segment (hname.resolve_left hword) hnone
  exact runs_type_of_segment hname htry hstops hstops hsegment

/-- The printed type is read as the type itself, whatever follows it. -/
def Reads (t : TypeRef) : Prop :=
  ∀ joint rest, rest.head? ∈ ends → ∃ tree, typeOf? tree = some t ∧
    Runs body (100 * (printed t joint).length) anyType (printed t joint ++ rest)
      (some ([tree], rest))

/-- No type or argument is read, although a name comes next, or its arguments are left. -/
def Stuck (ts : List Token) (result : Option (List (Tree Rule) × List Token)) : Prop :=
  (result = none ∧ ∃ name after, ts = .ident name :: after) ∨
    ∃ x left, result = some (x, left) ∧ left.head? = some (.punct '<' false)

/-- The printed type is not read to its end, whatever follows it. -/
def Sticks (t : TypeRef) : Prop :=
  ∀ joint rest, rest.head? ∈ ends → ∃ result,
    Runs body (100 * (printed t joint).length) anyType (printed t joint ++ rest) result ∧
      Stuck (printed t joint ++ rest) result

theorem head_printedRest : (printedRest as joint ++ rest).head? ∈ ends := by
  cases as with
  | nil =>
    cases joint
    · exact (by decide : some (.punct '>' false) ∈ ends)
    · exact (by decide : some (.punct '>' true) ∈ ends)
  | cons a as => exact (by decide : some (.punct ',' false) ∈ ends)

/-- A printed type begins with its name, unless it is the empty one. -/
theorem printed_cases (h : Reduced t) : t = .void ∨ ∃ name, IsName name ∧
    ∀ joint rest, rest.head? ∈ ends → ∃ after, printed t joint ++ rest = .ident name :: after ∧
      after.head? ∈ stops := by
  cases h with
  | void => exact .inl rfl
  | @word name h =>
    refine .inr ⟨name, .inl h, fun joint rest hrest => ⟨rest, ?_, mem_stops_of_mem_ends hrest⟩⟩
    rw [printed_name (isIdent_of_mem_pathWords h), List.singleton_append]
  | @named name args hname h hargs =>
    refine .inr ⟨name, .inr h, fun joint rest hrest => ?_⟩
    cases args with
    | nil =>
      refine ⟨rest, ?_, mem_stops_of_mem_ends hrest⟩
      rw [printed_name hname, List.singleton_append]
    | cons a as => exact ⟨_, rfl, List.mem_cons_self⟩

theorem Reads.argument (joint : Bool) (ht : Reduced t) (h : Reads t) (hrest : rest.head? ∈ ends) :
    ∃ tree, typeOf? tree = some t ∧ Runs body (100 * (printed t joint).length + 24) argument
      (printed t joint ++ rest) (some ([.node .typeArgument [tree]], rest)) := by
  rcases printed_cases ht with rfl | ⟨name, hname, hprinted⟩
  · exact ⟨voidTree, rfl, runs_argument_void.mono (Nat.le_add_left _ _)⟩
  · obtain ⟨tree, htree, hruns⟩ := h joint rest hrest
    obtain ⟨after, he, hafter⟩ := hprinted joint rest hrest
    rw [he] at hruns ⊢
    exact ⟨tree, htree, runs_argument hname hafter (mem_stops_of_mem_ends hrest) hruns⟩

theorem argumentTypes?_leaf {t : Token} :
    argumentTypes? (.leaf t :: trees) = argumentTypes? trees :=
  rfl

theorem argumentTypes?_argument (h : typeOf? tree = some a) (hs : argumentTypes? trees = some as) :
    argumentTypes? (.node .typeArgument [tree] :: trees) = some (a :: as) := by
  rw [argumentTypes?, h, hs]

/-- Further arguments are read up to the bracket that closes them. -/
theorem reads_rest (joint : Bool) (rest : List Token)
    (hargs : ∀ a ∈ as, Reduced a ∧ Reads a) : ∃ trees,
    argumentTypes? (trees ++ [.leaf (.punct '>' joint)]) = some as ∧
    Runs body (100 * (printedRest as joint).length) (.many (.seq comma argument))
      (printedRest as joint ++ rest) (some (trees, .punct '>' joint :: rest)) := by
  induction as with
  | nil =>
    have hstops : Runs body 4 (.many (.seq comma argument)) (.punct '>' joint :: rest)
        (some ([], .punct '>' joint :: rest)) := .of_passes (by cases joint <;> rfl)
    refine ⟨[], rfl, hstops.mono ?_⟩
    rw [printedRest, List.length_singleton]
    decide
  | cons a as ih =>
    obtain ⟨hreduced, hreads⟩ := hargs a List.mem_cons_self
    have hhead : (printedRest as joint ++ rest).head? ∈ ends := head_printedRest
    obtain ⟨tree, htree, hfirst⟩ := hreads.argument true hreduced hhead
    obtain ⟨trees, htrees, hrest⟩ := ih fun b hb => hargs b (List.mem_cons_of_mem _ hb)
    have hitem : Runs body (100 * (printed a true).length + 25) (.seq comma argument)
        (.punct ',' false :: (printed a true ++ (printedRest as joint ++ rest)))
        (some ([.leaf (.punct ',' false), .node .typeArgument [tree]],
          printedRest as joint ++ rest)) :=
      .seq (.token rfl) hfirst
    refine ⟨.leaf (.punct ',' false) :: .node .typeArgument [tree] :: trees,
      argumentTypes?_argument htree htrees, ?_⟩
    rw [length_printedRest, printedRest, List.cons_append, List.append_assoc]
    have hmany := (hitem.mono (k := 100 * ((printed a true).length +
      (printedRest as joint).length) + 25) (by omega)).many_goes_on (hrest.mono (by omega))
    exact hmany.mono (by omega)

theorem runs_argumentsAhead {ts : List Token} : Runs body 9 (argumentsAhead false)
    (.punct '<' false :: ts) (some ([], .punct '<' false :: ts)) :=
  .of_passes rfl

/-- Arguments that are read to their end. -/
theorem runs_arguments {ts : List Token} {x y : List (Tree Rule)}
    (hfirst : Runs body n argument ts (some (x, left)))
    (hmore : Runs body n (.many (.seq comma argument)) left
      (some (y, .punct '>' joint :: rest))) :
    Runs body (n + 20) (opt (all [argumentsAhead false, .rule .arguments]))
      (.punct '<' false :: ts) (some ([.node .arguments (.leaf (.punct '<' false) ::
        (x ++ y ++ [.leaf (.punct '>' joint)]))], rest)) := by
  have hcomma : Runs body 3 (opt comma) (.punct '>' joint :: rest)
      (some ([], .punct '>' joint :: rest)) := .of_passes rfl
  have hlist : Runs body (n + 6) (listOf argument comma) ts
      (some (x ++ (y ++ []), .punct '>' joint :: rest)) :=
    .alt (.seq (hfirst.mono (by omega)) (.seq (hmore.mono (by omega)) (hcomma.mono (by omega))))
  have hend : Runs body 1 (char '>' false) (.punct '>' joint :: rest)
      (some ([.leaf (.punct '>' joint)], rest)) := .token (by cases joint <;> rfl)
  have hlead : Runs body 5 (opt (op "::")) (.punct '<' false :: ts)
      (some ([], .punct '<' false :: ts)) := .of_passes rfl
  have hbody : Runs body (n + 10) (body .arguments) (.punct '<' false :: ts)
      (some ([] ++ ([.leaf (.punct '<' false)] ++ (x ++ (y ++ []) ++ [.leaf (.punct '>' joint)])),
        rest)) :=
    .seq (hlead.mono (by omega)) (.seq (.token rfl) (.seq (hlist.mono (by omega))
      (hend.mono (by omega))))
  have hopt : Runs body (n + 20) (opt (all [argumentsAhead false, .rule .arguments])) _ _ :=
    .alt (.seq (runs_argumentsAhead.mono (by omega)) (hbody.rule.mono (by omega)))
  simpa only [List.nil_append, List.append_nil, List.singleton_append] using hopt

/-- Arguments after which no bracket closes are left alone. -/
theorem runs_arguments_fails {ts : List Token} {x : List (Tree Rule)}
    (hlist : Runs body n (listOf argument comma) ts (some (x, left)))
    (hclose : Runs body n (char '>' false) left none) :
    Runs body (n + 20) (opt (all [argumentsAhead false, .rule .arguments]))
      (.punct '<' false :: ts) (some ([], .punct '<' false :: ts)) := by
  have hlead : Runs body 5 (opt (op "::")) (.punct '<' false :: ts)
      (some ([], .punct '<' false :: ts)) := .of_passes rfl
  have hbody : Runs body (n + 10) (body .arguments) (.punct '<' false :: ts) none :=
    .seq_fails_second (hlead.mono (by omega)) (.seq_fails_second (.token rfl)
      (.seq_fails_second (hlist.mono (by omega)) (hclose.mono (by omega))))
  exact .alt_second (.seq_fails_second (runs_argumentsAhead.mono (by omega))
    (hbody.rule_fails.mono (by omega))) .done

theorem Sticks.argument (joint : Bool) (ht : Reduced t) (htry : "try" ∈ t.names) (h : Sticks t)
    (hrest : rest.head? ∈ ends) : ∃ result,
    Runs body (100 * (printed t joint).length + 24) argument (printed t joint ++ rest) result ∧
      Stuck (printed t joint ++ rest) result := by
  rcases printed_cases ht with rfl | ⟨name, hname, hprinted⟩
  · exact absurd htry (by decide)
  · obtain ⟨result, hruns, hstuck⟩ := h joint rest hrest
    obtain ⟨after, he, hafter⟩ := hprinted joint rest hrest
    rw [he] at hruns hstuck ⊢
    rcases hstuck with ⟨rfl, _⟩ | ⟨x, left, rfl, hleft⟩
    · exact ⟨none, runs_argument_fails hname hafter hruns, .inl ⟨rfl, name, after, rfl⟩⟩
    · have hstops : left.head? ∈ stops := hleft ▸ List.mem_cons_self
      exact ⟨_, runs_argument hname hafter hstops hruns, .inr ⟨_, left, rfl, hleft⟩⟩

/-- Where a list of arguments has gone wrong: before the bracket of arguments that were not read, or
before the separator of such a type. -/
def Astray (left : List Token) : Prop :=
  left.head? = some (.punct '<' false) ∨
    ∃ name after, left = .punct ',' false :: .ident name :: after

theorem many_stops_at_less (h : left.head? = some (.punct '<' false)) :
    Runs body 4 (.many (.seq comma argument)) left (some ([], left)) :=
  .of_passes (by rw [h]; rfl)

theorem sticks_rest (joint : Bool) (rest : List Token)
    (hargs : ∀ a ∈ as, Reduced a ∧ ("try" ∉ a.names → Reads a) ∧
      ("try" ∈ a.names → Sticks a)) (htry : "try" ∈ TypeRef.namesAll as) : ∃ trees left,
    Astray left ∧ Runs body (100 * (printedRest as joint).length) (.many (.seq comma argument))
      (printedRest as joint ++ rest) (some (trees, left)) := by
  induction as with
  | nil => cases htry
  | cons a as ih =>
    obtain ⟨hreduced, hreads, hsticks⟩ := hargs a List.mem_cons_self
    have hhead : (printedRest as joint ++ rest).head? ∈ ends := head_printedRest
    rw [length_printedRest, printedRest, List.cons_append, List.append_assoc]
    by_cases ha : "try" ∈ a.names
    · obtain ⟨result, hruns, hstuck⟩ := (hsticks ha).argument true hreduced ha hhead
      rcases hstuck with ⟨rfl, name, after, he⟩ | ⟨x, left, rfl, hleft⟩
      · have hitem : Runs body (100 * (printed a true).length + 25) (.seq comma argument)
            (.punct ',' false :: (printed a true ++ (printedRest as joint ++ rest))) none :=
          .seq_fails_second (.token rfl) hruns
        exact ⟨[], _, .inr ⟨name, after, by rw [he]⟩, hitem.many_stops.mono (by omega)⟩
      · have hitem : Runs body (100 * (printed a true).length + 25) (.seq comma argument)
            (.punct ',' false :: (printed a true ++ (printedRest as joint ++ rest)))
            (some (.leaf (.punct ',' false) :: x, left)) :=
          .seq (.token rfl) hruns
        have hmany := hitem.many_goes_on ((many_stops_at_less hleft).mono (by omega))
        exact ⟨_, left, .inl hleft, hmany.mono (by omega)⟩
    · obtain ⟨tree, htree, hfirst⟩ := (hreads ha).argument true hreduced hhead
      have hmore : "try" ∈ TypeRef.namesAll as := (List.mem_append.1 htry).resolve_left ha
      obtain ⟨trees, left, hastray, hrest⟩ :=
        ih (fun b hb => hargs b (List.mem_cons_of_mem _ hb)) hmore
      have hitem : Runs body (100 * (printed a true).length + 25) (.seq comma argument)
          (.punct ',' false :: (printed a true ++ (printedRest as joint ++ rest)))
          (some ([.leaf (.punct ',' false), .node .typeArgument [tree]],
            printedRest as joint ++ rest)) :=
        .seq (.token rfl) hfirst
      have hmany := (hitem.mono (k := 100 * ((printed a true).length +
        (printedRest as joint).length) + 25) (by omega)).many_goes_on (hrest.mono (by omega))
      exact ⟨_, left, hastray, hmany.mono (by omega)⟩

theorem Astray.closes_not (h : Astray left) : ∃ x after,
    Runs body 3 (opt comma) left (some (x, after)) ∧ Runs body 3 (char '>' false) after none := by
  rcases h with h | ⟨name, after, rfl⟩
  · exact ⟨[], left, .of_passes (by rw [h]; rfl), .of_fails (by rw [h]; rfl)⟩
  · exact ⟨_, _, .alt (.token rfl), .of_fails rfl⟩

/-- A list of arguments that mentions the word ends before its bracket. -/
theorem sticks_list (joint : Bool) (rest : List Token)
    (hargs : ∀ b ∈ a :: as, Reduced b ∧ ("try" ∉ b.names → Reads b) ∧
      ("try" ∈ b.names → Sticks b)) (htry : "try" ∈ TypeRef.namesAll (a :: as)) : ∃ x left,
    Runs body (100 * ((printed a true).length + (printedRest as joint).length) + 40)
      (listOf argument comma) (printed a true ++ (printedRest as joint ++ rest))
      (some (x, left)) ∧ Runs body 3 (char '>' false) left none := by
  obtain ⟨hreduced, hreads, hsticks⟩ := hargs a List.mem_cons_self
  have hhead : (printedRest as joint ++ rest).head? ∈ ends := head_printedRest
  by_cases ha : "try" ∈ a.names
  · obtain ⟨result, hruns, hstuck⟩ := (hsticks ha).argument true hreduced ha hhead
    rcases hstuck with ⟨rfl, name, after, he⟩ | ⟨x, left, rfl, hleft⟩
    · have hlist : Runs body (100 * (printed a true).length + 26) (listOf argument comma)
          (printed a true ++ (printedRest as joint ++ rest))
          (some ([], printed a true ++ (printedRest as joint ++ rest))) :=
        .alt_second hruns.seq_fails .done
      refine ⟨[], _, hlist.mono (by omega), ?_⟩
      rw [he]
      exact .of_fails rfl
    · obtain ⟨y, after, hcomma, hclose⟩ := Astray.closes_not (.inl hleft)
      have hlist : Runs body (100 * (printed a true).length + 40) (listOf argument comma)
          (printed a true ++ (printedRest as joint ++ rest)) (some (x ++ ([] ++ y), after)) :=
        .alt (.seq (hruns.mono (by omega)) (.seq ((many_stops_at_less hleft).mono (by omega))
          (hcomma.mono (by omega))))
      exact ⟨_, after, hlist.mono (by omega), hclose⟩
  · obtain ⟨tree, htree, hfirst⟩ := (hreads ha).argument true hreduced hhead
    have hmore : "try" ∈ TypeRef.namesAll as := (List.mem_append.1 htry).resolve_left ha
    obtain ⟨trees, left, hastray, hmany⟩ :=
      sticks_rest joint rest (fun b hb => hargs b (List.mem_cons_of_mem _ hb)) hmore
    obtain ⟨y, after, hcomma, hclose⟩ := hastray.closes_not
    have hlist : Runs body (100 * ((printed a true).length + (printedRest as joint).length) + 40)
        (listOf argument comma) (printed a true ++ (printedRest as joint ++ rest))
        (some ([.node .typeArgument [tree]] ++ (trees ++ y), after)) :=
      .alt (.seq (hfirst.mono (by omega)) (.seq (hmany.mono (by omega)) (hcomma.mono (by omega))))
    exact ⟨_, after, hlist, hclose⟩

theorem head_less (ts : List Token) : (Token.punct '<' false :: ts).head? ∈ stops :=
  List.mem_cons_self

/-- A name with arguments that are read is read to the bracket of the arguments. -/
theorem reads_named (h : isIdentifier name = true ∨ name = "Self") (hne : name ≠ "try")
    (hargs : ∀ b ∈ a :: as, Reduced b ∧ Reads b) : Reads ⟨name, a :: as⟩ := by
  intro joint rest hrest
  obtain ⟨hreduced, hreads⟩ := hargs a List.mem_cons_self
  obtain ⟨tree, htree, hfirst⟩ := hreads.argument true hreduced head_printedRest
  obtain ⟨trees, htrees, hmore⟩ := reads_rest joint rest
    fun b hb => hargs b (List.mem_cons_of_mem _ hb)
  have hsegment := runs_segment h (runs_arguments (n := 100 * ((printed a true).length +
    (printedRest as joint).length) + 24) (hfirst.mono (by omega)) (hmore.mono (by omega)))
  have htype := runs_type_of_segment (.inr h) hne (head_less _) (mem_stops_of_mem_ends hrest)
    hsegment
  have hread := argumentTypes?_argument htree htrees
  rw [length_printed, printed, List.cons_append, List.cons_append, List.append_assoc]
  refine ⟨_, ?_, htype.mono (by omega)⟩
  rw [List.singleton_append, List.cons_append]
  simp only [pathTree, typeOf?, lastType?, argumentTypes?_leaf, hread, Option.map_some]

/-- If an argument mentions the word, the list of arguments ends before its bracket: the name alone
is read and the list is left. -/
theorem sticks_named (h : isIdentifier name = true ∨ name = "Self") (hne : name ≠ "try")
    (hargs : ∀ b ∈ a :: as, Reduced b ∧ ("try" ∉ b.names → Reads b) ∧
      ("try" ∈ b.names → Sticks b)) (htry : "try" ∈ TypeRef.namesAll (a :: as)) :
    Sticks ⟨name, a :: as⟩ := by
  intro joint rest hrest
  obtain ⟨x, left, hlist, hclose⟩ := sticks_list joint rest hargs htry
  have hsegment := runs_segment h (runs_arguments_fails hlist (hclose.mono (by omega)))
  have htype := runs_type_of_segment (.inr h) hne (head_less _) (head_less _) hsegment
  rw [length_printed, printed, List.cons_append, List.cons_append, List.append_assoc]
  exact ⟨_, htype.mono (by omega), .inr ⟨_, _, rfl, rfl⟩⟩

/-- A printed type is read as itself exactly when it does not mention the word `try`. -/
theorem reads_or_sticks (h : Reduced t) :
    ("try" ∉ t.names → Reads t) ∧ ("try" ∈ t.names → Sticks t) := by
  induction h with
  | void =>
    refine ⟨fun _ joint rest hrest => ⟨voidTree, rfl, runs_void.mono ?_⟩, fun htry => ?_⟩
    · exact (by decide : 12 ≤ 200)
    · exact absurd htry (by decide)
  | @word name h =>
    have hident := isIdent_of_mem_pathWords h
    refine ⟨fun htry joint rest hrest => ?_, fun htry joint rest hrest => ?_⟩
    · have hne : name ≠ "try" := fun he => htry (he ▸ List.mem_cons_self)
      rw [printed_name hident]
      exact ⟨_, rfl, (runs_type_of_name (.inl h) hne hrest).mono (by decide : 60 ≤ 100)⟩
    · cases List.mem_singleton.1 htry
      rw [printed_name hident]
      exact ⟨none, runs_try_fails.mono (by decide), .inl ⟨rfl, _, rest, rfl⟩⟩
  | @named name args hname h hargs ih =>
    have hne : name ≠ "try" := by
      rintro rfl
      exact absurd h (by decide)
    cases args with
    | nil =>
      refine ⟨fun _ joint rest hrest => ?_, fun htry => ?_⟩
      · rw [printed_name hname]
        exact ⟨_, rfl, (runs_type_of_name (.inr h) hne hrest).mono (by decide : 60 ≤ 100)⟩
      · exact (hne (List.mem_singleton.1 htry).symm).elim
    | cons a as =>
      refine ⟨fun htry => ?_, fun htry => ?_⟩
      · have hfree (b : TypeRef) (hb : b ∈ a :: as) : "try" ∉ b.names := fun hmem =>
          htry (List.mem_cons_of_mem _ (TypeRef.mem_namesAll.2 ⟨b, hb, hmem⟩))
        exact reads_named h hne fun b hb => ⟨hargs b hb, (ih b hb).1 (hfree b hb)⟩
      · have hall : "try" ∈ TypeRef.namesAll (a :: as) :=
          (List.mem_cons.1 htry).resolve_left hne.symm
        exact sticks_named h hne (fun b hb => ⟨hargs b hb, ih b hb⟩) hall

end Reading

end Source

namespace TypeRef

open Source Source.Peg Source.Rule

variable {text : String} {t : TypeRef}

theorem parse_eq_ok : parse text = .ok t ↔ ∃ tokens tree,
    tokens? (Text.trimChars text.toList) = some tokens ∧
    Rule.parse? (.type true) tokens = some [tree] ∧ typeOf? tree = some t := by
  unfold parse
  constructor
  · intro h
    split at h
    · rename_i tree hparse
      obtain ⟨tokens, htokens, hparse⟩ := Option.bind_eq_some_iff.1 hparse
      split at h
      · rename_i t' htree
        cases h
        exact ⟨tokens, tree, htokens, hparse, htree⟩
      · cases h
    · cases h
  · rintro ⟨tokens, tree, htokens, hparse, htree⟩
    simp only [htokens, Option.bind_some, hparse, htree]

/-- What a text is read as is reduced. -/
theorem reduced_of_parse (h : parse text = .ok t) : Reduced t := by
  obtain ⟨tokens, tree, htokens, hparse, htree⟩ := parse_eq_ok.1 h
  unfold Rule.parse? Peg.parse? at hparse
  split at hparse
  · rename_i hrun
    cases hparse
    exact reduced_of_run (written_tokensFrom htokens) hrun htree
  · cases hparse

theorem parse_text_of_reduced (h : Reduced t) :
    parse t.text = if "try" ∈ t.names then .error .malformed else .ok t := by
  have hends : ([] : List Token).head? ∈ ends := List.mem_cons_self
  have hfuel : 100 * (printed t false).length ≤ fuelFor (printed t false).length := by
    unfold fuelFor
    omega
  split
  · rename_i htry
    obtain ⟨result, hruns, hstuck⟩ := (reads_or_sticks h).2 htry false [] hends
    rw [List.append_nil] at hruns
    have hparse : Rule.parse? (.type true) (printed t false) = none := by
      have hrun := hruns _ hfuel
      rw [anyType] at hrun
      rw [Rule.parse?, Peg.parse?, hrun]
      rcases hstuck with ⟨rfl, _⟩ | ⟨x, left, rfl, hleft⟩
      · rfl
      · cases left with
        | nil => cases hleft
        | cons => rfl
    rw [parse, tokens?_text h, Option.bind_some, hparse]
  · rename_i htry
    obtain ⟨tree, htree, hruns⟩ := (reads_or_sticks h).1 htry false [] hends
    rw [List.append_nil] at hruns
    have hparse : Rule.parse? (.type true) (printed t false) = some [tree] := by
      have hrun := hruns _ hfuel
      rw [anyType] at hrun
      rw [Rule.parse?, Peg.parse?, hrun]
    exact parse_eq_ok.2 ⟨_, tree, tokens?_text h, hparse, htree⟩

/-- What a type prints is read as the same type again, unless the word `try` is among its names: as
the last part of a path it is accepted, but no path begins with it. -/
theorem parse_text (h : parse text = .ok t) :
    parse t.text = if "try" ∈ t.names then .error .malformed else .ok t :=
  parse_text_of_reduced (reduced_of_parse h)

theorem parse_text_map :
    parse "std::collections::HashMap<&'a r#try, [Option<()>]>" =
        .ok ⟨"HashMap", [⟨"r#try", []⟩, ⟨"Vec", [⟨"Option", [.void]⟩]⟩]⟩ ∧
      parse "HashMap<r#try, Vec<Option<()>>>" =
        .ok ⟨"HashMap", [⟨"r#try", []⟩, ⟨"Vec", [⟨"Option", [.void]⟩]⟩]⟩ :=
  have h : parse "std::collections::HashMap<&'a r#try, [Option<()>]>" =
      .ok ⟨"HashMap", [⟨"r#try", []⟩, ⟨"Vec", [⟨"Option", [.void]⟩]⟩]⟩ := rfl
  ⟨h, parse_text h⟩

theorem parse_text_try : ∃ t, parse "a::try" = .ok t ∧ parse t.text ≠ .ok t :=
  ⟨⟨"try", []⟩, rfl, nofun⟩

end TypeRef

end Apidoc
