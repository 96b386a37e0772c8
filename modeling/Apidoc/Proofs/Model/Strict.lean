import Apidoc.Proofs.Model.Collected
import Apidoc.Proofs.Model.Described

namespace Apidoc

/-- Peeling off optional layers and containers, one after the other, until there is none left. Of a
container the last argument remains. -/
inductive TypeRef.PeelsTo : TypeRef → TypeRef → Prop
  | optional {t leaf : TypeRef} (h : PeelsTo t leaf) : PeelsTo t.optional leaf
  | element {t e leaf : TypeRef} {kind : Container} (hc : Container.ofTypeName? t.name = some kind)
    (he : t.args.getLast? = some e) (h : PeelsTo e leaf) : PeelsTo t leaf
  | leaf {t : TypeRef} (hoption : ∀ inner, t ≠ TypeRef.optional inner)
    (hcontainer : Container.ofTypeName? t.name = none ∨ t.args = []) : PeelsTo t t

namespace Models

/-- Describing a type inline, strictly or not. Without strictness a name that stands for nothing is
some object. -/
def inlineAs (m : Models) (strict : Bool) (t : TypeRef) : Except Error (Option Schema) :=
  if t.unwrapped.isVoid then .ok none
  else match hc : t.container? with
    | some (kind, e) =>
      have : e.core.1.length < t.core.1.length := by
        rw [TypeRef.core_of_container hc]
        exact Nat.lt_succ_self _
      (m.inlineAs strict e).map (Option.map kind.wrap)
    | none => match m.resolve? t.unwrapped.name with
      | some (.primitive p) => .ok (some p.schema)
      | some (.model d) => .ok (some (.ofModel d.name))
      | none => if strict then .error (.unresolved t.unwrapped) else .ok (some .object)
termination_by t.core.1.length

mutual

/-- Collecting from one type, strictly or not, on top of what was found before. -/
inductive Gathers (m : Models) : Bool → TypeRef → Table Schema → Except Error (Table Schema) → Prop
  | void {strict : Bool} {t : TypeRef} {found : Table Schema} (hv : t.unwrapped.isVoid = true) :
    Gathers m strict t found (.ok found)
  | element {strict : Bool} {t e : TypeRef} {kind : Container} {found : Table Schema}
    {answer : Except Error (Table Schema)} (hv : t.unwrapped.isVoid = false)
    (hc : t.container? = some (kind, e)) (h : Gathers m strict e found answer) :
    Gathers m strict t found answer
  | unresolved {t : TypeRef} {found : Table Schema} (hv : t.unwrapped.isVoid = false)
    (hc : t.container? = none) (hn : m.resolve? t.unwrapped.name = none) :
    Gathers m true t found (.error (.unresolved t.unwrapped))
  | unknown {t : TypeRef} {found : Table Schema} {answer : Except Error (Table Schema)}
    (hv : t.unwrapped.isVoid = false) (hc : t.container? = none)
    (hn : m.resolve? t.unwrapped.name = none) (ha : GathersAll m t.unwrapped.args found answer) :
    Gathers m false t found answer
  | primitive {strict : Bool} {t : TypeRef} {p : Primitive} {found : Table Schema}
    {answer : Except Error (Table Schema)} (hv : t.unwrapped.isVoid = false)
    (hc : t.container? = none) (hp : m.resolve? t.unwrapped.name = some (.primitive p))
    (ha : GathersAll m t.unwrapped.args found answer) : Gathers m strict t found answer
  | known {strict : Bool} {t : TypeRef} {d : Definition} {found : Table Schema}
    {answer : Except Error (Table Schema)} (hv : t.unwrapped.isVoid = false)
    (hc : t.container? = none) (hd : m.resolve? t.unwrapped.name = some (.model d))
    (hknown : found.contains d.name = true) (ha : GathersAll m t.unwrapped.args found answer) :
    Gathers m strict t found answer
  | stopped {strict : Bool} {t : TypeRef} {d : Definition} {found : Table Schema} {e : Error}
    (hv : t.unwrapped.isVoid = false) (hc : t.container? = none)
    (hd : m.resolve? t.unwrapped.name = some (.model d)) (hnew : found.contains d.name = false)
    (hf : GathersAll m d.fieldTypes (found.putNew d.name (m.schemaOf d)) (.error e)) :
    Gathers m strict t found (.error e)
  | new {strict : Bool} {t : TypeRef} {d : Definition} {found inner : Table Schema}
    {answer : Except Error (Table Schema)} (hv : t.unwrapped.isVoid = false)
    (hc : t.container? = none) (hd : m.resolve? t.unwrapped.name = some (.model d))
    (hnew : found.contains d.name = false)
    (hf : GathersAll m d.fieldTypes (found.putNew d.name (m.schemaOf d)) (.ok inner))
    (ha : GathersAll m t.unwrapped.args inner answer) : Gathers m strict t found answer

/-- Collecting from the types of fields or from arguments, never strictly, up to the first one that
fails. -/
inductive GathersAll (m : Models) :
    List TypeRef → Table Schema → Except Error (Table Schema) → Prop
  | done {found : Table Schema} : GathersAll m [] found (.ok found)
  | failed {t : TypeRef} {rest : List TypeRef} {found : Table Schema} {e : Error}
    (h : Gathers m false t found (.error e)) : GathersAll m (t :: rest) found (.error e)
  | next {t : TypeRef} {rest : List TypeRef} {found middle : Table Schema}
    {answer : Except Error (Table Schema)} (h : Gathers m false t found (.ok middle))
    (hrest : GathersAll m rest middle answer) : GathersAll m (t :: rest) found answer

end

end Models

namespace TypeRef

variable {t u e leaf : TypeRef} {kind : Container}

theorem unwrapped_of_ne_optional (h : ∀ inner, t ≠ TypeRef.optional inner) : t.unwrapped = t := by
  unfold unwrapped
  split
  · rename_i name inner
    exact if_neg fun hname => h inner (by rw [hname]; rfl)
  · rfl

theorem ne_optional_of_ofTypeName? (h : Container.ofTypeName? t.name = some kind)
    (inner : TypeRef) : t ≠ inner.optional := by
  rintro rfl
  cases h

theorem container?_eq_some_iff : t.container? = some (kind, e) ↔
    Container.ofTypeName? t.unwrapped.name = some kind ∧ t.unwrapped.args.getLast? = some e := by
  rw [container?]
  cases Container.ofTypeName? t.unwrapped.name <;> cases t.unwrapped.args.getLast? <;> simp

theorem container?_eq_none_iff : t.container? = none ↔
    Container.ofTypeName? t.unwrapped.name = none ∨ t.unwrapped.args = [] := by
  rw [container?, ← List.getLast?_eq_none_iff]
  cases Container.ofTypeName? t.unwrapped.name <;> cases t.unwrapped.args.getLast? <;> simp

theorem unwrapped_ne_optional (t inner : TypeRef) : t.unwrapped ≠ inner.optional := by
  induction t using unwrapped.induct with
  | case1 next ih => rwa [unwrapped, if_pos rfl]
  | case2 name next hn =>
    rw [unwrapped, if_neg hn]
    intro heq
    exact hn (congrArg TypeRef.name heq)
  | case3 t hne =>
    rw [unwrapped_self hne]
    rintro rfl
    exact hne _ _ rfl

theorem PeelsTo.eq_leaf (h : t.PeelsTo leaf) : leaf = t.leaf := by
  induction h with
  | optional _ ih => rw [ih, leaf_optional]
  | @element t _ _ _ hc he _ ih =>
    have hself : t.unwrapped = t := unwrapped_of_ne_optional (ne_optional_of_ofTypeName? hc)
    rw [← hself] at hc he
    rw [ih, leaf_of_container (container?_eq_some_iff.2 ⟨hc, he⟩)]
  | @leaf t hoption hno =>
    have hself : t.unwrapped = t := unwrapped_of_ne_optional hoption
    rw [← hself] at hno
    rw [leaf_of_no_container (container?_eq_none_iff.2 hno), hself]

theorem peelsTo_of_unwrapped (h : t.unwrapped.PeelsTo leaf) : t.PeelsTo leaf := by
  induction t using unwrapped.induct with
  | case1 inner ih =>
    rw [unwrapped, if_pos rfl] at h
    exact .optional (ih h)
  | case2 name inner hn =>
    rwa [unwrapped, if_neg hn] at h
  | case3 t hne => rwa [unwrapped_self hne] at h

/-- Every type has exactly one type that it peels to. -/
theorem peelsTo_iff : t.PeelsTo u ↔ u = t.leaf := by
  refine ⟨PeelsTo.eq_leaf, ?_⟩
  rintro rfl
  induction t using container_induction with
  | base t hc =>
    rw [leaf_of_no_container hc]
    exact peelsTo_of_unwrapped (.leaf (unwrapped_ne_optional t) (container?_eq_none_iff.1 hc))
  | element t kind e hc ih =>
    obtain ⟨hname, he⟩ := container?_eq_some_iff.1 hc
    rw [leaf_of_container hc]
    exact peelsTo_of_unwrapped (.element hname he ih)

end TypeRef

namespace Models

variable {m : Models} {t e : TypeRef} {kind : Container} {strict : Bool} {ts : List TypeRef}
  {found result : Table Schema} {answer : Except Error (Table Schema)}

section Inline

theorem inlineAs_container (h : t.container? = some (kind, e)) :
    m.inlineAs strict t = (m.inlineAs strict e).map (Option.map kind.wrap) := by
  rw [inlineAs, TypeRef.isVoid_of_container h, if_neg Bool.false_ne_true]
  split
  · rename_i kind' e' h'
    rw [h] at h'
    cases h'
    rfl
  · rename_i h'
    rw [h] at h'
    cases h'

theorem inlineAs_no_container (h : t.container? = none) :
    m.inlineAs strict t = if t.unwrapped.isVoid then .ok none
      else match m.resolve? t.unwrapped.name with
        | some (.primitive p) => .ok (some p.schema)
        | some (.model d) => .ok (some (.ofModel d.name))
        | none => if strict then .error (.unresolved t.unwrapped) else .ok (some .object) := by
  rw [inlineAs]
  split
  · rfl
  · split
    · rename_i h'
      rw [h] at h'
      cases h'
    · rfl

theorem inlineAs_strict : m.inlineAs true t = m.property t := by
  induction t using TypeRef.container_induction with
  | base t hc =>
    rcases hr : m.resolve? t.unwrapped.name with _ | (p | d) <;>
      simp [inlineAs_no_container hc, property_no_container hc, hr]
  | element t kind e hc ih => rw [inlineAs_container hc, property_container hc, ih]

theorem inlineAs_lenient : m.inlineAs false t = .ok (if t.leaf.isVoid then none
    else some (wrapAll t.core.1 ((m.named? t.leaf.name).getD .object))) := by
  induction t using TypeRef.container_induction with
  | base t hc =>
    rw [inlineAs_no_container hc, TypeRef.leaf_of_no_container hc, TypeRef.core_of_no_container hc,
      named?]
    split
    · rfl
    · cases m.resolve? t.unwrapped.name with
      | none => rfl
      | some resolved => cases resolved <;> rfl
  | element t kind e hc ih =>
    rw [inlineAs_container hc, ih, TypeRef.leaf_of_container hc, TypeRef.core_of_container hc]
    split <;> rfl

end Inline

section Gathers

/-- What collecting from one type gives. Only strictly, and only of the type itself, a name can be
missing. -/
def gathered (m : Models) (strict : Bool) (t : TypeRef) (found : Table Schema) :
    Except Error (Table Schema) :=
  if strict = false ∨ t.leaf.isVoid ∨ (m.resolve? t.leaf.name).isSome then .ok (m.reach [t] found)
  else .error (.unresolved t.leaf)

theorem gathered_true : m.gathered true t {} = m.reachable t := by
  simp [gathered, reachable]

theorem gathered_false : m.gathered false t found = .ok (m.reach [t] found) :=
  if_pos (.inl rfl)

mutual

theorem Gathers.eq_gathered : {strict : Bool} → {t : TypeRef} → {found : Table Schema} →
    {answer : Except Error (Table Schema)} → m.Gathers strict t found answer →
      answer = m.gathered strict t found
  | _, t, found, _, .void hv => by
    rw [← TypeRef.leaf_of_isVoid_unwrapped hv] at hv
    rw [gathered, if_pos (.inr (.inl hv)), reach_void hv, reach_nil]
  | _, t, found, _, .element _ hc h => by
    rw [h.eq_gathered, gathered, gathered, TypeRef.leaf_of_container hc,
      reach_congr (TypeRef.leaf_of_container hc)]
  | _, t, found, _, .unresolved hv hc hn => by
    rw [gathered, TypeRef.leaf_of_no_container hc, if_neg (by simp [hv, hn])]
  | _, t, found, _, .unknown hv hc hn ha => by
    have harguments := ha.eq_reach
    rw [← TypeRef.leaf_of_no_container hc] at hv hn harguments
    rw [harguments, gathered_false, reach_known hv (by simp [hn]), List.append_nil]
  | _, t, found, _, .primitive hv hc hp ha => by
    have harguments := ha.eq_reach
    rw [← TypeRef.leaf_of_no_container hc] at hv hp harguments
    rw [harguments, gathered, if_pos (.inr (.inr (by simp [hp]))),
      reach_known hv (by simp [hp]), List.append_nil]
  | _, t, found, _, .known hv hc hd hknown ha => by
    have harguments := ha.eq_reach
    rw [← TypeRef.leaf_of_no_container hc] at hv hd harguments
    rw [harguments, gathered, if_pos (.inr (.inr (by simp [hd]))),
      reach_known hv (by simp [hd, hknown]), List.append_nil]
  | _, t, found, _, .stopped _ _ _ _ hf => by cases hf.eq_reach
  | _, t, found, _, .new hv hc hd hnew hf ha => by
    have hfields := hf.eq_reach
    have harguments := ha.eq_reach
    rw [← TypeRef.leaf_of_no_container hc] at hv hd harguments
    cases hfields
    rw [harguments, gathered, if_pos (.inr (.inr (by simp [hd]))), reach_new hv hd hnew,
      List.append_nil, reach_append]

theorem GathersAll.eq_reach : {ts : List TypeRef} → {found : Table Schema} →
    {answer : Except Error (Table Schema)} → m.GathersAll ts found answer →
      answer = .ok (m.reach ts found)
  | _, _, _, .done => by rw [reach_nil]
  | _, _, _, .failed h => by
    have hhead := h.eq_gathered
    rw [gathered_false] at hhead
    cases hhead
  | t :: rest, found, _, .next h hrest => by
    have hhead := h.eq_gathered
    have htail := hrest.eq_reach
    rw [gathered_false] at hhead
    cases hhead
    rw [htail, ← reach_append, List.singleton_append]

end

theorem gathersAll_of_collects (h : m.Collects ts found result) :
    m.GathersAll ts found (.ok result) := by
  induction h with
  | done => exact .done
  | void hv _ ih => exact .next (.void hv) ih
  | element hv hc _ _ ihe ih =>
    cases ihe with
    | next he hdone =>
      cases hdone
      exact .next (.element hv hc he) ih
  | @known t _ _ _ _ hv hc hd _ _ iha ih =>
    refine .next ?_ ih
    cases hr : m.resolve? t.unwrapped.name with
    | none => exact .unknown hv hc hr iha
    | some resolved =>
      cases resolved with
      | primitive p => exact .primitive hv hc hr iha
      | model d => exact .known hv hc hr (hd d hr) iha
  | new hv hc hd hnew _ _ _ ihf iha ih => exact .next (.new hv hc hd hnew ihf iha) ih

theorem gathers_lenient (m : Models) (t : TypeRef) (found : Table Schema) :
    m.Gathers false t found (.ok (m.reach [t] found)) := by
  cases gathersAll_of_collects (collects_reach m [t] found) with
  | next h hdone =>
    cases hdone
    exact h

/-- Strictness makes no difference to a type that stands for something. -/
theorem Gathers.strictly (h : m.Gathers false t found answer)
    (hd : t.leaf.isVoid = true ∨ (m.resolve? t.leaf.name).isSome) :
    m.Gathers true t found answer := by
  induction t using TypeRef.container_induction with
  | base t hc =>
    rw [TypeRef.leaf_of_no_container hc] at hd
    cases h with
    | void hv => exact .void hv
    | element _ hc' _ =>
      rw [hc] at hc'
      cases hc'
    | unknown hv _ hn _ => simp [hv, hn] at hd
    | primitive hv _ hp ha => exact .primitive hv hc hp ha
    | known hv _ hm hknown ha => exact .known hv hc hm hknown ha
    | stopped hv _ hm hnew hf => exact .stopped hv hc hm hnew hf
    | new hv _ hm hnew hf ha => exact .new hv hc hm hnew hf ha
  | element t kind e hc ih =>
    rw [TypeRef.leaf_of_container hc] at hd
    have hv := TypeRef.isVoid_of_container hc
    cases h with
    | void hv' =>
      rw [hv] at hv'
      cases hv'
    | element _ hc' h =>
      rw [hc] at hc'
      cases hc'
      exact .element hv hc (ih h hd)
    | unknown _ hc' | primitive _ hc' | known _ hc' | stopped _ hc' | new _ hc' =>
      rw [hc] at hc'
      cases hc'

theorem gathers_unresolved (hv : t.leaf.isVoid = false) (hn : m.resolve? t.leaf.name = none) :
    m.Gathers true t found (.error (.unresolved t.leaf)) := by
  induction t using TypeRef.container_induction with
  | base t hc =>
    rw [TypeRef.leaf_of_no_container hc] at hv hn ⊢
    exact .unresolved hv hc hn
  | element t kind e hc ih =>
    rw [TypeRef.leaf_of_container hc] at hv hn ⊢
    exact .element (TypeRef.isVoid_of_container hc) hc (ih hv hn)

/-- Collecting ends with one answer, strictly or not. -/
theorem gathers_iff : m.Gathers strict t found answer ↔ answer = m.gathered strict t found := by
  refine ⟨Gathers.eq_gathered, ?_⟩
  rintro rfl
  have hlenient := gathers_lenient m t found
  rw [gathered]
  split
  · rename_i hd
    cases strict with
    | false => exact hlenient
    | true => exact hlenient.strictly (hd.resolve_left Bool.noConfusion)
  · rename_i hd
    obtain ⟨hstrict, hleaf⟩ := not_or.1 hd
    obtain ⟨hv, hn⟩ := not_or.1 hleaf
    rw [Bool.not_eq_false] at hstrict
    rw [hstrict]
    exact gathers_unresolved (by simpa using hv) (by simpa using hn)

end Gathers

section Agree

variable {error : Error}

theorem property_eq_error_iff : m.property t = .error error ↔
    error = .unresolved t.leaf ∧ t.leaf.isVoid = false ∧ m.resolve? t.leaf.name = none := by
  rw [property_eq]
  cases hv : t.leaf.isVoid with
  | true => simp
  | false =>
    rw [if_neg Bool.false_ne_true]
    cases hn : m.resolve? t.leaf.name with
    | none => simp [named?, hn, eq_comm]
    | some resolved => simp [named?, hn]

theorem reachable_eq_error_iff : m.reachable t = .error error ↔
    error = .unresolved t.leaf ∧ t.leaf.isVoid = false ∧ m.resolve? t.leaf.name = none := by
  rw [reachable]
  cases hv : t.leaf.isVoid with
  | true => simp
  | false =>
    cases hn : m.resolve? t.leaf.name with
    | none => simp [eq_comm]
    | some resolved => simp

theorem own_eq_error_iff (hc : t.container? = none) : m.own t = .error error ↔
    error = .unresolved t.leaf ∧ t.leaf.isVoid = false ∧ m.resolve? t.leaf.name = none := by
  rw [TypeRef.leaf_of_no_container hc]
  cases hv : t.unwrapped.isVoid with
  | true =>
    rw [own, if_pos (.inl hv)]
    simp
  | false =>
    rw [own_no_container hc hv]
    rcases m.resolve? t.unwrapped.name with _ | (p | d) <;> simp [eq_comm]

theorem resolve?_eq_none_iff {name : String} : m.resolve? name = none ↔
    Primitive.ofName? name = none ∧ m.definition? name = none := by
  rw [resolve?]
  cases Primitive.ofName? name <;> simp

theorem mem_reachable_of_mem_own {own all : Table Schema} {entry : String × Schema}
    (hown : m.own t = .ok own) (hall : m.reachable t = .ok all) (hmem : entry ∈ own.entries) :
    entry ∈ all.entries := by
  cases hc : t.container? with
  | some container =>
    rw [own_container hc] at hown
    cases hown
    cases hmem
  | none =>
    cases hv : t.unwrapped.isVoid with
    | true =>
      rw [Models.own, if_pos (.inl hv)] at hown
      cases hown
      cases hmem
    | false =>
      rw [own_no_container hc hv] at hown
      cases hr : m.resolve? t.unwrapped.name with
      | none =>
        rw [hr] at hown
        cases hown
      | some resolved =>
        rw [hr] at hown
        cases resolved with
        | primitive p =>
          cases hown
          cases hmem
        | model d =>
          cases hown
          rw [List.mem_singleton.1 hmem]
          rw [← TypeRef.leaf_of_no_container hc] at hv hr
          exact (mem_reachable_iff hall).2 ⟨d, .leaf hv hr, rfl⟩

theorem fieldSchema_of_inlineAs {schema : Option Schema} (h : m.inlineAs false t = .ok schema)
    (name : String) : m.fieldSchema ⟨name, some t⟩ = schema.getD .object := by
  rw [inlineAs_lenient] at h
  cases h
  show (if t.leaf.isVoid then _ else _) = _
  split <;> rfl

/-- What a type is described by and what is collected from it fail alike, on the name that it peels
to when that stands for nothing, and so does the model that it names itself unless it is a
container. What is found by the type itself is also collected. Behind it nothing fails: the types of
fields and arguments are described and collected without strictness. -/
theorem queries_agree (m : Models) (t : TypeRef) :
    (∃ leaf, (∀ u, t.PeelsTo u ↔ u = leaf) ∧ ∀ error, m.property t = .error error ↔
      error = .unresolved leaf ∧ leaf.isVoid = false ∧
        Primitive.ofName? leaf.name = none ∧ m.definition? leaf.name = none) ∧
    (∀ error, m.reachable t = .error error ↔ m.property t = .error error) ∧
    (t.container? = none → ∀ error, m.own t = .error error ↔ m.property t = .error error) ∧
    (∀ own all, m.own t = .ok own → m.reachable t = .ok all →
      ∀ entry ∈ own.entries, entry ∈ all.entries) ∧
    m.property t = m.inlineAs true t ∧
    (∀ answer, m.Gathers true t {} answer ↔ answer = m.reachable t) ∧
    ∀ u, (∃ schema, m.inlineAs false u = .ok schema ∧
        ∀ name, m.fieldSchema ⟨name, some u⟩ = schema.getD .object) ∧
      ∀ found, ∃ result, ∀ answer, m.Gathers false u found answer ↔ answer = .ok result := by
  refine ⟨⟨t.leaf, fun _ => TypeRef.peelsTo_iff, fun error => ?_⟩, fun error => ?_,
    fun hc error => ?_, fun _ _ hown hall _ => mem_reachable_of_mem_own hown hall,
    inlineAs_strict.symm, fun answer => ?_, fun u => ⟨?_, fun found => ?_⟩⟩
  · rw [property_eq_error_iff, resolve?_eq_none_iff]
  · rw [reachable_eq_error_iff, property_eq_error_iff]
  · rw [own_eq_error_iff hc, property_eq_error_iff]
  · rw [gathers_iff, gathered_true]
  · exact ⟨_, inlineAs_lenient, fieldSchema_of_inlineAs inlineAs_lenient⟩
  · refine ⟨m.reach [u] found, fun answer => ?_⟩
    rw [gathers_iff, gathered_false]

def memoType : TypeRef := TypeRef.optional ⟨"Memo", [litterType]⟩

/-- Pets know no memos, so nothing is found by a memo, whatever its argument stands for. -/
theorem memoType_unresolved :
    petModels.property memoType = .error (.unresolved ⟨"Memo", [litterType]⟩) ∧
      petModels.reachable memoType = .error (.unresolved ⟨"Memo", [litterType]⟩) ∧
      petModels.own memoType = .error (.unresolved ⟨"Memo", [litterType]⟩) := by
  obtain ⟨⟨leaf, hpeels, hproperty⟩, hreachable, hown, -⟩ := queries_agree petModels memoType
  have hmemo : ∀ inner, (⟨"Memo", [litterType]⟩ : TypeRef) ≠ TypeRef.optional inner :=
    fun _ h => absurd (congrArg TypeRef.name h) (show "Memo" ≠ "Option" by decide)
  have hleaf : ⟨"Memo", [litterType]⟩ = leaf :=
    (hpeels _).1 (.optional (.leaf hmemo (.inl (by decide))))
  subst hleaf
  have hfails := (hproperty (.unresolved ⟨"Memo", [litterType]⟩)).2
    ⟨rfl, by decide, by decide, by decide⟩
  exact ⟨hfails, (hreachable _).2 hfails, (hown (by decide) _).2 hfails⟩

end Agree

end Models

end Apidoc
