import Apidoc.Proofs.Model.Described
import Apidoc.Proofs.Operation.Responses
import Mathlib

namespace Apidoc

variable {m : Models} {s : ResourceSet} {t : TypeRef} {schema : Option Schema}
  {own : Table Schema} {hint : Option Container} {headers headers' : Option (Table Schema)}
  {responses : Table Response} {r : ResponseInfo}

def primarySchema (t : TypeRef) (hint : Option Container) (schema : Option Schema) :
    Option Schema :=
  if t.isMap then schema else schema.map (Container.wrapIn hint)

theorem isVoid_of_not_ignored (h : isIgnored s t = false) : t.unwrapped.isVoid = false := by
  rw [isIgnored, Bool.or_eq_false_iff, Bool.or_eq_false_iff] at h
  exact h.1.1

theorem classify_described (hi : isIgnored s t = false) (hp : m.property t = .ok schema)
    (ho : m.own t = .ok own) (hd : m.Described t schema own) :
    ∃ c, classify m s t = .ok c ∧ c.response? hint headers =
      some (successful headers (primarySchema t hint schema)) := by
  rw [classify, hi, if_neg Bool.false_ne_true, hp]
  simp only [bind, Except.bind]
  cases hd with
  | nothing =>
    refine ⟨.inline none, ?_, ?_⟩
    · rw [Option.filter_none, ho]
      rfl
    · simp [Classification.response?, primarySchema]
  | @scalar x hs hmap =>
    refine ⟨.scalar x, ?_, ?_⟩
    · rw [Option.filter_some_pos hs]
      rfl
    · simp [Classification.response?, primarySchema, hmap]
  | @map values hmap =>
    refine ⟨.inline (some (.mapOf values)), ?_, ?_⟩
    · rw [Option.filter_some_neg rfl, ho]
      rfl
    · simp [Classification.response?, primarySchema, hmap]
  | @model d hmap =>
    refine ⟨.models ⟨[(d.name, m.schemaOf d)]⟩, ?_, ?_⟩
    · rw [Option.filter_some_neg rfl, ho]
      rfl
    · simp [Classification.response?, primarySchema, hmap, Table.keys]

theorem primaryResponse_result (hi : isIgnored s t = false) (hp : m.property t = .ok schema) :
    (primaryResponse m s t hint headers).result =
      .ok (some (successful headers (primarySchema t hint schema))) := by
  obtain ⟨own, ho, hd⟩ := m.described_of_property (isVoid_of_not_ignored hi) hp
  obtain ⟨c, hc, hresponse⟩ : ∃ c, classify m s t = .ok c ∧ c.response? hint headers =
      some (successful headers (primarySchema t hint schema)) := classify_described hi hp ho hd
  rw [primaryResponse_eq, hc]
  exact congrArg Except.ok hresponse

theorem addResponse_result (hi : isIgnored s t = false) (hp : m.property t = .ok schema)
    (hh : responseHeaders m r.headers = .ok headers) (ht : r.type = some t) :
    (addResponse m responses r).result = .ok (responses.put (responseKey r.code) {
      description := r.message
      schema := schema.map (Container.wrapIn (Container.ofHint? r.container))
      headers }) := by
  have hv := isVoid_of_not_ignored hi
  have htype : r.type.filter (!·.isVoid) = some t := by
    rw [ht, Option.filter_some_pos]
    rw [TypeRef.isVoid_of_unwrapped hv]
    rfl
  obtain ⟨own, ho, hd⟩ := m.described_of_property hv hp
  unfold addResponse
  simp only [Logged.bind_eq, hh, htype, ho, Models.reachable_of_property hp, hp]
  cases hd with
  | nothing => rfl
  | scalar => rfl
  | map => rfl
  | model => rfl

theorem wrap_mapOf_ne (kind : Container) (values : Schema) :
    kind.wrap (.mapOf values) ≠ .mapOf values := by
  intro h
  cases kind with
  | list =>
    have htype := congrArg Schema.type h
    simp [Container.wrap, Schema.array, Schema.mapOf] at htype
  | set =>
    have htype := congrArg Schema.type h
    simp [Container.wrap, Schema.array, Schema.mapOf] at htype
  | map =>
    have hvalues : Schema.mapOf values = values :=
      Option.some.inj (congrArg Schema.additionalProperties h)
    have hsize := congrArg sizeOf hvalues
    simp only [Schema.mapOf, Schema.mk.sizeOf_spec, Option.some.sizeOf_spec] at hsize
    omega

theorem primarySchema_eq_iff (hp : m.property t = .ok schema) (hv : t.unwrapped.isVoid = false) :
    primarySchema t hint schema = schema.map (Container.wrapIn hint) ↔
      hint = none ∨ schema = none ∨ t.isMap = false := by
  obtain ⟨own, -, hd⟩ := m.described_of_property hv hp
  cases hd with
  | nothing => simp [primarySchema]
  | scalar hs hmap => simp [primarySchema, hmap]
  | @map values hmap =>
    cases hint with
    | none => simp [primarySchema, hmap, Container.wrapIn]
    | some kind =>
      simp [primarySchema, hmap, Container.wrapIn, (wrap_mapOf_ne kind values).symm]
  | model hmap => simp [primarySchema, hmap]

/-- Both responses of a type are built, the explicit one with the inline schema in the container of
the hint. They agree unless there is a hint and the type is a map that is described. -/
theorem primary_agrees_iff (hi : isIgnored s t = false) (hp : m.property t = .ok schema)
    (hh : responseHeaders m r.headers = .ok headers') (ht : r.type = some t)
    (hc : Container.ofHint? r.container = hint) :
    ∃ primary explicit,
      (primaryResponse m s t hint headers).result = .ok (some primary) ∧
      (addResponse m responses r).result =
        .ok (responses.put (responseKey r.code) explicit) ∧
      explicit.schema = schema.map (Container.wrapIn hint) ∧
      (primary.schema = explicit.schema ↔ hint = none ∨ schema = none ∨ t.isMap = false) := by
  subst hc
  exact ⟨_, _, primaryResponse_result hi hp, addResponse_result hi hp hh ht, rfl,
    primarySchema_eq_iff hp (isVoid_of_not_ignored hi)⟩

section Scores

def scoresType : TypeRef := ⟨"HashMap", [⟨"String", []⟩, ⟨"String", []⟩]⟩

def madeScores : ResponseInfo where
  code := 201
  message := "made"
  type := some scoresType
  container := "list"

/-- A method that documents the map that it returns twice, both times as a list of maps. -/
def scores : Method where
  name := "scores"
  returnType := scoresType
  declaration := { operation := some { container := "list" }, responses := some [madeScores] }

theorem scores_agree_iff : isIgnored {} scoresType = false ∧
    ∃ schema, ({} : Models).property scoresType = .ok schema ∧
      responseHeaders {} madeScores.headers = .ok none ∧ madeScores.type = some scoresType ∧
      Container.ofHint? madeScores.container = some .list ∧
      ∃ primary explicit,
        (primaryResponse {} {} scoresType (some .list) none).result = .ok (some primary) ∧
        (addResponse {} {} madeScores).result =
          .ok (({} : Table Response).put (responseKey madeScores.code) explicit) ∧
        explicit.schema = schema.map (Container.wrapIn (some .list)) ∧
        (primary.schema = explicit.schema ↔
          some Container.list = none ∨ schema = none ∨ scoresType.isMap = false) := by
  have hi : isIgnored {} scoresType = false := by cbv
  have hp : ({} : Models).property scoresType = .ok (some (.mapOf (.scalar "string" none))) := by
    cbv
  have hh : responseHeaders {} madeScores.headers = .ok none := by cbv
  have hc : Container.ofHint? madeScores.container = some .list := by cbv
  exact ⟨hi, _, hp, hh, rfl, hc, primary_agrees_iff hi hp hh rfl hc⟩

/-- The primary response is the map itself, the explicit one a list of maps. -/
theorem scores_documented_apart : isIgnored {} scoresType = false ∧
    scores.primaryType = scoresType ∧ madeScores.type = some scoresType ∧
    responseContainer scores.operation? = Container.ofHint? madeScores.container ∧
    ∃ o, (buildOperation {} {} scores).result = .ok (some o) ∧
      (o.responses.get? "200").bind (·.schema) ≠ (o.responses.get? "201").bind (·.schema) := by
  have hbuild : (buildOperation {} {} scores).result = .ok (some {
      operationId := "scores"
      responses := ⟨[
        ("200", successful none (some (.mapOf (.scalar "string" none)))),
        ("201", {
          description := "made"
          schema := some (.array (.mapOf (.scalar "string" none))) })]⟩ }) := by cbv
  refine ⟨by cbv, by cbv, rfl, by cbv, _, hbuild, fun h => ?_⟩
  have hschemas : Schema.mapOf (.scalar "string" none) = .array (.mapOf (.scalar "string" none)) :=
    Option.some.inj h
  exact wrap_mapOf_ne .list _ hschemas.symm

end Scores

end Apidoc
