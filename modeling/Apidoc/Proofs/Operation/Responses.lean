import Apidoc.Proofs.Document.Mentions
import Apidoc.Proofs.Operation.Build
import Apidoc.Proofs.Operation.Defines

namespace Apidoc

variable {m : Models} {s : ResourceSet} {t : TypeRef} {ts us : List TypeRef}
  {responses : Table Response} {method : Method}

def ResponseInfo.bodyTypes (r : ResponseInfo) : List TypeRef :=
  (r.type.filter (!·.isVoid)).toList

/-- The bodies of responses mention only what some types reach. -/
def ResponsesFrom (m : Models) (ts : List TypeRef) (responses : Table Response) : Prop :=
  ∀ e ∈ responses.entries, ∀ name, e.2.BodyMentions name → m.ReachedFrom ts name

/-- The models that a classification notes at once. -/
def Classification.noted : Classification → Table Schema
  | .models own => own
  | _ => {}

def Classification.response? (container : Option Container) (headers : Option (Table Schema)) :
    Classification → Option Response
  | .ignored => none
  | .scalar schema => some (successful headers (some (Container.wrapIn container schema)))
  | .inline schema => some (successful headers schema)
  | .models own => own.keys.getLast?.map fun name =>
      successful headers (some (Container.wrapIn container (.ofModel name)))

theorem primaryResponse_eq {container : Option Container} {headers : Option (Table Schema)} :
    primaryResponse m s t container headers = (Build.lift (classify m s t)).bind fun c =>
      (Build.models c.noted).bind fun _ => pure (c.response? container headers) := by
  unfold primaryResponse
  rw [Logged.bind_eq]
  congr 1
  funext c
  cases c <;> rfl

theorem classify_ignored (h : isIgnored s t = true) : classify m s t = .ok .ignored := by
  simp [classify, h]
  rfl

theorem classify_eq_ok {c : Classification} (h : isIgnored s t = false)
    (hc : classify m s t = .ok c) :
    (∃ schema, c = .scalar schema ∧ m.property t = .ok (some schema)) ∨
      (∃ schema, c = .inline schema ∧ m.property t = .ok schema) ∨
      ∃ own, c = .models own ∧ m.own t = .ok own := by
  rw [classify, h, if_neg Bool.false_ne_true] at hc
  obtain ⟨property, hp, hc⟩ := Except.bind_eq_ok.1 hc
  cases hs : property.filter (·.isScalarLike) with
  | some schema =>
    rw [hs] at hc
    cases hc
    exact .inl ⟨schema, rfl, (Option.filter_eq_some_iff.1 hs).1 ▸ hp⟩
  | none =>
    rw [hs] at hc
    obtain ⟨own, ho, hc⟩ := Except.bind_eq_ok.1 hc
    cases hc
    split
    · exact .inr (.inl ⟨property, rfl, hp⟩)
    · exact .inr (.inr ⟨own, rfl, ho⟩)

theorem responsesFrom_empty : ResponsesFrom m ts {} := by
  intro e he
  cases he

theorem classify_noted {c : Classification} (h : isIgnored s t = false)
    (hc : classify m s t = .ok c) :
    ∀ e ∈ c.noted.entries, ∃ table, m.reachable t = .ok table ∧ e ∈ table.entries := by
  rcases classify_eq_ok h hc with ⟨schema, rfl, _⟩ | ⟨schema, rfl, _⟩ | ⟨own, rfl, ho⟩
  · exact nofun
  · exact nofun
  · exact own_sub_reachable ho

theorem classify_response? {c : Classification} {container : Option Container}
    {headers : Option (Table Schema)} (h : isIgnored s t = false) (hc : classify m s t = .ok c) :
    ∀ r, c.response? container headers = some r → SchemaFrom m [t] r.schema := by
  intro r hr
  rcases classify_eq_ok h hc with ⟨schema, rfl, hp⟩ | ⟨schema, rfl, hp⟩ | ⟨own, rfl, ho⟩
  · cases hr
    exact (schemaFrom_property hp).wrapIn container
  · cases hr
    exact schemaFrom_property hp
  · obtain ⟨name, hn, rfl⟩ := Option.map_eq_some_iff.1 hr
    exact (schemaFrom_ofModel ho hn).wrapIn container

/-- The primary response mentions what the type reaches, and all of that is defined with it. -/
theorem primaryResponses_defines {headers : Option (Table Schema)} :
    let ts := if isIgnored s method.primaryType then [] else [method.primaryType]
    Defines m ts (primaryResponses m s method headers) (ResponsesFrom m ts) := by
  intro ts
  simp only [primaryResponses, primaryResponse_eq, Logged.bind_eq, Logged.bind_assoc,
    Logged.pure_bind]
  cases hi : isIgnored s method.primaryType with
  | true =>
    have hts : ts = [] := by simp [ts, hi]
    rw [hts, classify_ignored hi, bodyModels, if_pos hi]
    exact .pure responsesFrom_empty
  | false =>
    have hts : ts = [method.primaryType] := by simp [ts, hi]
    rw [hts, bodyModels, hi, if_neg Bool.false_ne_true]
    refine Defines.bind_none (R := fun c => classify m s method.primaryType = .ok c)
      (.lift fun _ h => h) fun c _ hc => ?_
    refine defines_own_then (classify_noted hi hc) (.pure ?_)
    intro e he name hn
    cases hr : c.response? (responseContainer method.operation?) headers with
    | none =>
      rw [hr] at he
      cases he
    | some r =>
      rw [hr] at he
      rcases Table.mem_entries_put he with rfl | he
      · obtain ⟨schema, hs, hn⟩ := hn
        exact classify_response? hi hc r hr schema hs name hn
      · cases he

theorem ResponsesFrom.put {key : String} {r : Response} (h : ResponsesFrom m ts responses)
    (hr : SchemaFrom m ts r.schema) : ResponsesFrom m ts (responses.put key r) := by
  intro e he name hn
  rcases Table.mem_entries_put he with rfl | he
  · obtain ⟨schema, hs, hn⟩ := hn
    exact hr schema hs name hn
  · exact h e he name hn

theorem ResponsesFrom.mono (h : ResponsesFrom m ts responses) (hs : ∀ t ∈ ts, t ∈ us) :
    ResponsesFrom m us responses :=
  fun e he name hn => (h e he name hn).mono hs

theorem ResponsesFrom.get? {key : String} (h : ResponsesFrom m ts responses) :
    SchemaFrom m ts ((responses.get? key).bind (·.schema)) := by
  intro schema hs name hn
  obtain ⟨r, hr, hs⟩ := Option.bind_eq_some_iff.1 hs
  exact h _ (Table.mem_entries_of_get? hr) name ⟨schema, hs, hn⟩

theorem ResponsesFrom.orDefault {headers : Option (Table Schema)}
    (h : ResponsesFrom m ts responses) :
    ResponsesFrom m ts
      (if responses.isEmpty then responses.put "default" (successful headers none)
        else responses) := by
  split
  · exact h.put nofun
  · exact h

theorem addResponse_defines {r : ResponseInfo} (h : ResponsesFrom m ts responses) :
    Defines m r.bodyTypes (addResponse m responses r)
      (ResponsesFrom m (ts ++ r.bodyTypes)) := by
  have hbefore : ResponsesFrom m (ts ++ r.bodyTypes) responses :=
    h.mono fun t ht => List.mem_append_left _ ht
  unfold addResponse
  simp only [Logged.bind_eq]
  refine Defines.bind_none (R := fun _ => True) (.lift fun _ _ => trivial) fun headers _ _ => ?_
  cases ht : r.type.filter (!·.isVoid) with
  | none =>
    have hts : r.bodyTypes = [] := by rw [ResponseInfo.bodyTypes, ht]; rfl
    rw [hts] at hbefore ⊢
    exact .pure (hbefore.put hbefore.get?)
  | some t =>
    have hts : r.bodyTypes = [t] := by rw [ResponseInfo.bodyTypes, ht]; rfl
    rw [hts] at hbefore ⊢
    have hlast {schema : Option Schema} (hs : SchemaFrom m [t] schema) :
        SchemaFrom m (ts ++ [t]) schema := hs.mono fun _ => List.mem_append_right _
    refine Defines.bind_none (R := fun own => m.own t = .ok own) (.lift fun _ h => h)
      fun own _ ho => ?_
    refine defines_own_then (own_sub_reachable ho) ?_
    cases hn : own.keys.getLast? with
    | some name =>
      exact .pure (hbefore.put (hlast ((schemaFrom_ofModel ho hn).wrapIn _)))
    | none =>
      refine Defines.bind_none (R := fun s => m.property t = .ok s) (.lift fun _ h => h)
        fun property _ hp => ?_
      exact .pure (hbefore.put (hlast ((schemaFrom_property hp).wrapIn _)))

theorem addResponses_defines {rs : List ResponseInfo} (h : ResponsesFrom m ts responses) :
    Defines m (rs.flatMap (·.bodyTypes)) (addResponses m responses rs)
      (ResponsesFrom m (ts ++ rs.flatMap (·.bodyTypes))) := by
  induction rs generalizing ts responses with
  | nil => exact .pure (by simpa using h)
  | cons r rs ih =>
    rw [List.flatMap_cons, ← List.append_assoc]
    exact (addResponse_defines h).bind fun responses _ h => ih h

end Apidoc
