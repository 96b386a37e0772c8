import Apidoc.Proofs.Distinct
import Apidoc.Proofs.Operation.Bodies
import Mathlib

namespace Apidoc

theorem responseKey_inj {c c' : UInt16} (h : responseKey c = responseKey c') : c = c' := by
  have hnumber (n : Nat) : "default" ≠ toString n := by
    intro hn
    have hread : "default".toNat? = some n := by
      rw [hn]
      exact Nat.toNat?_repr n
    have hnone : "default".toNat? = none := by cbv
    rw [hnone] at hread
    cases hread
  unfold responseKey at h
  split at h
  · split at h
    · rename_i h0 h0'
      rw [h0, h0']
    · exact (hnumber _ h).elim
  · split at h
    · exact (hnumber _ h.symm).elim
    · exact UInt16.toNat_inj.1 (Nat.repr_inj.1 h)

/-- The type of the body that an explicit response declares, unless it is the empty one. -/
def ResponseInfo.bodyType? (r : ResponseInfo) : Option TypeRef :=
  r.type.filter (!·.isVoid)

/-- The inline schema of the type of an explicit response, in the container of its hint. -/
def ResponseInfo.Describes (m : Models) (r : ResponseInfo) (t : TypeRef) (schema : Option Schema) :
    Prop :=
  ∃ inner, m.property t = .ok inner ∧
    schema = inner.map (Container.wrapIn (Container.ofHint? r.container))

variable {m : Models} {s : ResourceSet} {t : TypeRef} {r : ResponseInfo} {rs : List ResponseInfo}
  {responses responses' : Table Response} {own : Table Schema}

theorem property_of_own {name : String} (ho : m.own t = .ok own)
    (hn : own.keys.getLast? = some name) : m.property t = .ok (some (.ofModel name)) := by
  rcases Models.own_eq_ok ho with rfl | ⟨d, hv, hd, rfl⟩
  · cases hn
  · cases hn
    cases hc : t.container? with
    | some container =>
      rw [Models.own_container hc] at ho
      cases ho
    | none =>
      have hleaf := TypeRef.leaf_of_no_container hc
      rw [hleaf] at hv hd
      rw [Models.property_no_container hc, hv, hd]
      rfl

/-- The last explicit response of a code that declares a body, with the type of the body. -/
def lastDeclared? (code : UInt16) (rs : List ResponseInfo) : Option (ResponseInfo × TypeRef) :=
  rs.reverse.findSome? fun r => if r.code = code then r.bodyType?.map fun t => (r, t) else none

/-- The schema that stands at a code after explicit responses: that of the last one that declares a
body or, if there is none, the one that stood there before them. -/
def StandsAt (m : Models) (code : UInt16) (before : Option Schema) (rs : List ResponseInfo)
    (schema : Option Schema) : Prop :=
  match lastDeclared? code rs with
  | some (r, t) => r.Describes m t schema
  | none => schema = before

/-- What stands at the code of an explicit response when it has been added: its message and headers,
and the schema of its type, or the schema that stood there if it declares none. -/
def ResponseInfo.Adds (m : Models) (r : ResponseInfo) (before : Option Schema) (added : Response) :
    Prop :=
  added.description = r.message ∧ responseHeaders m r.headers = .ok added.headers ∧
    match r.bodyType? with
    | some t => r.Describes m t added.schema
    | none => added.schema = before

/-- The responses after the explicit ones `rs`, where `start` are those before them. Every code with
an explicit response holds the last one, added to what stood there after those before it. -/
structure Answered (m : Models) (start : Table Response) (rs : List ResponseInfo)
    (responses : Table Response) : Prop where
  keys : responses.keys = (rs.map fun r => responseKey r.code).foldl
    (fun kept key => if key ∈ kept then kept else kept ++ [key]) start.keys
  kept : ∀ key, (∀ r ∈ rs, responseKey r.code ≠ key) → responses.get? key = start.get? key
  stands : ∀ code, StandsAt m code ((start.get? (responseKey code)).bind (·.schema)) rs
    ((responses.get? (responseKey code)).bind (·.schema))
  last : ∀ before r after, rs = before ++ r :: after → (∀ r' ∈ after, r'.code ≠ r.code) →
    ∃ held added, responses.get? (responseKey r.code) = some added ∧ r.Adds m held added ∧
      StandsAt m r.code ((start.get? (responseKey r.code)).bind (·.schema)) before held

theorem addResponse_eq_ok (h : (addResponse m responses r).result = .ok responses') :
    ∃ added, r.Adds m ((responses.get? (responseKey r.code)).bind (·.schema)) added ∧
      responses' = responses.put (responseKey r.code) added := by
  obtain ⟨headers, hh, h⟩ := Logged.result_bind_eq_ok.1 h
  replace hh : responseHeaders m r.headers = .ok headers := hh
  unfold ResponseInfo.Adds ResponseInfo.bodyType?
  cases ht : r.type.filter (!·.isVoid) with
  | none =>
    rw [ht] at h
    cases h
    exact ⟨⟨r.message, _, headers⟩, ⟨rfl, hh, rfl⟩, rfl⟩
  | some t =>
    rw [ht] at h
    obtain ⟨own, ho, h⟩ := Logged.result_bind_eq_ok.1 h
    obtain ⟨_, _, h⟩ := Logged.result_bind_eq_ok.1 h
    obtain ⟨_, _, h⟩ := Logged.result_bind_eq_ok.1 h
    obtain ⟨_, _, h⟩ := Logged.result_bind_eq_ok.1 h
    cases hn : own.keys.getLast? with
    | some name =>
      rw [hn] at h
      cases h
      exact ⟨⟨r.message, _, headers⟩, ⟨rfl, hh, _, property_of_own ho hn, rfl⟩, rfl⟩
    | none =>
      rw [hn] at h
      obtain ⟨property, hp, h⟩ := Logged.result_bind_eq_ok.1 h
      cases h
      exact ⟨⟨r.message, _, headers⟩, ⟨rfl, hh, property, hp, rfl⟩, rfl⟩

theorem lastDeclared?_append_singleton {code : UInt16} : lastDeclared? code (rs ++ [r]) =
    (if r.code = code then r.bodyType?.map fun t => (r, t) else none).or
      (lastDeclared? code rs) := by
  rw [lastDeclared?, List.reverse_append, List.reverse_singleton, List.singleton_append,
    List.findSome?_cons]
  split
  · rename_i h
    rw [h]
    rfl
  · rename_i h
    rw [h]
    rfl

theorem answered_nil : Answered m responses [] responses where
  keys := rfl
  kept _ _ := rfl
  stands _ := rfl
  last before r after h := by
    have hlength := congrArg List.length h
    simp at hlength

theorem StandsAt.add {code : UInt16} {before schema : Option Schema} {added : Response}
    (h : StandsAt m code before rs schema) (hr : r.Adds m schema added) (hc : r.code = code) :
    StandsAt m code before (rs ++ [r]) added.schema := by
  rw [StandsAt, lastDeclared?_append_singleton, if_pos hc]
  obtain ⟨-, -, hschema⟩ := hr
  cases ht : r.bodyType? with
  | some t =>
    rw [ht] at hschema
    exact hschema
  | none =>
    rw [ht] at hschema
    rw [hschema]
    exact h

theorem StandsAt.skip {code : UInt16} {before schema : Option Schema}
    (h : StandsAt m code before rs schema) (hc : r.code ≠ code) :
    StandsAt m code before (rs ++ [r]) schema := by
  rw [StandsAt, lastDeclared?_append_singleton, if_neg hc]
  exact h

theorem Answered.add {start : Table Response} {added : Response}
    (h : Answered m start rs responses)
    (hr : r.Adds m ((responses.get? (responseKey r.code)).bind (·.schema)) added) :
    Answered m start (rs ++ [r]) (responses.put (responseKey r.code) added) where
  keys := by
    rw [List.map_append, List.foldl_append, ← h.keys, Table.keys_put]
    rfl
  kept key hkey := by
    rw [Table.get?_put, if_neg (hkey r (by simp))]
    exact h.kept key fun r' hr' => hkey r' (List.mem_append_left _ hr')
  stands code := by
    by_cases hc : r.code = code
    · subst hc
      rw [Table.get?_put, if_pos rfl]
      exact (h.stands r.code).add hr rfl
    · rw [Table.get?_put, if_neg fun hk => hc (responseKey_inj hk)]
      exact (h.stands code).skip hc
  last before x after hsplit hafter := by
    rcases List.eq_nil_or_concat after with rfl | ⟨after, y, rfl⟩
    · obtain ⟨rfl, hx⟩ := List.append_inj' hsplit rfl
      cases hx
      refine ⟨_, added, ?_, hr, h.stands r.code⟩
      rw [Table.get?_put, if_pos rfl]
    · rw [List.concat_eq_append] at hsplit hafter
      have hcut : rs ++ [r] = before ++ x :: after ++ [y] := by simpa using hsplit
      obtain ⟨hrs, hy⟩ := List.append_inj' hcut rfl
      cases hy
      have hne : r.code ≠ x.code := hafter r (by simp)
      rw [Table.get?_put, if_neg fun hk => hne (responseKey_inj hk)]
      exact h.last before x after hrs fun x' hx' => hafter x' (List.mem_append_left _ hx')

theorem addResponses_answered {start : Table Response} {rs' : List ResponseInfo}
    (h : Answered m start rs responses)
    (hr : (addResponses m responses rs').result = .ok responses') :
    Answered m start (rs ++ rs') responses' := by
  induction rs' generalizing rs responses with
  | nil =>
    cases hr
    rw [List.append_nil]
    exact h
  | cons r rs' ih =>
    obtain ⟨between, hbetween, hr⟩ := Logged.result_bind_eq_ok.1 hr
    obtain ⟨added, hadds, rfl⟩ := addResponse_eq_ok hbetween
    have hrest := ih (h.add hadds) hr
    rwa [List.append_assoc] at hrest

section Method

variable {method : Method} {built : Option Operation} {headers : Option (Table Schema)}
  {primary : Option Response}

def Method.explicit (method : Method) : List ResponseInfo :=
  method.responses.getD []

/-- The code of the primary response. -/
def Method.code (method : Method) : UInt16 :=
  (method.operation?.map (·.code)).getD 200

/-- The primary response of a method, which there is unless the type of its body is ignored. -/
def Method.HasPrimary (m : Models) (s : ResourceSet) (method : Method)
    (headers : Option (Table Schema)) (primary : Option Response) : Prop :=
  if isIgnored s method.primaryType then primary = none
  else ∃ schema, m.property method.primaryType = .ok schema ∧
    primary = some (successful headers
      (primarySchema method.primaryType (responseContainer method.operation?) schema))

/-- The schema of a code before the explicit responses. -/
def Method.primarySchema? (method : Method) (primary : Option Response) (code : UInt16) :
    Option Schema :=
  if code = method.code then primary.bind (·.schema) else none

/-- The responses of an operation: the primary one unless an explicit one has its code, the last
explicit one of each code, and one without a body if there would be none else. -/
structure Method.RespondsWith (m : Models) (method : Method) (headers : Option (Table Schema))
    (primary : Option Response) (responses : Table Response) : Prop where
  keys : responses.keys = match ((primary.toList.map fun _ => responseKey method.code) ++
      method.explicit.map fun r => responseKey r.code).eraseDups with
    | [] => ["default"]
    | keys => keys
  first : ∀ r, primary = some r → (∀ r' ∈ method.explicit, r'.code ≠ method.code) →
    responses.get? (responseKey method.code) = some r
  last : ∀ before r after, method.explicit = before ++ r :: after →
    (∀ r' ∈ after, r'.code ≠ r.code) →
    ∃ held added, responses.get? (responseKey r.code) = some added ∧ r.Adds m held added ∧
      StandsAt m r.code (method.primarySchema? primary r.code) before held
  fallback : primary = none → method.explicit = [] →
    responses = ⟨[("default", successful headers none)]⟩

def Method.startingWith (method : Method) (primary : Option Response) : Table Response :=
  match primary with
  | some r => ({} : Table Response).put (responseKey method.code) r
  | none => {}

theorem exists_property_of_primary {hint : Option Container} (hi : isIgnored s t = false)
    (h : (primaryResponse m s t hint headers).result = .ok primary) :
    ∃ schema, m.property t = .ok schema := by
  obtain ⟨c, hc, _⟩ := Logged.result_bind_eq_ok.1 h
  replace hc : classify m s t = .ok c := hc
  rw [classify, hi, if_neg Bool.false_ne_true] at hc
  obtain ⟨schema, hp, _⟩ := Except.bind_eq_ok.1 hc
  exact ⟨schema, hp⟩

theorem primaryResponses_eq_ok (h : (primaryResponses m s method headers).result = .ok responses) :
    ∃ primary, method.HasPrimary m s headers primary ∧
      responses = method.startingWith primary := by
  obtain ⟨primary, hp, h⟩ := Logged.result_bind_eq_ok.1 h
  obtain ⟨_, _, h⟩ := Logged.result_bind_eq_ok.1 h
  obtain ⟨_, _, h⟩ := Logged.result_bind_eq_ok.1 h
  cases h
  refine ⟨primary, ?_, rfl⟩
  unfold Method.HasPrimary
  cases hi : isIgnored s method.primaryType with
  | true =>
    rw [primaryResponse_eq, classify_ignored hi] at hp
    cases hp
    rfl
  | false =>
    obtain ⟨schema, hproperty⟩ := exists_property_of_primary hi hp
    rw [primaryResponse_result hi hproperty] at hp
    cases hp
    exact ⟨schema, hproperty, rfl⟩

theorem get?_startingWith {key : String} : (method.startingWith primary).get? key =
    if responseKey method.code = key then primary else none := by
  cases primary with
  | none => simp [Method.startingWith]
  | some r => rw [Method.startingWith, Table.get?_put, Table.get?_empty]

theorem schema_startingWith {code : UInt16} :
    ((method.startingWith primary).get? (responseKey code)).bind (·.schema) =
      method.primarySchema? primary code := by
  rw [get?_startingWith, Method.primarySchema?]
  by_cases hc : code = method.code
  · rw [if_pos hc, hc, if_pos rfl]
  · rw [if_neg hc, if_neg fun hk => hc (responseKey_inj hk).symm]
    rfl

theorem keys_startingWith : (method.startingWith primary).keys =
    primary.toList.map fun _ => responseKey method.code := by
  cases primary <;> rfl

theorem Answered.keys_eq (h : Answered m (method.startingWith primary) method.explicit responses) :
    responses.keys = ((primary.toList.map fun _ => responseKey method.code) ++
      method.explicit.map fun r => responseKey r.code).eraseDups := by
  have hnodup : (primary.toList.map fun _ => responseKey method.code).Nodup := by
    cases primary <;> simp
  rw [h.keys, keys_startingWith, foldl_addNew_of_nodup hnodup]

theorem Answered.respondsWith
    (h : Answered m (method.startingWith primary) method.explicit responses) :
    method.RespondsWith m headers primary
      (if responses.isEmpty then responses.put "default" (successful headers none)
        else responses) := by
  have hkeys := h.keys_eq
  obtain ⟨entries⟩ := responses
  cases entries with
  | nil =>
    have hnone := List.append_eq_nil_iff.1 (eq_nil_of_eraseDups hkeys.symm)
    have hprimary : primary = none := by simpa using hnone.1
    have hexplicit : method.explicit = [] := List.map_eq_nil_iff.1 hnone.2
    subst hprimary
    refine { keys := ?keys, first := nofun, last := ?last, fallback := fun _ _ => rfl }
    case keys =>
      rw [hexplicit]
      rfl
    case last =>
      intro before r after hsplit
      rw [hexplicit] at hsplit
      simp at hsplit
  | cons e entries =>
    refine { keys := ?keys, first := ?first, last := ?last, fallback := ?fallback }
    case keys =>
      rw [← hkeys]
      rfl
    case first =>
      intro r hr hother
      have hkept := h.kept (responseKey method.code) fun r' hr' hk =>
        hother r' hr' (responseKey_inj hk)
      rw [get?_startingWith, if_pos rfl, hr] at hkept
      exact hkept
    case last =>
      intro before r after hsplit hafter
      have hlast := h.last before r after hsplit hafter
      rw [schema_startingWith] at hlast
      exact hlast
    case fallback =>
      intro hprimary hexplicit
      rw [hprimary, hexplicit] at hkeys
      cases hkeys

/-- When a method is built, its operation answers with its primary response and the last explicit
response of each code, in the order in which their codes first appear, and always with something. -/
theorem Method.responds_built (hv : ¬method.IsHidden)
    (h : (buildOperation m s method).result = .ok built) :
    ∃ o headers primary, built = some o ∧ (primaryHeaders m method).result = .ok headers ∧
      method.HasPrimary m s headers primary ∧
      method.RespondsWith m headers primary o.responses ∧ o.responses.keys ≠ [] := by
  rw [buildOperation_visible hv] at h
  obtain ⟨o, ho, h⟩ := Logged.result_bind_eq_ok.1 h
  cases h
  obtain ⟨headers, hheaders, ho⟩ := Logged.result_bind_eq_ok.1 ho
  obtain ⟨start, hstart, ho⟩ := Logged.result_bind_eq_ok.1 ho
  obtain ⟨responses, hresponses, ho⟩ := Logged.result_bind_eq_ok.1 ho
  obtain ⟨parameters, _, ho⟩ := Logged.result_bind_eq_ok.1 ho
  cases ho
  obtain ⟨primary, hprimary, rfl⟩ := primaryResponses_eq_ok hstart
  have hanswered : Answered m (method.startingWith primary) method.explicit responses :=
    addResponses_answered answered_nil hresponses
  have hresponds : method.RespondsWith m headers primary
      (method.operationWith headers responses parameters).responses := hanswered.respondsWith
  refine ⟨_, headers, primary, rfl, hheaders, hprimary, hresponds, ?_⟩
  rw [hresponds.keys]
  split
  · exact List.cons_ne_nil _ _
  · assumption

end Method

section Report

/-- A method that documents two codes twice, and the code of what it returns without a type. -/
def report : Method where
  name := "report"
  returnType := ⟨"String", []⟩
  declaration := {
    operation := some {}
    responses := some [
      { code := 404, message := "gone" },
      { code := 200, message := "fine", type := some .void },
      { code := 0, message := "other", type := some ⟨"String", []⟩, container := "list" },
      { code := 404, message := "missing", type := some ⟨"str", []⟩ },
      { code := 0, message := "failed" }] }

def reportOperation : Operation where
  operationId := "report"
  responses := ⟨[
    ("200", { description := "fine", schema := some (.scalar "string" none) }),
    ("404", { description := "missing", schema := some (.scalar "string" none) }),
    ("default", {
      description := "failed"
      schema := some (.array (.scalar "string" none)) })]⟩

theorem report_responds : ¬report.IsHidden ∧
    (buildOperation {} {} report).result = .ok (some reportOperation) ∧
    ∃ o headers primary, some reportOperation = some o ∧
      (primaryHeaders {} report).result = .ok headers ∧
      report.HasPrimary {} {} headers primary ∧
      report.RespondsWith {} headers primary o.responses ∧ o.responses.keys ≠ [] := by
  have hvisible : ¬report.IsHidden := by
    rintro ⟨info, hinfo, hidden⟩
    cases hinfo
    cases hidden
  have hbuild : (buildOperation {} {} report).result = .ok (some reportOperation) := by cbv
  exact ⟨hvisible, hbuild, Method.responds_built hvisible hbuild⟩

end Report

end Apidoc
