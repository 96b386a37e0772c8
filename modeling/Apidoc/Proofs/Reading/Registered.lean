import Apidoc.Proofs.Reading.Visit

namespace Apidoc

variable {o : Operation} {r : Resource} {context : Context} {route : Route} {verb : Option Verb}
  {p : Parameter}

namespace Operation

variable {α β : Type} {f : Operation → α → Operation} {g : Operation → β}

/-- What one step leaves alone, any number of them does. -/
theorem foldl_eq (h : ∀ o a, g (f o a) = g o) (o : Operation) (as : List α) :
    g (as.foldl f o) = g o := by
  induction as generalizing o with
  | nil => rfl
  | cons a as ih => exact (ih _).trans (h o a)

theorem parameters_addTag (o : Operation) (tag : String) :
    (o.addTag tag).parameters = o.parameters := by
  unfold addTag
  split <;> rfl

theorem responses_addTag (o : Operation) (tag : String) :
    (o.addTag tag).responses = o.responses := by
  unfold addTag
  split <;> rfl

theorem parameters_addSecurity (o : Operation) (requirement : SecurityRequirement) :
    (o.addSecurity requirement).parameters = o.parameters := by
  unfold addSecurity
  split <;> rfl

theorem responses_addSecurity (o : Operation) (requirement : SecurityRequirement) :
    (o.addSecurity requirement).responses = o.responses := by
  unfold addSecurity
  split <;> rfl

theorem responses_addParameter (o : Operation) (p : Parameter) :
    (o.addParameter p).responses = o.responses := by
  unfold addParameter
  split <;> rfl

/-- The operation with media types that stand in where it declares none. -/
def orMedia (o : Operation) (consumes produces : List String) : Operation :=
  { o with
    consumes := o.consumes.or (if consumes.isEmpty then none else some consumes)
    produces := o.produces.or (if produces.isEmpty then none else some produces) }

/-- Where tags and security make no difference, registering an operation fills in its media
types. -/
theorem registered_eq (htag : ∀ o tag, g (o.addTag tag) = g o)
    (hsecurity : ∀ o requirement, g (o.addSecurity requirement) = g o) :
    let inner := Context.descend r context route verb o
    g (o.registered r context route verb) =
      g (((route.info.tags.filter (· ≠ "")).foldl addTag o).orMedia inner.consumes
        inner.produces) := by
  intro inner
  let filled := ((route.info.tags.filter (· ≠ "")).foldl addTag o).orMedia inner.consumes
    inner.produces
  have hregistered : o.registered r context route verb = r.security.foldl addSecurity
      (if filled.tags.isEmpty then inner.tags.keys.foldl addTag filled else filled) := rfl
  rw [hregistered, foldl_eq hsecurity]
  by_cases htags : filled.tags.isEmpty = true
  · rw [if_pos htags]
    exact foldl_eq htag _ _
  · rw [if_neg htags]

theorem parameters_registered : (o.registered r context route verb).parameters = o.parameters :=
  (registered_eq parameters_addTag parameters_addSecurity).trans (foldl_eq parameters_addTag _ _)

theorem responses_registered : (o.registered r context route verb).responses = o.responses :=
  (registered_eq responses_addTag responses_addSecurity).trans (foldl_eq responses_addTag _ _)

theorem responses_inContext : (o.inContext context route).responses = o.responses :=
  foldl_eq responses_addParameter _ _

/-- Parameters are added only where there is none of their name and location. -/
theorem mem_addParameters {ps : List Parameter}
    (h : p ∈ (ps.foldl addParameter o).parameters) :
    p ∈ o.parameters ∨ p ∈ ps ∧ ∀ q ∈ o.parameters, q.sameKey p = false := by
  induction ps generalizing o with
  | nil => exact .inl h
  | cons q ps ih =>
    have hstep := ih h
    unfold addParameter at hstep
    split at hstep
    · rcases hstep with h | ⟨h, hnew⟩
      · exact .inl h
      · exact .inr ⟨List.mem_cons_of_mem _ h, hnew⟩
    · rename_i hq
      have hnone : ∀ q' ∈ o.parameters, q'.sameKey q = false := by simpa using hq
      rcases hstep with h | ⟨h, hnew⟩
      · rcases List.mem_append.1 h with h | h
        · exact .inl h
        · cases List.mem_singleton.1 h
          exact .inr ⟨List.mem_cons_self, hnone⟩
      · exact .inr ⟨List.mem_cons_of_mem _ h, fun q' hq' => hnew q' (List.mem_append_left _ hq')⟩

theorem mem_inContext (h : p ∈ (o.inContext context route).parameters) :
    ∃ q, (q ∈ o.parameters ∨ q ∈ context.parameters) ∧
      (p = q ∨ ∃ pattern, p = { q with pattern }) := by
  obtain ⟨q, hq, rfl⟩ := List.mem_map.1 h
  refine ⟨q, (mem_addParameters hq).imp_right And.left, ?_⟩
  split
  · exact .inr ⟨_, rfl⟩
  · exact .inl rfl

end Operation

end Apidoc
