import Apidoc.Operation.Parameters
import Apidoc.Proofs.Logged
import Apidoc.Proofs.Model.Mentions

namespace Apidoc

variable {α β : Type} {m : Models} {x : Build α} {f : α → Build β} {t : TypeRef}
  {ts us : List TypeRef} {R : α → Prop} {S : β → Prop} {name : String} {schema : Schema}

def Models.ReachedFrom (m : Models) (ts : List TypeRef) (name : String) : Prop :=
  ∃ t ∈ ts, m.ReachesName t name

theorem Models.ReachedFrom.mono (h : m.ReachedFrom ts name) (hs : ∀ t ∈ ts, t ∈ us) :
    m.ReachedFrom us name := by
  obtain ⟨t, ht, hr⟩ := h
  exact ⟨t, hs t ht, hr⟩

/-- Building defines everything that a type reaches. -/
def DefinesAll (m : Models) (t : TypeRef) (x : Build α) : Prop :=
  ∀ d, m.Reaches t d → .model d.name (m.schemaOf d) ∈ x.notes

/-- Building defines models for some types: only models that one of them reaches, and then all that
it reaches. If it succeeds, it has done so for all of them, and its answer satisfies `R`. -/
structure Defines (m : Models) (ts : List TypeRef) (x : Build α) (R : α → Prop) : Prop where
  whole : ∀ {name schema}, .model name schema ∈ x.notes → ∃ t ∈ ts, DefinesAll m t x ∧
    ∃ d, m.Reaches t d ∧ d.name = name ∧ m.schemaOf d = schema
  all : ∀ {a}, x.result = .ok a → ∀ t ∈ ts, DefinesAll m t x
  answer : ∀ {a}, x.result = .ok a → R a

namespace Defines

theorem pure {a : α} (h : R a) : Defines m [] (Logged.pure a) R where
  whole := nofun
  all := nofun
  answer ha := by
    cases ha
    exact h

theorem lift {x : Except Error α} (h : ∀ a, x = .ok a → R a) : Defines m [] (Build.lift x) R where
  whole := nofun
  all := nofun
  answer := h _

theorem warning {w : Warning} {R : Unit → Prop} (h : R ()) :
    Defines m [] (Logged.note (.warning w)) R where
  whole hn := by cases List.mem_singleton.1 hn
  all := nofun
  answer _ := h

theorem bind (hx : Defines m ts x R)
    (hf : ∀ a, x.result = .ok a → R a → Defines m us (f a) S) :
    Defines m (ts ++ us) (x.bind f) S where
  whole hn := by
    rcases Logged.mem_notes_bind.1 hn with hn | ⟨a, ha, hn⟩
    · obtain ⟨t, ht, hall, hd⟩ := hx.whole hn
      exact ⟨t, List.mem_append_left _ ht,
        fun d hd => Logged.mem_notes_bind.2 (.inl (hall d hd)), hd⟩
    · obtain ⟨t, ht, hall, hd⟩ := (hf a ha (hx.answer ha)).whole hn
      exact ⟨t, List.mem_append_right _ ht,
        fun d hd => Logged.mem_notes_bind.2 (.inr ⟨a, ha, hall d hd⟩), hd⟩
  all hb t ht d hd := by
    obtain ⟨a, ha, hb⟩ := Logged.result_bind_eq_ok.1 hb
    rcases List.mem_append.1 ht with ht | ht
    · exact Logged.mem_notes_bind.2 (.inl (hx.all ha t ht d hd))
    · exact Logged.mem_notes_bind.2 (.inr ⟨a, ha, (hf a ha (hx.answer ha)).all hb t ht d hd⟩)
  answer hb := by
    obtain ⟨a, ha, hb⟩ := Logged.result_bind_eq_ok.1 hb
    exact (hf a ha (hx.answer ha)).answer hb

theorem bind_none (hx : Defines m [] x R)
    (hf : ∀ a, x.result = .ok a → R a → Defines m us (f a) S) : Defines m us (x.bind f) S :=
  hx.bind hf

theorem bind_last (hx : Defines m ts x R)
    (hf : ∀ a, x.result = .ok a → R a → Defines m [] (f a) S) : Defines m ts (x.bind f) S :=
  List.append_nil ts ▸ hx.bind hf

theorem of_not_reaches (hx : Defines m [] x R) (h : ∀ d, ¬m.Reaches t d) : Defines m [t] x R where
  whole hn := by
    obtain ⟨t, ht, _⟩ := hx.whole hn
    cases ht
  all _ u hu d hd := by
    cases List.mem_singleton.1 hu
    exact (h d hd).elim
  answer := hx.answer

theorem mentioned (hx : Defines m ts x R) {other : String} (hn : .model name schema ∈ x.notes)
    (h : schema.Mentions other) : ∃ schema, .model other schema ∈ x.notes := by
  obtain ⟨t, _, hall, d, hd, rfl, rfl⟩ := hx.whole hn
  obtain ⟨e, he, rfl⟩ := hd.of_mentions h
  exact ⟨_, hall e he⟩

/-- Building that succeeds defines exactly what its types reach. -/
theorem exists_model_iff (hx : Defines m ts x R) {a : α} (ha : x.result = .ok a) :
    (∃ schema, .model name schema ∈ x.notes) ↔ m.ReachedFrom ts name := by
  constructor
  · rintro ⟨schema, hn⟩
    obtain ⟨t, ht, _, d, hd, hname, _⟩ := hx.whole hn
    exact ⟨t, ht, d, hd, hname⟩
  · rintro ⟨t, ht, d, hd, rfl⟩
    exact ⟨_, hx.all ha t ht d hd⟩

end Defines

theorem mem_notes_models {table : Table Schema} :
    .model name schema ∈ (Build.models table).notes ↔ (name, schema) ∈ table.entries := by
  simp [Build.models, Logged.noteAll]

theorem defines_reachable_after {own : Table Schema}
    (hown : ∀ e ∈ own.entries, ∃ table, m.reachable t = .ok table ∧ e ∈ table.entries) :
    Defines m [t] ((Build.models own).bind fun _ =>
      (Build.lift (m.reachable t)).bind Build.models) fun _ => True := by
  have hall {table} (htable : m.reachable t = .ok table) :
      DefinesAll m t ((Build.models own).bind fun _ =>
        (Build.lift (m.reachable t)).bind Build.models) := by
    intro d hd
    refine Logged.mem_notes_bind.2 (.inr ⟨(), rfl, ?_⟩)
    refine Logged.mem_notes_bind.2 (.inr ⟨table, htable, ?_⟩)
    exact mem_notes_models.2 ((Models.mem_reachable_iff htable).2 ⟨d, hd, rfl⟩)
  constructor
  · intro name schema hn
    have hentry : ∃ table, m.reachable t = .ok table ∧ (name, schema) ∈ table.entries := by
      rcases Logged.mem_notes_bind.1 hn with hn | ⟨_, _, hn⟩
      · exact hown _ (mem_notes_models.1 hn)
      · rcases Logged.mem_notes_bind.1 hn with hn | ⟨table, htable, hn⟩
        · cases hn
        · exact ⟨table, htable, mem_notes_models.1 hn⟩
    obtain ⟨table, htable, he⟩ := hentry
    obtain ⟨d, hd, he⟩ := (Models.mem_reachable_iff htable).1 he
    cases he
    exact ⟨t, List.mem_cons_self, hall htable, d, hd, rfl, rfl⟩
  · intro a ha u hu
    cases List.mem_singleton.1 hu
    obtain ⟨_, _, ha⟩ := Logged.result_bind_eq_ok.1 ha
    obtain ⟨table, htable, _⟩ := Logged.result_bind_eq_ok.1 ha
    exact hall htable
  · exact fun _ => trivial

theorem own_sub_reachable {own : Table Schema} (h : m.own t = .ok own) :
    ∀ e ∈ own.entries, ∃ table, m.reachable t = .ok table ∧ e ∈ table.entries := by
  intro e he
  rcases Models.own_eq_ok h with rfl | ⟨d, hv, hd, rfl⟩
  · cases he
  · have htable : m.reachable t = .ok (m.reach [t] {}) :=
      Models.reachable_eq_ok_iff.2 ⟨.inr (by rw [hd]; rfl), rfl⟩
    exact ⟨_, htable, Models.mem_reach_iff.2 ⟨d, .leaf hv hd, List.mem_singleton.1 he⟩⟩

theorem defines_reachable_then {k : Build β} (hk : Defines m [] k S) :
    Defines m [t] ((Build.lift (m.reachable t)).bind fun table =>
      (Build.models table).bind fun _ => k) S := by
  rw [← Logged.bind_assoc]
  exact (@defines_reachable_after m t {} nofun).bind_last fun _ _ _ => hk

theorem defines_own_then {own : Table Schema} {k : Build β}
    (hown : ∀ e ∈ own.entries, ∃ table, m.reachable t = .ok table ∧ e ∈ table.entries)
    (hk : Defines m [] k S) :
    Defines m [t] ((Build.models own).bind fun _ => (Build.lift (m.reachable t)).bind fun table =>
      (Build.models table).bind fun _ => k) S := by
  have h := (defines_reachable_after hown).bind_last fun _ _ _ => hk
  rwa [Logged.bind_assoc, funext fun _ => Logged.bind_assoc _ _ _] at h

/-- A schema mentions only what some types reach. -/
def SchemaFrom (m : Models) (ts : List TypeRef) (schema : Option Schema) : Prop :=
  ∀ s, schema = some s → ∀ name, s.Mentions name → m.ReachedFrom ts name

theorem SchemaFrom.wrapIn {schema : Option Schema} (h : SchemaFrom m ts schema)
    (kind : Option Container) : SchemaFrom m ts (schema.map (Container.wrapIn kind)) := by
  intro s hs name hn
  obtain ⟨s', hs', rfl⟩ := Option.map_eq_some_iff.1 hs
  exact h s' hs' name (Schema.mentions_wrapIn.1 hn)

theorem schemaFrom_property {schema : Option Schema} (h : m.property t = .ok schema) :
    SchemaFrom m [t] schema := by
  rintro s rfl name hn
  exact ⟨t, List.mem_singleton_self t, Models.reaches_of_mentions_property h hn⟩

theorem schemaFrom_ofModel {own : Table Schema} {name : String} (h : m.own t = .ok own)
    (hn : own.keys.getLast? = some name) : SchemaFrom m [t] (some (.ofModel name)) := by
  rintro s hs n hmention
  cases hs
  cases Schema.mentions_ofModel.1 hmention
  rcases Models.own_eq_ok h with rfl | ⟨d, hv, hd, rfl⟩
  · cases hn
  · cases hn
    exact ⟨t, List.mem_singleton_self t, d, .leaf hv hd, rfl⟩

theorem SchemaFrom.mono {schema : Option Schema} (h : SchemaFrom m ts schema)
    (hs : ∀ t ∈ ts, t ∈ us) : SchemaFrom m us schema :=
  fun s hs' name hn => (h s hs' name hn).mono hs

end Apidoc
