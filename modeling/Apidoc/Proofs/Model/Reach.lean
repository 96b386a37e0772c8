import Apidoc.Model
import Apidoc.Proofs.Table

namespace Apidoc.Models

variable {m : Models} {t : TypeRef} {d e : Definition} {name : String}

/-- A type reaches the definition that it finally holds, and what the arguments beside it and the
fields of that definition reach. The empty type reaches nothing. -/
inductive Reaches (m : Models) : TypeRef → Definition → Prop
  | leaf {t : TypeRef} {d : Definition} (hv : t.leaf.isVoid = false)
    (hd : m.resolve? t.leaf.name = some (.model d)) : Reaches m t d
  | argument {t a : TypeRef} {d : Definition} (hv : t.leaf.isVoid = false) (ha : a ∈ t.leaf.args)
    (h : Reaches m a d) : Reaches m t d
  | field {t f : TypeRef} {d e : Definition} (hv : t.leaf.isVoid = false)
    (hd : m.resolve? t.leaf.name = some (.model d)) (hf : f ∈ d.fieldTypes) (h : Reaches m f e) :
    Reaches m t e

theorem resolve?_name (h : m.resolve? name = some (.model d)) : d.name = name := by
  unfold resolve? at h
  split at h
  · cases h
  · obtain ⟨d', hd, he⟩ := Option.map_eq_some_iff.1 h
    cases he
    simpa using List.find?_some hd

theorem resolve?_own_name (h : m.resolve? name = some (.model d)) :
    m.resolve? d.name = some (.model d) :=
  resolve?_name h ▸ h

theorem Reaches.resolve? (h : m.Reaches t d) : m.resolve? d.name = some (.model d) := by
  induction h with
  | leaf _ hd => exact resolve?_own_name hd
  | argument _ _ _ ih => exact ih
  | field _ _ _ _ ih => exact ih

theorem Reaches.eq_of_name (h : m.Reaches t d) {u : TypeRef} (h' : m.Reaches u e)
    (hn : d.name = e.name) : d = e := by
  have hd := h.resolve?
  rw [hn, h'.resolve?] at hd
  cases hd
  rfl

theorem not_reaches_of_isVoid (h : t.leaf.isVoid = true) : ¬m.Reaches t d := by
  intro hd
  cases hd <;> simp_all

/-- The names of the definitions that a type reaches. -/
def ReachesName (m : Models) (t : TypeRef) (name : String) : Prop :=
  ∃ d, m.Reaches t d ∧ d.name = name

theorem Reaches.through (h : m.Reaches t d) {f : TypeRef} (hf : f ∈ d.fieldTypes)
    (hr : m.Reaches f e) : m.Reaches t e := by
  induction h with
  | leaf hv hd => exact .field hv hd hf hr
  | argument hv ha _ ih => exact .argument hv ha (ih hf)
  | field hv hd hf' _ ih => exact .field hv hd hf' (ih hf)

/-- A table covers a type when it has the definition that the type finally holds and covers the
arguments beside it; the fields do not matter. -/
inductive Covers (m : Models) (found : Table Schema) : TypeRef → Prop
  | intro {t : TypeRef}
    (model : t.leaf.isVoid = false → ∀ d, m.resolve? t.leaf.name = some (.model d) →
      d.name ∈ found.keys)
    (arguments : t.leaf.isVoid = false → ∀ a ∈ t.leaf.args, Covers m found a) : Covers m found t

theorem covers_of_isVoid {found : Table Schema} (h : t.leaf.isVoid = true) : m.Covers found t :=
  .intro (fun hv => by simp [h] at hv) (fun hv => by simp [h] at hv)

/-- What a search leaves: it keeps what was found, covers what was pending, has been through the
fields of all that it added, and added only what the pending types reach. -/
structure Searched (m : Models) (pending : List TypeRef) (found result : Table Schema) : Prop where
  grows : ∀ e ∈ found.entries, e ∈ result.entries
  covers : ∀ t ∈ pending, m.Covers result t
  through : ∀ d, m.resolve? d.name = some (.model d) → d.name ∈ result.keys →
    d.name ∈ found.keys ∨ ∀ f ∈ d.fieldTypes, m.Covers result f
  sound : ∀ e ∈ result.entries, e ∈ found.entries ∨
    ∃ t ∈ pending, ∃ d, m.Reaches t d ∧ e = (d.name, m.schemaOf d)

theorem Searched.mem_keys {pending : List TypeRef} {found result : Table Schema}
    (h : m.Searched pending found result) (hn : name ∈ found.keys) : name ∈ result.keys := by
  obtain ⟨e, he, rfl⟩ := List.mem_map.1 hn
  exact Table.mem_keys_of_mem (h.grows e he)

theorem covers_cons {rest : List TypeRef} {result : Table Schema}
    (hd : ∀ d, m.resolve? t.leaf.name = some (.model d) → d.name ∈ result.keys)
    (h : ∀ u ∈ t.leaf.args ++ rest, m.Covers result u) : ∀ u ∈ t :: rest, m.Covers result u := by
  intro u hu
  rcases List.mem_cons.1 hu with rfl | hu
  · exact .intro (fun _ => hd) fun _ a ha => h a (List.mem_append_left _ ha)
  · exact h u (List.mem_append_right _ hu)

theorem Searched.void {rest : List TypeRef} {found result : Table Schema}
    (h : m.Searched rest found result) (hv : t.leaf.isVoid = true) :
    m.Searched (t :: rest) found result where
  grows := h.grows
  covers u hu := by
    rcases List.mem_cons.1 hu with rfl | hu
    · exact covers_of_isVoid hv
    · exact h.covers u hu
  through := h.through
  sound e he := (h.sound e he).imp_right fun ⟨u, hu, hd⟩ => ⟨u, List.mem_cons_of_mem _ hu, hd⟩

theorem Searched.known {rest : List TypeRef} {found result : Table Schema}
    (h : m.Searched (t.leaf.args ++ rest) found result) (hv : t.leaf.isVoid = false)
    (hd : ∀ d, m.resolve? t.leaf.name = some (.model d) → d.name ∈ found.keys) :
    m.Searched (t :: rest) found result where
  grows := h.grows
  covers := covers_cons (fun d he => h.mem_keys (hd d he)) h.covers
  through := h.through
  sound e he := by
    rcases h.sound e he with he | ⟨u, hu, d, hd, rfl⟩
    · exact .inl he
    · rcases List.mem_append.1 hu with hu | hu
      · exact .inr ⟨t, List.mem_cons_self, d, .argument hv hu hd, rfl⟩
      · exact .inr ⟨u, List.mem_cons_of_mem _ hu, d, hd, rfl⟩

theorem Searched.new {rest : List TypeRef} {found result : Table Schema}
    (h : m.Searched (d.fieldTypes ++ (t.leaf.args ++ rest)) (found.putNew d.name (m.schemaOf d))
      result)
    (hv : t.leaf.isVoid = false) (hd : m.resolve? t.leaf.name = some (.model d)) :
    m.Searched (t :: rest) found result where
  grows e he := h.grows e (Table.mem_entries_putNew_of_mem he)
  covers := by
    refine covers_cons (fun e he => ?_) fun u hu => h.covers u (List.mem_append_right _ hu)
    rw [hd] at he
    cases he
    exact h.mem_keys (Table.mem_keys_putNew.2 (.inr rfl))
  through e he hk := by
    rcases h.through e he hk with hk | hcovers
    · rcases Table.mem_keys_putNew.1 hk with hk | hk
      · exact .inl hk
      · have hown := resolve?_own_name hd
        rw [← hk, he] at hown
        cases hown
        exact .inr fun f hf => h.covers f (List.mem_append_left _ hf)
    · exact .inr hcovers
  sound e he := by
    rcases h.sound e he with he | ⟨u, hu, e, hr, rfl⟩
    · rcases Table.mem_entries_putNew he with rfl | he
      · exact .inr ⟨t, List.mem_cons_self, d, .leaf hv hd, rfl⟩
      · exact .inl he
    · rcases List.mem_append.1 hu with hu | hu
      · exact .inr ⟨t, List.mem_cons_self, e, .field hv hd hu hr, rfl⟩
      · rcases List.mem_append.1 hu with hu | hu
        · exact .inr ⟨t, List.mem_cons_self, e, .argument hv hu hr, rfl⟩
        · exact .inr ⟨u, List.mem_cons_of_mem _ hu, e, hr, rfl⟩

/-- The search does what a search should, whatever was found before. -/
theorem reach_searched (m : Models) (pending : List TypeRef) (found : Table Schema) :
    m.Searched pending found (m.reach pending found) := by
  induction pending, found using reach.induct m with
  | case1 found =>
    rw [reach]
    exact ⟨fun _ h => h, nofun, fun _ _ h => .inl h, fun _ h => .inl h⟩
  | case2 found t rest _ hv ih =>
    rw [reach, if_pos hv]
    exact ih.void hv
  | case3 found t rest _ hv d hd hf ih =>
    rw [reach, if_neg hv]
    split
    · rename_i d' hd'
      rw [hd] at hd'
      cases hd'
      rw [dif_pos hf]
      refine ih.known (by simpa using hv) fun e he => ?_
      rw [hd] at he
      cases he
      exact Table.contains_iff.1 hf
    · rename_i hne
      exact (hne d hd).elim
  | case4 found t rest _ hv d hd hf _ ih =>
    rw [reach, if_neg hv]
    split
    · rename_i d' hd'
      rw [hd] at hd'
      cases hd'
      rw [dif_neg hf]
      exact ih.new (by simpa using hv) hd
    · rename_i hne
      exact (hne d hd).elim
  | case5 found t rest _ hv hne ih =>
    rw [reach, if_neg hv]
    split
    · rename_i d hd
      exact (hne d hd).elim
    · exact ih.known (by simpa using hv) fun d hd => (hne d hd).elim

theorem Covers.mem_keys {found : Table Schema} (hc : m.Covers found t)
    (hfields : ∀ d, m.resolve? d.name = some (.model d) → d.name ∈ found.keys →
      ∀ f ∈ d.fieldTypes, m.Covers found f) (h : m.Reaches t d) : d.name ∈ found.keys := by
  -- On the way to the definition; a field leads on because the table covers what it knows.
  induction h with
  | leaf hv hd =>
    obtain ⟨hmodel, _⟩ := hc
    exact hmodel hv _ hd
  | argument hv ha _ ih =>
    obtain ⟨_, harguments⟩ := hc
    exact ih (harguments hv _ ha)
  | field hv hd hf _ ih =>
    obtain ⟨hmodel, _⟩ := hc
    exact ih (hfields _ (resolve?_own_name hd) (hmodel hv _ hd) _ hf)

/-- The search finds the definitions that a type reaches, each with its schema, and no others. -/
theorem mem_reach_iff {e : String × Schema} :
    e ∈ (m.reach [t] {}).entries ↔ ∃ d, m.Reaches t d ∧ e = (d.name, m.schemaOf d) := by
  have hs := m.reach_searched [t] {}
  have hsound {e : String × Schema} (he : e ∈ (m.reach [t] {}).entries) :
      ∃ d, m.Reaches t d ∧ e = (d.name, m.schemaOf d) := by
    rcases hs.sound e he with he | ⟨u, hu, d, hd, rfl⟩
    · cases he
    · exact ⟨d, List.mem_singleton.1 hu ▸ hd, rfl⟩
  constructor
  · exact hsound
  · rintro ⟨d, hd, rfl⟩
    have hk := (hs.covers t List.mem_cons_self).mem_keys
      (fun d hd hk => (hs.through d hd hk).resolve_left (by simp)) hd
    obtain ⟨e, he, hn⟩ := List.mem_map.1 hk
    obtain ⟨d', hd', rfl⟩ := hsound he
    exact hd.eq_of_name hd' hn.symm ▸ he

theorem reachable_eq_ok_iff {table : Table Schema} :
    m.reachable t = .ok table ↔
      (t.leaf.isVoid ∨ (m.resolve? t.leaf.name).isSome) ∧ table = m.reach [t] {} := by
  unfold reachable
  split
  · rename_i h
    rw [Except.ok.injEq, eq_comm]
    exact (and_iff_right h).symm
  · rename_i h
    exact ⟨nofun, fun h' => (h h'.1).elim⟩

theorem mem_reachable_iff {table : Table Schema} (h : m.reachable t = .ok table)
    {e : String × Schema} :
    e ∈ table.entries ↔ ∃ d, m.Reaches t d ∧ e = (d.name, m.schemaOf d) := by
  obtain ⟨_, rfl⟩ := reachable_eq_ok_iff.1 h
  exact mem_reach_iff

end Apidoc.Models
