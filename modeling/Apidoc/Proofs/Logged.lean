import Apidoc.Logged

namespace Apidoc

/-- A computation that may fail runs both of its parts when it succeeds. -/
theorem Except.bind_eq_ok {ε α β : Type} {x : Except ε α} {f : α → Except ε β} {b : β} :
    x >>= f = .ok b ↔ ∃ a, x = .ok a ∧ f a = .ok b := by
  cases x <;> simp [bind, Except.bind]

namespace Logged

variable {ω ω' ε α β : Type} {x : Logged ω ε α} {f : α → Logged ω ε β} {P Q : ω → Prop}
  {R : α → Prop} {S : β → Prop}

theorem pure_bind (a : α) (f : α → Logged ω ε β) : bind (Pure.pure a) f = f a := rfl

theorem result_bind_eq_ok {b : β} :
    (bind x f).result = .ok b ↔ ∃ a, x.result = .ok a ∧ (f a).result = .ok b := by
  obtain ⟨notes, result⟩ := x
  cases result <;> simp

theorem mem_notes_bind {n : ω} :
    n ∈ (bind x f).notes ↔ n ∈ x.notes ∨ ∃ a, x.result = .ok a ∧ n ∈ (f a).notes := by
  obtain ⟨notes, result⟩ := x
  cases result <;> simp

theorem notes_bind_of_ok {a : α} (h : x.result = .ok a) :
    (bind x f).notes = x.notes ++ (f a).notes := by
  rw [bind, h]

theorem mapNotes_bind {g : ω → ω'} :
    (bind x f).mapNotes g = bind (x.mapNotes g) fun a => (f a).mapNotes g := by
  obtain ⟨notes, result⟩ := x
  cases result <;> simp [mapNotes]

theorem bind_pure_inj {g h : α → β} :
    (bind x fun a => Pure.pure (g a)) = (bind x fun a => Pure.pure (h a)) ↔
      ∀ a, x.result = .ok a → g a = h a := by
  obtain ⟨notes, result⟩ := x
  cases result <;> simp

/-- A rule of partial correctness: as soon as everything that a computation notes satisfies `P`,
everything that it notes satisfies `Q` and its answer satisfies `R`. -/
def Meets (x : Logged ω ε α) (P Q : ω → Prop) (R : α → Prop) : Prop :=
  (∀ n ∈ x.notes, P n) → (∀ n ∈ x.notes, Q n) ∧ ∀ a, x.result = .ok a → R a

theorem Meets.pure {a : α} (h : R a) : (Logged.pure a : Logged ω ε α).Meets P Q R := by
  intro _
  refine ⟨by simp [Logged.pure], fun b hb => ?_⟩
  cases hb
  exact h

theorem Meets.noteAll {ns : List ω} {R : Unit → Prop} (h : ∀ n ∈ ns, Q n) (hr : R ()) :
    (Logged.noteAll ns : Logged ω ε Unit).Meets P Q R :=
  fun _ => ⟨h, fun _ _ => hr⟩

theorem Meets.note {n : ω} {R : Unit → Prop} (h : Q n) (hr : R ()) :
    (Logged.note n : Logged ω ε Unit).Meets P Q R :=
  .noteAll (by simpa using h) hr

theorem Meets.bind (hx : x.Meets P Q R) (hf : ∀ a, R a → (f a).Meets P Q S) :
    (Logged.bind x f).Meets P Q S := by
  intro hp
  obtain ⟨hq, hr⟩ := hx fun n hn => hp n (mem_notes_bind.2 (.inl hn))
  have hnext (a : α) (ha : x.result = .ok a) :=
    hf a (hr a ha) fun n hn => hp n (mem_notes_bind.2 (.inr ⟨a, ha, hn⟩))
  constructor
  · intro n hn
    rcases mem_notes_bind.1 hn with hn | ⟨a, ha, hn⟩
    · exact hq n hn
    · exact (hnext a ha).1 n hn
  · intro b hb
    obtain ⟨a, ha, hb⟩ := result_bind_eq_ok.1 hb
    exact (hnext a ha).2 b hb

/-- Whatever a computation notes, its answer satisfies `R` if it succeeds. -/
def Answers (x : Logged ω ε α) (R : α → Prop) : Prop :=
  ∀ a, x.result = .ok a → R a

theorem Answers.pure {a : α} (h : R a) : (Logged.pure a : Logged ω ε α).Answers R := by
  intro b hb
  cases hb
  exact h

theorem answers_trivial : x.Answers fun _ => True :=
  fun _ _ => trivial

theorem Answers.bind (hx : x.Answers R) (hf : ∀ a, R a → (f a).Answers S) :
    (Logged.bind x f).Answers S := by
  intro b hb
  obtain ⟨a, ha, hb⟩ := result_bind_eq_ok.1 hb
  exact hf a (hx a ha) b hb

theorem Answers.after (hf : ∀ a, (f a).Answers S) : (Logged.bind x f).Answers S :=
  answers_trivial.bind fun a _ => hf a

/-- What stops a computation. -/
def error? (x : Logged ω ε α) : Option ε :=
  match x.result with
  | .ok _ => none
  | .error e => some e

theorem error?_eq_some_iff {e : ε} : x.error? = some e ↔ x.result = .error e := by
  unfold error?
  cases x.result <;> simp

theorem error?_eq_none_iff : x.error? = none ↔ ∃ a, x.result = .ok a := by
  unfold error?
  cases x.result <;> simp

theorem error?_bind {o : Option ε} (h : ∀ a, (f a).error? = o) :
    (bind x f).error? = x.error?.or o := by
  obtain ⟨notes, result⟩ := x
  cases result with
  | error e => rfl
  | ok a => exact h a

theorem error?_bind_none (h : ∀ a, (f a).error? = none) : (bind x f).error? = x.error? := by
  rw [error?_bind h, Option.or_none]

/-- Computations with the same result, whose notes are related. -/
structure Alongside (T : List ω → List ω → Prop) (x y : Logged ω ε α) : Prop where
  notes : T x.notes y.notes
  result : x.result = y.result

theorem Alongside.bind {T : List ω → List ω → Prop} {y : Logged ω ε α} {g : α → Logged ω ε β}
    (happend : ∀ {a b c d}, T a b → T c d → T (a ++ c) (b ++ d)) (hx : Alongside T x y)
    (hf : ∀ a, x.result = .ok a → Alongside T (f a) (g a)) :
    Alongside T (Logged.bind x f) (Logged.bind y g) := by
  obtain ⟨notes, result⟩ := x
  obtain ⟨notes', result'⟩ := y
  obtain ⟨hnotes, hresult⟩ := hx
  cases hresult
  cases result with
  | error e => exact ⟨hnotes, rfl⟩
  | ok a => exact ⟨happend hnotes (hf a rfl).notes, (hf a rfl).result⟩

theorem Alongside.eq {y : Logged ω ε α} (h : Alongside Eq x y) : x = y := by
  obtain ⟨notes, result⟩ := x
  obtain ⟨hnotes, hresult⟩ := h
  cases hnotes
  cases hresult
  rfl

/-- `y` is a part of `x` that answers `b`. -/
structure Runs (x : Logged ω ε α) (y : Logged ω ε β) (b : β) : Prop where
  result : y.result = .ok b
  notes : ∀ n ∈ y.notes, n ∈ x.notes

theorem Runs.trans {γ : Type} {y : Logged ω ε β} {z : Logged ω ε γ} {b : β} {c : γ}
    (h : x.Runs y b) (h' : y.Runs z c) : x.Runs z c :=
  ⟨h'.result, fun n hn => h.notes n (h'.notes n hn)⟩

theorem runs_self {a : α} (h : x.result = .ok a) : x.Runs x a :=
  ⟨h, fun _ hn => hn⟩

theorem runs_of_bind {b : β} (h : (bind x f).result = .ok b) :
    ∃ a, (bind x f).Runs x a ∧ (bind x f).Runs (f a) b := by
  obtain ⟨a, ha, hb⟩ := result_bind_eq_ok.1 h
  exact ⟨a, ⟨ha, fun n hn => mem_notes_bind.2 (.inl hn)⟩,
    ⟨hb, fun n hn => mem_notes_bind.2 (.inr ⟨a, ha, hn⟩)⟩⟩

end Logged

end Apidoc
