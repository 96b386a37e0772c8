namespace Apidoc

/-- The notes of a computation, in order, with its result. What was noted before a failure is
kept. -/
structure Logged (ω ε α : Type) where
  notes : List ω
  result : Except ε α

namespace Logged

variable {ω ω' ε α β : Type}

def pure (a : α) : Logged ω ε α := ⟨[], .ok a⟩

/-- The second computation runs only if the first one succeeds. -/
def bind (x : Logged ω ε α) (f : α → Logged ω ε β) : Logged ω ε β :=
  match x.result with
  | .ok a => ⟨x.notes ++ (f a).notes, (f a).result⟩
  | .error e => ⟨x.notes, .error e⟩

instance : Monad (Logged ω ε) where
  pure := pure
  bind := bind

def note (n : ω) : Logged ω ε Unit := ⟨[n], .ok ()⟩

def noteAll (ns : List ω) : Logged ω ε Unit := ⟨ns, .ok ()⟩

def ofExcept (x : Except ε α) : Logged ω ε α := ⟨[], x⟩

/-- The same computation with its notes told in other words. -/
def mapNotes (f : ω → ω') (x : Logged ω ε α) : Logged ω' ε α :=
  ⟨x.notes.map f, x.result⟩

@[simp] theorem pure_eq (a : α) : (Pure.pure a : Logged ω ε α) = ⟨[], .ok a⟩ := rfl

@[simp] theorem bind_eq (x : Logged ω ε α) (f : α → Logged ω ε β) : x >>= f = x.bind f := rfl

@[simp] theorem bind_ok (notes : List ω) (a : α) (f : α → Logged ω ε β) :
    bind ⟨notes, .ok a⟩ f = ⟨notes ++ (f a).notes, (f a).result⟩ := rfl

@[simp] theorem bind_error (notes : List ω) (e : ε) (f : α → Logged ω ε β) :
    bind ⟨notes, .error e⟩ f = ⟨notes, .error e⟩ := rfl

theorem bind_assoc {γ : Type} (x : Logged ω ε α) (f : α → Logged ω ε β) (g : β → Logged ω ε γ) :
    bind (bind x f) g = bind x fun a => bind (f a) g := by
  obtain ⟨notes, r⟩ := x
  cases r with
  | error e => rfl
  | ok a =>
    simp only [bind_ok]
    cases h : (f a).result <;> simp [bind, h]

end Logged

end Apidoc
