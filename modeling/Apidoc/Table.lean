universe u v

namespace Apidoc

/-- Entries keyed by name, in the order in which the names first appeared. -/
structure Table (α : Type u) where
  entries : List (String × α) := []
  deriving DecidableEq

namespace Table

variable {α : Type u} {β : Type v}

def keys (t : Table α) : List String :=
  t.entries.map (·.1)

def values (t : Table α) : List α :=
  t.entries.map (·.2)

def size (t : Table α) : Nat :=
  t.entries.length

def isEmpty (t : Table α) : Bool :=
  t.entries.isEmpty

/-- The value of the first entry named `k`. -/
def find (k : String) : List (String × α) → Option α
  | [] => none
  | (k', v) :: rest => if k' = k then some v else find k rest

def get? (t : Table α) (k : String) : Option α :=
  find k t.entries

def contains (t : Table α) (k : String) : Bool :=
  (t.get? k).isSome

/-- Changes the first entry named `k`, or adds one at the end. -/
def write (k : String) (v : α) : List (String × α) → List (String × α)
  | [] => [(k, v)]
  | (k', v') :: rest => if k' = k then (k', v) :: rest else (k', v') :: write k v rest

/-- Gives `k` the value `v`: a known name keeps its position, a new one goes last. -/
def put (t : Table α) (k : String) (v : α) : Table α :=
  ⟨write k v t.entries⟩

/-- Gives `k` the value `v` unless it has one. -/
def putNew (t : Table α) (k : String) (v : α) : Table α :=
  if t.contains k then t else ⟨t.entries ++ [(k, v)]⟩

def putAll (t : Table α) (entries : List (String × α)) : Table α :=
  entries.foldl (fun t e => t.put e.1 e.2) t

def putAllNew (t : Table α) (entries : List (String × α)) : Table α :=
  entries.foldl (fun t e => t.putNew e.1 e.2) t

/-- The table written by putting the entries in order. -/
def ofList (entries : List (String × α)) : Table α :=
  ({} : Table α).putAll entries

def map (f : α → β) (t : Table α) : Table β :=
  ⟨t.entries.map fun e => (e.1, f e.2)⟩

/-- Whether two tables hold the same entries, in any order. -/
def same [DecidableEq α] (s t : Table α) : Bool :=
  s.size == t.size && s.entries.all fun e => t.get? e.1 == some e.2

@[simp] theorem get?_empty (k : String) : ({} : Table α).get? k = none := rfl

@[simp] theorem keys_empty : ({} : Table α).keys = [] := rfl

theorem find_write_same (k : String) (v : α) :
    (l : List (String × α)) → find k (write k v l) = some v
  | [] => by simp [write, find]
  | (k', v') :: rest => by
    by_cases h : k' = k <;> simp [write, find, h, find_write_same k v rest]

theorem find_write_other {k j : String} (v : α) (h : k ≠ j) :
    (l : List (String × α)) → find j (write k v l) = find j l
  | [] => by simp [write, find, h]
  | (k', v') :: rest => by
    by_cases hk : k' = k
    · subst hk; simp [write, find, h]
    · have ih := find_write_other v h rest
      simp only [write, if_neg hk, find, ih]

/-- Looking up after a `put`. -/
theorem get?_put (t : Table α) (k j : String) (v : α) :
    (t.put k v).get? j = if k = j then some v else t.get? j := by
  by_cases h : k = j
  · subst h; simp [put, get?, find_write_same]
  · simp [put, get?, h, find_write_other v h]

theorem find_append (j : String) (l m : List (String × α)) :
    find j (l ++ m) = (find j l).or (find j m) := by
  induction l with
  | nil => simp [find]
  | cons e l ih => by_cases h : e.1 = j <;> simp [find, h, ih]

/-- Looking up after a `putNew`. -/
theorem get?_putNew (t : Table α) (k j : String) (v : α) :
    (t.putNew k v).get? j = (t.get? j).or (if k = j then some v else none) := by
  unfold putNew
  by_cases hc : t.contains k
  · by_cases h : k = j
    · subst h
      obtain ⟨w, hw⟩ := Option.isSome_iff_exists.1 hc
      simp [hc, hw]
    · simp [hc, h]
  · simp [hc, get?, find_append, find]

/-- The names after a `put`. -/
theorem keys_put (t : Table α) (k : String) (v : α) :
    (t.put k v).keys = if k ∈ t.keys then t.keys else t.keys ++ [k] := by
  obtain ⟨l⟩ := t
  simp only [put, keys]
  induction l with
  | nil => simp [write]
  | cons e l ih =>
    by_cases h : e.1 = k
    · simp [write, h]
    · have h' : ¬ k = e.1 := fun hk => h hk.symm
      by_cases hm : k ∈ l.map (·.1) <;> simp_all [write]

theorem find_eq_none_iff {k : String} {l : List (String × α)} :
    find k l = none ↔ k ∉ l.map (·.1) := by
  induction l with
  | nil => simp [find]
  | cons e l ih =>
    by_cases h : e.1 = k
    · simp [find, h]
    · have h' : ¬ k = e.1 := fun hk => h hk.symm
      simp [find, h, h', ih]

theorem contains_iff {t : Table α} {k : String} : t.contains k = true ↔ k ∈ t.keys := by
  have := find_eq_none_iff (k := k) (l := t.entries)
  unfold contains get? keys
  cases h : find k t.entries <;> simp_all

/-- The names after a `putNew`. -/
theorem keys_putNew (t : Table α) (k : String) (v : α) :
    (t.putNew k v).keys = if k ∈ t.keys then t.keys else t.keys ++ [k] := by
  unfold putNew
  by_cases h : t.contains k
  · simp [h, contains_iff.1 h]
  · have h' : k ∉ t.keys := fun hk => h (contains_iff.2 hk)
    rw [if_neg h, if_neg h']
    simp [keys]

end Table

end Apidoc
