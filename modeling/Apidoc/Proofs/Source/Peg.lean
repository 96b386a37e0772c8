import Apidoc.Source.Peg

namespace Apidoc.Source.Peg

variable {R : Type} {body : R → Peg R}

section Steps

variable {a b : Peg R} {accepts : Token → Bool} {r : R} {t : Token} {ts : List Token} {fuel : Nat}

theorem run_token :
    run body (fuel + 1) (.token accepts) (t :: ts) =
      if accepts t then some ([.leaf t], ts) else none :=
  rfl

theorem run_rule :
    run body (fuel + 1) (.rule r) ts =
      match run body fuel (body r) ts with
      | some (children, rest) => some ([.node r children], rest)
      | none => none :=
  rfl

theorem run_seq :
    run body (fuel + 1) (.seq a b) ts =
      match run body fuel a ts with
      | some (x, rest) =>
        match run body fuel b rest with
        | some (y, rest) => some (x ++ y, rest)
        | none => none
      | none => none :=
  rfl

theorem run_alt :
    run body (fuel + 1) (.alt a b) ts =
      match run body fuel a ts with
      | some result => some result
      | none => run body fuel b ts :=
  rfl

theorem run_many :
    run body (fuel + 1) (.many a) ts =
      match run body fuel a ts with
      | some (x, rest) =>
        match run body fuel (.many a) rest with
        | some (y, rest) => some (x ++ y, rest)
        | none => none
      | none => some ([], ts) :=
  rfl

theorem run_unless :
    run body (fuel + 1) (.unless a) ts =
      match run body fuel a ts with
      | some _ => none
      | none => some ([], ts) :=
  rfl

end Steps

section Consuming

variable {ok : Token → Prop}

/-- An expression can consume some trees, all of whose tokens satisfy `ok`. What a lookahead says is
left open. -/
inductive Consumes (body : R → Peg R) (ok : Token → Prop) : Peg R → List (Tree R) → Prop
  | done : Consumes body ok .done []
  | token {accepts : Token → Bool} {t : Token} (h : accepts t = true) (ht : ok t) :
    Consumes body ok (.token accepts) [.leaf t]
  | rule {r : R} {children : List (Tree R)} (h : Consumes body ok (body r) children) :
    Consumes body ok (.rule r) [.node r children]
  | seq {a b : Peg R} {x y : List (Tree R)} (ha : Consumes body ok a x)
    (hb : Consumes body ok b y) : Consumes body ok (.seq a b) (x ++ y)
  | first {a b : Peg R} {x : List (Tree R)} (h : Consumes body ok a x) :
    Consumes body ok (.alt a b) x
  | second {a b : Peg R} {x : List (Tree R)} (h : Consumes body ok b x) :
    Consumes body ok (.alt a b) x
  | none {a : Peg R} : Consumes body ok (.many a) []
  | more {a : Peg R} {x y : List (Tree R)} (ha : Consumes body ok a x)
    (hb : Consumes body ok (.many a) y) : Consumes body ok (.many a) (x ++ y)
  | lookahead {a : Peg R} : Consumes body ok (.unless a) []

variable {p : Peg R} {ts rest : List Token} {trees : List (Tree R)} {fuel : Nat}

/-- A run consumes what its expression can consume. -/
theorem consumes_of_run (hok : ∀ t ∈ ts, ok t) (h : run body fuel p ts = some (trees, rest)) :
    Consumes body ok p trees ∧ ∀ t ∈ rest, ok t := by
  induction fuel generalizing p ts trees rest with
  | zero => cases h
  | succ fuel ih =>
    cases p with
    | done =>
      cases h
      exact ⟨.done, hok⟩
    | token accepts =>
      cases ts with
      | nil => cases h
      | cons t ts =>
        rw [run_token] at h
        split at h
        · rename_i haccepts
          cases h
          exact ⟨.token haccepts (hok t List.mem_cons_self), fun t' ht' =>
            hok t' (List.mem_cons_of_mem _ ht')⟩
        · cases h
    | rule r =>
      rw [run_rule] at h
      split at h
      · rename_i hrun
        cases h
        obtain ⟨hchildren, hrest⟩ := ih hok hrun
        exact ⟨.rule hchildren, hrest⟩
      · cases h
    | seq a b =>
      rw [run_seq] at h
      split at h
      · rename_i x middle hx
        obtain ⟨ha, hmiddle⟩ := ih hok hx
        split at h
        · rename_i hy
          cases h
          obtain ⟨hb, hrest⟩ := ih hmiddle hy
          exact ⟨.seq ha hb, hrest⟩
        · cases h
      · cases h
    | alt a b =>
      rw [run_alt] at h
      split at h
      · rename_i hx
        cases h
        obtain ⟨ha, hrest⟩ := ih hok hx
        exact ⟨.first ha, hrest⟩
      · obtain ⟨hb, hrest⟩ := ih hok h
        exact ⟨.second hb, hrest⟩
    | many a =>
      rw [run_many] at h
      split at h
      · rename_i x middle hx
        obtain ⟨ha, hmiddle⟩ := ih hok hx
        split at h
        · rename_i hy
          cases h
          obtain ⟨hb, hrest⟩ := ih hmiddle hy
          exact ⟨.more ha hb, hrest⟩
        · cases h
      · cases h
        exact ⟨.none, hok⟩
    | «unless» a =>
      rw [run_unless] at h
      split at h
      · cases h
      · cases h
        exact ⟨.lookahead, hok⟩

/-- The children of a node are what the rule of the node consumed. -/
theorem Consumes.children (h : Consumes body ok p trees) {r : R} {children : List (Tree R)}
    (hmem : .node r children ∈ trees) : Consumes body ok (body r) children := by
  induction h with
  | done => cases hmem
  | token => cases List.mem_singleton.1 hmem
  | rule h =>
    cases List.mem_singleton.1 hmem
    exact h
  | seq _ _ iha ihb => exact (List.mem_append.1 hmem).elim iha ihb
  | first _ ih => exact ih hmem
  | second _ ih => exact ih hmem
  | none => cases hmem
  | more _ _ iha ihb => exact (List.mem_append.1 hmem).elim iha ihb
  | lookahead => cases hmem

end Consuming

section Running

variable {a b p : Peg R} {accepts : Token → Bool} {r : R} {ts middle rest : List Token} {t : Token}
  {x y children : List (Tree R)} {result : Option (List (Tree R) × List Token)} {n k : Nat}

/-- With enough fuel an expression has this result. -/
def Runs (body : R → Peg R) (n : Nat) (p : Peg R) (ts : List Token)
    (result : Option (List (Tree R) × List Token)) : Prop :=
  ∀ fuel, n ≤ fuel → run body fuel p ts = result

theorem Runs.mono (h : Runs body n p ts result) (hk : n ≤ k) : Runs body k p ts result :=
  fun fuel hfuel => h fuel (Nat.le_trans hk hfuel)

/-- One step of fuel is spent on the expression itself. -/
theorem Runs.step (h : ∀ fuel, n ≤ fuel → run body (fuel + 1) p ts = result) :
    Runs body (n + 1) p ts result := by
  intro fuel hfuel
  obtain ⟨fuel, rfl⟩ := Nat.exists_eq_add_of_le' hfuel
  exact h (fuel + n) (Nat.le_add_left _ _)

namespace Runs

theorem of_run (h : ∀ fuel, run body (fuel + n) p ts = result) : Runs body n p ts result := by
  intro fuel hfuel
  obtain ⟨fuel, rfl⟩ := Nat.exists_eq_add_of_le' hfuel
  exact h fuel

theorem done : Runs body (n + 1) .done ts (some ([], ts)) :=
  .step fun _ _ => rfl

theorem token (h : accepts t = true) :
    Runs body (n + 1) (.token accepts) (t :: ts) (some ([.leaf t], ts)) :=
  .step fun _ _ => by rw [run_token, if_pos h]

theorem token_fails (h : ¬accepts t = true) :
    Runs body (n + 1) (.token accepts) (t :: ts) none :=
  .step fun _ _ => by rw [run_token, if_neg h]

theorem rule (h : Runs body n (body r) ts (some (children, rest))) :
    Runs body (n + 1) (.rule r) ts (some ([.node r children], rest)) :=
  .step fun fuel hfuel => by rw [run_rule, h fuel hfuel]

theorem rule_fails (h : Runs body n (body r) ts none) : Runs body (n + 1) (.rule r) ts none :=
  .step fun fuel hfuel => by rw [run_rule, h fuel hfuel]

theorem seq (ha : Runs body n a ts (some (x, middle)))
    (hb : Runs body n b middle (some (y, rest))) :
    Runs body (n + 1) (.seq a b) ts (some (x ++ y, rest)) :=
  .step fun fuel hfuel => by
    simp only [run_seq, ha fuel hfuel, hb fuel hfuel]

theorem seq_fails (h : Runs body n a ts none) : Runs body (n + 1) (.seq a b) ts none :=
  .step fun fuel hfuel => by rw [run_seq, h fuel hfuel]

theorem seq_fails_second (ha : Runs body n a ts (some (x, middle)))
    (hb : Runs body n b middle none) : Runs body (n + 1) (.seq a b) ts none :=
  .step fun fuel hfuel => by
    simp only [run_seq, ha fuel hfuel, hb fuel hfuel]

theorem alt (h : Runs body n a ts (some (x, rest))) :
    Runs body (n + 1) (.alt a b) ts (some (x, rest)) :=
  .step fun fuel hfuel => by rw [run_alt, h fuel hfuel]

theorem alt_second (ha : Runs body n a ts none) (hb : Runs body n b ts result) :
    Runs body (n + 1) (.alt a b) ts result :=
  .step fun fuel hfuel => by rw [run_alt, ha fuel hfuel, hb fuel hfuel]

theorem many_stops (h : Runs body n a ts none) :
    Runs body (n + 1) (.many a) ts (some ([], ts)) :=
  .step fun fuel hfuel => by rw [run_many, h fuel hfuel]

theorem many_goes_on (ha : Runs body n a ts (some (x, middle)))
    (hb : Runs body n (.many a) middle (some (y, rest))) :
    Runs body (n + 1) (.many a) ts (some (x ++ y, rest)) :=
  .step fun fuel hfuel => by
    simp only [run_many, ha fuel hfuel, hb fuel hfuel]

theorem absent (h : Runs body n a ts none) : Runs body (n + 1) (.unless a) ts (some ([], ts)) :=
  .step fun fuel hfuel => by rw [run_unless, h fuel hfuel]

theorem absent_fails (h : Runs body n a ts (some (x, rest))) :
    Runs body (n + 1) (.unless a) ts none :=
  .step fun fuel hfuel => by rw [run_unless, h fuel hfuel]

theorem ahead (h : Runs body n a ts (some (x, rest))) :
    Runs body (n + 2) (Peg.ahead a) ts (some ([], ts)) :=
  .absent (.absent_fails h)

end Runs

end Running

section Glancing

/-- What an expression does: it fails, it succeeds and consumes nothing, or it succeeds. -/
inductive Verdict where
  | fails
  | passes
  | succeeds
  deriving DecidableEq

/-- What the next token alone decides about an expression, if anything. At the end there is no next
token. -/
def glance (body : R → Peg R) : Nat → Peg R → Option Token → Option Verdict
  | 0, _, _ => none
  | fuel + 1, p, next =>
    match p with
    | .done => some .passes
    | .token accepts => some (if next.any accepts then .succeeds else .fails)
    | .rule r =>
      (glance body fuel (body r) next).map fun
        | .fails => .fails
        | _ => .succeeds
    | .seq a b =>
      (glance body fuel a next).bind fun
        | .fails => some .fails
        | .passes => glance body fuel b next
        | .succeeds => none
    | .alt a b =>
      (glance body fuel a next).bind fun
        | .fails => glance body fuel b next
        | v => some v
    | .many a =>
      (glance body fuel a next).bind fun
        | .fails => some .passes
        | _ => none
    | .unless a =>
      (glance body fuel a next).map fun
        | .fails => .passes
        | _ => .fails

/-- The results that a verdict allows. -/
def Verdict.Allows (ts : List Token) (result : Option (List (Tree R) × List Token)) :
    Verdict → Prop
  | .fails => result = none
  | .passes => result = some ([], ts)
  | .succeeds => ∃ x rest, result = some (x, rest)

variable {p : Peg R} {ts : List Token} {n : Nat} {v : Verdict}

/-- With enough fuel an expression does what a verdict says. -/
def Decides (body : R → Peg R) (n : Nat) (p : Peg R) (ts : List Token) (v : Verdict) : Prop :=
  ∃ result, v.Allows ts result ∧ Runs body n p ts result

namespace Decides

variable {a b : Peg R} {r : R}

theorem fails (h : Decides body n p ts .fails) : Runs body n p ts none := by
  obtain ⟨_, hallows, hruns⟩ := h
  cases hallows
  exact hruns

theorem passes (h : Decides body n p ts .passes) : Runs body n p ts (some ([], ts)) := by
  obtain ⟨_, hallows, hruns⟩ := h
  cases hallows
  exact hruns

theorem succeeds (h : Decides body n p ts .succeeds) :
    ∃ x rest, Runs body n p ts (some (x, rest)) := by
  obtain ⟨_, ⟨x, rest, rfl⟩, hruns⟩ := h
  exact ⟨x, rest, hruns⟩

theorem token {accepts : Token → Bool} : Decides body (n + 1) (.token accepts) ts
    (if ts.head?.any accepts then .succeeds else .fails) := by
  cases ts with
  | nil => exact ⟨none, rfl, .step fun _ _ => rfl⟩
  | cons t ts =>
    rw [List.head?_cons, Option.any_some]
    split
    · rename_i ht
      exact ⟨_, ⟨_, _, rfl⟩, .token ht⟩
    · rename_i ht
      exact ⟨none, rfl, .token_fails ht⟩

theorem rule : Decides body n (body r) ts v → Decides body (n + 1) (.rule r) ts
    (match v with
      | .fails => .fails
      | _ => .succeeds) := by
  intro h
  cases v with
  | fails => exact ⟨none, rfl, h.fails.rule_fails⟩
  | passes => exact ⟨_, ⟨_, _, rfl⟩, h.passes.rule⟩
  | succeeds =>
    obtain ⟨x, rest, hruns⟩ := h.succeeds
    exact ⟨_, ⟨_, _, rfl⟩, hruns.rule⟩

theorem seq (ha : Decides body n a ts .passes) (hb : Decides body n b ts v) :
    Decides body (n + 1) (.seq a b) ts v := by
  cases v with
  | fails => exact ⟨none, rfl, ha.passes.seq_fails_second hb.fails⟩
  | passes => exact ⟨_, rfl, ha.passes.seq hb.passes⟩
  | succeeds =>
    obtain ⟨x, rest, hruns⟩ := hb.succeeds
    exact ⟨_, ⟨_, _, rfl⟩, ha.passes.seq hruns⟩

theorem alt (h : Decides body n a ts v) (hv : v ≠ .fails) :
    Decides body (n + 1) (.alt a b) ts v := by
  cases v with
  | fails => exact (hv rfl).elim
  | passes => exact ⟨_, rfl, h.passes.alt⟩
  | succeeds =>
    obtain ⟨x, rest, hruns⟩ := h.succeeds
    exact ⟨_, ⟨_, _, rfl⟩, hruns.alt⟩

theorem alt_second (ha : Decides body n a ts .fails) (hb : Decides body n b ts v) :
    Decides body (n + 1) (.alt a b) ts v := by
  obtain ⟨result, hallows, hruns⟩ := hb
  exact ⟨result, hallows, ha.fails.alt_second hruns⟩

theorem absent : Decides body n a ts v → Decides body (n + 1) (.unless a) ts
    (match v with
      | .fails => .passes
      | _ => .fails) := by
  intro h
  cases v with
  | fails => exact ⟨_, rfl, h.fails.absent⟩
  | passes => exact ⟨none, rfl, h.passes.absent_fails⟩
  | succeeds =>
    obtain ⟨x, rest, hruns⟩ := h.succeeds
    exact ⟨none, rfl, hruns.absent_fails⟩

end Decides

/-- What the next token decides is what a run does, whatever comes after it. -/
theorem decides_of_glance (h : glance body n p ts.head? = some v) : Decides body n p ts v := by
  induction n generalizing p v with
  | zero => cases h
  | succ n ih =>
    cases p with
    | done =>
      cases h
      exact ⟨_, rfl, .done⟩
    | token accepts =>
      cases h
      exact .token
    | rule r =>
      obtain ⟨w, hr, rfl⟩ := Option.map_eq_some_iff.1 h
      exact (ih hr).rule
    | seq a b =>
      obtain ⟨w, ha, h⟩ := Option.bind_eq_some_iff.1 h
      cases w with
      | fails =>
        cases h
        exact ⟨none, rfl, (ih ha).fails.seq_fails⟩
      | passes => exact (ih ha).seq (ih h)
      | succeeds => cases h
    | alt a b =>
      obtain ⟨w, ha, h⟩ := Option.bind_eq_some_iff.1 h
      cases w with
      | fails => exact (ih ha).alt_second (ih h)
      | passes =>
        cases h
        exact (ih ha).alt nofun
      | succeeds =>
        cases h
        exact (ih ha).alt nofun
    | many a =>
      obtain ⟨w, ha, h⟩ := Option.bind_eq_some_iff.1 h
      cases w with
      | fails =>
        cases h
        exact ⟨_, rfl, (ih ha).fails.many_stops⟩
      | passes => cases h
      | succeeds => cases h
    | «unless» a =>
      obtain ⟨w, ha, rfl⟩ := Option.map_eq_some_iff.1 h
      exact (ih ha).absent

theorem Runs.of_fails (h : glance body n p ts.head? = some .fails) : Runs body n p ts none :=
  (decides_of_glance h).fails

theorem Runs.of_passes (h : glance body n p ts.head? = some .passes) :
    Runs body n p ts (some ([], ts)) :=
  (decides_of_glance h).passes

theorem Runs.fails_among {nexts : List (Option Token)}
    (h : ∀ next ∈ nexts, glance body n p next = some .fails) (hts : ts.head? ∈ nexts) :
    Runs body n p ts none :=
  .of_fails (h _ hts)

theorem Runs.passes_among {nexts : List (Option Token)}
    (h : ∀ next ∈ nexts, glance body n p next = some .passes) (hts : ts.head? ∈ nexts) :
    Runs body n p ts (some ([], ts)) :=
  .of_passes (h _ hts)

end Glancing

end Apidoc.Source.Peg
