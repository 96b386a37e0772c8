import Apidoc.Proofs.Source.Peg
import Apidoc.Source.Definitions

namespace Apidoc.Source

open Rule Peg

/-- The path that names a mark: words with separators between them, and perhaps one before them. -/
structure MarkPath where
  rooted : Bool := false
  first : String
  more : List String := []

def pathSeparator : List Token := [.punct ':' true, .punct ':' false]

namespace MarkPath

def moreTokens (words : List String) : List Token :=
  words.flatMap fun w => pathSeparator ++ [.ident w]

def tokens (p : MarkPath) : List Token :=
  (if p.rooted then pathSeparator else []) ++ .ident p.first :: moreTokens p.more

/-- The name that a path of one word is. -/
def name? : MarkPath → Option String
  | ⟨false, name, []⟩ => some name
  | _ => none

/-- What can come next where the path of a mark has ended. -/
def ends : List (Option Token) :=
  [none, some (.punct ',' false), some (.punct ',' true), some (.punct '=' false),
    some (.punct '=' true), some (.opening .paren), some (.opening .bracket),
    some (.opening .brace)]

variable {p : MarkPath} {words : List String} {rest : List Token} {n : Nat}

theorem runs_moreTokens (hrest : rest.head? ∈ ends) :
    Runs body (words.length + 10) (.many (.seq (op "::") anyWord)) (moreTokens words ++ rest)
      (some ((moreTokens words).map .leaf, rest)) := by
  induction words with
  | nil => exact .passes_among (by decide) hrest
  | cons w words ih =>
    have hword : Runs body 10 (.seq (op "::") anyWord)
        (pathSeparator ++ .ident w :: (moreTokens words ++ rest))
        (some ((pathSeparator ++ [Token.ident w]).map .leaf, moreTokens words ++ rest)) :=
      .of_run fun _ => rfl
    exact (hword.mono (k := words.length + 10) (by omega)).many_goes_on ih

theorem runs_path (hrest : rest.head? ∈ ends) :
    Runs body (p.more.length + 20) (.rule .metaPath) (p.tokens ++ rest)
      (some ([.node .metaPath (p.tokens.map .leaf)], rest)) := by
  obtain ⟨rooted, first, more⟩ := p
  have hmore : Runs body (more.length + 10) (.many (.seq (op "::") anyWord))
      (moreTokens more ++ rest) (some ((moreTokens more).map .leaf, rest)) :=
    runs_moreTokens hrest
  have hchain : Runs body (more.length + 12) (chain anyWord (op "::"))
      (.ident first :: (moreTokens more ++ rest))
      (some (.leaf (.ident first) :: (moreTokens more).map .leaf, rest)) :=
    .seq (.token rfl) (hmore.mono (by omega))
  cases rooted with
  | false =>
    have hlead : Runs body 10 (opt (op "::")) (.ident first :: (moreTokens more ++ rest))
        (some ([], .ident first :: (moreTokens more ++ rest))) := .of_passes rfl
    exact .rule (.seq (hlead.mono (by simp only; omega)) (hchain.mono (by simp only; omega)))
  | true =>
    have hlead : Runs body 10 (opt (op "::"))
        (pathSeparator ++ .ident first :: (moreTokens more ++ rest))
        (some (pathSeparator.map .leaf, .ident first :: (moreTokens more ++ rest))) :=
      .of_run fun _ => rfl
    exact .rule (.seq (hlead.mono (by simp only; omega)) (hchain.mono (by simp only; omega)))

theorem length_moreTokens : (moreTokens words).length = 3 * words.length := by
  induction words with
  | nil => rfl
  | cons w words ih =>
    rw [moreTokens, List.flatMap_cons, ← moreTokens, List.length_append, ih]
    simp only [pathSeparator, List.cons_append, List.nil_append, List.length_cons, List.length_nil]
    omega

theorem markPath?_tokens (hrest : rest.head? ∈ ends) :
    markPath? (p.tokens ++ rest) = some (p.name?, rest) := by
  have hnot : Runs body 10 (.unless (op "::")) rest (some ([], rest)) :=
    .passes_among (by decide) hrest
  have hruns : Runs body (p.more.length + 21) (all [.rule .metaPath, .unless (op "::")])
      (p.tokens ++ rest) (some ([.node .metaPath (p.tokens.map .leaf)], rest)) :=
    .seq (runs_path hrest) (hnot.mono (by omega))
  have hfuel : p.more.length + 21 ≤ fuelFor (p.tokens ++ rest).length := by
    rw [tokens, fuelFor, List.length_append, List.length_append, List.length_cons,
      length_moreTokens]
    omega
  rw [markPath?, hruns _ hfuel]
  obtain ⟨rooted, first, more⟩ := p
  cases rooted with
  | true => rfl
  | false =>
    cases more with
    | nil => rfl
    | cons w more => rfl

end MarkPath

/-- What can stand behind a mark: nothing, or a comma. -/
def EndsMark (rest : List Token) : Prop :=
  rest = [] ∨ ∃ joint after, rest = .punct ',' joint :: after

/-- Tokens that an expression takes up as a whole wherever they stand as the value of a mark. -/
def IsValue (value : List Token) : Prop :=
  ∀ rest, EndsMark rest → skipExpr? (value ++ rest) = some rest

/-- What follows the path of a mark. -/
inductive MarkTail where
  | flag
  | assigned (joint : Bool) (value : List Token) (h : IsValue value)
  | group (d : Delimiter) (inner : List Token)

/-- A mark as it is written in an attribute. -/
structure Mark where
  path : MarkPath
  tail : MarkTail

def MarkTail.tokens : MarkTail → List Token
  | flag => []
  | assigned joint value _ => .punct '=' joint :: value
  | group d inner => .opening d :: (inner ++ [.closing d])

/-- The text with which an assigned value begins. -/
def MarkTail.text? : MarkTail → Option String
  | assigned _ (.literal (.string text) :: _) _ => some text
  | _ => none

theorem MarkTail.eq_assigned_of_text? {tail : MarkTail} {text : String}
    (htext : tail.text? = some text) :
    ∃ joint value h, tail = .assigned joint (.literal (.string text) :: value) h := by
  unfold text? at htext
  split at htext
  · cases htext
    exact ⟨_, _, _, rfl⟩
  · cases htext

/-- Whether a value is a single text. -/
def isText : List Token → Bool
  | [.literal (.string _)] => true
  | _ => false

namespace Mark

def tokens (m : Mark) : List Token :=
  m.path.tokens ++ m.tail.tokens

def name? (m : Mark) : Option String :=
  m.path.name?

/-- The text that a mark renames to. -/
def rename? (m : Mark) : Option String :=
  if m.name? = some "rename" then m.tail.text? else none

def skips (m : Mark) : Bool :=
  m.name? = some "skip" ∨ m.name? = some "skip_serializing"

/-- Whether nothing that stands behind a mark in its attribute is read. -/
def stops (m : Mark) : Bool :=
  match m.tail with
  | .flag => m.name? = some "rename"
  | .assigned _ value _ => m.skips ∨ m.name? = some "rename" ∧ isText value = false
  | .group .. => true

/-- What a mark says in addition to others. -/
def addTo (m : Mark) (marks : Marks) : Marks where
  rename := m.rename?.or marks.rename
  skip := marks.skip || m.skips

variable {m : Mark} {marks : Marks} {text : String}

theorem skips_eq_false (h : m.name? = some "rename") : m.skips = false := by
  rw [skips, h]
  rfl

theorem rename?_eq_none (h : m.name? ≠ some "rename") : m.rename? = none :=
  if_neg h

theorem addTo_rename (hname : m.name? = some "rename") (htext : m.tail.text? = some text) :
    m.addTo marks = { marks with rename := some text } := by
  rw [addTo, rename?, if_pos hname, htext, skips_eq_false hname, Bool.or_false]
  rfl

theorem addTo_skip (hskips : m.skips = true) : m.addTo marks = { marks with skip := true } := by
  have hname : m.name? ≠ some "rename" := by
    intro h
    rw [skips_eq_false h] at hskips
    cases hskips
  rw [addTo, rename?_eq_none hname, hskips, Bool.or_true]
  rfl

theorem addTo_nothing (hrename : m.rename? = none) (hskips : m.skips = false) :
    m.addTo marks = marks := by
  rw [addTo, hrename, hskips, Bool.or_false]
  rfl

end Mark

section Values

variable {rest value : List Token} {l : Literal}

theorem EndsMark.head (h : EndsMark rest) : rest.head? ∈ MarkPath.ends := by
  rcases h with rfl | ⟨joint, after, rfl⟩
  · decide
  · rw [List.head?_cons]
    cases joint <;> decide

theorem skipExpr?_literal (h : EndsMark rest) : skipExpr? (.literal l :: rest) = some rest := by
  obtain ⟨trees, hruns⟩ : ∃ trees, Runs body 40 anyExpr (.literal l :: rest)
      (some (trees, rest)) := by
    rcases h with rfl | ⟨joint, after, rfl⟩
    · exact ⟨_, .of_run fun _ => rfl⟩
    · exact ⟨_, .of_run fun _ => rfl⟩
  have hfuel : 40 ≤ fuelFor (Token.literal l :: rest).length := by
    rw [fuelFor, List.length_cons]
    omega
  rw [skipExpr?, hruns _ hfuel]
  rfl

theorem isValue_literal (l : Literal) : IsValue [.literal l] :=
  fun _ h => skipExpr?_literal h

/-- A value whose first token is a literal goes on with no comma. -/
theorem IsValue.not_comma {joint : Bool} (h : IsValue (.literal l :: .punct ',' joint :: value)) :
    False := by
  have hall := h [] (.inl rfl)
  rw [List.append_nil, skipExpr?_literal (.inr ⟨joint, value, rfl⟩)] at hall
  cases hall

end Values

section Reading

variable {m : Mark} {ms : List Mark} {marks : Marks} {ts rest left value : List Token}
  {name : Option String} {joint : Bool} {text : String} {fuel : Nat}

theorem readMark_rename
    (h : markPath? ts = some (some "rename", .punct '=' joint :: .literal (.string text) :: left)) :
    readMark marks ts = ({ marks with rename := some text }, some left) := by
  rw [readMark, h]
  rfl

theorem readMark_rename_malformed (h : markPath? ts = some (some "rename", left))
    (hleft : ∀ joint text after, left ≠ .punct '=' joint :: .literal (.string text) :: after) :
    readMark marks ts = (marks, none) := by
  rw [readMark, h]
  split
  · rfl
  · rename_i heq
    cases heq
    exact (hleft _ _ _ rfl).elim
  · rfl
  · rename_i hne heq
    cases heq
    exact (hne rfl).elim

theorem readMark_skip (h : markPath? ts = some (name, left))
    (hname : name = some "skip" ∨ name = some "skip_serializing") :
    readMark marks ts = ({ marks with skip := true }, some left) := by
  rw [readMark, h]
  rcases hname with rfl | rfl <;> rfl

/-- A mark with another name says nothing; a value that is assigned to it is skipped. -/
theorem readMark_other (marks : Marks) (h : markPath? ts = some (name, left))
    (hrename : name ≠ some "rename")
    (hskip : ¬(name = some "skip" ∨ name = some "skip_serializing")) :
    (∀ joint value, left = .punct '=' joint :: value →
        readMark marks ts = (marks, skipExpr? value)) ∧
      ((∀ joint value, left ≠ .punct '=' joint :: value) →
        readMark marks ts = (marks, some left)) := by
  rw [readMark, h]
  split
  · rename_i heq
    cases heq
  · rename_i heq
    cases heq
    exact (hrename rfl).elim
  · rename_i heq
    cases heq
    exact (hrename rfl).elim
  · rename_i heq
    cases heq
    rw [if_neg hskip]
    refine ⟨?_, fun hleft => ?_⟩
    · rintro joint value rfl
      rfl
    · split
      · exact (hleft _ _ rfl).elim
      · rfl

theorem markPath?_mark (hrest : EndsMark rest) :
    markPath? (m.tokens ++ rest) = some (m.name?, m.tail.tokens ++ rest) := by
  have hends : (m.tail.tokens ++ rest).head? ∈ MarkPath.ends := by
    cases m.tail with
    | flag => exact hrest.head
    | assigned joint value h =>
      rw [MarkTail.tokens, List.cons_append, List.head?_cons]
      cases joint <;> decide
    | group d inner =>
      rw [MarkTail.tokens, List.cons_append, List.head?_cons]
      cases d <;> decide
  rw [Mark.tokens, List.append_assoc]
  exact MarkPath.markPath?_tokens hends

/-- Reading a mark takes over what it says, and leaves what stands behind it unless the mark stops
the reading. -/
def Mark.IsRead (m : Mark) : Prop :=
  ∀ marks rest, EndsMark rest → ∃ left, readMark marks (m.tokens ++ rest) = (m.addTo marks, left) ∧
    (m.stops = false → left = some rest) ∧
    (m.stops = true → ∀ joint after, left ≠ some (.punct ',' joint :: after))

theorem Mark.isRead_of_text (hname : m.name? = some "rename") (htext : m.tail.text? = some text) :
    m.IsRead := by
  obtain ⟨joint, value, h, htail⟩ := MarkTail.eq_assigned_of_text? htext
  intro marks rest hrest
  have hpath := markPath?_mark (m := m) hrest
  rw [hname, htail] at hpath
  refine ⟨some (value ++ rest), ?_, ?_, ?_⟩
  · rw [addTo_rename hname htext]
    exact readMark_rename hpath
  · intro hstops
    cases value with
    | nil => rfl
    | cons t value => simp [stops, htail, hname, isText] at hstops
  · rintro hstops joint' after hleft
    cases value with
    | nil => simp [stops, htail, skips_eq_false hname, isText] at hstops
    | cons t value =>
      cases hleft
      exact h.not_comma

theorem Mark.stops_without_text (hname : m.name? = some "rename") (htext : m.tail.text? = none) :
    m.stops = true := by
  unfold stops
  split
  · exact decide_eq_true hname
  · rename_i value h htail
    have hvalue : isText value = false := by
      rw [htail] at htext
      unfold isText
      split
      · cases htext
      · rfl
    exact decide_eq_true (.inr ⟨hname, hvalue⟩)
  · rfl

/-- A renaming without a text is malformed. -/
theorem Mark.isRead_without_text (hname : m.name? = some "rename") (htext : m.tail.text? = none) :
    m.IsRead := by
  intro marks rest hrest
  have hpath := markPath?_mark (m := m) hrest
  rw [hname] at hpath
  have hleft : ∀ joint text after,
      m.tail.tokens ++ rest ≠ .punct '=' joint :: .literal (.string text) :: after := by
    intro joint text after hleft
    cases htail : m.tail with
    | flag =>
      rw [htail] at hleft
      rcases hrest with rfl | ⟨_, _, rfl⟩ <;> cases hleft
    | group d inner =>
      rw [htail] at hleft
      cases hleft
    | assigned joint' value h =>
      rw [htail] at hleft htext
      cases value with
      | nil =>
        obtain ⟨_, rfl⟩ := List.cons.inj hleft
        rcases hrest with hrest | ⟨_, _, hrest⟩ <;> cases hrest
      | cons t value =>
        cases hleft
        cases htext
  have hstops := stops_without_text hname htext
  have hrename : m.rename? = none := by rw [rename?, if_pos hname, htext]
  refine ⟨none, ?_, by simp [hstops], by simp⟩
  rw [addTo_nothing hrename (skips_eq_false hname)]
  exact readMark_rename_malformed hpath hleft

theorem Mark.isRead_skip (hskips : m.skips = true) : m.IsRead := by
  intro marks rest hrest
  have hname : m.name? = some "skip" ∨ m.name? = some "skip_serializing" := by
    simpa [skips] using hskips
  refine ⟨some (m.tail.tokens ++ rest), ?_, ?_, ?_⟩
  · rw [addTo_skip hskips]
    exact readMark_skip (markPath?_mark hrest) hname
  · intro hstops
    cases htail : m.tail with
    | flag => rfl
    | group d inner => simp [stops, htail] at hstops
    | assigned joint value h => simp [stops, htail, hskips] at hstops
  · rintro hstops joint after hleft
    cases htail : m.tail with
    | flag =>
      have hrename : m.name? = some "rename" := by simpa [stops, htail] using hstops
      rw [skips_eq_false hrename] at hskips
      cases hskips
    | group d inner =>
      rw [htail] at hleft
      cases hleft
    | assigned joint' value h =>
      rw [htail] at hleft
      cases hleft

theorem Mark.isRead_other (hname : m.name? ≠ some "rename") (hskips : m.skips = false) :
    m.IsRead := by
  intro marks rest hrest
  have hnot : ¬(m.name? = some "skip" ∨ m.name? = some "skip_serializing") := by
    simpa [skips] using hskips
  obtain ⟨hassigned, hplain⟩ := readMark_other marks (markPath?_mark (m := m) hrest) hname hnot
  rw [addTo_nothing (rename?_eq_none hname) hskips]
  cases htail : m.tail with
  | flag =>
    refine ⟨some rest, ?_, fun _ => rfl, by simp [stops, htail, hname]⟩
    rw [htail] at hplain
    apply hplain
    rcases hrest with rfl | ⟨_, _, rfl⟩ <;> exact nofun
  | group d inner =>
    rw [htail] at hplain
    exact ⟨_, hplain nofun, by simp [stops, htail], nofun⟩
  | assigned joint value h =>
    refine ⟨some rest, ?_, fun _ => rfl, by simp [stops, htail, hname, hskips]⟩
    rw [hassigned joint (value ++ rest) (by rw [htail]; rfl), h rest hrest]

theorem Mark.isRead (m : Mark) : m.IsRead := by
  by_cases hname : m.name? = some "rename"
  · cases htext : m.tail.text? with
    | none => exact isRead_without_text hname htext
    | some text => exact isRead_of_text hname htext
  · cases hskips : m.skips with
    | true => exact isRead_skip hskips
    | false => exact isRead_other hname hskips

end Reading

section Listing

/-- Tokens that list marks with a comma between them, and perhaps one after the last. -/
inductive Listed : List Mark → List Token → Prop
  | nil : Listed [] []
  | last (m : Mark) : Listed [m] m.tokens
  | more (m : Mark) (joint : Bool) {ms : List Mark} {ts : List Token} (h : Listed ms ts) :
    Listed (m :: ms) (m.tokens ++ .punct ',' joint :: ts)

/-- The marks up to the first one that stops the reading. -/
def heeded : List Mark → List Mark
  | [] => []
  | m :: ms => if m.stops then [m] else m :: heeded ms

/-- Reads the tokens of an attribute. -/
def readGroup (marks : Marks) (ts : List Token) : Marks :=
  if ts.isEmpty then marks else readMarks ts.length marks ts

variable {ms : List Mark} {marks : Marks} {ts : List Token} {fuel : Nat}

theorem Mark.length_tokens_pos (m : Mark) : 0 < m.tokens.length := by
  rw [tokens, MarkPath.tokens, List.length_append, List.length_append, List.length_cons]
  omega

theorem readMarks_stops {marks' : Marks} {left : Option (List Token)}
    (h : readMark marks ts = (marks', left))
    (hleft : ∀ joint after, left ≠ some (.punct ',' joint :: after)) :
    readMarks (fuel + 1) marks ts = marks' := by
  rw [readMarks, h]
  split
  · rename_i heq
    cases heq
    exact (hleft _ _ rfl).elim
  · rename_i heq
    cases heq
    rfl

theorem readMarks_goes_on {marks' : Marks} {joint : Bool} {rest : List Token}
    (h : readMark marks ts = (marks', some (.punct ',' joint :: rest))) :
    readMarks (fuel + 1) marks ts =
      if rest.isEmpty then marks' else readMarks fuel marks' rest := by
  rw [readMarks, h]
  rfl

theorem readMarks_listed (h : Listed ms ts) (hfuel : ts.length ≤ fuel) :
    (if ts.isEmpty then marks else readMarks fuel marks ts) =
      (heeded ms).foldl (fun marks m => m.addTo marks) marks := by
  have hpos (m : Mark) := m.length_tokens_pos
  induction h generalizing fuel marks with
  | nil => rfl
  | last m =>
    obtain ⟨left, hread, hgo, hstop⟩ := m.isRead marks [] (.inl rfl)
    rw [List.append_nil] at hread
    have hne : m.tokens.isEmpty = false := by
      rw [List.isEmpty_eq_false_iff_exists_mem]
      exact List.exists_mem_of_length_pos (hpos m)
    obtain ⟨fuel, rfl⟩ := Nat.exists_eq_add_of_le' (Nat.lt_of_lt_of_le (hpos m) hfuel)
    have hall : heeded [m] = [m] := by
      rw [heeded, heeded, ite_self]
    have hleft : ∀ joint after, left ≠ some (.punct ',' joint :: after) := by
      cases hstops : m.stops with
      | true => exact hstop hstops
      | false =>
        rw [hgo hstops]
        exact nofun
    rw [hne, if_neg Bool.false_ne_true, readMarks_stops hread hleft, hall]
    rfl
  | @more m joint ms ts h ih =>
    have hne : (m.tokens ++ .punct ',' joint :: ts).isEmpty = false := by simp
    obtain ⟨left, hread, hgo, hstop⟩ := m.isRead marks (.punct ',' joint :: ts) (.inr ⟨_, _, rfl⟩)
    rw [List.length_append, List.length_cons] at hfuel
    obtain ⟨fuel, rfl⟩ := Nat.exists_eq_add_of_le' (Nat.le_trans (by omega : 1 ≤ _) hfuel)
    rw [hne, if_neg Bool.false_ne_true, heeded]
    cases hstops : m.stops with
    | true =>
      rw [readMarks_stops hread (hstop hstops)]
      rfl
    | false =>
      rw [hgo hstops] at hread
      rw [readMarks_goes_on hread, ih (by omega)]
      rfl

end Listing

end Apidoc.Source
