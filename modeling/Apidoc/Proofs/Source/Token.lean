import Apidoc.Source.Token

namespace Apidoc

namespace Text

/-- The blanks beyond the first 128 code points, with the marks that are no part of a name. -/
def blankRanges : List (Nat × Nat) :=
  [(0x85, 0x85), (0xA0, 0xA0), (0x1680, 0x1680), (0x2000, 0x200A), (0x200E, 0x200F),
    (0x2028, 0x2029), (0x202F, 0x202F), (0x205F, 0x205F), (0x3000, 0x3000), (0xFEFF, 0xFEFF)]

/-- Whether no range of `rs` meets a range of `ss`. -/
def apart (rs ss : List (Nat × Nat)) : Bool :=
  rs.all fun r => ss.all fun s => s.2.blt r.1 || r.2.blt s.1

variable {n : Nat} {rs ss : List (Nat × Nat)}

theorem inRanges_eq_false_of_apart (h : apart rs ss = true) (hn : inRanges n rs = true) :
    inRanges n ss = false := by
  obtain ⟨r, hr, hin⟩ := List.any_eq_true.1 hn
  simp only [Bool.and_eq_true, decide_eq_true_eq] at hin
  apply List.any_eq_false.2
  intro s hs
  have hrs := List.all_eq_true.1 (List.all_eq_true.1 h r hr) s hs
  simp only [Nat.blt_eq, Bool.or_eq_true] at hrs
  simp only [Bool.and_eq_true, decide_eq_true_eq]
  omega

end Text

namespace Source

open Text

variable {c : Char} {cs rest : List Char}

section Characters

/-- Characters that stand for themselves in a name: no blanks, no punctuation, no delimiters and no
quotes. -/
def isPlain (c : Char) : Bool :=
  !isSourceBlank c && !isPunct c && (opening? c).isNone && (closing? c).isNone && c != '"' &&
    c.toNat != 0xFEFF

theorem inRanges_blankRanges (h : isSourceBlank c = true) (hc : 0x80 ≤ c.toNat) :
    inRanges c.toNat blankRanges = true := by
  simp only [isSourceBlank, isBlank, Bool.or_eq_true, Bool.and_eq_true, decide_eq_true_eq,
    beq_iff_eq] at h
  simp only [inRanges, blankRanges, List.any_cons, List.any_nil, Bool.or_eq_true,
    Bool.and_eq_true, decide_eq_true_eq]
  omega

theorem apart_blankRanges : apart blankRanges (startRanges ++ innerRanges) = true := by
  decide +kernel

theorem isPlain_of_ascii : ∀ n < 0x80, isIdentRest (Char.ofNat n) = true →
    isPlain (Char.ofNat n) = true := by
  decide +kernel

theorem isPlain_of_isIdentRest (h : isIdentRest c = true) : isPlain c = true := by
  by_cases hc : c.toNat < 0x80
  · have hascii := isPlain_of_ascii c.toNat hc
    rw [Char.ofNat_toNat] at hascii
    exact hascii h
  · have hwide : 0x80 ≤ c.toNat := Nat.le_of_not_lt hc
    have hname : inRanges c.toNat (startRanges ++ innerRanges) = true := by
      rw [isIdentRest, if_neg hc] at h
      rwa [inRanges, List.any_append]
    have hranges : inRanges c.toNat blankRanges = false := by
      apply Bool.eq_false_iff.2
      intro hblank
      have hnone := inRanges_eq_false_of_apart apart_blankRanges hblank
      rw [hname] at hnone
      cases hnone
    have hblank : isSourceBlank c = false := by
      apply Bool.eq_false_iff.2
      intro hblank
      rw [inRanges_blankRanges hblank hwide] at hranges
      cases hranges
    have hmark : c.toNat ≠ 0xFEFF := by
      intro hmark
      rw [hmark] at hranges
      cases hranges
    have hne (d : Char) (hd : d.toNat < 0x80) : c ≠ d := by
      rintro rfl
      exact hc hd
    simp [isPlain, hblank, hmark, isPunct, opening?, closing?, hne]

end Characters

section Identifiers

/-- Characters that are an identifier without the raw marker. -/
def IsWord (cs : List Char) : Prop :=
  ∃ c rest, cs = c :: rest ∧ isIdentStart c = true ∧ ∀ d ∈ rest, isIdentRest d = true

/-- A text that is one identifier, raw or not. -/
inductive IsIdent : String → Prop
  | word {cs : List Char} (h : IsWord cs) : IsIdent (String.ofList cs)
  | raw {cs : List Char} (h : IsWord cs)
    (hw : ["_", "super", "self", "Self", "crate"].contains (String.ofList cs) = false) :
    IsIdent ("r#" ++ String.ofList cs)

theorem isWord_cons (hc : isIdentStart c = true) (hcs : cs.all isIdentRest = true) :
    IsWord (c :: cs) :=
  ⟨c, cs, rfl, hc, List.all_eq_true.1 hcs⟩

theorem isWord_of_takeIdent? {name : List Char} (h : takeIdent? cs = some (name, rest)) :
    IsWord name := by
  cases cs with
  | nil => cases h
  | cons c cs =>
    rw [takeIdent?] at h
    split at h
    · rename_i hc
      cases h
      exact ⟨c, _, rfl, hc, List.all_eq_true.1 List.all_takeWhile⟩
    · cases h

theorem isIdent_of_takeIdentAny? {name : String} (h : takeIdentAny? cs = some (name, rest)) :
    IsIdent name := by
  unfold takeIdentAny? at h
  split at h
  · rename_i rest'
    obtain ⟨⟨word, after⟩, hword, h⟩ := Option.bind_eq_some_iff.1 h
    simp only at h
    split at h
    · cases h
    · rename_i hw
      cases h
      exact .raw (isWord_of_takeIdent? hword) (Bool.eq_false_iff.2 hw)
  · obtain ⟨⟨word, after⟩, hword, h⟩ := Option.bind_eq_some_iff.1 h
    cases h
    exact .word (isWord_of_takeIdent? hword)

/-- Whether a token is no identifier, or else one that is written as such. -/
def Token.Written : Token → Prop
  | .ident name => IsIdent name
  | _ => True

theorem written_docTokens {inner : Bool} {text : List Char} :
    ∀ t ∈ docTokens inner text, t.Written := by
  have hdoc : IsIdent "doc" := by
    have hword : IsWord ['d', 'o', 'c'] := isWord_cons (by decide) (by decide)
    exact .word hword
  cases inner <;> simp [docTokens, Token.Written, hdoc]

theorem written_of_docComment? {tokens : List Token} (h : docComment? cs = some (tokens, rest)) :
    ∀ t ∈ tokens, t.Written := by
  have hdone (inner : Bool) (text after : List Char)
      (h : (if lineBreaksOk text = true then some (docTokens inner text, after) else none) =
        some (tokens, rest)) : ∀ t ∈ tokens, t.Written := by
    split at h
    · cases h
      exact written_docTokens
    · cases h
  unfold docComment? at h
  simp only [bind, Option.bind_some] at h
  split at h
  · exact hdone _ _ _ h
  · split at h
    · obtain ⟨_, _, h⟩ := Option.bind_eq_some_iff.1 h
      exact hdone _ _ _ h
    · split at h
      · exact hdone _ _ _ h
      · split at h
        · obtain ⟨_, _, h⟩ := Option.bind_eq_some_iff.1 h
          exact hdone _ _ _ h
        · cases h

theorem written_of_takeLiteral? {t : Token} (h : takeLiteral? cs = some (t, rest)) :
    t.Written := by
  unfold takeLiteral? at h
  split at h
  · cases h
    trivial
  · split at h
    · obtain ⟨_, _, he⟩ := Option.map_eq_some_iff.1 h
      cases he
      trivial
    · obtain ⟨_, _, he⟩ := Option.map_eq_some_iff.1 h
      cases he
      trivial
    · obtain ⟨_, _, he⟩ := Option.map_eq_some_iff.1 h
      cases he
      trivial
    · obtain ⟨_, _, he⟩ := Option.map_eq_some_iff.1 h
      cases he
      trivial
    · split at h
      · cases h
        trivial
      · obtain ⟨_, _, he⟩ := Option.map_eq_some_iff.1 h
        cases he
        trivial

theorem written_of_takePunct? {t : Token} (h : takePunct? cs = some (t, rest)) : t.Written := by
  unfold takePunct? at h
  split at h
  · split at h
    · cases h
    · split at h
      · obtain ⟨⟨_, after⟩, _, h⟩ := Option.bind_eq_some_iff.1 h
        simp only at h
        split at h
        · cases h
        · cases h
          trivial
      · cases h
        trivial
  · cases h

theorem written_of_takeLeaf? {t : Token} (h : takeLeaf? cs = some (t, rest)) : t.Written := by
  unfold takeLeaf? at h
  split at h
  · rename_i hliteral
    cases h
    exact written_of_takeLiteral? hliteral
  · split at h
    · rename_i hpunct
      cases h
      exact written_of_takePunct? hpunct
    · split at h
      · cases h
      · obtain ⟨⟨name, after⟩, hident, he⟩ := Option.map_eq_some_iff.1 h
        cases he
        exact isIdent_of_takeIdentAny? hident

/-- The identifiers among the tokens of a text are written as such. -/
theorem written_tokensFrom {fuel : Nat} {stack : List Delimiter} {tokens : List Token}
    (h : tokensFrom fuel stack cs = some tokens) : ∀ t ∈ tokens, t.Written := by
  induction fuel generalizing stack cs tokens with
  | zero => cases h
  | succ fuel ih =>
    have hcons {stack : List Delimiter} {cs : List Char} {t : Token} (ht : t.Written)
        (hrest : (tokensFrom fuel stack cs).map (t :: ·) = some tokens) :
        ∀ t ∈ tokens, t.Written := by
      obtain ⟨after, hafter, rfl⟩ := Option.map_eq_some_iff.1 hrest
      exact List.forall_mem_cons.2 ⟨ht, ih hafter⟩
    unfold tokensFrom at h
    split at h
    · exact ih h
    · split at h
      · rename_i hdoc
        obtain ⟨after, hafter, rfl⟩ := Option.map_eq_some_iff.1 h
        exact List.forall_mem_append.2 ⟨written_of_docComment? hdoc, ih hafter⟩
      · split at h
        · split at h
          · cases h
            exact List.forall_mem_nil _
          · cases h
        · split at h
          · exact hcons (t := .opening _) trivial h
          · split at h
            · split at h
              · split at h
                · exact hcons (t := .closing _) trivial h
                · cases h
              · cases h
            · obtain ⟨⟨t, after⟩, hleaf, h⟩ := Option.bind_eq_some_iff.1 h
              obtain ⟨tokens, hafter, he⟩ := Option.bind_eq_some_iff.1 h
              cases he
              exact List.forall_mem_cons.2 ⟨written_of_takeLeaf? hleaf, ih hafter⟩

end Identifiers

section Lexing

variable {stack : List Delimiter} {tokens : List Token} {tail follow : List Char}

/-- With enough fuel the characters are cut into these tokens. -/
def Lexes (stack : List Delimiter) (cs : List Char) (tokens : List Token) : Prop :=
  ∀ fuel, cs.length < fuel → tokensFrom fuel stack cs = some tokens

theorem lexes_nil : Lexes [] [] [] := by
  intro fuel hfuel
  cases fuel with
  | zero => cases hfuel
  | succ fuel => rfl

theorem Lexes.space (h : Lexes stack rest tokens) : Lexes stack (' ' :: rest) tokens := by
  intro fuel hfuel
  cases fuel with
  | zero => cases hfuel
  | succ fuel => exact h fuel (Nat.lt_of_succ_lt_succ hfuel)

theorem Lexes.opening {d : Delimiter} (h : Lexes (d :: stack) rest tokens)
    (hskip : skipOne? (c :: rest) = none) (hdoc : docComment? (c :: rest) = none)
    (hopen : opening? c = some d) : Lexes stack (c :: rest) (.opening d :: tokens) := by
  intro fuel hfuel
  cases fuel with
  | zero => cases hfuel
  | succ fuel =>
    have hrest := h fuel (Nat.lt_of_succ_lt_succ hfuel)
    rw [tokensFrom]
    simp only [hskip, hdoc, hopen, hrest, Option.map_some]

theorem Lexes.closing {d : Delimiter} (h : Lexes stack rest tokens)
    (hskip : skipOne? (c :: rest) = none) (hdoc : docComment? (c :: rest) = none)
    (hopen : opening? c = none) (hclose : closing? c = some d) :
    Lexes (d :: stack) (c :: rest) (.closing d :: tokens) := by
  intro fuel hfuel
  cases fuel with
  | zero => cases hfuel
  | succ fuel =>
    have hrest := h fuel (Nat.lt_of_succ_lt_succ hfuel)
    rw [tokensFrom]
    simp only [hskip, hdoc, hopen, hclose, hrest, if_pos, Option.map_some]

/-- A character that begins a token and is no delimiter. -/
theorem Lexes.leaf {t : Token} (h : Lexes stack rest tokens) (hlen : rest.length ≤ cs.length)
    (hskip : skipOne? (c :: cs) = none) (hdoc : docComment? (c :: cs) = none)
    (hopen : opening? c = none) (hclose : closing? c = none)
    (hleaf : takeLeaf? (c :: cs) = some (t, rest)) : Lexes stack (c :: cs) (t :: tokens) := by
  intro fuel hfuel
  cases fuel with
  | zero => cases hfuel
  | succ fuel =>
    have hrest := h fuel (Nat.lt_of_le_of_lt hlen (Nat.lt_of_succ_lt_succ hfuel))
    rw [tokensFrom]
    simp only [hskip, hdoc, hopen, hclose, hleaf]
    change ((tokensFrom fuel stack rest).bind fun after => some (t :: after)) = _
    rw [hrest, Option.bind_some]

theorem Lexes.parens (h : Lexes stack rest tokens) :
    Lexes stack ('(' :: ')' :: rest) (.opening .paren :: .closing .paren :: tokens) :=
  (h.closing rfl rfl rfl rfl).opening rfl rfl rfl

theorem Lexes.less (h : Lexes stack rest tokens) :
    Lexes stack ('<' :: rest) (.punct '<' (startsPunct rest) :: tokens) :=
  h.leaf (Nat.le_refl _) rfl rfl rfl rfl rfl

theorem Lexes.comma (h : Lexes stack rest tokens) :
    Lexes stack (',' :: rest) (.punct ',' (startsPunct rest) :: tokens) :=
  h.leaf (Nat.le_refl _) rfl rfl rfl rfl rfl

theorem Lexes.greater (h : Lexes stack rest tokens) :
    Lexes stack ('>' :: rest) (.punct '>' (startsPunct rest) :: tokens) :=
  h.leaf (Nat.le_refl _) rfl rfl rfl rfl rfl

end Lexing

section Names

variable {stack : List Delimiter} {tokens : List Token} {tail follow : List Char} {d : Char}
  {kind : StringKind}

theorem ne_of_isPlain (h : isPlain c = true) (hd : isPlain d = false) : c ≠ d := by
  rintro rfl
  rw [h] at hd
  cases hd

theorem not_delimiter_of_isPlain (h : isPlain c = true) :
    opening? c = none ∧ closing? c = none := by
  simp only [isPlain, Bool.and_eq_true, Option.isNone_iff_eq_none] at h
  exact ⟨h.1.1.1.2, h.1.1.2⟩

theorem isIdentRest_of_isIdentStart (h : isIdentStart c = true) : isIdentRest c = true := by
  unfold isIdentStart at h
  unfold isIdentRest
  split
  · rename_i hc
    rw [if_pos hc] at h
    simp only [Bool.or_eq_true, Char.isAlphanum] at h ⊢
    exact h.imp_left .inl
  · rename_i hc
    rw [if_neg hc] at h
    rw [h, Bool.true_or]

theorem isPlain_of_isIdentStart (h : isIdentStart c = true) : isPlain c = true :=
  isPlain_of_isIdentRest (isIdentRest_of_isIdentStart h)

theorem not_isDigit_of_isIdentStart (h : isIdentStart c = true) : c.isDigit = false := by
  have hdigits : ∀ n < 0x80, isIdentStart (Char.ofNat n) = true →
      (Char.ofNat n).isDigit = false := by decide
  by_cases hc : c.toNat < 0x80
  · have hascii := hdigits c.toNat hc
    rw [Char.ofNat_toNat] at hascii
    exact hascii h
  · apply Bool.eq_false_iff.2
    intro hdigit
    have hbound : c.toNat ≤ 57 := (Char.isDigit_iff_toNat.1 hdigit).2
    omega

theorem skipOne?_plain (h : isPlain c = true) : skipOne? (c :: rest) = none := by
  have hslash : c ≠ '/' := ne_of_isPlain h (by decide)
  have hblank : isSourceBlank c = false := by
    simp only [isPlain, Bool.and_eq_true, Bool.not_eq_true'] at h
    exact h.1.1.1.1.1
  unfold skipOne?
  split
  · rename_i he
    cases he
    exact (hslash rfl).elim
  · rename_i he
    cases he
    exact (hslash rfl).elim
  · rename_i he
    cases he
    rw [hblank, if_neg Bool.false_ne_true]
  · rfl

theorem startsWith_eq_false {start : String} {cs : List Char}
    (hstart : start.toList.head? = some d) (h : cs.head? ≠ some d) :
    startsWith start cs = false := by
  unfold startsWith
  cases hs : start.toList with
  | nil =>
    rw [hs] at hstart
    cases hstart
  | cons e es =>
    rw [hs] at hstart
    cases hstart
    cases cs with
    | nil => rfl
    | cons c cs =>
      have hne : (d == c) = false := by
        apply beq_eq_false_iff_ne.2
        rintro rfl
        exact h rfl
      rw [List.isPrefixOf, hne, Bool.false_and]

theorem docComment?_plain (h : isPlain c = true) : docComment? (c :: rest) = none := by
  have hslash : (c :: rest).head? ≠ some '/' := fun he =>
    ne_of_isPlain h (by decide) (Option.some.inj he)
  have hinner : startsWith "//!" (c :: rest) = false := startsWith_eq_false rfl hslash
  have hinnerBlock : startsWith "/*!" (c :: rest) = false := startsWith_eq_false rfl hslash
  have houter : startsWith "///" (c :: rest) = false := startsWith_eq_false rfl hslash
  have houterBlock : startsWith "/**" (c :: rest) = false := startsWith_eq_false rfl hslash
  unfold docComment?
  simp only [hinner, hinnerBlock, houter, houterBlock, Bool.false_and, Bool.false_eq_true, if_false]
  rfl

/-- No quote and no mark of a raw text comes next. -/
def Calm (cs : List Char) : Prop :=
  ∀ d, cs.head? = some d → d ≠ '"' ∧ d ≠ '#' ∧ d ≠ '\''

theorem takeString?_other (hq : c ≠ '"') (hr : c ≠ 'r') : takeString? kind (c :: rest) = none := by
  unfold takeString?
  split
  · rename_i he
    cases he
    exact (hq rfl).elim
  · rename_i he
    cases he
    exact (hr rfl).elim
  · rfl

theorem takeString?_calm (h : Calm rest) : takeString? kind ('r' :: rest) = none := by
  cases rest with
  | nil => rfl
  | cons d rest =>
    obtain ⟨hq, hm, _⟩ := h d rfl
    simp [takeString?, hq, hm]

theorem takeString?_raw (hq : c ≠ '"') (hm : c ≠ '#') :
    takeString? kind ('r' :: '#' :: c :: rest) = none := by
  simp [takeString?, hq, hm]

theorem takeDigits?_word (h : isIdentStart c = true) : takeDigits? 10 true (c :: rest) = none := by
  have hdigit := not_isDigit_of_isIdentStart h
  rw [takeDigits?]
  split
  · rfl
  · split
    · rfl
    · rename_i n hn
      rw [if_neg (Nat.not_lt.2 (ten_le_of_digitValue? hdigit hn)), hdigit]
      rfl

theorem takeFloat?_word (h : isIdentStart c = true) : takeFloat? (c :: rest) = none := by
  have hdigit := not_isDigit_of_isIdentStart h
  simp [takeFloat?, hdigit]

theorem takeInt?_word (h : isIdentStart c = true) : takeInt? (c :: rest) = none := by
  have hzero : c ≠ '0' := by
    rintro rfl
    exact absurd h (by decide)
  have hdigits : takeDigits? 10 true (c :: rest) = none := takeDigits?_word h
  simp [takeInt?, hzero, hdigits]

/-- Nothing that begins like a name is a literal, unless a quote or a mark comes right after its
first letters. -/
theorem takeLiteral?_word (h : isIdentStart c = true) (hcalm : Calm rest)
    (hr : ∀ after, rest = 'r' :: after → Calm after) : takeLiteral? (c :: rest) = none := by
  have hplain := isPlain_of_isIdentStart h
  have hquote : c ≠ '"' := ne_of_isPlain hplain (by decide)
  have hfirst : takeString? .text (c :: rest) = none := by
    by_cases hc : c = 'r'
    · subst hc
      exact takeString?_calm hcalm
    · exact takeString?_other hquote hc
  have hsecond (kind : StringKind) : takeString? kind rest = none := by
    cases rest with
    | nil => rfl
    | cons d after =>
      by_cases hd : d = 'r'
      · subst hd
        exact takeString?_calm (hr after rfl)
      · exact takeString?_other (hcalm d rfl).1 hd
  unfold takeLiteral?
  rw [hfirst]
  simp only
  split
  · rename_i he
    cases he
    exact ((hcalm _ rfl).2.2 rfl).elim
  · rename_i he
    cases he
    rw [hsecond, Option.map_none]
  · rename_i he
    cases he
    rw [hsecond, Option.map_none]
  · rename_i he
    cases he
    exact absurd hplain (by decide)
  · rw [takeFloat?_word h, takeInt?_word h]
    rfl

theorem takePunct?_plain (h : isPlain c = true) : takePunct? (c :: rest) = none := by
  have hpunct : isPunct c = false := by
    simp only [isPlain, Bool.and_eq_true, Bool.not_eq_true'] at h
    exact h.1.1.1.1.2
  have hstart : startsPunct (c :: rest) = false := by
    rw [startsPunct, hpunct, Bool.and_false]
  rw [takePunct?, hstart]
  rfl

theorem startsString_word (hcalm : Calm rest)
    (hr : ∀ after, rest = 'r' :: after → Calm after) : startsString (c :: rest) = false := by
  cases rest with
  | nil => simp [startsString, startsWith, List.isPrefixOf]
  | cons d after =>
    obtain ⟨hq, hm, ha⟩ := hcalm d rfl
    cases after with
    | nil => simp [startsString, startsWith, List.isPrefixOf, hq.symm, ha.symm]
    | cons e after =>
      by_cases hd : 'r' = d
      · subst hd
        obtain ⟨hq', hm', _⟩ := hr _ rfl e rfl
        simp [startsString, startsWith, List.isPrefixOf, hq'.symm, hm'.symm]
      · simp [startsString, startsWith, List.isPrefixOf, hq.symm, hm.symm, ha.symm, hd]

/-- What can follow a name in a printed type. -/
def Follows (cs : List Char) : Prop :=
  ∀ d, cs.head? = some d → d = '<' ∨ d = ',' ∨ d = '>'

theorem Follows.calm (h : Follows follow) : Calm follow := by
  intro d hd
  rcases h d hd with rfl | rfl | rfl <;> decide

theorem calm_append (htail : ∀ d ∈ tail, isIdentRest d = true) (h : Follows follow) :
    Calm (tail ++ follow) := by
  cases tail with
  | nil => exact h.calm
  | cons d tail =>
    have hplain := isPlain_of_isIdentRest (htail d List.mem_cons_self)
    intro e he
    cases he
    exact ⟨ne_of_isPlain hplain (by decide), ne_of_isPlain hplain (by decide),
      ne_of_isPlain hplain (by decide)⟩

theorem Follows.takeWhile (h : Follows follow) (htail : ∀ d ∈ tail, isIdentRest d = true) :
    (tail ++ follow).takeWhile isIdentRest = tail ∧
      (tail ++ follow).dropWhile isIdentRest = follow := by
  induction tail with
  | nil =>
    cases follow with
    | nil => exact ⟨rfl, rfl⟩
    | cons d follow =>
      have hd : isIdentRest d = false := by
        rcases h d rfl with rfl | rfl | rfl <;> decide
      exact ⟨List.takeWhile_cons_of_neg (by simp [hd]), List.dropWhile_cons_of_neg (by simp [hd])⟩
  | cons d tail ih =>
    obtain ⟨htake, hdrop⟩ := ih fun e he => htail e (List.mem_cons_of_mem _ he)
    have hd := htail d List.mem_cons_self
    rw [List.cons_append, List.takeWhile_cons_of_pos hd, List.dropWhile_cons_of_pos hd, htake,
      hdrop]
    exact ⟨rfl, rfl⟩

theorem takeIdent?_word (hc : isIdentStart c = true) (htail : ∀ d ∈ tail, isIdentRest d = true)
    (h : Follows follow) : takeIdent? (c :: (tail ++ follow)) = some (c :: tail, follow) := by
  obtain ⟨htake, hdrop⟩ := h.takeWhile htail
  rw [takeIdent?, if_pos hc, htake, hdrop]

/-- After the letters of a name, none of which is a quote, nothing can make it a text. -/
theorem calm_after_r (htail : ∀ d ∈ tail, isIdentRest d = true) (h : Follows follow)
    (after : List Char) (he : tail ++ follow = 'r' :: after) : Calm after := by
  cases tail with
  | nil =>
    have hr := h 'r' (by rw [← List.nil_append follow, he]; rfl)
    exact absurd hr (by decide)
  | cons d tail =>
    obtain ⟨_, rfl⟩ := List.cons.inj he
    exact calm_append (fun e he => htail e (List.mem_cons_of_mem _ he)) h

theorem takeLeaf?_word (hc : isIdentStart c = true) (htail : ∀ d ∈ tail, isIdentRest d = true)
    (h : Follows follow) : takeLeaf? (c :: (tail ++ follow)) =
      some (.ident (String.ofList (c :: tail)), follow) := by
  have hcalm := calm_append htail h
  have hr := calm_after_r htail h
  have hplain := isPlain_of_isIdentStart hc
  have hident : takeIdentAny? (c :: (tail ++ follow)) =
      some (String.ofList (c :: tail), follow) := by
    unfold takeIdentAny?
    split
    · rename_i he
      obtain ⟨_, he⟩ := List.cons.inj he
      exact ((hcalm '#' (by rw [he]; rfl)).2.1 rfl).elim
    · rw [takeIdent?_word hc htail h]
      rfl
  rw [takeLeaf?, takeLiteral?_word hc hcalm hr, takePunct?_plain hplain, startsString_word hcalm hr,
    hident]
  rfl

theorem takeLeaf?_raw (hc : isIdentStart c = true) (htail : ∀ d ∈ tail, isIdentRest d = true)
    (hw : ["_", "super", "self", "Self", "crate"].contains (String.ofList (c :: tail)) = false)
    (h : Follows follow) : takeLeaf? ('r' :: '#' :: c :: (tail ++ follow)) =
      some (.ident ("r#" ++ String.ofList (c :: tail)), follow) := by
  have hplain := isPlain_of_isIdentStart hc
  have hquote : c ≠ '"' := ne_of_isPlain hplain (by decide)
  have hmark : c ≠ '#' := ne_of_isPlain hplain (by decide)
  have hr : isIdentStart 'r' = true := by decide
  have hliteral : takeLiteral? ('r' :: '#' :: c :: (tail ++ follow)) = none := by
    simp [takeLiteral?, takeString?_raw hquote hmark, takeFloat?_word hr, takeInt?_word hr]
  have hstring : startsString ('r' :: '#' :: c :: (tail ++ follow)) = false := by
    simp [startsString, startsWith, List.isPrefixOf, hquote.symm, hmark.symm]
  have hident : takeIdentAny? ('r' :: '#' :: c :: (tail ++ follow)) =
      some ("r#" ++ String.ofList (c :: tail), follow) := by
    rw [takeIdentAny?, takeIdent?_word hc htail h]
    simp only [bind, Option.bind_some, hw]
    rfl
  rw [takeLeaf?, hliteral, takePunct?_plain (by decide), hstring, hident]
  rfl

theorem Lexes.ident {name : String} (hname : IsIdent name) (hfollow : Follows follow)
    (h : Lexes stack follow tokens) :
    Lexes stack (name.toList ++ follow) (.ident name :: tokens) := by
  cases hname with
  | word hword =>
    obtain ⟨c, tail, rfl, hc, htail⟩ := hword
    have hplain := isPlain_of_isIdentStart hc
    obtain ⟨hopen, hclose⟩ := not_delimiter_of_isPlain hplain
    rw [String.toList_ofList, List.cons_append]
    apply h.leaf
    · simp
    · exact skipOne?_plain hplain
    · exact docComment?_plain hplain
    · exact hopen
    · exact hclose
    · exact takeLeaf?_word hc htail hfollow
  | raw hword hw =>
    obtain ⟨c, tail, rfl, hc, htail⟩ := hword
    have htext : ("r#" ++ String.ofList (c :: tail)).toList = 'r' :: '#' :: c :: tail := by
      simp
    rw [htext, List.cons_append, List.cons_append, List.cons_append]
    apply h.leaf
    · simp
      omega
    · rfl
    · rfl
    · rfl
    · rfl
    · exact takeLeaf?_raw hc htail hw hfollow

end Names

end Source

end Apidoc
