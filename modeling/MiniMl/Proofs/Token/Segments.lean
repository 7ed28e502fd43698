import Mathlib.Data.List.Infix
import MiniMl.Proofs.Source.Logical
import MiniMl.Token.Lexer

/-! # Sources cut into segments

The lexeme grammar, and what it is for a text to be a row of blanks, continuations, comments and
lexemes of given tokens. The grammar lists its characters, words and spellings itself, and nothing
here reads a text from the left: a segment may stand wherever the text around it admits it. What the
lexer takes for a lexeme is shown to be one and the other way round.
-/

namespace MiniMl

def Blank (c : Char) : Prop := c ∈ [' ', '\t', '\r', '\x0c']

def WordStart (c : Char) : Prop := c.isAlpha ∨ c = '_'

def WordPart (c : Char) : Prop := c.isAlphanum ∨ c = '_'

def NumberPart (c : Char) : Prop := c.isDigit ∨ c = '_' ∨ c = '.'

instance : DecidablePred Blank := fun _ => inferInstanceAs (Decidable (_ ∈ _))

instance : DecidablePred WordStart := fun _ => inferInstanceAs (Decidable (_ ∨ _))

instance : DecidablePred WordPart := fun _ => inferInstanceAs (Decidable (_ ∨ _))

instance : DecidablePred NumberPart := fun _ => inferInstanceAs (Decidable (_ ∨ _ ∨ _))

def reservedWords : List (String × TokenKind) :=
  [("let", .letWord), ("rec", .recWord), ("and", .andWord), ("in", .inWord), ("if", .ifWord),
    ("then", .thenWord), ("else", .elseWord), ("while", .whileWord), ("do", .doWord),
    ("done", .doneWord), ("fst", .fstWord), ("snd", .sndWord), ("true", .bool), ("false", .bool)]

/-- The lexemes that consist of signs. -/
def signs : List (String × TokenKind) :=
  [("()", .unit), ("(", .openParen), (")", .closeParen), (",", .comma), (";", .semicolon),
    (";;", .doubleSemicolon), ("=", .assignment), ("==", .equals), ("!=", .notEquals),
    ("<", .less), ("<=", .lessEquals), (">", .greater), (">=", .greaterEquals),
    ("&&", .logicalAnd), ("||", .logicalOr), ("+", .plus), ("-", .dash), ("*", .star),
    ("/", .slash)]

/-- The lexeme grammar: a kind and what a lexeme of it reads as. -/
inductive Lexeme : TokenKind → List Char → Prop
  | newline : Lexeme .newline ['\n']
  | reserved {word : String} {kind : TokenKind} : (word, kind) ∈ reservedWords →
      Lexeme kind word.toList
  | identifier {c : Char} {cs : List Char} : WordStart c → (∀ d ∈ cs, WordPart d) →
      (∀ e ∈ reservedWords, e.1.toList ≠ c :: cs) → Lexeme .identifier (c :: cs)
  | int {c : Char} {cs : List Char} : c.isDigit → (∀ d ∈ cs, d.isDigit ∨ d = '_') →
      Lexeme .int (c :: cs)
  | float {c : Char} {cs : List Char} : c.isDigit → (∀ d ∈ cs, NumberPart d) → '.' ∈ cs →
      Lexeme .float (c :: cs)
  | string {body : List Char} : '"' ∉ body → body.length ≤ 128 →
      Lexeme .string ('"' :: body ++ ['"'])
  | sign {text : String} {kind : TokenKind} : (text, kind) ∈ signs → Lexeme kind text.toList

/-- A block comment up to the first star and parenthesis that close it. -/
inductive BlockComment : List Char → Prop
  | mk {body inner : List Char} : body.getLast? = some ')' → logical body = inner ++ ['*', ')'] →
      ¬ ['*', ')'] <:+: inner ++ ['*'] → BlockComment ('(' :: '*' :: body)

structure Trimmed (text : List Char) : Prop where
  first : text.head? = (logical text).head?
  last : text.getLast? = (logical text).getLast?

/-- Whether two characters make a longer lexeme than the first one alone, or open a comment. -/
def joins : Char → Char → Bool
  | ';', ';' | '=', '=' | '<', '=' | '>', '=' | '(', ')' | '(', '*' => true
  | _, _ => false

/-- A lexeme that reads as `value` cannot be longer in front of `after`. -/
structure Maximal (value after : List Char) : Prop where
  word : ∀ c ∈ value.head?, WordStart c → ∀ d ∈ (logical after).head?, ¬ WordPart d
  number : ∀ c ∈ value.head?, c.isDigit → ∀ d ∈ (logical after).head?, ¬ NumberPart d
  single : ∀ c, value = [c] → ∀ d ∈ after.head?, joins c d = false

/-- The text that starts at a position is a row of segments, the lexemes among them being those of
the tokens in their order. -/
inductive Segmented (file : String) : Position → List Char → List Token → Prop
  | nil {p : Position} : Segmented file p [] []
  | blank {p : Position} {c : Char} {text : List Char} {ts : List Token} : Blank c →
      Segmented file (p.after c) text ts → Segmented file p (c :: text) ts
  | continuation {p : Position} {text : List Char} {ts : List Token} :
      Segmented file (p.behind ['\\', '\n']) text ts → Segmented file p ('\\' :: '\n' :: text) ts
  | comment {p : Position} {raw text : List Char} {ts : List Token} : BlockComment raw →
      Segmented file (p.behind raw) text ts → Segmented file p (raw ++ text) ts
  | lexeme {p : Position} {raw text : List Char} {t : Token} {ts : List Token} : Trimmed raw →
      Lexeme t.kind (logical raw) → t.value = String.ofList (logical raw) →
      t.location = p.location file → Maximal (logical raw) text →
      Segmented file (p.behind raw) text ts → Segmented file p (raw ++ text) (t :: ts)

def endLine (ts : List Token) (stop : Location) : List Token :=
  if ts.getLast?.any Token.isNewline then ts else ts ++ [⟨.newline, "\n", stop⟩]

theorem endLine_last (ts : List Token) (stop : Location) :
    ∃ last, (endLine ts stop).getLast? = some last ∧ last.kind = .newline := by
  unfold endLine
  by_cases hline : ts.getLast?.any Token.isNewline
  · rw [if_pos hline]
    obtain ⟨last, hlast, hkind⟩ := (Option.any_eq_true _ _).mp hline
    refine ⟨last, hlast, ?_⟩
    simpa [Token.isNewline] using hkind
  · rw [if_neg hline]
    simp

theorem endLine_mem {ts : List Token} {stop : Location} {t : Token} (h : t ∈ endLine ts stop) :
    t ∈ ts ∨ t = ⟨.newline, "\n", stop⟩ := by
  unfold endLine at h
  split at h
  · exact .inl h
  · simpa using h

/-! The same grammar in the words of the lexer. -/

namespace Lexer

theorem isBlank_iff {c : Char} : isBlank c = true ↔ Blank c := by
  simp [isBlank, Blank, or_assoc]

theorem isWordStart_iff {c : Char} : isWordStart c = true ↔ WordStart c := by
  simp [isWordStart, WordStart]

theorem isWordPart_iff {c : Char} : isWordPart c = true ↔ WordPart c := by
  simp [isWordPart, WordPart]

theorem isNumberPart_iff {c : Char} : isNumberPart c = true ↔ NumberPart c := by
  simp [isNumberPart, NumberPart, or_assoc]

theorem reserved?_iff {word : String} {kind : TokenKind} :
    TokenKind.reserved? word = some kind ↔ (word, kind) ∈ reservedWords := by
  constructor
  · intro h
    unfold TokenKind.reserved? at h
    split at h
    all_goals cases h
    all_goals simp [reservedWords]
  · have hall : ∀ e ∈ reservedWords, TokenKind.reserved? e.1 = some e.2 := by decide +kernel
    exact hall (word, kind)

end Lexer

open Lexer

theorem isWordStart_not_digit {c : Char} (h : isWordStart c) : c.isDigit = false := by
  by_contra hdigit
  have hdigit : c.isDigit = true := by simpa using hdigit
  delta isWordStart Char.isAlpha Char.isUpper Char.isLower Char.isDigit at h hdigit
  simp only [Bool.or_eq_true, Bool.and_eq_true, decide_eq_true_eq, beq_iff_eq,
    UInt32.le_iff_toNat_le] at h hdigit
  rcases h with h | rfl
  · simp at h hdigit
    omega
  · simp at hdigit

theorem not_wordStart_of_digit {c : Char} (h : c.isDigit) : ¬ isWordStart c := by
  intro hword
  rw [isWordStart_not_digit hword] at h
  cases h

theorem isWordPart_of_start {c : Char} (h : isWordStart c) : isWordPart c := by
  simp only [isWordStart, isWordPart, Char.isAlphanum, Bool.or_eq_true] at h ⊢
  tauto

theorem start_plain {c : Char} (h : isWordStart c ∨ c.isDigit) : c ≠ '\n' ∧ c ≠ '"' := by
  constructor
  · rintro rfl
    exact absurd h (by decide)
  · rintro rfl
    exact absurd h (by decide)

theorem start_visible {c : Char} (h : isWordStart c ∨ c.isDigit) :
    isBlank c = false ∧ c ≠ '\\' := by
  constructor
  · by_contra hblank
    simp only [isBlank, Bool.not_eq_false, Bool.or_eq_true, beq_iff_eq] at hblank
    rcases hblank with ((rfl | rfl) | rfl) | rfl
    all_goals exact absurd h (by decide)
  · rintro rfl
    exact absurd h (by decide)

def punctuation : List TokenKind := signs.map (·.2)

theorem signs_iff {text : String} {kind : TokenKind} :
    (text, kind) ∈ signs ↔ kind ∈ punctuation ∧ text = kind.text := by
  have hspelled : ∀ e ∈ signs, e.1 = e.2.text := by decide +kernel
  constructor
  · intro h
    exact ⟨List.mem_map_of_mem (f := (·.2)) h, hspelled _ h⟩
  · rintro ⟨h, rfl⟩
    obtain ⟨e, he, rfl⟩ := List.mem_map.mp h
    rw [← hspelled e he]
    exact he

theorem punctuation_visible {kind : TokenKind} (h : kind ∈ punctuation) :
    ∃ c cs, kind.text.toList = c :: cs ∧ isBlank c = false ∧ c ≠ '\\' ∧ c ≠ '\n' ∧ c ≠ '"' := by
  have hall : ∀ kind ∈ punctuation, kind.text.toList.head?.any fun c =>
      !isBlank c && c != '\\' && c != '\n' && c != '"' := by decide +kernel
  obtain ⟨c, hc, hgood⟩ := (Option.any_eq_true _ _).mp (hall kind h)
  obtain ⟨cs, hcs⟩ := List.head?_eq_some_iff.mp hc
  simp only [Bool.and_eq_true, Bool.not_eq_true', bne_iff_ne, and_assoc] at hgood
  exact ⟨c, cs, hcs, hgood⟩

theorem punctuation_last {kind : TokenKind} (h : kind ∈ punctuation) :
    kind.text.toList.getLast? ≠ some '\\' := by
  have hall : ∀ kind ∈ punctuation, kind.text.toList.getLast? ≠ some '\\' := by decide +kernel
  exact hall kind h

theorem joins_start {c d : Char} (h : joins c d) :
    isWordStart c = false ∧ c.isDigit = false ∧ c ≠ '\n' := by
  unfold joins at h
  split at h
  all_goals first | decide | cases h

theorem wordKind_word (word : String) :
    wordKind word ≠ .invalid ∧ wordKind word ≠ .endOfInput := by
  unfold wordKind TokenKind.reserved?
  split <;> simp

namespace Lexer

/-- What the lexer takes for a lexeme, told by its first character. -/
inductive Reads : TokenKind → List Char → Prop
  | newline : Reads .newline ['\n']
  | word {c : Char} {cs : List Char} : isWordStart c → (∀ d ∈ cs, isWordPart d) →
      Reads (wordKind (String.ofList (c :: cs))) (c :: cs)
  | number {c : Char} {cs : List Char} : c.isDigit → (∀ d ∈ cs, isNumberPart d) →
      Reads (numberKind (c :: cs)) (c :: cs)
  | string {body : List Char} : '"' ∉ body → body.length ≤ maxStringLength →
      Reads .string ('"' :: body ++ ['"'])
  | fixed {kind : TokenKind} : kind ∈ punctuation → Reads kind kind.text.toList

namespace Reads

variable {c : Char} {cs value : List Char} {kind : TokenKind}

theorem word_lexeme (hc : isWordStart c) (hcs : ∀ d ∈ cs, isWordPart d) :
    Lexeme (wordKind (String.ofList (c :: cs))) (c :: cs) := by
  unfold wordKind
  cases hkind : TokenKind.reserved? (String.ofList (c :: cs)) with
  | some kind =>
    have hlexeme := Lexeme.reserved (reserved?_iff.mp hkind)
    rwa [String.toList_ofList] at hlexeme
  | none =>
    refine .identifier (isWordStart_iff.mp hc) (fun d hd => isWordPart_iff.mp (hcs d hd)) ?_
    intro e he hword
    rw [← hword, String.ofList_toList, reserved?_iff.mpr he] at hkind
    cases hkind

theorem number_lexeme (hc : c.isDigit) (hcs : ∀ d ∈ cs, isNumberPart d) :
    Lexeme (numberKind (c :: cs)) (c :: cs) := by
  have hparts : ∀ d ∈ cs, NumberPart d := fun d hd => isNumberPart_iff.mp (hcs d hd)
  have hfirst : '.' ≠ c := by
    rintro rfl
    exact absurd hc (by decide)
  by_cases hpoint : '.' ∈ cs
  · rw [numberKind, if_pos (by simp [hpoint])]
    exact .float hc hparts hpoint
  · rw [numberKind, if_neg (by simp [hfirst, hpoint])]
    refine .int hc fun d hd => ?_
    rcases hparts d hd with hdigit | hscore | rfl
    · exact .inl hdigit
    · exact .inr hscore
    · exact absurd hd hpoint

theorem lexeme (h : Reads kind value) : Lexeme kind value := by
  cases h with
  | newline => exact .newline
  | word hc hcs => exact word_lexeme hc hcs
  | number hc hcs => exact number_lexeme hc hcs
  | string hquote hlength => exact .string hquote hlength
  | fixed hmem => exact .sign (signs_iff.mpr ⟨hmem, rfl⟩)

theorem of_reserved {word : String} (h : (word, kind) ∈ reservedWords) :
    Reads kind word.toList := by
  have hall : ∀ e ∈ reservedWords, e.1.toList.head?.any isWordStart ∧
      e.1.toList.tail.all isWordPart := by decide +kernel
  obtain ⟨hstart, hparts⟩ := hall (word, kind) h
  obtain ⟨c, hc, hstart⟩ := (Option.any_eq_true _ _).mp hstart
  obtain ⟨cs, hcs⟩ := List.head?_eq_some_iff.mp hc
  rw [hcs] at hparts
  have hread : Reads _ (c :: cs) := .word hstart (List.all_eq_true.mp hparts)
  rw [← hcs, String.ofList_toList, wordKind, reserved?_iff.mpr h] at hread
  exact hread

theorem of_identifier (hc : WordStart c) (hcs : ∀ d ∈ cs, WordPart d)
    (hfree : ∀ e ∈ reservedWords, e.1.toList ≠ c :: cs) : Reads .identifier (c :: cs) := by
  have hread : Reads _ (c :: cs) :=
    .word (isWordStart_iff.mpr hc) fun d hd => isWordPart_iff.mpr (hcs d hd)
  cases hkind : TokenKind.reserved? (String.ofList (c :: cs)) with
  | none =>
    rw [wordKind, hkind] at hread
    exact hread
  | some kind => exact absurd String.toList_ofList (hfree _ (reserved?_iff.mp hkind))

theorem of_int (hc : c.isDigit) (hcs : ∀ d ∈ cs, d.isDigit ∨ d = '_') :
    Reads .int (c :: cs) := by
  have hpoint : '.' ∉ c :: cs := by
    rw [List.mem_cons]
    rintro (rfl | hmem)
    · exact absurd hc (by decide)
    · exact absurd (hcs _ hmem) (by decide)
  have hread : Reads _ (c :: cs) := .number hc fun d hd =>
    isNumberPart_iff.mpr ((hcs d hd).imp_right .inl)
  rw [numberKind, if_neg (by simpa using hpoint)] at hread
  exact hread

theorem of_float (hc : c.isDigit) (hcs : ∀ d ∈ cs, NumberPart d) (hpoint : '.' ∈ cs) :
    Reads .float (c :: cs) := by
  have hread : Reads _ (c :: cs) := .number hc fun d hd => isNumberPart_iff.mpr (hcs d hd)
  rw [numberKind, if_pos (by simp [hpoint])] at hread
  exact hread

theorem of_lexeme (h : Lexeme kind value) : Reads kind value := by
  cases h with
  | newline => exact .newline
  | reserved hmem => exact of_reserved hmem
  | identifier hc hcs hfree => exact of_identifier hc hcs hfree
  | int hc hcs => exact of_int hc hcs
  | float hc hcs hpoint => exact of_float hc hcs hpoint
  | string hquote hlength => exact .string hquote hlength
  | sign hmem =>
    obtain ⟨hkind, rfl⟩ := signs_iff.mp hmem
    exact .fixed hkind

def kind? : List Char → Option TokenKind
  | [] => none
  | c :: cs =>
    if c = '\n' then some .newline
    else if c = '"' then some .string
    else if isWordStart c then some (wordKind (String.ofList (c :: cs)))
    else if c.isDigit then some (numberKind (c :: cs))
    else punctuation.find? (·.text.toList == c :: cs)

theorem kind?_eq (h : Reads kind value) : kind? value = some kind := by
  cases h with
  | newline => rfl
  | @word c cs hc _ =>
    obtain ⟨hnewline, hquote⟩ := start_plain (.inl hc)
    simp [kind?, hnewline, hquote, hc]
  | @number c cs hc _ =>
    obtain ⟨hnewline, hquote⟩ := start_plain (.inr hc)
    simp [kind?, hnewline, hquote, not_wordStart_of_digit hc, hc]
  | string _ _ => rfl
  | fixed hmem =>
    have hall : ∀ kind ∈ punctuation, kind? kind.text.toList = some kind := by decide +kernel
    exact hall kind hmem

theorem proper (h : Reads kind value) : kind ≠ .invalid ∧ kind ≠ .endOfInput := by
  cases h with
  | newline => simp
  | word _ _ => exact wordKind_word _
  | number _ _ =>
    unfold numberKind
    split <;> simp
  | string _ _ => simp
  | fixed hmem =>
    constructor
    · rintro rfl
      exact absurd hmem (by decide)
    · rintro rfl
      exact absurd hmem (by decide)

theorem start (h : Reads kind value) :
    ∃ c cs, value = c :: cs ∧ isBlank c = false ∧ c ≠ '\\' ∧ (kind ≠ .newline → c ≠ '\n') := by
  have hplain : ∀ {c : Char}, isWordStart c ∨ c.isDigit →
      isBlank c = false ∧ c ≠ '\\' ∧ (kind ≠ .newline → c ≠ '\n') := by
    intro c hc
    obtain ⟨hblank, hback⟩ := start_visible hc
    exact ⟨hblank, hback, fun _ => (start_plain hc).1⟩
  cases h with
  | newline => exact ⟨_, _, rfl, by decide, by decide, fun h => absurd rfl h⟩
  | @word c cs hc _ => exact ⟨c, cs, rfl, hplain (.inl hc)⟩
  | @number c cs hc _ => exact ⟨c, cs, rfl, hplain (.inr hc)⟩
  | string _ _ => exact ⟨_, _, rfl, by decide, by decide, by decide⟩
  | fixed hmem =>
    obtain ⟨c, cs, hvalue, hblank, hback, hnewline, -⟩ := punctuation_visible hmem
    exact ⟨c, cs, hvalue, hblank, hback, fun _ => hnewline⟩

end Reads

/-- The lexer takes for lexemes what the grammar gives. -/
theorem reads_iff {kind : TokenKind} {value : List Char} : Reads kind value ↔ Lexeme kind value :=
  ⟨Reads.lexeme, Reads.of_lexeme⟩

end Lexer

namespace Lexeme

variable {kind other : TokenKind} {value : List Char}

theorem reads (h : Lexeme kind value) : Reads kind value := reads_iff.mpr h

theorem unique (h : Lexeme kind value) (k : Lexeme other value) : other = kind := by
  have hkind := h.reads.kind?_eq
  rw [k.reads.kind?_eq] at hkind
  exact Option.some.inj hkind

theorem proper (h : Lexeme kind value) : kind ≠ .invalid ∧ kind ≠ .endOfInput := h.reads.proper

theorem ne_nil (h : Lexeme kind value) : value ≠ [] := by
  obtain ⟨c, cs, rfl, -⟩ := h.reads.start
  exact List.cons_ne_nil c cs

end Lexeme

namespace Maximal

variable {c : Char} {cs value after : List Char}

theorem of_word (hc : isWordStart c) (h : ∀ d ∈ (logical after).head?, isWordPart d = false) :
    Maximal (c :: cs) after := by
  constructor
  · intro _ _ _ d hd hpart
    rw [← isWordPart_iff, h d hd] at hpart
    cases hpart
  · intro e he hdigit
    obtain rfl : c = e := by simpa using he
    simp [isWordStart_not_digit hc] at hdigit
  · intro e he d _
    obtain ⟨rfl, -⟩ := List.cons.inj he
    cases hjoin : joins c d with
    | false => rfl
    | true => simp [(joins_start hjoin).1] at hc

theorem of_number (hc : c.isDigit) (h : ∀ d ∈ (logical after).head?, isNumberPart d = false) :
    Maximal (c :: cs) after := by
  constructor
  · intro e he hword
    obtain rfl : c = e := by simpa using he
    exact absurd (isWordStart_iff.mpr hword) (not_wordStart_of_digit hc)
  · intro _ _ _ d hd hpart
    rw [← isNumberPart_iff, h d hd] at hpart
    cases hpart
  · intro e he d _
    obtain ⟨rfl, -⟩ := List.cons.inj he
    cases hjoin : joins c d with
    | false => rfl
    | true => simp [(joins_start hjoin).2.1] at hc

theorem of_other (hhead : ∀ c ∈ value.head?, isWordStart c = false ∧ c.isDigit = false)
    (h : ∀ c, value = [c] → ∀ d ∈ after.head?, joins c d = false) : Maximal value after := by
  constructor
  · intro c hc hword
    rw [← isWordStart_iff, (hhead c hc).1] at hword
    cases hword
  · intro c hc hdigit
    simp [(hhead c hc).2] at hdigit
  · exact h

end Maximal

namespace Segmented

variable {file : String} {p : Position} {raw text : List Char} {ts : List Token}

theorem blanks (hraw : ∀ c ∈ logical raw, Blank c) (h : Segmented file (p.behind raw) text ts) :
    Segmented file p (raw ++ text) ts := by
  fun_induction logical raw generalizing p with
  | case1 rest ih => exact .continuation (ih hraw h)
  | case2 c rest _ ih =>
    refine .blank (hraw c (by simp)) (ih ?_ h)
    intro d hd
    exact hraw d (by simp [hd])
  | case3 => exact h

theorem lexeme_mem (h : Segmented file p text ts) {t : Token} (ht : t ∈ ts) :
    Lexeme t.kind t.value.toList := by
  induction h with
  | nil => simp at ht
  | blank _ _ ih => exact ih ht
  | continuation _ ih => exact ih ht
  | comment _ _ ih => exact ih ht
  | lexeme _ hlexeme hvalue _ _ _ ih =>
    rcases List.mem_cons.mp ht with rfl | ht
    · rwa [hvalue, String.toList_ofList]
    · exact ih ht

end Segmented

end MiniMl
