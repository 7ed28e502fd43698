import MiniMl.Proofs.Token.Lines

/-! # Tokens written out

The texts of tokens with single spaces between them are split into these tokens again: a lexeme is
read whole in front of a space, and the space in front of the next one is passed alone.
-/

namespace MiniMl

open Lexer (isBlank isWordStart isWordPart isNumberPart)

/-- A kind and a text that a token of the kind is written as. Only strings can hold what would be
read as a continuation. -/
structure WrittenOut (l : TokenKind × String) : Prop where
  lexeme : Lexeme l.1 l.2.toList
  whole : l.1 = .string → ¬ ['\\', '\n'] <:+: l.2.toList

theorem WrittenOut.of_ne_string {l : TokenKind × String} (h : Lexeme l.1 l.2.toList)
    (hkind : l.1 ≠ .string) : WrittenOut l :=
  ⟨h, fun hstring => absurd hstring hkind⟩

theorem WrittenOut.reserved {word : String} {kind : TokenKind} (h : (word, kind) ∈ reservedWords) :
    WrittenOut (kind, word) := by
  have hkinds : ∀ e ∈ reservedWords, e.2 ≠ .string := by decide
  exact .of_ne_string (.reserved h) (hkinds _ h)

theorem WrittenOut.sign {text : String} {kind : TokenKind} (h : (text, kind) ∈ signs) :
    WrittenOut (kind, text) := by
  have hkinds : ∀ e ∈ signs, e.2 ≠ .string := by decide
  exact .of_ne_string (.sign h) (hkinds _ h)

def Apart (text : List Char) : Prop := ∀ c ∈ text.head?, c = ' '

theorem Apart.not_continued {text : List Char} (h : Apart text) : ¬ Continued text := by
  rintro ⟨rest, rfl⟩
  exact absurd (h '\\' rfl) (by decide)

namespace Lexer

variable {file : String} {p : Position} {after : List Char}

/-- A run that nothing behind it goes on with is read to its end, with the continuations in it. -/
theorem takeRun_continued {accept : Char → Bool} (hback : accept '\\' = false) {raw : List Char}
    (hrun : ∀ c ∈ logical raw, accept c) (hopen : ¬ Continued after)
    (hstop : ∀ c ∈ after.head?, accept c = false) (p : Position) :
    takeRun accept (raw ++ after) p = (logical raw, ⟨after, p.behind raw⟩) := by
  fun_induction logical raw generalizing p with
  | case1 rest ih =>
    rw [List.cons_append, List.cons_append, takeRun, ih hrun]
    rfl
  | case2 c rest _ ih =>
    obtain ⟨hc, hrun⟩ := List.forall_mem_cons.mp hrun
    rw [List.cons_append, takeRun, if_pos hc, ih hrun]
    · rfl
    · rintro more rfl _
      simp [hback] at hc
  | case3 =>
    cases after with
    | nil => rfl
    | cons c after =>
      rw [List.nil_append, takeRun, if_neg (by simp [hstop c rfl])]
      · rfl
      · exact free_of_not_continued hopen

theorem logical_run {accept : Char → Bool} (hback : accept '\\' = false) {run : List Char}
    (hrun : ∀ c ∈ run, accept c) : logical run = run := by
  apply logical_plain
  intro hmem
  exact absurd (hrun _ hmem) (by simp [hback])

theorem takeRun_append {accept : Char → Bool} (hback : accept '\\' = false) {run : List Char}
    (hrun : ∀ c ∈ run, accept c) (hopen : ¬ Continued after)
    (hstop : ∀ c ∈ after.head?, accept c = false) (p : Position) :
    takeRun accept (run ++ after) p = (run, ⟨after, p.behind run⟩) := by
  have hlogical := logical_run hback hrun
  rw [takeRun_continued hback (by rwa [hlogical]) hopen hstop, hlogical]

theorem stringBody_append {opening last : Position} {room : Nat} {body : List Char}
    (hquote : '"' ∉ body) (hroom : body.length ≤ room) (hwhole : ¬ ['\\', '\n'] <:+: body)
    (p : Position) :
    stringBody opening room last (body ++ '"' :: after) p =
      .ok (body, ⟨after, p.behind (body ++ ['"'])⟩) := by
  induction body generalizing room last p with
  | nil =>
    rw [List.nil_append, stringBody]
    rfl
  | cons c body ih =>
    rw [List.mem_cons, not_or] at hquote
    rw [List.infix_cons_iff, not_or] at hwhole
    obtain ⟨room, rfl⟩ : ∃ n, room = n + 1 := Nat.exists_eq_succ_of_ne_zero (by
      rw [List.length_cons] at hroom
      omega)
    rw [List.cons_append, stringBody, ih hquote.2 (Nat.le_of_succ_le_succ hroom) hwhole.2]
    · rfl
    · rintro more rfl hmore
      cases body with
      | nil => cases hmore
      | cons d body =>
        obtain ⟨rfl, -⟩ := List.cons.inj hmore
        exact hwhole.1 ⟨body, rfl⟩
    · rintro rfl
      exact hquote.1 rfl

theorem punctuation?_fixed {kind : TokenKind} (h : kind ∈ punctuation) :
    punctuation? kind.text.toList = some kind := by
  have hall : ∀ kind ∈ punctuation, punctuation? kind.text.toList = some kind := by decide +kernel
  exact hall kind h

/-! Each kind of lexeme, with nothing or a space behind it. -/

/-- The next token is this one, up to what is behind it. -/
def ReadsWhole (file : String) (p : Position) (kind : TokenKind) (value after : List Char) : Prop :=
  lexeme file ⟨value ++ after, p⟩ =
    .ok (some ⟨kind, String.ofList value, p.location file⟩, ⟨after, p.behind value⟩)

section Whole

variable {c : Char} {cs body : List Char} {kind : TokenKind} (hafter : Apart after)

include hafter

theorem takeRun_apart {accept : Char → Bool} (hback : accept '\\' = false)
    (hspace : accept ' ' = false) {raw : List Char} (hrun : ∀ c ∈ logical raw, accept c)
    (p : Position) :
    takeRun accept (raw ++ after) p = (logical raw, ⟨after, p.behind raw⟩) := by
  apply takeRun_continued hback hrun hafter.not_continued
  intro c hc
  rw [hafter c hc, hspace]

theorem word_whole (hc : isWordStart c) (hcs : ∀ d ∈ cs, isWordPart d) :
    ReadsWhole file p (wordKind (String.ofList (c :: cs))) (c :: cs) after := by
  obtain ⟨hnewline, hquote⟩ := start_plain (.inl hc)
  have hblank := (start_visible (.inl hc)).1
  have hrun : ∀ d ∈ c :: cs, isWordPart d :=
    List.forall_mem_cons.mpr ⟨isWordPart_of_start hc, hcs⟩
  have hlogical := logical_run (by decide) hrun
  rw [ReadsWhole, List.cons_append, lexeme_told hnewline hquote, if_neg (by simp [hblank]),
    if_pos hc, ← List.cons_append, takeRun_apart hafter (by decide) (by decide) (by rwa [hlogical]),
    hlogical]
  rintro more rfl
  exact absurd hc (by decide)

theorem number_continued (hc : c.isDigit) (hcs : ∀ d ∈ logical cs, isNumberPart d) :
    lexeme file ⟨c :: cs ++ after, p⟩ =
      .ok (some ⟨numberKind (c :: logical cs), String.ofList (c :: logical cs), p.location file⟩,
        ⟨after, p.behind (c :: cs)⟩) := by
  obtain ⟨hnewline, hquote⟩ := start_plain (.inr hc)
  have hblank := (start_visible (.inr hc)).1
  have hlogical : logical (c :: cs) = c :: logical cs := by
    apply logical_cons
    rw [continued_cons]
    rintro ⟨rfl, -⟩
    exact absurd hc (by decide)
  have hrun : ∀ d ∈ logical (c :: cs), isNumberPart d := by
    rw [hlogical]
    exact List.forall_mem_cons.mpr ⟨by simp [isNumberPart, hc], hcs⟩
  rw [List.cons_append, lexeme_told hnewline hquote, if_neg (by simp [hblank]),
    if_neg (not_wordStart_of_digit hc), if_pos hc, ← List.cons_append,
    takeRun_apart hafter (by decide) (by decide) hrun, hlogical]
  rintro more rfl
  exact absurd hc (by decide)

theorem number_whole (hc : c.isDigit) (hcs : ∀ d ∈ cs, isNumberPart d) :
    ReadsWhole file p (numberKind (c :: cs)) (c :: cs) after := by
  have hlogical := logical_run (by decide) hcs
  have hread : lexeme file ⟨c :: cs ++ after, p⟩ = .ok _ :=
    number_continued hafter hc (by rwa [hlogical])
  rwa [hlogical] at hread

omit hafter in
theorem string_whole (hquote : '"' ∉ body) (hroom : body.length ≤ maxStringLength)
    (hwhole : ¬ ['\\', '\n'] <:+: body) :
    ReadsWhole file p .string ('"' :: body ++ ['"']) after := by
  have hread : stringBody p maxStringLength (p.after '"') (body ++ '"' :: after) (p.after '"') =
      .ok (body, ⟨after, (p.after '"').behind (body ++ ['"'])⟩) :=
    stringBody_append hquote hroom hwhole _
  have hvalue : "\"" ++ String.ofList body ++ "\"" = String.ofList ('"' :: body ++ ['"']) := by
    apply String.toList_injective
    simp
  rw [ReadsWhole, List.cons_append, List.cons_append, List.append_assoc, List.singleton_append]
  simp only [lexeme, hread, hvalue]
  rfl

theorem fixed_whole (hmem : kind ∈ punctuation) :
    ReadsWhole file p kind kind.text.toList after := by
  obtain ⟨-, hplain⟩ := punctuation_text hmem
  obtain ⟨c, cs, hvalue, hblank, -, hnewline, hquote⟩ := punctuation_visible hmem
  have hread : punctuation? (c :: cs ++ after) = some kind := by
    rw [punctuation?_append, ← hvalue, punctuation?_fixed hmem]
    intro d hd e
    rw [hafter d hd]
    exact pairs_second (by decide)
  have hpass : pass kind.text.length ⟨c :: cs ++ after, p⟩ = ⟨after, p.behind (c :: cs)⟩ := by
    have hlength : kind.text.length = (c :: cs).length := by rw [← hvalue, String.length_toList]
    rw [pass, hlength, List.drop_left, List.take_left]
    rfl
  rw [hvalue] at hplain
  obtain ⟨hword, hdigit⟩ := hplain c rfl
  rw [ReadsWhole, String.ofList_toList, hvalue, ← hpass]
  rw [List.cons_append] at hread ⊢
  rw [lexeme_told hnewline hquote, if_neg (by simp [hblank]), if_neg (by simp [hword]),
    if_neg (by simp [hdigit]), hread]
  -- Where the text opens a comment, a star stands behind the parenthesis, and no space.
  rintro more rfl hmore
  rw [hmore] at hread
  cases hread
  obtain ⟨-, rfl⟩ := List.cons.inj hvalue
  exact absurd (hafter '*' (by rw [← List.nil_append after, hmore]; rfl)) (by decide)

theorem lexeme_append {value : List Char} (h : Lexeme kind value)
    (hwhole : kind = .string → ¬ ['\\', '\n'] <:+: value) :
    ReadsWhole file p kind value after := by
  cases h.reads with
  | newline => rfl
  | word hc hcs => exact word_whole hafter hc hcs
  | number hc hcs => exact number_whole hafter hc hcs
  | string hquote hroom =>
    refine string_whole hquote hroom fun hpair => ?_
    exact hwhole rfl (hpair.trans ⟨['"'], ['"'], rfl⟩)
  | fixed hmem => exact fixed_whole hafter hmem

end Whole

theorem run_lexeme {kind : TokenKind} {value : List Char} (h : Lexeme kind value)
    (hwhole : kind = .string → ¬ ['\\', '\n'] <:+: value) (hafter : Apart after) :
    Run file ⟨value ++ after, p⟩ [⟨kind, String.ofList value, p.location file⟩]
      ⟨after, p.behind value⟩ := by
  obtain ⟨c, cs, hvalue, -, hback, -⟩ := h.reads.start
  have hopen : ¬ Continued (value ++ after) := by
    rw [hvalue, List.cons_append, continued_cons]
    exact fun hcontinued => hback hcontinued.1
  exact Run.turn_open hopen (by simp [hvalue]) (lexeme_append hafter h hwhole)

theorem run_space {kind : TokenKind} {value : List Char} (h : Lexeme kind value) :
    Run file ⟨' ' :: (value ++ after), p⟩ [] ⟨value ++ after, p.after ' '⟩ := by
  obtain ⟨c, cs, rfl, hblank, hback, -⟩ := h.reads.start
  have hopen : ¬ Continued (c :: (cs ++ after)) := by
    rw [continued_cons]
    exact fun hcontinued => hback hcontinued.1
  have hrun : takeRun isBlank ([' '] ++ c :: (cs ++ after)) p =
      ([' '], ⟨c :: (cs ++ after), p.behind [' ']⟩) :=
    takeRun_append (by decide) (by simp [isBlank]) hopen (by simpa using hblank) p
  have hlexeme : lexeme file ⟨' ' :: (c :: cs ++ after), p⟩ =
      .ok (none, ⟨c :: cs ++ after, p.after ' '⟩) := by
    change Except.ok (none, (takeRun isBlank ([' '] ++ c :: (cs ++ after)) p).2) = _
    rw [hrun]
    rfl
  exact Run.turn_open (by simp [continued_cons]) (by simp) hlexeme

end Lexer

def spaced (ls : List (TokenKind × String)) : String := " ".intercalate (ls.map (·.2))

theorem spaced_singleton (l : TokenKind × String) : (spaced [l]).toList = l.2.toList := by
  simp [spaced]

theorem spaced_cons_cons (l m : TokenKind × String) (ls : List (TokenKind × String)) :
    (spaced (l :: m :: ls)).toList = l.2.toList ++ ' ' :: (spaced (m :: ls)).toList := by
  simp [spaced, String.toList_intercalate]

theorem spaced_cons (l : TokenKind × String) (ls : List (TokenKind × String)) :
    ∃ after, (spaced (l :: ls)).toList = l.2.toList ++ after := by
  cases ls with
  | nil => exact ⟨[], by rw [spaced_singleton, List.append_nil]⟩
  | cons m ls => exact ⟨_, spaced_cons_cons l m ls⟩

theorem run_spaced {ls : List (TokenKind × String)} (h : ∀ l ∈ ls, WrittenOut l) (file : String)
    (p : Position) :
    ∃ ts q, Lexer.Run file ⟨(spaced ls).toList, p⟩ ts ⟨[], q⟩ ∧ ts.map Token.lexeme = ls := by
  induction ls generalizing p with
  | nil => exact ⟨[], p, .done, rfl⟩
  | cons l ls ih =>
    obtain ⟨hl, hls⟩ := List.forall_mem_cons.mp h
    cases ls with
    | nil =>
      have hrun : Lexer.Run file ⟨l.2.toList ++ [], p⟩ [⟨l.1, String.ofList l.2.toList, _⟩]
          ⟨[], p.behind l.2.toList⟩ := Lexer.run_lexeme hl.lexeme hl.whole (by simp [Apart])
      rw [List.append_nil, String.ofList_toList] at hrun
      rw [spaced_singleton]
      exact ⟨_, _, hrun, rfl⟩
    | cons m ls =>
      obtain ⟨after, hafter⟩ := spaced_cons m ls
      have hlexeme : Lexer.Run file ⟨l.2.toList ++ ' ' :: (spaced (m :: ls)).toList, p⟩
          [⟨l.1, String.ofList l.2.toList, _⟩]
          ⟨' ' :: (spaced (m :: ls)).toList, p.behind l.2.toList⟩ :=
        Lexer.run_lexeme hl.lexeme hl.whole (by simp [Apart])
      have hspace : Lexer.Run file ⟨' ' :: (m.2.toList ++ after), p.behind l.2.toList⟩ []
          ⟨m.2.toList ++ after, (p.behind l.2.toList).after ' '⟩ :=
        Lexer.run_space (hls m List.mem_cons_self).lexeme
      rw [← hafter] at hspace
      obtain ⟨ts, q, hrun, hts⟩ := ih hls ((p.behind l.2.toList).after ' ')
      rw [String.ofList_toList] at hlexeme
      rw [spaced_cons_cons]
      exact ⟨_, q, hlexeme.trans (hspace.trans hrun), congrArg (l :: ·) hts⟩

/-- The values of lexemes with single spaces between them are split into these lexemes, and a
newline at the end if they do not end in one. -/
theorem tokenize_spaced {ls : List (TokenKind × String)} (h : ∀ l ∈ ls, WrittenOut l)
    (file : String) :
    ∃ s, tokenize (spaced ls) file = .ok s ∧
      s.toList.map Token.lexeme =
        if ls.getLast?.any (·.1 == .newline) then ls else ls ++ [(.newline, "\n")] := by
  obtain ⟨ts, q, hrun, hts⟩ := run_spaced h file .start
  have hwritten : writtenTokens (spaced ls) file = .ok ts := by
    have hscan := hrun.scan le_rfl le_rfl
    unfold writtenTokens Cursor.ofText
    rw [hscan]
    simp [Lexer.scan, Except.map]
  obtain ⟨s, hs, htokens⟩ := (splits_of_written hwritten).tokens
  refine ⟨s, hs, ?_⟩
  have hline : ts.getLast?.any Token.isNewline = ls.getLast?.any (·.1 == .newline) := by
    rw [← hts, List.getLast?_map, Option.any_map]
    rfl
  rw [htokens, endLine, hline]
  split
  · exact hts
  · rw [List.map_append, hts]
    rfl

/-- The string holds what would open a comment, a newline and a backslash in front of the closing
quote; fixed lexemes follow each other that would be read together without the spaces. -/
theorem tokenize_spaced_texts :
    let ls := [(.letWord, "let"), (.identifier, "f_1"), (.assignment, "="), (.equals, "=="),
      (.string, "\"(* é\n\\\""), (.openParen, "("), (.star, "*"), (.unit, "()"), (.semicolon, ";"),
      (.doubleSemicolon, ";;"), (.int, "1_0"), (.float, "1_0.5."), (.bool, "true"), (.newline, "\n"),
      (.sndWord, "snd")]
    (∀ l ∈ ls, WrittenOut l) ∧
      ∃ s, tokenize (spaced ls) "shell" = .ok s ∧
        s.toList.map Token.lexeme = ls ++ [(.newline, "\n")] := by
  intro ls
  have hname : WrittenOut (.identifier, "f_1") :=
    .of_ne_string (@Lexeme.identifier 'f' ['_', '1'] (by decide)
      (by simp [WordPart, Char.isAlphanum, Char.isDigit]) (by decide +kernel)) (by decide)
  have hstring : WrittenOut (.string, "\"(* é\n\\\"") :=
    ⟨@Lexeme.string ['(', '*', ' ', 'é', '\n', '\\'] (by decide) (by decide), fun _ => by decide⟩
  have hint : WrittenOut (.int, "1_0") :=
    .of_ne_string (@Lexeme.int '1' ['_', '0'] (by decide) (by simp [Char.isDigit])) (by decide)
  have hfloat : WrittenOut (.float, "1_0.5.") :=
    .of_ne_string (@Lexeme.float '1' ['_', '0', '.', '5', '.'] (by decide)
      (by simp [NumberPart, Char.isDigit]) (by decide)) (by decide)
  have hnewline : WrittenOut (.newline, "\n") := .of_ne_string .newline (by decide)
  let others : List (TokenKind × String) := [(.identifier, "f_1"), (.string, "\"(* é\n\\\""),
    (.int, "1_0"), (.float, "1_0.5."), (.newline, "\n")]
  have hothers : ∀ l ∈ others, WrittenOut l := by
    simp only [others, List.forall_mem_cons]
    exact ⟨hname, hstring, hint, hfloat, hnewline, List.forall_mem_nil _⟩
  have hcases : ∀ l ∈ ls, (l.2, l.1) ∈ reservedWords ∨ (l.2, l.1) ∈ signs ∨ l ∈ others := by
    decide +kernel
  have h : ∀ l ∈ ls, WrittenOut l := by
    intro l hl
    rcases hcases l hl with hword | hsign | hother
    · exact .reserved hword
    · exact .sign hsign
    · exact hothers l hother
  exact ⟨h, tokenize_spaced h "shell"⟩

end MiniMl
