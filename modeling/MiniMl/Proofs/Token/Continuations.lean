import MiniMl.Proofs.Token.Lexing
import MiniMl.Proofs.Token.Sequence

/-! # Where continuations do not matter

All readers of the lexer see logical text, but what comes next is decided by the characters as they
stand. So a continuation is without a trace unless it stands between the first two characters of an
operator, a pair of parentheses or an opened comment: then the first one is read on its own.
-/

namespace MiniMl

def Cursor.unread (c : Cursor) : List Char := logical c.rest

theorem Cursor.unread_settle (c : Cursor) : c.settle.unread = c.unread :=
  c.settle_unseen (fun text _ => logical text) fun rest p => by rw [logical]

theorem Cursor.settle_cases (c : Cursor) :
    (c.settle.rest = [] ∧ c.unread = []) ∨
      ∃ x rest, c.settle.rest = x :: rest ∧ ¬ Continued (x :: rest) ∧
        c.unread = x :: logical rest ∧ rest.length < c.rest.length := by
  have hlength := c.settle_length
  have hsettled := c.settled
  rw [← c.unread_settle]
  generalize c.settle = start, c.next? = next at hlength hsettled ⊢
  cases hsettled with
  | ended => exact .inl ⟨rfl, rfl⟩
  | ahead hopen => exact .inr ⟨_, _, rfl, hopen, logical_cons hopen, hlength⟩

namespace Lexer

theorem takeRun_logical (accept : Char → Bool) (text : List Char) (p : Position) :
    (takeRun accept text p).1 = (logical text).takeWhile accept ∧
      (takeRun accept text p).2.unread = (logical text).dropWhile accept := by
  fun_induction takeRun accept text p with
  | case1 rest p ih => exact ih
  | case2 c rest p hfree hc run stop hrun ih =>
    rw [hrun] at ih
    rw [logical_cons (not_continued hfree), List.takeWhile_cons_of_pos hc,
      List.dropWhile_cons_of_pos hc]
    exact ⟨congrArg (c :: ·) ih.1, ih.2⟩
  | case3 c rest p hfree hc =>
    have hlogical := logical_cons (not_continued hfree)
    rw [hlogical, List.takeWhile_cons_of_neg hc, List.dropWhile_cons_of_neg hc]
    exact ⟨rfl, hlogical⟩
  | case4 p => exact ⟨rfl, rfl⟩

/-- What a string literal with so much room holds of a logical text, and the text behind it. -/
def closeString (room : Nat) : List Char → Except Problem (List Char × List Char)
  | [] => .error .unterminatedString
  | c :: rest =>
    if c = '"' then .ok ([], rest)
    else if room = 0 then .error (.stringTooLong maxStringLength)
    else (closeString (room - 1) rest).map fun r => (c :: r.1, r.2)

theorem stringBody_logical (opening last p : Position) (room : Nat) (text : List Char) :
    ((stringBody opening room last text p).map fun r => (r.1, r.2.unread)).mapError (·.1) =
      closeString room (logical text) := by
  fun_induction stringBody opening room last text p with
  | case1 room last rest p ih => exact ih
  | case2 room last rest p =>
    rw [logical_cons (by simp [continued_cons]), closeString, if_pos rfl]
    rfl
  | case3 last c rest p hfree hquote =>
    rw [logical_cons (not_continued hfree), closeString, if_neg hquote, if_pos rfl]
    rfl
  | case4 last room c rest p hfree hquote body stop hmore ih =>
    rw [hmore] at ih
    rw [logical_cons (not_continued hfree), closeString, if_neg hquote, if_neg (Nat.succ_ne_zero _),
      Nat.succ_sub_one, ← ih]
    rfl
  | case5 last room c rest p hfree hquote e hmore ih =>
    rw [hmore] at ih
    rw [logical_cons (not_continued hfree), closeString, if_neg hquote, if_neg (Nat.succ_ne_zero _),
      Nat.succ_sub_one, ← ih]
    rfl
  | case6 => rw [logical, closeString]; rfl

def closeComment (starred : Bool) : List Char → Option (List Char)
  | [] => none
  | c :: rest => if starred ∧ c = ')' then some rest else closeComment (c == '*') rest

theorem commentEnd?_logical (starred : Bool) (text : List Char) (p : Position) :
    (commentEnd? starred text p).map Cursor.unread = closeComment starred (logical text) := by
  fun_induction commentEnd? starred text p with
  | case1 starred rest p ih => exact ih
  | case2 rest p =>
    rw [logical_cons (by simp [continued_cons]), closeComment, if_pos ⟨rfl, rfl⟩]
    rfl
  | case3 starred c rest p hfree hclose ih =>
    rw [logical_cons (not_continued hfree), closeComment, if_neg, ih]
    rintro ⟨hstarred, hc⟩
    exact hclose hstarred hc
  | case4 => rfl

/-- The two characters are one lexeme or open a comment. -/
def pairs : Char → Char → Bool
  | '(', ')' | '(', '*' | ';', ';' | '=', '=' | '!', '=' | '<', '=' | '>', '=' | '&', '&'
  | '|', '|' => true
  | _, _ => false

theorem punctuation?_alone {c : Char} {text : List Char} (hc : text.head? = some c)
    (h : ∀ d ∈ text.tail.head?, pairs c d = false) : punctuation? text = punctuation? [c] := by
  fun_cases punctuation? text
  case case20 =>
    obtain ⟨rest, rfl⟩ := List.head?_eq_some_iff.mp hc
    unfold punctuation?
    split
    all_goals
      rename_i heq
      first
      | rfl
      | cases heq
    all_goals
      exfalso
      solve_by_elim
  all_goals
    cases hc
    first
    | rfl
    | exact absurd (h _ rfl) (by decide)

theorem punctuation?_paired {c d : Char} (h : pairs c d) (rest : List Char) :
    punctuation? (c :: d :: rest) = punctuation? [c, d] := by
  unfold pairs at h
  split at h
  all_goals first | rfl | cases h

theorem pairs_second {c d : Char} (h : d ∉ [')', '*', ';', '=', '&', '|']) : pairs c d = false := by
  unfold pairs
  split
  all_goals first | rfl | exact absurd (by decide) h

theorem punctuation?_append (c : Char) (rest : List Char) {after : List Char}
    (h : ∀ d ∈ after.head?, ∀ c, pairs c d = false) :
    punctuation? (c :: rest ++ after) = punctuation? (c :: rest) := by
  cases rest with
  | nil => exact punctuation?_alone rfl fun d hd => h d hd c
  | cons d rest =>
    cases hpair : pairs c d with
    | true =>
      rw [punctuation?_paired hpair rest]
      exact punctuation?_paired hpair _
    | false =>
      have halone : ∀ more, punctuation? (c :: d :: more) = punctuation? [c] := by
        intro more
        refine punctuation?_alone rfl fun e he => ?_
        cases he
        exact hpair
      rw [halone rest]
      exact halone _

/-- Continuations stand between the first two characters, which would be read together. -/
def torn : List Char → Bool
  | c :: '\\' :: '\n' :: rest => (logical rest).head?.any (pairs c)
  | _ => false

theorem torn_cases (c : Char) (rest : List Char) :
    (torn (c :: rest) = true ∧ rest.head? = some '\\') ∨
      (torn (c :: rest) = false ∧
        (rest.head? = (logical rest).head? ∨
          rest.head? = some '\\' ∧ (logical rest).head?.any (pairs c) = false)) := by
  fun_cases logical rest with
  | case1 more =>
    have htorn : torn (c :: '\\' :: '\n' :: more) = (logical more).head?.any (pairs c) := rfl
    cases hpair : (logical more).head?.any (pairs c) with
    | true => exact .inl ⟨htorn.trans hpair, rfl⟩
    | false => exact .inr ⟨htorn.trans hpair, .inr ⟨rfl, rfl⟩⟩
  | case2 d more hfree =>
    refine .inr ⟨?_, .inl ?_⟩
    · unfold torn
      split
      · rename_i heq
        obtain ⟨-, heq⟩ := List.cons.inj heq
        obtain ⟨rfl, rfl⟩ := List.cons.inj heq
        exact absurd rfl (hfree _ rfl)
      · rfl
    · rfl
  | case3 => exact .inr ⟨rfl, .inl rfl⟩

theorem pairs_backslash (c : Char) : pairs c '\\' = false := pairs_second (by decide)

theorem head?_of_pairs {c d : Char} {rest : List Char} (h : torn (c :: rest) = false)
    (hd : (logical rest).head? = some d) (hpair : pairs c d) : rest.head? = some d := by
  rcases torn_cases c rest with ⟨htorn, _⟩ | ⟨_, hhead | ⟨_, hnone⟩⟩
  · rw [htorn] at h
    cases h
  · rw [hhead, hd]
  · rw [hd, Option.any_some, hpair] at hnone
    cases hnone

theorem unpaired_of_logical {c : Char} {rest : List Char}
    (h : (logical rest).head?.any (pairs c) = false) : ∀ d ∈ rest.head?, pairs c d = false := by
  intro d hd
  rcases torn_cases c rest with ⟨_, hslash⟩ | ⟨_, hhead | ⟨hslash, _⟩⟩
  · rw [hslash] at hd
    cases hd
    exact pairs_backslash c
  · rw [← hhead, hd] at h
    exact h
  · rw [hslash] at hd
    cases hd
    exact pairs_backslash c

theorem punctuation?_logical (c : Char) (rest : List Char) :
    punctuation? (c :: rest) =
      punctuation? (if torn (c :: rest) then [c] else c :: logical rest) := by
  rcases torn_cases c rest with ⟨htorn, hslash⟩ | ⟨hwhole, _⟩
  · rw [if_pos htorn]
    apply punctuation?_alone rfl
    intro d hd
    obtain rfl : '\\' = d := Option.some.inj (hslash.symm.trans hd)
    exact pairs_backslash c
  · rw [hwhole, if_neg (by decide)]
    cases hpair : (logical rest).head?.any (pairs c) with
    | true =>
      obtain ⟨d, hd, hpair⟩ := (Option.any_eq_true _ _).mp hpair
      obtain ⟨more, hmore⟩ := List.head?_eq_some_iff.mp (head?_of_pairs hwhole hd hpair)
      obtain ⟨seen, hseen⟩ := List.head?_eq_some_iff.mp hd
      rw [hseen, hmore, punctuation?_paired hpair more, punctuation?_paired hpair seen]
    | false =>
      have hnone : ∀ d ∈ (logical rest).head?, pairs c d = false := by
        intro d hd
        rw [hd] at hpair
        exact hpair
      have hwith : punctuation? (c :: logical rest) = punctuation? [c] :=
        punctuation?_alone rfl hnone
      rw [hwith]
      exact punctuation?_alone rfl (unpaired_of_logical hpair)

theorem pass_logical (start : Cursor) {kind : TokenKind} (h : punctuation? start.rest = some kind) :
    (pass kind.text.length start).unread = start.unread.drop kind.text.length := by
  obtain ⟨hmem, after, hafter⟩ := punctuation?_text h
  obtain ⟨hlogical, -⟩ := punctuation_text hmem
  have hunread : start.unread = kind.text.toList ++ logical after := by
    rw [Cursor.unread, ← hafter, logical_append, hlogical]
    intro hslash
    exact absurd hslash (punctuation_last hmem)
  rw [hunread, ← String.length_toList, List.drop_left]
  change logical (start.rest.drop kind.text.toList.length) = _
  rw [← hafter, List.drop_left]

/-- A lexeme as its kind and text and the logical text behind it, or what is wrong with it. -/
abbrev Reading := Except Problem (Option (TokenKind × String) × List Char)

/-- What is read of a logical text from its first character on, given whether the second one is torn
off. -/
def reading (tears : Bool) (c : Char) (rest : List Char) : Reading :=
  if c = '\n' then .ok (some (.newline, "\n"), rest)
  else if c = '"' then
    (closeString maxStringLength rest).map fun r =>
      (some (.string, "\"" ++ String.ofList r.1 ++ "\""), r.2)
  else if c = '(' ∧ rest.head? = some '*' ∧ tears = false then
    match closeComment false rest.tail with
    | some text => .ok (none, text)
    | none => .error .unterminatedComment
  else if isBlank c then .ok (none, (c :: rest).dropWhile isBlank)
  else if isWordStart c then
    let word := String.ofList ((c :: rest).takeWhile isWordPart)
    .ok (some (wordKind word, word), (c :: rest).dropWhile isWordPart)
  else if c.isDigit then
    let digits := (c :: rest).takeWhile isNumberPart
    .ok (some (numberKind digits, String.ofList digits), (c :: rest).dropWhile isNumberPart)
  else
    match punctuation? (if tears then [c] else c :: rest) with
    | some kind => .ok (some (kind, kind.text), (c :: rest).drop kind.text.length)
    | none => .error (.invalidCharacter c.toString)

def outcome (r : Except Diagnostic (Option Token × Cursor)) : Reading :=
  (r.map fun x => (x.1.map Token.lexeme, x.2.unread)).mapError Diagnostic.problem

theorem lexeme_reading {c : Char} {rest : List Char} (hopen : ¬ Continued (c :: rest))
    (file : String) (p : Position) :
    outcome (lexeme file ⟨c :: rest, p⟩) = reading (torn (c :: rest)) c (logical rest) := by
  unfold lexeme
  dsimp only
  split
  case h_1 heq => cases heq
  case h_2 heq =>
    obtain ⟨rfl, rfl⟩ := List.cons.inj heq
    rw [reading, if_pos rfl]
    rfl
  case h_3 heq =>
    obtain ⟨rfl, rfl⟩ := List.cons.inj heq
    rw [reading, if_neg (by decide), if_pos rfl, ← stringBody_logical p (p.after '"') (p.after '"')]
    split
    · rename_i hbody
      rw [hbody]
      rfl
    · rename_i hbody
      rw [hbody]
      rfl
  case h_4 more heq =>
    obtain ⟨rfl, rfl⟩ := List.cons.inj heq
    have hlogical : logical ('*' :: more) = '*' :: logical more :=
      logical_cons (by simp [continued_cons])
    rw [reading, if_neg (by decide), if_neg (by decide), hlogical, if_pos ⟨rfl, rfl, rfl⟩,
      List.tail_cons, ← commentEnd?_logical false more ((p.after '(').after '*')]
    split
    · rename_i hend
      rw [hend]
      rfl
    · rename_i hend
      rw [hend]
      rfl
  case h_5 hnewline hquote hcomment heq =>
    obtain ⟨rfl, rfl⟩ := List.cons.inj heq
    have hlogical := logical_cons hopen
    have hnone : ¬ (c = '(' ∧ (logical rest).head? = some '*' ∧ torn (c :: rest) = false) := by
      rintro ⟨rfl, hhead, hwhole⟩
      obtain ⟨more, rfl⟩ := List.head?_eq_some_iff.mp (head?_of_pairs hwhole hhead rfl)
      exact hcomment more rfl rfl
    rw [reading, if_neg hnewline, if_neg hquote, if_neg hnone, ← hlogical]
    by_cases hblank : isBlank c
    · obtain ⟨-, hstop⟩ := takeRun_logical isBlank (c :: rest) p
      rw [if_pos hblank, if_pos hblank, ← hstop]
      rfl
    rw [if_neg hblank, if_neg hblank]
    by_cases hword : isWordStart c
    · obtain ⟨hrun, hstop⟩ := takeRun_logical isWordPart (c :: rest) p
      rw [if_pos hword, if_pos hword, ← hrun, ← hstop]
      rfl
    rw [if_neg hword, if_neg hword]
    by_cases hdigit : c.isDigit
    · obtain ⟨hrun, hstop⟩ := takeRun_logical isNumberPart (c :: rest) p
      rw [if_pos hdigit, if_pos hdigit, ← hrun, ← hstop]
      rfl
    rw [if_neg hdigit, if_neg hdigit, hlogical, ← punctuation?_logical]
    cases hkind : punctuation? (c :: rest) with
    | some kind =>
      have hstop := pass_logical ⟨c :: rest, p⟩ hkind
      rw [← hlogical]
      exact congrArg (fun text => Except.ok (some (kind, kind.text), text)) hstop
    | none => rfl

/-- For each lexeme, run of blanks and comment that is read: whether its first two characters are
torn. -/
def tears (file : String) : (bound : Nat) → Cursor → List Bool
  | 0, _ => []
  | bound + 1, c =>
    if c.settle.rest = [] then []
    else
      torn c.settle.rest ::
        match lexeme file c.settle with
        | .ok (_, next) => tears file bound next
        | .error _ => []

def scanned (r : Except Diagnostic (List Token × Position)) :
    Except Problem (List (TokenKind × String)) :=
  (r.map fun x => x.1.map Token.lexeme).mapError Diagnostic.problem

section

variable {file file' : String} {bound bound' : Nat} {c c' : Cursor}

theorem scan_more (h : c.settle.rest ≠ []) :
    scanned (scan file (bound + 1) c) =
      match lexeme file c.settle with
      | .ok (token, next) =>
        (scanned (scan file bound next)).map ((token.map Token.lexeme).toList ++ ·)
      | .error d => .error d.problem := by
  rw [scan_read bound h]
  cases lexeme file c.settle with
  | error d => rfl
  | ok r =>
    obtain ⟨token, next⟩ := r
    change scanned ((scan file bound next).map fun s => (token.toList ++ s.1, s.2)) =
      (scanned (scan file bound next)).map ((token.map Token.lexeme).toList ++ ·)
    cases scan file bound next with
    | error d => rfl
    | ok s =>
      cases token with
      | none => rfl
      | some t => rfl

theorem tears_more (h : c.settle.rest ≠ []) :
    tears file (bound + 1) c =
      torn c.settle.rest ::
        match lexeme file c.settle with
        | .ok (_, next) => tears file bound next
        | .error _ => [] := by
  rw [tears, if_neg h]

theorem lexeme_agree {start start' : Cursor} {x : Char} {rest rest' : List Char}
    (hstart : start.rest = x :: rest) (hstart' : start'.rest = x :: rest')
    (hopen : ¬ Continued (x :: rest)) (hopen' : ¬ Continued (x :: rest'))
    (hlogical : logical rest = logical rest') (htorn : torn start.rest = torn start'.rest) :
    outcome (lexeme file start) = outcome (lexeme file' start') := by
  obtain ⟨text, p⟩ := start
  obtain ⟨text', p'⟩ := start'
  obtain rfl : text = x :: rest := hstart
  obtain rfl : text' = x :: rest' := hstart'
  rw [lexeme_reading hopen, lexeme_reading hopen', hlogical]
  exact congrArg (reading · x (logical rest')) htorn

theorem scan_end (h : c.unread = []) : scanned (scan file bound c) = .ok [] := by
  rcases c.settle_cases with ⟨hend, _⟩ | ⟨x, rest, _, _, hseen, _⟩
  · rw [scan_settled hend]
    rfl
  · rw [hseen] at h
    cases h

/-- Two texts that read the same are lexed the same if they are torn at the same lexemes. -/
theorem scan_agree (hbound : c.rest.length ≤ bound) (hbound' : c'.rest.length ≤ bound')
    (hunread : c.unread = c'.unread)
    (htears : ∀ tear ∈ (tears file bound c).zip (tears file' bound' c'), tear.1 = tear.2) :
    scanned (scan file bound c) = scanned (scan file' bound' c') := by
  induction bound using Nat.strong_induction_on generalizing bound' c c' with
  | _ bound ih =>
    rcases c.settle_cases with ⟨_, hend⟩ | ⟨x, rest, hrest, hopen, hseen, _⟩
    · rw [scan_end hend, scan_end (hunread ▸ hend)]
    rcases c'.settle_cases with ⟨_, hend⟩ | ⟨x', rest', hrest', hopen', hseen', _⟩
    · rw [scan_end hend, scan_end (hunread ▸ hend)]
    rw [hseen, hseen'] at hunread
    obtain ⟨rfl, hlogical⟩ := List.cons.inj hunread
    have hmore : c.settle.rest ≠ [] := by simp [hrest]
    have hmore' : c'.settle.rest ≠ [] := by simp [hrest']
    obtain ⟨n, rfl⟩ := bound_turn hmore hbound
    obtain ⟨n', rfl⟩ := bound_turn hmore' hbound'
    rw [tears_more hmore, tears_more hmore', List.zip_cons_cons] at htears
    obtain ⟨htorn, htears⟩ := List.forall_mem_cons.mp htears
    have hsame : outcome (lexeme file c.settle) = outcome (lexeme file' c'.settle) :=
      lexeme_agree hrest hrest' hopen hopen' hlogical htorn
    rw [scan_more hmore, scan_more hmore']
    cases hl : lexeme file c.settle with
    | error d =>
      cases hl' : lexeme file' c'.settle with
      | error d' =>
        rw [hl, hl'] at hsame
        exact congrArg Except.error (Except.error.inj hsame)
      | ok r =>
        rw [hl, hl'] at hsame
        cases hsame
    | ok r =>
      cases hl' : lexeme file' c'.settle with
      | error d' =>
        rw [hl, hl'] at hsame
        cases hsame
      | ok r' =>
        obtain ⟨token, next⟩ := r
        obtain ⟨token', next'⟩ := r'
        rw [hl, hl'] at hsame htears
        obtain ⟨htoken, hnext⟩ := Prod.mk.inj (Except.ok.inj hsame)
        have hless := lexeme_shorter hmore hl
        have hless' := lexeme_shorter hmore' hl'
        have hothers : scanned (scan file n next) = scanned (scan file' n' next') :=
          ih n (Nat.lt_succ_self n) (by omega) (by omega) hnext htears
        change (scanned (scan file n next)).map _ = (scanned (scan file' n' next')).map _
        rw [hothers, htoken]

end

theorem lexeme_torn {c : Char} {rest : List Char} (h : torn (c :: rest)) (file : String)
    (p : Position) :
    lexeme file ⟨c :: rest, p⟩ =
      match punctuation? [c] with
      | some kind => .ok (some ⟨kind, c.toString, p.location file⟩, ⟨rest, p.after c⟩)
      | none => .error ⟨.invalidCharacter c.toString, p.location file⟩ := by
  unfold torn at h
  split at h
  · rename_i heq
    obtain ⟨rfl, rfl⟩ := List.cons.inj heq
    obtain ⟨d, -, hpair⟩ := (Option.any_eq_true _ _).mp h
    unfold pairs at hpair
    split at hpair
    all_goals first | rfl | cases hpair
  · cases h

end Lexer

def lexed (source file : String) : Except Problem (List (TokenKind × String)) :=
  ((tokenize source file).map fun s => s.toList.map Token.lexeme).mapError Diagnostic.problem

/-- For each lexeme, run of blanks and comment of a source: whether continuations tear its first two
characters apart. -/
def tears (source file : String) : List Bool :=
  Lexer.tears file source.toList.length (.ofText source.toList)

theorem lexed_eq (source file : String) :
    lexed source file =
      (Lexer.scanned (Lexer.scan file source.toList.length (.ofText source.toList))).map fun ls =>
        if ls.getLast?.any (·.1 == .newline) then ls else ls ++ [(.newline, "\n")] := by
  unfold lexed tokenize Lexer.tokens
  cases hscan : Lexer.scan file source.toList.length (.ofText source.toList) with
  | error d => rfl
  | ok r =>
    obtain ⟨ts, stop⟩ := r
    have hlast : (ts.getLast?.map Token.lexeme).any (·.1 == .newline) =
        ts.getLast?.any Token.isNewline := by
      rw [Option.any_map]
      rfl
    cases hline : ts.getLast?.any Token.isNewline with
    | true =>
      simp [bind, Except.bind, pure, Except.pure, Except.map, Except.mapError, Lexer.scanned,
        TokenSequence.toList, TokenSequence.ofList, hlast, hline]
    | false =>
      simp [bind, Except.bind, pure, Except.pure, Except.map, Except.mapError, Lexer.scanned,
        TokenSequence.toList, TokenSequence.ofList, hlast, hline, Token.lexeme]

/-- The tokens of two sources that read the same have the same kinds and texts, or the same problem
is found, if the same lexemes are torn. A pair that is torn is read as two characters. -/
theorem continuations_transparent (source source' file file' : String) :
    (logical source.toList = logical source'.toList →
      (∀ tear ∈ (tears source file).zip (tears source' file'), tear.1 = tear.2) →
      lexed source file = lexed source' file') ∧
    ∀ {c : Char} {rest : List Char} (p : Position), Lexer.torn (c :: rest) →
      Lexer.lexeme file ⟨c :: rest, p⟩ =
        match Lexer.punctuation? [c] with
        | some kind => .ok (some ⟨kind, c.toString, p.location file⟩, ⟨rest, p.after c⟩)
        | none => .error ⟨.invalidCharacter c.toString, p.location file⟩ := by
  refine ⟨?_, fun p h => Lexer.lexeme_torn h file p⟩
  intro hlogical htears
  rw [lexed_eq, lexed_eq]
  exact congrArg _ (Lexer.scan_agree (Nat.le_refl _) (Nat.le_refl _) hlogical htears)

/-- A line with continuations in a word, a string, the end of a comment and a number and between two
tokens, next to the same line without them; and a pair that is torn. -/
theorem continuations_transparent_line :
    logical "le\\\nt s = \"=\\\n=\" (* *\\\n) <= 1\\\n0 \\\n;;".toList =
        logical "let s = \"==\" (* *) <= 10 ;;".toList ∧
      lexed "le\\\nt s = \"=\\\n=\" (* *\\\n) <= 1\\\n0 \\\n;;" "shell" =
        lexed "let s = \"==\" (* *) <= 10 ;;" "shell" ∧
      lexed "let s = \"==\" (* *) <= 10 ;;" "shell" =
        .ok [(.letWord, "let"), (.identifier, "s"), (.assignment, "="), (.string, "\"==\""),
          (.lessEquals, "<="), (.int, "10"), (.doubleSemicolon, ";;"), (.newline, "\n")] ∧
      Lexer.torn "&\\\n&".toList ∧
      Lexer.lexeme "shell" (.ofText "&\\\n&".toList) =
        .error ⟨.invalidCharacter "&", .start "shell"⟩ := by
  have hlogical : logical "le\\\nt s = \"=\\\n=\" (* *\\\n) <= 1\\\n0 \\\n;;".toList =
      logical "let s = \"==\" (* *) <= 10 ;;".toList := by decide +kernel
  have htears : ∀ tear ∈
      (tears "le\\\nt s = \"=\\\n=\" (* *\\\n) <= 1\\\n0 \\\n;;" "shell").zip
        (tears "let s = \"==\" (* *) <= 10 ;;" "shell"), tear.1 = tear.2 := by decide +kernel
  have htorn : Lexer.torn "&\\\n&".toList := by decide +kernel
  obtain ⟨hsame, halone⟩ :=
    continuations_transparent "le\\\nt s = \"=\\\n=\" (* *\\\n) <= 1\\\n0 \\\n;;"
      "let s = \"==\" (* *) <= 10 ;;" "shell" "shell"
  exact ⟨hlogical, hsame hlogical htears, by decide +kernel, htorn, halone .start htorn⟩

theorem equals_torn :
    logical "=\\\n=".toList = logical "==".toList ∧
      lexed "=\\\n=" "shell" = .ok [(.assignment, "="), (.assignment, "="), (.newline, "\n")] ∧
      lexed "==" "shell" = .ok [(.equals, "=="), (.newline, "\n")] := by
  decide +kernel

end MiniMl
