import MiniMl.Proofs.Token.Continuations
import MiniMl.Proofs.Token.Displacement
import MiniMl.Proofs.Token.Locations
import MiniMl.Proofs.Token.Runs

/-! # Sources line by line

A newline ends every lexeme in front of it, and the lexer keeps nothing but its position. So what is
read of a source is not changed by more lines behind it, and those are read as a source of their own
that stands further down.
-/

namespace MiniMl

def Cursor.withLine (c : Cursor) (line : List Char) : Cursor := ⟨c.rest ++ '\n' :: line, c.position⟩

/-- The text does not end in a backslash, which a newline behind it would make a continuation. -/
def Sealed (text : List Char) : Prop := text.getLast? ≠ some '\\'

namespace Sealed

variable {text front back : List Char} {c : Char}

theorem suffix (h : Sealed (front ++ back)) : Sealed back := by
  intro hback
  apply h
  rw [List.getLast?_append, hback]
  rfl

theorem tail (h : Sealed (c :: text)) : Sealed text := by
  rw [← List.singleton_append] at h
  exact h.suffix

theorem append (h : Sealed front) (h' : Sealed back) : Sealed (front ++ back) := by
  unfold Sealed at h h' ⊢
  rw [List.getLast?_append]
  cases hlast : back.getLast? with
  | none => exact h
  | some c => rwa [hlast] at h'

theorem of_mem (h : ∀ c ∈ text, c ≠ '\\') : Sealed text :=
  fun hlast => h _ (List.mem_of_getLast? hlast) rfl

theorem passed {d e : Cursor} (h : Sealed d.rest) (hpass : d.Passes text e) : Sealed e.rest :=
  suffix (hpass.rest ▸ h)

theorem not_continued (h : Sealed text) (hopen : ¬ Continued text) (line : List Char) :
    ¬ Continued (text ++ '\n' :: line) := by
  cases text with
  | nil => simp [continued_cons]
  | cons c rest =>
    rw [List.cons_append, continued_cons]
    rintro ⟨rfl, hhead⟩
    cases rest with
    | nil => exact h rfl
    | cons d rest => exact hopen (continued_cons.mpr ⟨rfl, hhead⟩)

end Sealed

theorem Cursor.settle_withLine {c : Cursor} (h : Sealed c.rest) (line : List Char) :
    (c.withLine line).settle = c.settle.withLine line := by
  obtain ⟨text, p⟩ := c
  change skipContinuations (text ++ '\n' :: line) p = (skipContinuations text p).withLine line
  fun_induction skipContinuations text p with
  | case1 p rest ih =>
    rw [List.cons_append, List.cons_append, skipContinuations]
    exact ih h.tail.tail
  | case2 text p hfree =>
    refine skipContinuations_open (Sealed.not_continued h ?_ line) p
    rintro ⟨more, rfl⟩
    exact hfree more rfl

theorem Lexeme.isSealed {kind : TokenKind} {value : List Char} (h : Lexeme kind value) :
    Sealed value := by
  cases h.reads with
  | newline => exact .of_mem (by simp)
  | @word c cs hc hcs =>
    refine .of_mem fun d hd => ?_
    rintro rfl
    rcases List.mem_cons.mp hd with rfl | hd
    · exact absurd hc (by decide)
    · exact absurd (hcs _ hd) (by decide)
  | @number c cs hc hcs =>
    refine .of_mem fun d hd => ?_
    rintro rfl
    rcases List.mem_cons.mp hd with rfl | hd
    · exact absurd hc (by decide)
    · exact absurd (hcs _ hd) (by decide)
  | string _ _ =>
    unfold Sealed
    rw [List.cons_append, List.getLast?_cons, List.getLast?_append]
    simp
  | fixed hmem => exact punctuation_last hmem

/-- A backslash at its end belongs to no segment. -/
theorem Segmented.isSealed {file : String} {p : Position} {text : List Char} {ts : List Token}
    (h : Segmented file p text ts) : Sealed text := by
  induction h with
  | nil => exact .of_mem (by simp)
  | @blank p c text ts hc _ ih =>
    have hblank : Sealed [c] := by
      refine .of_mem fun d hd => ?_
      rintro rfl
      obtain rfl := List.mem_singleton.mp hd
      exact absurd hc (by decide)
    exact hblank.append ih
  | continuation _ ih =>
    have hpair : Sealed ['\\', '\n'] := by simp [Sealed]
    exact hpair.append ih
  | comment hcomment _ ih =>
    refine Sealed.append ?_ ih
    cases hcomment with
    | mk hlast _ _ =>
      unfold Sealed
      simp [List.getLast?_cons, hlast]
  | lexeme htrim hlexeme _ _ _ _ ih =>
    refine Sealed.append ?_ ih
    unfold Sealed
    rw [htrim.last]
    exact hlexeme.isSealed

namespace Lexer

variable {line : List Char}

theorem takeRun_withLine {accept : Char → Bool} (hnewline : accept '\n' = false) {text : List Char}
    (h : Sealed text) (p : Position) :
    takeRun accept (text ++ '\n' :: line) p =
      ((takeRun accept text p).1, (takeRun accept text p).2.withLine line) := by
  fun_induction takeRun accept text p with
  | case1 rest p ih =>
    rw [List.cons_append, List.cons_append, takeRun]
    exact ih h.tail.tail
  | case2 c rest p hfree hc run stop hrun ih =>
    have hopen := h.not_continued (not_continued hfree) line
    rw [List.cons_append, takeRun, if_pos hc, ih h.tail, hrun]
    exact free_of_not_continued hopen
  | case3 c rest p hfree hc =>
    have hopen := h.not_continued (not_continued hfree) line
    rw [List.cons_append, takeRun, if_neg hc]
    · rfl
    · exact free_of_not_continued hopen
  | case4 p =>
    rw [List.nil_append, takeRun, if_neg (by simp [hnewline])]
    · rfl
    · rintro more h
      cases h

theorem stringBody_withLine {opening last p : Position} {room : Nat} {text body : List Char}
    {stop : Cursor} (hsealed : Sealed text)
    (h : stringBody opening room last text p = .ok (body, stop)) :
    stringBody opening room last (text ++ '\n' :: line) p = .ok (body, stop.withLine line) := by
  fun_induction stringBody opening room last text p generalizing body stop with
  | case1 room last rest p ih =>
    rw [List.cons_append, List.cons_append, stringBody]
    exact ih hsealed.tail.tail h
  | case2 room last rest p =>
    cases h
    rw [List.cons_append, stringBody]
    rfl
  | case3 => cases h
  | case4 last room c rest p hfree hquote body' stop' hmore ih =>
    cases h
    have hopen := hsealed.not_continued (not_continued hfree) line
    rw [List.cons_append, stringBody, ih hsealed.tail hmore]
    · exact free_of_not_continued hopen
    · exact hquote
  | case5 => cases h
  | case6 => cases h

theorem commentEnd?_withLine {starred : Bool} {text : List Char} {p : Position} {stop : Cursor}
    (hsealed : Sealed text) (h : commentEnd? starred text p = some stop) :
    commentEnd? starred (text ++ '\n' :: line) p = some (stop.withLine line) := by
  fun_induction commentEnd? starred text p with
  | case1 starred rest p ih =>
    rw [List.cons_append, List.cons_append, commentEnd?]
    exact ih hsealed.tail.tail h
  | case2 rest p =>
    cases h
    rw [List.cons_append, commentEnd?]
    rfl
  | case3 starred c rest p hfree hclose ih =>
    have hopen := hsealed.not_continued (not_continued hfree) line
    rw [List.cons_append, commentEnd?]
    · exact ih hsealed.tail h
    · exact free_of_not_continued hopen
    · exact hclose
  | case4 => cases h

theorem pass_withLine {kind : TokenKind} {c : Cursor} (h : punctuation? c.rest = some kind) :
    pass kind.text.length (c.withLine line) = (pass kind.text.length c).withLine line := by
  obtain ⟨-, hlexeme⟩ := punctuation?_text h
  have hlength := hlexeme.length_le
  rw [String.length_toList] at hlength
  simp only [pass, Cursor.withLine, List.drop_append_of_le_length hlength,
    List.take_append_of_le_length hlength]

theorem told_withLine {file : String} {c : Char} {rest : List Char} {p : Position} {next : Cursor}
    {token : Option Token} (hnewline : c ≠ '\n') (hquote : c ≠ '"')
    (hcomment : ∀ more, c = '(' → rest = '*' :: more → False) (hsealed : Sealed (c :: rest))
    (h : lexeme file ⟨c :: rest, p⟩ = .ok (token, next)) :
    lexeme file ⟨c :: rest ++ '\n' :: line, p⟩ = .ok (token, next.withLine line) := by
  have hopen : ∀ more, c = '(' → rest ++ '\n' :: line = '*' :: more → False := by
    rintro more rfl hmore
    cases rest with
    | nil => cases hmore
    | cons d rest =>
      obtain ⟨rfl, -⟩ := List.cons.inj hmore
      exact hcomment rest rfl rfl
  rw [lexeme_told hnewline hquote hcomment] at h
  rw [List.cons_append, lexeme_told hnewline hquote hopen, ← List.cons_append,
    takeRun_withLine (by decide) hsealed, takeRun_withLine (by decide) hsealed,
    takeRun_withLine (by decide) hsealed, punctuation?_append c rest (by simp [pairs_second])]
  by_cases hblank : isBlank c
  · rw [if_pos hblank] at h ⊢
    cases h
    rfl
  rw [if_neg hblank] at h ⊢
  by_cases hword : isWordStart c
  · rw [if_pos hword] at h ⊢
    cases h
    rfl
  rw [if_neg hword] at h ⊢
  by_cases hdigit : c.isDigit
  · rw [if_pos hdigit] at h ⊢
    cases h
    rfl
  rw [if_neg hdigit] at h ⊢
  cases hkind : punctuation? (c :: rest) with
  | none =>
    rw [hkind] at h
    cases h
  | some kind =>
    rw [hkind] at h
    cases h
    have hpass : pass kind.text.length (.withLine ⟨c :: rest, p⟩ line) =
        (pass kind.text.length ⟨c :: rest, p⟩).withLine line := pass_withLine hkind
    exact congrArg (fun next => Except.ok (some _, next)) hpass

theorem lexeme_withLine {file : String} {start next : Cursor} {token : Option Token}
    (hmore : start.rest ≠ []) (hsealed : Sealed start.rest)
    (h : lexeme file start = .ok (token, next)) :
    lexeme file (start.withLine line) = .ok (token, next.withLine line) := by
  obtain ⟨text, p⟩ := start
  change lexeme file ⟨text ++ '\n' :: line, p⟩ = _
  have hlexeme := h
  simp only [lexeme] at h
  split at h
  · exact absurd rfl hmore
  · cases h
    rfl
  · split at h
    next body stop hbody =>
      cases h
      simp only [List.cons_append, lexeme, stringBody_withLine hsealed.tail hbody]
    next => cases h
  · split at h
    next stop hend =>
      cases h
      simp only [List.cons_append, lexeme, commentEnd?_withLine hsealed.tail.tail hend]
    next => cases h
  next hnewline hquote hcomment => exact told_withLine hnewline hquote hcomment hsealed hlexeme

theorem Run.withLine {file : String} {c d : Cursor} {ts : List Token} (h : Run file c ts d)
    (hsealed : Sealed c.rest) (line : List Char) :
    Run file (c.withLine line) ts (d.withLine line) ∧ Sealed d.rest := by
  induction h with
  | done => exact ⟨.done, hsealed⟩
  | @turn c next d token ts hmore hlexeme _ ih =>
    obtain ⟨gap, -, hpass, -⟩ := c.settle_passes
    have hsealed' := hsealed.passed hpass
    obtain ⟨raw, hpass'⟩ := (lexeme_step hmore hlexeme).passes
    obtain ⟨hrun, hd⟩ := ih (hsealed'.passed hpass')
    have hsettle := Cursor.settle_withLine hsealed line
    refine ⟨.turn ?_ ?_ hrun, hd⟩
    · rw [hsettle]
      simp [Cursor.withLine]
    · rw [hsettle]
      exact lexeme_withLine hmore hsealed' hlexeme

theorem run_newline {file : String} {d : Cursor} (hend : d.settle.rest = [])
    (hsealed : Sealed d.rest) (line : List Char) :
    Run file (d.withLine line) [⟨.newline, "\n", d.settle.position.location file⟩]
      ⟨line, d.settle.position.after '\n'⟩ := by
  have hsettle : (d.withLine line).settle = ⟨'\n' :: line, d.settle.position⟩ := by
    rw [Cursor.settle_withLine hsealed, Cursor.withLine, hend]
    rfl
  have hlexeme : lexeme file (d.withLine line).settle =
      .ok (some ⟨.newline, "\n", d.settle.position.location file⟩,
        ⟨line, d.settle.position.after '\n'⟩) := by
    rw [hsettle]
    rfl
  exact Run.once (by simp [hsettle]) hlexeme

theorem scan_withLine {file : String} {bound : Nat} {c : Cursor} {ts : List Token}
    {stop : Position} (hbound : c.rest.length ≤ bound) (h : scan file bound c = .ok (ts, stop))
    (line : List Char) :
    scan file (c.withLine line).rest.length (c.withLine line) =
      (scan file line.length ⟨line, stop.after '\n'⟩).map fun r =>
        (ts ++ ⟨.newline, "\n", stop.location file⟩ :: r.1, r.2) := by
  obtain ⟨d, hrun, hend, rfl⟩ := run_of_scan hbound h
  obtain ⟨hrun', hsealed⟩ := hrun.withLine (scan_segmented hbound h).1.isSealed line
  rw [(hrun'.trans (run_newline hend hsealed line)).scan le_rfl le_rfl]
  simp

end Lexer

/-- The tokens that stand in a source; a newline that is added at its end is none of them. -/
def writtenTokens (source file : String) : Except Diagnostic (List Token) :=
  (Lexer.scan file source.toList.length (.ofText source.toList)).map (·.1)

def sourceEnd (source file : String) : Location := (Position.start.behind source.toList).location file

theorem tokenize_of_written (source file : String) :
    tokenize source file =
      (writtenTokens source file).map fun ts => .ofList (endLine ts (sourceEnd source file)) file := by
  unfold tokenize Lexer.tokens writtenTokens endLine
  cases hscan : Lexer.scan file source.toList.length (.ofText source.toList) with
  | error d => rfl
  | ok r =>
    obtain ⟨ts, stop⟩ := r
    obtain ⟨-, rfl⟩ := Lexer.scan_segmented (c := .ofText source.toList) le_rfl hscan
    by_cases hline : ts.getLast?.any Token.isNewline
    · simp [bind, Except.bind, pure, Except.pure, Except.map, hline]
    · simp only [bind, Except.bind, pure, Except.pure, Except.map, hline]
      rfl

/-- The source is split into these tokens, and a newline at its end if they do not end in one. -/
structure Splits (source file : String) (ts : List Token) : Prop where
  written : writtenTokens source file = .ok ts
  tokens : ∃ s, tokenize source file = .ok s ∧ s.toList = endLine ts (sourceEnd source file)

theorem splits_of_written {source file : String} {ts : List Token}
    (h : writtenTokens source file = .ok ts) : Splits source file ts := by
  refine ⟨h, .ofList (endLine ts (sourceEnd source file)) file, ?_, rfl⟩
  rw [tokenize_of_written, h]
  rfl

theorem written_of_tokenize {source file : String} {s : TokenSequence}
    (h : tokenize source file = .ok s) : ∃ ts, writtenTokens source file = .ok ts := by
  rw [tokenize_of_written] at h
  cases hwritten : writtenTokens source file with
  | ok ts => exact ⟨ts, rfl⟩
  | error d =>
    rw [hwritten] at h
    cases h

theorem written_error_iff {source file : String} {d : Diagnostic} :
    tokenize source file = .error d ↔ writtenTokens source file = .error d := by
  rw [tokenize_of_written]
  cases writtenTokens source file with
  | ok ts => simp [Except.map]
  | error e => simp [Except.map]

theorem written_joined {first file : String} {ts : List Token}
    (h : writtenTokens first file = .ok ts) (second : String) :
    writtenTokens (first ++ "\n" ++ second) file =
      ((writtenTokens second file).map fun us =>
        ts ++ ⟨.newline, "\n", sourceEnd first file⟩ ::
          us.map (Token.relocate
            (Location.shift (1 + first.toList.count '\n') (first.utf8ByteSize + 1)))).mapError
        (Diagnostic.relocate
          (Location.shift (1 + first.toList.count '\n') (first.utf8ByteSize + 1))) := by
  unfold writtenTokens at h ⊢
  cases hscan : Lexer.scan file first.toList.length (.ofText first.toList) with
  | error d =>
    rw [hscan] at h
    cases h
  | ok r =>
    rw [hscan] at h
    cases h
    obtain ⟨ts, stop⟩ := r
    obtain ⟨-, hstop⟩ := Lexer.scan_segmented (c := .ofText first.toList) le_rfl hscan
    have hjoined : Cursor.ofText (first ++ "\n" ++ second).toList =
        (Cursor.ofText first.toList).withLine second.toList := by
      simp [Cursor.ofText, Cursor.withLine]
    have hbelow : Cursor.mk second.toList (stop.after '\n') = (Cursor.ofText second.toList).shift
        (1 + first.toList.count '\n') (first.utf8ByteSize + 1) := by
      rw [hstop]
      change Cursor.mk _ ((Position.start.behind first.toList).after '\n') = _
      have hnewline : '\n'.utf8Size = 1 := rfl
      rw [Position.behind_start, utf8Length_toList]
      simp [Position.after, Cursor.shift, Position.shift, Cursor.ofText, Position.start, hnewline,
        Nat.add_comm]
    have hscan' := Lexer.scan_withLine (c := .ofText first.toList) le_rfl hscan second.toList
    rw [← hjoined, hbelow, Lexer.scan_shift] at hscan'
    refine (congrArg (Except.map (·.1)) hscan').trans ?_
    subst hstop
    cases Lexer.scan file second.toList.length (.ofText second.toList) with
    | error d => rfl
    | ok r => rfl

/-- A source with another one in the line behind it is split into the tokens of the first one, a
newline, and those of the second one further down; what is wrong is wrong with the second one. -/
theorem tokenize_joined {first file : String} {s : TokenSequence}
    (h : tokenize first file = .ok s) (second : String) :
    let joined := first ++ "\n" ++ second
    let below := Location.shift (1 + first.toList.count '\n') (first.utf8ByteSize + 1)
    ((∃ r, tokenize joined file = .ok r) ↔ ∃ r, tokenize second file = .ok r) ∧
    (∀ r, tokenize second file = .ok r → ∃ ts us, Splits first file ts ∧ Splits second file us ∧
      Splits joined file
        (ts ++ ⟨.newline, "\n", sourceEnd first file⟩ :: us.map (Token.relocate below))) ∧
    ∀ d, tokenize second file = .error d → tokenize joined file = .error (d.relocate below) := by
  intro joined below
  obtain ⟨ts, hts⟩ := written_of_tokenize h
  have hjoined := written_joined hts second
  have hok : ∀ us, writtenTokens second file = .ok us → Splits joined file
      (ts ++ ⟨.newline, "\n", sourceEnd first file⟩ :: us.map (Token.relocate below)) := by
    intro us hus
    rw [hus] at hjoined
    exact splits_of_written hjoined
  have herror : ∀ d, tokenize second file = .error d →
      tokenize joined file = .error (d.relocate below) := by
    intro d hd
    rw [written_error_iff] at hd ⊢
    rw [hd] at hjoined
    exact hjoined
  refine ⟨⟨?_, ?_⟩, ?_, herror⟩
  · rintro ⟨r, hr⟩
    cases hsecond : tokenize second file with
    | ok r => exact ⟨r, rfl⟩
    | error d =>
      rw [herror d hsecond] at hr
      cases hr
  · rintro ⟨r, hr⟩
    obtain ⟨us, hus⟩ := written_of_tokenize hr
    obtain ⟨r', hr', -⟩ := (hok us hus).tokens
    exact ⟨r', hr'⟩
  · intro r hr
    obtain ⟨us, hus⟩ := written_of_tokenize hr
    exact ⟨ts, us, splits_of_written hts, splits_of_written hus, hok us hus⟩

/-- The first source has a string of more bytes than characters and ends in a continuation. -/
theorem tokenize_joined_continued :
    ∃ s r, tokenize "let s =\n \"é\" \\\n" "shell" = .ok s ∧ tokenize "in s" "shell" = .ok r ∧
      (∃ ts us, Splits "let s =\n \"é\" \\\n" "shell" ts ∧ Splits "in s" "shell" us ∧
        Splits ("let s =\n \"é\" \\\n" ++ "\n" ++ "in s") "shell"
          (ts ++ ⟨.newline, "\n", ⟨"shell", 3, 1, 16⟩⟩ ::
            us.map (Token.relocate (Location.shift 3 17)))) ∧
      tokenize "in ?" "shell" = .error ⟨.invalidCharacter "?", ⟨"shell", 1, 4, 0⟩⟩ ∧
      tokenize ("let s =\n \"é\" \\\n" ++ "\n" ++ "in ?") "shell" =
        .error ⟨.invalidCharacter "?", ⟨"shell", 4, 4, 17⟩⟩ := by
  have hfirst : (tokenize "let s =\n \"é\" \\\n" "shell").toOption.isSome := by decide +kernel
  have hsecond : (tokenize "in s" "shell").toOption.isSome := by decide +kernel
  have hwrong : tokenize "in ?" "shell" = .error ⟨.invalidCharacter "?", ⟨"shell", 1, 4, 0⟩⟩ := by
    decide +kernel
  cases hs : tokenize "let s =\n \"é\" \\\n" "shell" with
  | error d =>
    rw [hs] at hfirst
    cases hfirst
  | ok s =>
    cases hr : tokenize "in s" "shell" with
    | error d =>
      rw [hr] at hsecond
      cases hsecond
    | ok r =>
      exact ⟨s, r, rfl, rfl, (tokenize_joined hs "in s").2.1 r hr, hwrong,
        (tokenize_joined hs "in ?").2.2 _ hwrong⟩

end MiniMl
