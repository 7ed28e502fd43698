import MiniMl.Proofs.Token.Segments

/-! # What the lexer reads

Each reader of the lexer passes a stretch of physical text; what it makes of the stretch is its
logical text. One step passes blanks, a comment, or one lexeme with the continuations behind it.
-/

namespace MiniMl

namespace Lexer

open Cursor (Passes)

theorem not_continued_of_passes {c : Char} {rest raw : List Char} {p : Position} {stop : Cursor}
    (h : ¬ Continued (c :: rest)) (hpass : Passes ⟨rest, p⟩ raw stop) : ¬ Continued (c :: raw) := by
  intro hraw
  apply h
  have hrest : rest = raw ++ stop.rest := hpass.rest
  rw [hrest]
  exact hraw.trans (List.prefix_append (c :: raw) stop.rest)

theorem takeRun_passes {accept : Char → Bool} (hback : accept '\\' = false) (text : List Char)
    (p : Position) :
    ∃ raw gap, Passes ⟨text, p⟩ (raw ++ gap) (takeRun accept text p).2 ∧
      logical raw = (takeRun accept text p).1 ∧ logical gap = [] ∧
      raw.getLast? = (logical raw).getLast? ∧ (∀ c ∈ logical raw, accept c) ∧
      ∀ c ∈ (logical (takeRun accept text p).2.rest).head?, accept c = false := by
  fun_induction takeRun accept text p with
  | case1 rest p ih =>
    obtain ⟨raw, gap, hpass, hraw, hgap, hlast, hall, hstop⟩ := ih
    -- Continuations in front of the first accepted character belong to the gap, later ones do not.
    by_cases hempty : raw = []
    · subst hempty
      exact ⟨[], '\\' :: '\n' :: gap, hpass.cons.cons, hraw, hgap, rfl, hall, hstop⟩
    · refine ⟨'\\' :: '\n' :: raw, gap, hpass.cons.cons, hraw, hgap, ?_, hall, hstop⟩
      rw [List.getLast?_cons_of_ne_nil (by simp), List.getLast?_cons_of_ne_nil hempty, hlast]
      rfl
  | case2 c rest p hfree hc run stop hrun ih =>
    obtain ⟨raw, gap, hpass, hraw, hgap, hlast, hall, hstop⟩ := ih
    rw [hrun] at hpass hraw hstop
    have hopen : ¬ Continued (c :: raw) := by
      intro hcont
      obtain ⟨rfl, _⟩ := continued_cons.mp hcont
      simp [hback] at hc
    refine ⟨c :: raw, gap, hpass.cons, ?_, hgap, ?_, ?_, hstop⟩
    · rw [logical_cons hopen, hraw]
    · rw [logical_cons hopen]
      simp [List.getLast?_cons, hlast]
    · rw [logical_cons hopen]
      intro d hd
      rcases List.mem_cons.mp hd with rfl | hd
      · exact hc
      · exact hall d hd
  | case3 c rest p hfree hc =>
    refine ⟨[], [], .refl _, rfl, rfl, rfl, by simp [logical], ?_⟩
    rw [logical_cons (not_continued hfree)]
    simpa using hc
  | case4 p => exact ⟨[], [], .refl _, rfl, rfl, rfl, by simp [logical], by simp [logical]⟩

/-- A run that starts with an accepted character is a lexeme, continuations within it included. -/
theorem takeRun_lexeme {accept : Char → Bool} {c : Char} (hback : accept '\\' = false)
    (hc : accept c) (rest : List Char) (p : Position) :
    ∃ raw gap, Passes ⟨c :: rest, p⟩ (raw ++ gap) (takeRun accept (c :: rest) p).2 ∧
      logical raw = (takeRun accept (c :: rest) p).1 ∧ logical gap = [] ∧ Trimmed raw ∧
      (∃ cs, logical raw = c :: cs ∧ ∀ d ∈ cs, accept d) ∧
      ∀ d ∈ (logical (gap ++ (takeRun accept (c :: rest) p).2.rest)).head?, accept d = false := by
  obtain ⟨raw, gap, hpass, hraw, hgap, hlast, hall, hstop⟩ := takeRun_passes hback (c :: rest) p
  have hslash : c ≠ '\\' := by
    rintro rfl
    simp [hback] at hc
  have hopen : ∀ more, ¬ Continued (c :: more) := by
    intro more hcont
    exact hslash (continued_cons.mp hcont).1
  rw [← logical_gap hgap] at hstop
  have htext : c :: rest = raw ++ (gap ++ (takeRun accept (c :: rest) p).2.rest) := by
    rw [← List.append_assoc]
    exact hpass.rest
  cases raw with
  | nil =>
    rw [List.nil_append] at htext
    rw [← htext, logical_cons (hopen rest)] at hstop
    simp [hc] at hstop
  | cons d raw =>
    obtain ⟨rfl, -⟩ := List.cons.inj htext
    have hlogical := logical_cons (hopen raw)
    refine ⟨c :: raw, gap, hpass, hraw, hgap, ⟨?_, hlast⟩, ⟨logical raw, hlogical, ?_⟩, hstop⟩
    · rw [hlogical]
      rfl
    · intro d hd
      exact hall d (by simp [hlogical, hd])

theorem stringBody_passes {opening last p : Position} {room : Nat} {text body : List Char}
    {stop : Cursor} (h : stringBody opening room last text p = .ok (body, stop)) :
    ∃ raw, Passes ⟨text, p⟩ raw stop ∧ logical raw = body ++ ['"'] ∧ raw.getLast? = some '"' ∧
      '"' ∉ body ∧ body.length ≤ room := by
  fun_induction stringBody opening room last text p generalizing body stop with
  | case1 room last rest p ih =>
    obtain ⟨raw, hpass, hraw, hlast, hbody, hlen⟩ := ih h
    refine ⟨'\\' :: '\n' :: raw, hpass.cons.cons, hraw, ?_, hbody, hlen⟩
    simp [List.getLast?_cons, hlast]
  | case2 room last rest p =>
    cases h
    exact ⟨['"'], Passes.cons (.refl _), rfl, rfl, by simp, by simp⟩
  | case3 => cases h
  | case4 last room c rest p hfree hquote more stop' hmore ih =>
    cases h
    obtain ⟨raw, hpass, hraw, hlast, hbody, hlen⟩ := ih hmore
    have hopen := not_continued_of_passes (not_continued hfree) hpass
    refine ⟨c :: raw, hpass.cons, ?_, ?_, ?_, ?_⟩
    · rw [logical_cons hopen, hraw]
      rfl
    · simp [List.getLast?_cons, hlast]
    · simp only [List.mem_cons, not_or]
      constructor
      · rintro rfl
        exact hquote rfl
      · exact hbody
    · simp only [List.length_cons]
      omega
  | case5 => cases h
  | case6 => cases h

theorem commentEnd?_passes {starred : Bool} {text : List Char} {p : Position} {stop : Cursor}
    (h : commentEnd? starred text p = some stop) :
    ∃ raw inner, Passes ⟨text, p⟩ raw stop ∧ raw.getLast? = some ')' ∧
      (if starred then ['*'] else []) ++ logical raw = inner ++ ['*', ')'] ∧
      ¬ ['*', ')'] <:+: inner ++ ['*'] := by
  fun_induction commentEnd? starred text p with
  | case1 starred rest p ih =>
    obtain ⟨raw, inner, hpass, hlast, hraw, hfirst⟩ := ih h
    refine ⟨'\\' :: '\n' :: raw, inner, hpass.cons.cons, ?_, hraw, hfirst⟩
    simp [List.getLast?_cons, hlast]
  | case2 rest p =>
    cases h
    exact ⟨[')'], [], Passes.cons (.refl _), rfl, rfl, by decide⟩
  | case3 starred c rest p hfree hclose ih =>
    obtain ⟨raw, inner, hpass, hlast, hraw, hfirst⟩ := ih h
    have hopen := not_continued_of_passes (not_continued hfree) hpass
    have hmore : ∃ inner, c :: logical raw = inner ++ ['*', ')'] ∧
        ¬ ['*', ')'] <:+: inner ++ ['*'] := by
      by_cases hstar : c = '*'
      · subst hstar
        exact ⟨inner, hraw, hfirst⟩
      · refine ⟨c :: inner, by simpa [hstar] using hraw, ?_⟩
        rw [List.cons_append, List.infix_cons_iff, List.cons_prefix_cons]
        rintro (⟨rfl, -⟩ | hinner)
        · exact hstar rfl
        · exact hfirst hinner
    obtain ⟨inner, hraw, hfirst⟩ := hmore
    have hlogical := logical_cons hopen
    cases starred with
    | false =>
      refine ⟨c :: raw, inner, hpass.cons, by simp [List.getLast?_cons, hlast], ?_, hfirst⟩
      simpa [hlogical] using hraw
    | true =>
      refine ⟨c :: raw, '*' :: inner, hpass.cons, by simp [List.getLast?_cons, hlast], ?_, ?_⟩
      · simpa [hlogical] using hraw
      · rw [List.cons_append, List.infix_cons_iff, List.cons_prefix_cons]
        rintro (⟨-, hprefix⟩ | hinner)
        · -- The star before can only be closed by `c`, and then the comment ends there.
          cases inner with
          | nil => simp at hprefix
          | cons d inner =>
            obtain ⟨rfl, -⟩ := List.cons.inj hraw
            exact hclose rfl (by simpa [eq_comm] using hprefix)
        · exact hfirst hinner
  | case4 => cases h

theorem pass_passes (n : Nat) (c : Cursor) : c.Passes (c.rest.take n) (pass n c) :=
  ⟨(List.take_append_drop n c.rest).symm, rfl⟩

theorem punctuation_text {kind : TokenKind} (h : kind ∈ punctuation) :
    logical kind.text.toList = kind.text.toList ∧
      ∀ c ∈ kind.text.toList.head?, isWordStart c = false ∧ c.isDigit = false := by
  have hall : ∀ kind ∈ punctuation, logical kind.text.toList = kind.text.toList ∧
      kind.text.toList.head?.all (fun c => !isWordStart c && !c.isDigit) := by decide +kernel
  refine ⟨(hall kind h).1, fun c hc => ?_⟩
  simpa using (Option.all_eq_true _ _).mp (hall kind h).2 c hc

theorem punctuation?_text {text : List Char} {kind : TokenKind}
    (h : punctuation? text = some kind) :
    kind ∈ punctuation ∧ kind.text.toList <+: text := by
  unfold punctuation? at h
  split at h
  all_goals cases h
  all_goals exact ⟨by decide, _, rfl⟩

theorem not_prefix {lexeme text : List Char} (h : ∀ tail, text = lexeme ++ tail → False) :
    ¬ lexeme <+: text := by
  rintro ⟨tail, rfl⟩
  exact h tail rfl

theorem not_prefix_one {c : Char} {text : List Char} (h : ∀ tail, text = c :: tail → False) :
    ¬ [c] <+: text :=
  not_prefix h

theorem not_prefix_two {c d : Char} {text : List Char}
    (h : ∀ tail, text = c :: d :: tail → False) : ¬ [c, d] <+: text :=
  not_prefix h

theorem punctuation?_none {text : List Char} (h : punctuation? text = none) :
    ∀ e ∈ signs, ¬ e.1.toList <+: text := by
  unfold punctuation? at h
  split at h
  case h_20 =>
    simp only [signs, List.forall_mem_cons, String.reduceToList]
    simp (disch := assumption) [not_prefix_one, not_prefix_two]
  all_goals cases h

theorem punctuation?_joins {c d : Char} (h : joins c d) (hcomment : ¬ (c = '(' ∧ d = '*'))
    (rest : List Char) :
    ∃ kind, punctuation? (c :: d :: rest) = some kind ∧ kind.text.toList = [c, d] := by
  unfold joins at h
  split at h
  · exact ⟨.doubleSemicolon, rfl, rfl⟩
  · exact ⟨.equals, rfl, rfl⟩
  · exact ⟨.lessEquals, rfl, rfl⟩
  · exact ⟨.greaterEquals, rfl, rfl⟩
  · exact ⟨.unit, rfl, rfl⟩
  · exact absurd ⟨rfl, rfl⟩ hcomment
  · cases h

inductive Step (file : String) (c : Cursor) : Option Token → Cursor → Prop
  | blanks {raw : List Char} {d : Cursor} : c.Passes raw d → raw ≠ [] →
      (∀ x ∈ logical raw, Blank x) → Step file c none d
  | comment {raw : List Char} {d : Cursor} : c.Passes raw d → BlockComment raw → Step file c none d
  | lexeme {raw gap : List Char} {d : Cursor} {t : Token} : c.Passes (raw ++ gap) d →
      logical gap = [] → Trimmed raw → Lexeme t.kind (logical raw) →
      t.value = String.ofList (logical raw) → t.location = c.position.location file →
      Maximal (logical raw) (gap ++ d.rest) → Step file c (some t) d

section

variable {file : String} {c : Char} {rest : List Char} {p : Position}

theorem blanks_step (hc : isBlank c) :
    Step file ⟨c :: rest, p⟩ none (takeRun isBlank (c :: rest) p).2 := by
  have hback : isBlank '\\' = false := by decide
  obtain ⟨raw, gap, hpass, -, hgap, -, ⟨cs, hraw, hall⟩, -⟩ := takeRun_lexeme hback hc rest p
  apply Step.blanks hpass
  · intro hempty
    obtain ⟨rfl, -⟩ := List.append_eq_nil_iff.mp hempty
    cases hraw
  · rw [logical_append_gap hgap, hraw]
    intro x hx
    rcases List.mem_cons.mp hx with rfl | hx
    · exact isBlank_iff.mp hc
    · exact isBlank_iff.mp (hall x hx)

/-- Words and numbers alike: a run whose grammar and maximality depend on its first character. -/
theorem run_step {accept : Char → Bool} (kind : List Char → TokenKind) (hback : accept '\\' = false)
    (hc : accept c) (hkind : ∀ cs, (∀ d ∈ cs, accept d) → Lexeme (kind (c :: cs)) (c :: cs))
    (hend : ∀ cs after, (∀ d ∈ (logical after).head?, accept d = false) → Maximal (c :: cs) after) :
    Step file ⟨c :: rest, p⟩
      (some ⟨kind (takeRun accept (c :: rest) p).1,
        String.ofList (takeRun accept (c :: rest) p).1, p.location file⟩)
      (takeRun accept (c :: rest) p).2 := by
  obtain ⟨raw, gap, hpass, hrun, hgap, htrim, ⟨cs, hraw, hall⟩, hstop⟩ :=
    takeRun_lexeme hback hc rest p
  rw [← hrun]
  apply Step.lexeme hpass hgap htrim
  · rw [hraw]
    exact hkind cs hall
  · rfl
  · rfl
  · rw [hraw]
    exact hend cs _ hstop

theorem word_step (hc : isWordStart c) :
    Step file ⟨c :: rest, p⟩
      (some ⟨wordKind (String.ofList (takeRun isWordPart (c :: rest) p).1),
        String.ofList (takeRun isWordPart (c :: rest) p).1, p.location file⟩)
      (takeRun isWordPart (c :: rest) p).2 := by
  apply run_step (fun word => wordKind (String.ofList word)) (by decide) (isWordPart_of_start hc)
  · intro cs hall
    exact Reads.word_lexeme hc hall
  · intro cs after hstop
    exact .of_word hc hstop

theorem number_step (hc : c.isDigit) :
    Step file ⟨c :: rest, p⟩
      (some ⟨numberKind (takeRun isNumberPart (c :: rest) p).1,
        String.ofList (takeRun isNumberPart (c :: rest) p).1, p.location file⟩)
      (takeRun isNumberPart (c :: rest) p).2 := by
  apply run_step numberKind (by decide) (by simp [isNumberPart, hc])
  · intro cs hall
    exact Reads.number_lexeme hc hall
  · intro cs after hstop
    exact .of_number hc hstop

theorem newline_step :
    Step file ⟨'\n' :: rest, p⟩ (some ⟨.newline, "\n", p.location file⟩) ⟨rest, p.after '\n'⟩ := by
  have hpass : Passes ⟨'\n' :: rest, p⟩ (['\n'] ++ []) ⟨rest, p.after '\n'⟩ := Passes.cons (.refl _)
  apply Step.lexeme hpass rfl ⟨rfl, rfl⟩ .newline rfl rfl
  apply Maximal.of_other
  · intro e he
    obtain rfl : '\n' = e := by simpa [logical] using he
    decide
  · intro e he d _
    obtain ⟨rfl, -⟩ := List.cons.inj he
    cases hjoin : joins '\n' d with
    | false => rfl
    | true => exact absurd rfl (joins_start hjoin).2.2

theorem string_step {body : List Char} {stop : Cursor}
    (h : stringBody p maxStringLength (p.after '"') rest (p.after '"') = .ok (body, stop)) :
    Step file ⟨'"' :: rest, p⟩
      (some ⟨.string, "\"" ++ String.ofList body ++ "\"", p.location file⟩) stop := by
  obtain ⟨raw, hpass, hraw, hlast, hquote, hlen⟩ := stringBody_passes h
  have hpass : Passes ⟨'"' :: rest, p⟩ ('"' :: raw ++ []) stop := by
    rw [List.append_nil]
    exact hpass.cons
  have hlogical : logical ('"' :: raw) = '"' :: body ++ ['"'] := by
    rw [logical_cons (by simp [continued_cons]), hraw]
    rfl
  apply Step.lexeme hpass rfl
  · constructor
    · rw [hlogical]
      rfl
    · rw [hlogical]
      simp [List.getLast?_cons, hlast]
  · rw [hlogical]
    exact .string hquote hlen
  · rw [hlogical]
    apply String.toList_injective
    simp
  · rfl
  · rw [hlogical]
    apply Maximal.of_other
    · intro e he
      obtain rfl : '"' = e := by simpa using he
      decide
    · simp

theorem comment_step {stop : Cursor}
    (h : commentEnd? false rest ((p.after '(').after '*') = some stop) :
    Step file ⟨'(' :: '*' :: rest, p⟩ none stop := by
  obtain ⟨raw, inner, hpass, hlast, hraw, hfirst⟩ := commentEnd?_passes h
  exact .comment hpass.cons.cons (.mk hlast hraw hfirst)

theorem fixed_step {kind : TokenKind} (hcomment : ∀ more, c = '(' → rest = '*' :: more → False)
    (h : punctuation? (c :: rest) = some kind) :
    Step file ⟨c :: rest, p⟩ (some ⟨kind, kind.text, p.location file⟩)
      (pass kind.text.length ⟨c :: rest, p⟩) := by
  obtain ⟨hmem, after, hafter⟩ := punctuation?_text h
  obtain ⟨hlogical, hhead⟩ := punctuation_text hmem
  have hpass := pass_passes kind.text.length ⟨c :: rest, p⟩
  have htake : (c :: rest).take kind.text.length = kind.text.toList ++ [] := by
    rw [← hafter, ← String.length_toList]
    simp
  have hrest : (pass kind.text.length ⟨c :: rest, p⟩).rest = after := by
    change (c :: rest).drop kind.text.length = after
    rw [← hafter, ← String.length_toList]
    simp
  rw [htake] at hpass
  apply Step.lexeme hpass rfl
  · constructor
    · rw [hlogical]
    · rw [hlogical]
  · rw [hlogical]
    exact (Reads.fixed hmem).lexeme
  · rw [hlogical, String.ofList_toList]
  · rfl
  · rw [hlogical, hrest, List.nil_append]
    apply Maximal.of_other hhead
    intro e he d hd
    rw [he] at hafter
    cases after with
    | nil => simp at hd
    | cons x after =>
      obtain rfl : x = d := by simpa using hd
      obtain ⟨rfl, rfl⟩ := List.cons.inj hafter
      cases hjoin : joins e x with
      | false => rfl
      | true =>
        -- Both characters together would have been read as a longer lexeme.
        have hopen : ¬ (e = '(' ∧ x = '*') := by
          rintro ⟨rfl, rfl⟩
          exact hcomment after rfl rfl
        obtain ⟨longer, hlonger, htext⟩ := punctuation?_joins hjoin hopen after
        cases h.symm.trans hlonger
        rw [he] at htext
        cases htext

end

theorem lexeme_string (file : String) (rest : List Char) (p : Position) :
    lexeme file ⟨'"' :: rest, p⟩ =
      match stringBody p maxStringLength (p.after '"') rest (p.after '"') with
      | .ok (body, stop) =>
        .ok (some ⟨.string, "\"" ++ String.ofList body ++ "\"", p.location file⟩, stop)
      | .error (problem, q) => .error ⟨problem, q.location file⟩ := rfl

theorem lexeme_comment (file : String) (rest : List Char) (p : Position) :
    lexeme file ⟨'(' :: '*' :: rest, p⟩ =
      match commentEnd? false rest ((p.after '(').after '*') with
      | some stop => .ok (none, stop)
      | none => .error ⟨.unterminatedComment, p.location file⟩ := rfl

theorem lexeme_told {file : String} {c : Char} {rest : List Char} {p : Position}
    (hnewline : c ≠ '\n') (hquote : c ≠ '"')
    (hcomment : ∀ more, c = '(' → rest = '*' :: more → False) :
    lexeme file ⟨c :: rest, p⟩ =
      if isBlank c then .ok (none, (takeRun isBlank (c :: rest) p).2)
      else if isWordStart c then
        let (word, stop) := takeRun isWordPart (c :: rest) p
        .ok (some ⟨wordKind (String.ofList word), String.ofList word, p.location file⟩, stop)
      else if c.isDigit then
        let (digits, stop) := takeRun isNumberPart (c :: rest) p
        .ok (some ⟨numberKind digits, String.ofList digits, p.location file⟩, stop)
      else
        match punctuation? (c :: rest) with
        | some kind => .ok (some ⟨kind, kind.text, p.location file⟩, pass kind.text.length ⟨c :: rest, p⟩)
        | none => .error ⟨.invalidCharacter c.toString, p.location file⟩ := by
  unfold lexeme
  dsimp only
  split
  case h_1 heq => cases heq
  case h_2 heq =>
    obtain ⟨rfl, -⟩ := List.cons.inj heq
    exact absurd rfl hnewline
  case h_3 heq =>
    obtain ⟨rfl, -⟩ := List.cons.inj heq
    exact absurd rfl hquote
  case h_4 heq =>
    obtain ⟨rfl, rfl⟩ := List.cons.inj heq
    exact (hcomment _ rfl rfl).elim
  case h_5 heq =>
    obtain ⟨rfl, rfl⟩ := List.cons.inj heq
    rfl

theorem lexeme_step {file : String} {start next : Cursor} {token : Option Token}
    (hmore : start.rest ≠ []) (h : lexeme file start = .ok (token, next)) :
    Step file start token next := by
  obtain ⟨text, p⟩ := start
  simp only [lexeme] at h
  split at h
  · exact absurd rfl hmore
  · cases h
    exact newline_step
  · split at h
    · cases h
      exact string_step ‹_›
    · cases h
  · split at h
    · cases h
      exact comment_step ‹_›
    · cases h
  next c rest _ _ hcomment =>
    by_cases hblank : isBlank c
    · rw [if_pos hblank] at h
      cases h
      exact blanks_step hblank
    rw [if_neg hblank] at h
    by_cases hword : isWordStart c
    · rw [if_pos hword] at h
      cases h
      exact word_step hword
    rw [if_neg hword] at h
    by_cases hdigit : c.isDigit
    · rw [if_pos hdigit] at h
      cases h
      exact number_step hdigit
    rw [if_neg hdigit] at h
    split at h
    · cases h
      exact fixed_step hcomment ‹_›
    · cases h

namespace Step

variable {file : String} {c d : Cursor} {token : Option Token} {ts : List Token}

theorem passes (h : Step file c token d) : ∃ raw, c.Passes raw d := by
  cases h with
  | blanks hpass _ _ => exact ⟨_, hpass⟩
  | comment hpass _ => exact ⟨_, hpass⟩
  | lexeme hpass _ _ _ _ _ _ => exact ⟨_, hpass⟩

theorem progress (h : Step file c token d) : d.rest.length < c.rest.length := by
  cases h with
  | @blanks raw _ hpass hraw _ =>
    have hpos := List.length_pos_iff.mpr hraw
    have hlen := hpass.length
    omega
  | comment hpass hcomment =>
    cases hcomment with
    | mk _ _ _ =>
      have hlen := hpass.length
      simp only [List.length_cons] at hlen
      omega
  | @lexeme raw gap _ t hpass _ _ hlexeme _ _ _ =>
    have hraw : raw ≠ [] := by
      rintro rfl
      exact hlexeme.ne_nil rfl
    have hpos := List.length_pos_iff.mpr hraw
    have hlen := hpass.length
    simp only [List.length_append] at hlen
    omega

theorem segmented (h : Step file c token d) (hnext : Segmented file d.position d.rest ts) :
    Segmented file c.position c.rest (token.toList ++ ts) := by
  cases h with
  | blanks hpass _ hblank =>
    rw [hpass.position] at hnext
    rw [hpass.rest]
    exact hnext.blanks hblank
  | comment hpass hcomment =>
    rw [hpass.position] at hnext
    rw [hpass.rest]
    exact .comment hcomment hnext
  | lexeme hpass hgap htrim hlexeme hvalue hlocation hend =>
    rw [hpass.position, Position.behind_append] at hnext
    rw [hpass.rest, List.append_assoc]
    refine .lexeme htrim hlexeme hvalue hlocation hend (hnext.blanks ?_)
    simp [hgap]

theorem behind (h : Step file c token d) :
    d.position.behind d.rest = c.position.behind c.rest := by
  obtain ⟨raw, hpass⟩ := h.passes
  exact hpass.behind

end Step

theorem lexeme_shorter {file : String} {c next : Cursor} {token : Option Token}
    (h : c.settle.rest ≠ []) (hlexeme : lexeme file c.settle = .ok (token, next)) :
    next.rest.length < c.rest.length :=
  Nat.lt_of_lt_of_le (lexeme_step h hlexeme).progress c.settle_length

theorem bind_eq_ok {ε α β : Type} {x : Except ε α} {f : α → Except ε β} {b : β} :
    (x >>= f) = .ok b ↔ ∃ a, x = .ok a ∧ f a = .ok b := by
  cases x with
  | error e => simp [bind, Except.bind]
  | ok a => simp [bind, Except.bind]

/-! A turn of the loop. -/

theorem scan_settled {file : String} {bound : Nat} {c : Cursor} (h : c.settle.rest = []) :
    scan file bound c = .ok ([], c.settle.position) := by
  cases bound with
  | zero => rfl
  | succ bound =>
    rw [scan]
    generalize c.settle = start at h
    obtain ⟨text, p⟩ := start
    obtain rfl : text = [] := h
    rfl

theorem scan_read {file : String} {c : Cursor} (bound : Nat) (h : c.settle.rest ≠ []) :
    scan file (bound + 1) c =
      lexeme file c.settle >>= fun r =>
        (scan file bound r.2).map fun s => (r.1.toList ++ s.1, s.2) := by
  rw [scan]
  generalize c.settle = start at h
  obtain ⟨text, p⟩ := start
  cases text with
  | nil => exact absurd rfl h
  | cons x text =>
    refine bind_congr fun r => ?_
    obtain ⟨token, next⟩ := r
    cases hscan : scan file bound next with
    | ok s => simp [hscan, Except.map, bind, Except.bind, pure, Except.pure]
    | error d => simp [hscan, Except.map, bind, Except.bind]

theorem settle_segmented {file : String} {c : Cursor} (h : c.settle.rest = []) :
    Segmented file c.position c.rest [] ∧ c.settle.position = c.position.behind c.rest := by
  obtain ⟨gap, hgap, hpass, -⟩ := c.settle_passes
  rw [hpass.rest, hpass.position, h]
  constructor
  · exact Segmented.nil.blanks (by simp [hgap])
  · rw [List.append_nil]

theorem bound_turn {bound : Nat} {c : Cursor} (h : c.settle.rest ≠ [])
    (hbound : c.rest.length ≤ bound) : ∃ n, bound = n + 1 := by
  have hpos := List.length_pos_iff.mpr h
  have hlength := c.settle_length
  exact Nat.exists_eq_succ_of_ne_zero (by omega)

theorem scan_cases {file : String} {bound : Nat} {c : Cursor} {ts : List Token} {stop : Position}
    (hbound : c.rest.length ≤ bound) (h : scan file bound c = .ok (ts, stop)) :
    (c.settle.rest = [] ∧ ts = [] ∧ stop = c.settle.position) ∨
      ∃ n token next more, bound = n + 1 ∧ c.settle.rest ≠ [] ∧
        lexeme file c.settle = .ok (token, next) ∧ next.rest.length ≤ n ∧
        scan file n next = .ok (more, stop) ∧ ts = token.toList ++ more := by
  by_cases hend : c.settle.rest = []
  · rw [scan_settled hend] at h
    cases h
    exact .inl ⟨hend, rfl, rfl⟩
  · obtain ⟨n, rfl⟩ := bound_turn hend hbound
    rw [scan_read n hend] at h
    obtain ⟨⟨token, next⟩, hlexeme, h⟩ := bind_eq_ok.mp h
    have hless := lexeme_shorter hend hlexeme
    cases hscan : scan file n next with
    | error d =>
      rw [hscan] at h
      cases h
    | ok r =>
      rw [hscan] at h
      cases h
      exact .inr ⟨n, token, next, r.1, rfl, hend, hlexeme, by omega, hscan, rfl⟩

theorem scan_segmented {file : String} {bound : Nat} {c : Cursor} {ts : List Token}
    {stop : Position} (hbound : c.rest.length ≤ bound)
    (h : scan file bound c = .ok (ts, stop)) :
    Segmented file c.position c.rest ts ∧ stop = c.position.behind c.rest := by
  induction bound using Nat.strong_induction_on generalizing c ts with
  | _ bound ih =>
    rcases scan_cases hbound h with
      ⟨hend, rfl, rfl⟩ | ⟨n, token, next, more, rfl, hmore, hlexeme, hnext, hscan, rfl⟩
    · exact settle_segmented hend
    · have hstep := lexeme_step hmore hlexeme
      obtain ⟨hsegmented, hstop⟩ := ih n (Nat.lt_succ_self n) hnext hscan
      obtain ⟨gap, hgap, hpass, -⟩ := c.settle_passes
      constructor
      · have hsettled := hstep.segmented hsegmented
        rw [hpass.position] at hsettled
        rw [hpass.rest]
        exact hsettled.blanks (by simp [hgap])
      · rw [hstop, hstep.behind, hpass.behind]

theorem tokens_segmented {text : List Char} {file : String} {ts : List Token}
    (h : tokens text file = .ok ts) :
    ∃ lexed, Segmented file .start text lexed ∧
      ts = endLine lexed ((Position.start.behind text).location file) := by
  obtain ⟨⟨lexed, stop⟩, hscan, h⟩ := bind_eq_ok.mp h
  obtain ⟨hlexed, rfl⟩ := scan_segmented (c := .ofText text) le_rfl hscan
  refine ⟨lexed, hlexed, ?_⟩
  unfold endLine
  dsimp only at h
  split at h
  · cases h
    rw [if_pos ‹_›]
  · cases h
    rw [if_neg ‹_›]
    rfl

end Lexer

/-- A token list is what its source reads as: the source is a row of segments, its lexemes are those
of the tokens in order, each as long as it can be, and only a last newline may be added. -/
theorem tokenize_segmented {source file : String} {s : TokenSequence}
    (h : tokenize source file = .ok s) :
    ∃ lexed, Segmented file .start source.toList lexed ∧
      s.toList = endLine lexed ((Position.start.behind source.toList).location file) ∧
      (∃ last, s.toList.getLast? = some last ∧ last.kind = .newline) ∧
      ∀ t ∈ s.toList, t.kind ≠ .invalid ∧ t.kind ≠ .endOfInput ∧
        ∀ kind, Lexeme kind t.value.toList ↔ kind = t.kind := by
  obtain ⟨ts, hts, h⟩ := Lexer.bind_eq_ok.mp h
  cases h
  obtain ⟨lexed, hlexed, rfl⟩ := Lexer.tokens_segmented hts
  refine ⟨lexed, hlexed, rfl, endLine_last lexed _, ?_⟩
  intro t ht
  have hlexeme : Lexeme t.kind t.value.toList := by
    rcases endLine_mem ht with hmem | rfl
    · exact hlexed.lexeme_mem hmem
    · simpa using Lexeme.newline
  refine ⟨hlexeme.proper.1, hlexeme.proper.2, fun kind => ?_⟩
  constructor
  · exact hlexeme.unique
  · rintro rfl
    exact hlexeme

/-- A reserved word and a string are continued, and a comment closes behind stars. -/
theorem tokenize_segmented_continued :
    let source := "le\\\nt s = \"a\\\nb\" (* (** *) <= 1_0 \\\n;; 2. true"
    ∃ s, tokenize source "shell" = .ok s ∧
      s.toList.map (fun t => (t.kind, t.value)) = [(.letWord, "let"), (.identifier, "s"),
        (.assignment, "="), (.string, "\"ab\""), (.lessEquals, "<="), (.int, "1_0"),
        (.doubleSemicolon, ";;"), (.float, "2."), (.bool, "true"), (.newline, "\n")] ∧
      ∃ lexed, Segmented "shell" .start source.toList lexed ∧
        s.toList = endLine lexed ((Position.start.behind source.toList).location "shell") ∧
        (∃ last, s.toList.getLast? = some last ∧ last.kind = .newline) ∧
        ∀ t ∈ s.toList, t.kind ≠ .invalid ∧ t.kind ≠ .endOfInput ∧
          ∀ kind, Lexeme kind t.value.toList ↔ kind = t.kind := by
  intro source
  have hlexemes : (tokenize source "shell").toOption.map
      (fun s => s.toList.map fun t => (t.kind, t.value)) = some [(.letWord, "let"),
        (.identifier, "s"), (.assignment, "="), (.string, "\"ab\""), (.lessEquals, "<="),
        (.int, "1_0"), (.doubleSemicolon, ";;"), (.float, "2."), (.bool, "true"),
        (.newline, "\n")] := by decide +kernel
  cases h : tokenize source "shell" with
  | error d =>
    rw [h] at hlexemes
    cases hlexemes
  | ok s =>
    rw [h] at hlexemes
    exact ⟨s, rfl, Option.some.inj hlexemes, tokenize_segmented h⟩

end MiniMl
