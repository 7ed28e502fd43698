import MiniMl.Proofs.Token.Continuations
import MiniMl.Proofs.Token.Locations
import MiniMl.Proofs.Token.Runs

/-! # Where lexical errors point

Reading fails at one character of the source, which is named by what has been read before it. The
error is reported at that character, with one exception: of a string that is too long the place
behind the last character that fits is kept, and that is in front of continuations which come before
the character that does not fit.
-/

namespace MiniMl

namespace Lexer

/-- No lexeme, blank or comment begins with the character. -/
structure Unreadable (c : Char) (after : List Char) : Prop where
  newline : c ≠ '\n'
  quote : c ≠ '"'
  blank : ¬ Blank c
  word : ¬ WordStart c
  digit : c.isDigit = false
  sign : ∀ e ∈ signs, ¬ e.1.toList <+: c :: after

/-- What is wrong with a text that cannot be read: the text up to the place that the error is
reported at, the gap from there to the character at fault, that character and the text behind. -/
inductive Fault : (passed gap : List Char) → Char → (after : List Char) → Problem → Prop where
  | invalid {c : Char} {after : List Char} : Unreadable c after →
      Fault [] [] c after (.invalidCharacter c.toString)
  | comment {after : List Char} : ¬ ['*', ')'] <:+: logical after →
      Fault [] [] '(' ('*' :: after) .unterminatedComment
  | string {after : List Char} : '"' ∉ logical after → (logical after).length ≤ 128 →
      Fault [] [] '"' after .unterminatedString
  | long {body gap after : List Char} {c : Char} : (logical body).length = 128 →
      '"' ∉ logical body → body.getLast? = (logical body).getLast? → logical gap = [] →
      c ≠ '"' → ¬ Continued (c :: after) →
      Fault ('"' :: body) gap c after (.stringTooLong 128)

theorem closeComment_none {starred : Bool} {text : List Char} (h : closeComment starred text = none) :
    ¬ ['*', ')'] <:+: (if starred then ['*'] else []) ++ text := by
  induction text generalizing starred with
  | nil =>
    cases starred with
    | false => decide
    | true => decide
  | cons c text ih =>
    rw [closeComment] at h
    split at h
    · cases h
    · rename_i hclose
      have hrest : ¬ ['*', ')'] <:+: c :: text := by
        have hmore := ih h
        by_cases hc : c = '*'
        · subst hc
          exact hmore
        · rw [List.infix_cons_iff, List.cons_prefix_cons]
          rintro (⟨rfl, -⟩ | hinside)
          · exact hc rfl
          · exact hmore (by simpa [hc] using hinside)
      cases starred with
      | false => exact hrest
      | true =>
        rw [if_pos rfl, List.singleton_append, List.infix_cons_iff, List.cons_prefix_cons]
        rintro (⟨-, hprefix⟩ | hinside)
        · obtain ⟨rfl, -⟩ := List.cons_prefix_cons.mp hprefix
          exact hclose ⟨rfl, rfl⟩
        · exact hrest hinside

/-- A string that cannot be read ends the text, or it holds too many characters. The place behind
the last character that fits is remembered while the continuations `pre` behind it are passed. -/
theorem stringBody_error {opening last p q : Position} {room : Nat} {text : List Char}
    {problem : Problem} (h : stringBody opening room last text p = .error (problem, q))
    (pre : List Char) (hpre : logical pre = []) (hp : p = last.behind pre) :
    (problem = .unterminatedString ∧ q = opening ∧ '"' ∉ logical text ∧
      (logical text).length ≤ room) ∨
    ∃ body gap c after, problem = .stringTooLong maxStringLength ∧ q = last.behind body ∧
      pre ++ text = body ++ (gap ++ c :: after) ∧ (logical body).length = room ∧
      '"' ∉ logical body ∧ body.getLast? = (logical body).getLast? ∧ logical gap = [] ∧ c ≠ '"' ∧
      ¬ Continued (c :: after) := by
  fun_induction stringBody opening room last text p generalizing pre with
  | case1 room last rest p ih =>
    have hmore := ih h (pre ++ ['\\', '\n']) (by rw [logical_gap hpre]; rfl) (by
      rw [hp, Position.behind_append]
      rfl)
    rw [List.append_assoc] at hmore
    exact hmore
  | case2 => cases h
  | case3 last c rest p hfree hquote =>
    cases h
    refine .inr ⟨[], pre, c, rest, rfl, rfl, rfl, rfl, by simp [logical], rfl, hpre, ?_, ?_⟩
    · intro hc
      exact hquote hc
    · exact not_continued hfree
  | case4 => cases h
  | case5 last room c rest p hfree hquote e hmore ih =>
    cases h
    have hlogical := logical_cons (not_continued hfree)
    rcases ih hmore [] rfl rfl with ⟨hproblem, hq, hnone, hlength⟩ |
      ⟨body, gap, d, after, hproblem, hq, htext, hlength, hnone, hlast, hgap, hd, hstop⟩
    · refine .inl ⟨hproblem, hq, ?_, ?_⟩
      · rw [hlogical, List.mem_cons]
        rintro (hc | hc)
        · exact hquote hc.symm
        · exact hnone hc
      · rw [hlogical, List.length_cons]
        omega
    · rw [List.nil_append] at htext
      have hbody : logical (c :: body) = c :: logical body := by
        apply logical_cons
        rintro hcont
        apply not_continued hfree
        rw [htext]
        exact hcont.trans (List.prefix_append (c :: body) _)
      have hwhole : logical (pre ++ c :: body) = c :: logical body := by
        rw [logical_gap hpre, hbody]
      refine .inr ⟨pre ++ c :: body, gap, d, after, hproblem, ?_, ?_, ?_, ?_, ?_, hgap, hd, hstop⟩
      · rw [hq, Position.behind_append, ← hp]
        rfl
      · rw [htext, List.append_assoc, List.cons_append]
      · rw [hwhole, List.length_cons, hlength]
      · rw [hwhole, List.mem_cons]
        rintro (hc | hc)
        · exact hquote hc.symm
        · exact hnone hc
      · rw [hwhole, List.getLast?_append, List.getLast?_cons, List.getLast?_cons, hlast]
        rfl
  | case6 =>
    cases h
    exact .inl ⟨rfl, rfl, by simp [logical], by simp [logical]⟩

theorem lexeme_error {file : String} {start : Cursor} {d : Diagnostic}
    (h : lexeme file start = .error d) :
    ∃ passed gap c after, start.rest = passed ++ (gap ++ c :: after) ∧
      Fault passed gap c after d.problem ∧
      d.location = (start.position.behind passed).location file := by
  obtain ⟨text, p⟩ := start
  have hwhole := h
  simp only [lexeme] at h
  split at h
  · cases h
  · cases h
  · next rest =>
    split at h
    · cases h
    · next problem q hbody =>
      cases h
      rcases stringBody_error hbody [] rfl rfl with ⟨rfl, rfl, hnone, hlength⟩ |
        ⟨body, gap, c, after, rfl, rfl, htext, hlength, hnone, hlast, hgap, hc, hstop⟩
      · exact ⟨[], [], '"', rest, rfl, .string hnone hlength, rfl⟩
      · rw [List.nil_append] at htext
        exact ⟨'"' :: body, gap, c, after, congrArg ('"' :: ·) htext,
          .long hlength hnone hlast hgap hc hstop, rfl⟩
  · next rest =>
    split at h
    · cases h
    · next hend =>
      cases h
      have hclose := commentEnd?_logical false rest ((p.after '(').after '*')
      rw [hend] at hclose
      exact ⟨[], [], '(', '*' :: rest, rfl, .comment (closeComment_none hclose.symm), rfl⟩
  next c rest hnewline hquote _ =>
    by_cases hblank : isBlank c
    · rw [if_pos hblank] at h
      cases h
    rw [if_neg hblank] at h
    by_cases hword : isWordStart c
    · rw [if_pos hword] at h
      cases h
    rw [if_neg hword] at h
    by_cases hdigit : c.isDigit
    · rw [if_pos hdigit] at h
      cases h
    rw [if_neg hdigit] at h
    split at h
    · cases h
    next hfixed =>
      cases h
      refine ⟨[], [], c, rest, rfl, .invalid ?_, rfl⟩
      constructor
      · exact fun hc => hnewline hc
      · exact fun hc => hquote hc
      · rwa [← isBlank_iff]
      · rwa [← isWordStart_iff]
      · simpa using hdigit
      · exact punctuation?_none hfixed

theorem scan_error {file : String} {bound : Nat} {c : Cursor} {d : Diagnostic}
    (hbound : c.rest.length ≤ bound) (h : scan file bound c = .error d) :
    ∃ ts stop, Run file c ts stop ∧ lexeme file stop.settle = .error d := by
  induction bound using Nat.strong_induction_on generalizing c with
  | _ bound ih =>
    by_cases hend : c.settle.rest = []
    · rw [scan_settled hend] at h
      cases h
    obtain ⟨n, rfl⟩ := bound_turn hend hbound
    rw [scan_read n hend] at h
    cases hlexeme : lexeme file c.settle with
    | error e =>
      rw [hlexeme] at h
      cases h
      exact ⟨[], c, .done, hlexeme⟩
    | ok r =>
      have hless := lexeme_shorter hend hlexeme
      rw [hlexeme] at h
      change (scan file n r.2).map _ = .error d at h
      cases hscan : scan file n r.2 with
      | ok s =>
        rw [hscan] at h
        cases h
      | error e =>
        rw [hscan] at h
        cases h
        obtain ⟨ts, stop, hrun, hstop⟩ := ih n (Nat.lt_succ_self n) (by omega) hscan
        exact ⟨_, stop, .turn hend hlexeme hrun, hstop⟩

theorem Run.passes {file : String} {c d : Cursor} {ts : List Token} (h : Run file c ts d) :
    ∃ raw, c.Passes raw d := by
  induction h with
  | done => exact ⟨[], .refl _⟩
  | @turn c _ _ _ _ hmore hlexeme _ ih =>
    obtain ⟨gap, -, hgap, -⟩ := c.settle_passes
    obtain ⟨raw, hraw⟩ := (lexeme_step hmore hlexeme).passes
    obtain ⟨more, hrest⟩ := ih
    exact ⟨gap ++ (raw ++ more), hgap.trans (hraw.trans hrest)⟩

end Lexer

theorem Location.Behind.length {loc : Location} {source : String} {a b : List Char}
    (ha : loc.Behind source a) (hb : loc.Behind source b) : utf8Length a = utf8Length b :=
  ha.offset.symm.trans hb.offset

/-- How a source fails to be read: the text before, whose lexemes are read, what is wrong with the
text behind it and which place of that is reported. -/
structure Blamed (source file : String) (d : Diagnostic) (ts : List Token)
    (before passed gap : List Char) (c : Char) (after : List Char) : Prop where
  text : source.toList = before ++ (passed ++ (gap ++ c :: after))
  read : ∃ stop, Lexer.Run file (.ofText source.toList) ts stop ∧
    stop.settle = ⟨passed ++ (gap ++ c :: after), Position.start.behind before⟩
  fault : Lexer.Fault passed gap c after d.problem
  inFile : d.location.file = file
  behind : d.location.Behind source (before ++ passed)
  points : dropBytes? (d.location.byteOffset source) source.toList = some (gap ++ c :: after)
  exactly : d.location.Behind source (before ++ passed ++ gap) ↔ gap = []

theorem scan_of_tokenize {source file : String} {d : Diagnostic}
    (h : tokenize source file = .error d) :
    Lexer.scan file source.toList.length (.ofText source.toList) = .error d := by
  cases hscan : Lexer.scan file source.toList.length (.ofText source.toList) with
  | error e =>
    rw [tokenize, Lexer.tokens, hscan] at h
    cases h
    rfl
  | ok r =>
    rw [tokenize, Lexer.tokens, hscan] at h
    by_cases hnewline : r.1.getLast?.any Token.isNewline
    · simp [bind, Except.bind, pure, Except.pure, hnewline] at h
    · simp [bind, Except.bind, pure, Except.pure, hnewline] at h

/-- Every lexical error points at the character at fault, unless this is one too many for a string
and stands behind continuations: then it points at the first of these. -/
theorem lexical_errors_located {source file : String} {d : Diagnostic}
    (h : tokenize source file = .error d) :
    ∃ ts before passed gap c after, Blamed source file d ts before passed gap c after := by
  obtain ⟨ts, stop, hrun, herror⟩ :=
    Lexer.scan_error (c := .ofText source.toList) le_rfl (scan_of_tokenize h)
  obtain ⟨raw, hraw⟩ := hrun.passes
  obtain ⟨skipped, -, hskipped, -⟩ := stop.settle_passes
  have hread := hraw.trans hskipped
  obtain ⟨passed, gap, c, after, htext, hfault, hlocation⟩ := Lexer.lexeme_error herror
  have hsource : source.toList = (raw ++ skipped) ++ (passed ++ (gap ++ c :: after)) := by
    rw [← htext]
    exact hread.rest
  have hbehind : d.location.Behind source (raw ++ skipped ++ passed) := by
    rw [hlocation, hread.position]
    change (((Position.start.behind (raw ++ skipped)).behind passed).location file).Behind _ _
    have hparts : source.toList = (raw ++ skipped ++ passed) ++ (gap ++ c :: after) := by
      rw [hsource, List.append_assoc (raw ++ skipped)]
    rw [← Position.behind_append]
    exact Position.location_behind hparts file
  refine ⟨ts, raw ++ skipped, passed, gap, c, after, hsource, ⟨stop, hrun, ?_⟩, hfault, ?_, hbehind,
    ?_, ?_⟩
  · have hposition : stop.settle.position = Position.start.behind (raw ++ skipped) := hread.position
    rw [← htext, ← hposition]
  · rw [hlocation]
    rfl
  · rw [hbehind.offset, hsource, ← List.append_assoc, dropBytes?_append]
  · constructor
    · intro hgap
      have hlength := hgap.length hbehind
      rw [utf8Length_append] at hlength
      by_contra hne
      have hpos := utf8Length_pos hne
      omega
    · rintro rfl
      rwa [List.append_nil]

theorem lexical_errors_located_invalid :
    ∃ d, tokenize "(* ü\n*) \"a\\\nb\" = é" "shell" = .error d ∧
      d = ⟨.invalidCharacter "é", ⟨"shell", 3, 6, 13⟩⟩ ∧
      ∃ ts before passed gap c after,
        Blamed "(* ü\n*) \"a\\\nb\" = é" "shell" d ts before passed gap c after := by
  have herror : tokenize "(* ü\n*) \"a\\\nb\" = é" "shell" =
      .error ⟨.invalidCharacter "é", ⟨"shell", 3, 6, 13⟩⟩ := by decide +kernel
  exact ⟨_, herror, rfl, lexical_errors_located herror⟩

def longString : String :=
  String.ofList ('"' :: List.replicate 128 'a' ++ ['\\', '\n', 'b', '"'])

/-- The error points behind the last character that fits, in the line before. -/
theorem long_string_blamed_early :
    longString.toList =
        ('"' :: List.replicate 128 'a' ++ ['\\', '\n']) ++ ['b', '"'] ∧
      tokenize longString "shell" = .error ⟨.stringTooLong 128, ⟨"shell", 1, 130, 0⟩⟩ ∧
      ¬ (⟨"shell", 1, 130, 0⟩ : Location).Behind longString
        ('"' :: List.replicate 128 'a' ++ ['\\', '\n']) ∧
      (⟨"shell", 2, 1, 131⟩ : Location).Behind longString
        ('"' :: List.replicate 128 'a' ++ ['\\', '\n']) := by
  refine ⟨String.toList_ofList, by decide +kernel, ?_, ?_⟩
  · intro h
    have hline := h.line
    revert hline
    decide
  · refine ⟨by decide +kernel, by decide +kernel, by decide +kernel, by decide +kernel, ?_⟩
    exact fun _ => ⟨by decide, by decide⟩

end MiniMl
