import MiniMl.Proofs.Number.Accumulation
import MiniMl.Proofs.Parser.Literals
import MiniMl.Proofs.Token.WrittenOut

/-! # Integer literals

A program that is one integer literal has the value of its digits, whatever underscores and
continuations stand between them, or the literal is reported as it reads without the continuations.
-/

namespace MiniMl

variable {first : Char} {more : List Char}

theorem tokenize_of_run {source file : String} {ts : List Token} {stop : Position}
    (h : Lexer.Run file (.ofText source.toList) ts ⟨[], stop⟩) :
    tokenize source file = .ok (.ofList (endLine ts (sourceEnd source file)) file) := by
  have hscan : Lexer.scan file source.toList.length _ = (Lexer.scan file 0 _).map _ :=
    h.scan le_rfl le_rfl
  rw [tokenize_of_written, writtenTokens, hscan]
  simp [Lexer.scan, Except.map]

theorem run_ended (file : String) (p : Position) :
    ∃ (u : Token) (stop : Position),
      Lexer.Run file ⟨[' ', ';', ';'], p⟩ [u] ⟨[], stop⟩ ∧ u.kind = .doubleSemicolon := by
  have hlexeme : Lexeme .doubleSemicolon ";;".toList := .sign (by simp [signs])
  have hspace : Lexer.Run file ⟨' ' :: ([';', ';'] ++ []), p⟩ [] ⟨[';', ';'] ++ [], p.after ' '⟩ :=
    Lexer.run_space hlexeme
  have hend : Lexer.Run file ⟨[';', ';'] ++ [], p.after ' '⟩ [⟨.doubleSemicolon, _, _⟩] ⟨[], _⟩ :=
    Lexer.run_lexeme hlexeme (by simp) (by simp [Apart])
  exact ⟨_, _, hspace.trans hend, rfl⟩

theorem Constant.ofToken_int (text : String) (location : Location) :
    ofToken ⟨.int, text, location⟩ = match int64? (numeral text) with
      | some n => .ok (.int n)
      | none => .error (.intOutOfRange text) := rfl

/-- What follows the first digit of an integer literal, with continuations anywhere. -/
def IntegerTail (more : List Char) : Prop := ∀ c ∈ logical more, c.isDigit ∨ c = '_'

namespace IntegerTail

theorem isNumberPart (h : IntegerTail more) : ∀ c ∈ logical more, Lexer.isNumberPart c := by
  intro c hc
  rcases h c hc with hdigit | rfl
  · simp [Lexer.isNumberPart, hdigit]
  · decide

theorem numberKind (h : IntegerTail more) (hfirst : first.isDigit) :
    Lexer.numberKind (first :: logical more) = .int := by
  have hpoint : '.' ∉ first :: logical more := by
    rintro (_ | ⟨_, hc⟩)
    · exact absurd hfirst (by decide)
    · exact absurd (h '.' hc) (by decide)
  rw [Lexer.numberKind, List.contains_eq_mem, decide_eq_false hpoint]
  rfl

theorem numeral (h : IntegerTail more) (hfirst : first.isDigit) :
    Constant.numeral (String.ofList (first :: logical more)) =
      (first :: logical more).filter Char.isDigit := by
  rw [Constant.numeral, String.toList_ofList]
  apply List.filter_congr
  intro c hc
  have hone : c.isDigit ∨ c = '_' := by
    rcases List.mem_cons.mp hc with rfl | hc
    · exact .inl hfirst
    · exact h c hc
  rcases hone with hdigit | rfl
  · have hother : c ≠ '_' := by
      rintro rfl
      exact absurd hdigit (by decide)
    rw [hdigit, bne_iff_ne.mpr hother]
  · rfl

theorem tokenize (h : IntegerTail more) (hfirst : first.isDigit) (file : String) :
    ∃ (ts : List Token) (u : Token),
      MiniMl.tokenize (String.ofList (first :: more) ++ " ;;") file = .ok (.ofList ts file) ∧
      ts.filter (!·.isNewline) =
        [⟨.int, String.ofList (first :: logical more), .start file⟩, u] ∧
      u.kind = .doubleSemicolon := by
  have hopen : ¬ Continued (first :: more ++ [' ', ';', ';']) := by
    rw [List.cons_append, continued_cons]
    rintro ⟨rfl, -⟩
    exact absurd hfirst (by decide)
  have hlexeme : Lexer.lexeme file ⟨first :: more ++ [' ', ';', ';'], .start⟩ = .ok _ :=
    Lexer.number_continued (by simp [Apart]) hfirst h.isNumberPart
  rw [h.numberKind hfirst] at hlexeme
  have hnumber := Lexer.Run.turn_open hopen (by simp) hlexeme
  obtain ⟨u, stop, hend, hu⟩ := run_ended file (Position.start.behind (first :: more))
  have hsource : (String.ofList (first :: more) ++ " ;;").toList =
      first :: more ++ [' ', ';', ';'] := by
    rw [String.toList_append, String.toList_ofList]
    rfl
  have hrun := hnumber.trans hend
  rw [← hsource] at hrun
  refine ⟨_, u, tokenize_of_run hrun, ?_, hu⟩
  have hword : u.isNewline = false := by
    rw [Token.isNewline, hu]
    rfl
  change (endLine [⟨.int, _, _⟩, u] _).filter _ = _
  rw [endLine, if_neg (by simp [hword]), List.filter_append, List.filter_cons_of_pos rfl,
    List.filter_cons_of_pos (by rw [hword]; rfl)]
  rfl

end IntegerTail

/-- An integer literal and a double semicolon are a program of one statement, which is the value of
the digits and has the type of integers, if that value is below 2⁶³. If not, the literal is reported
where it begins, with all of its digits and underscores. What decides is the accumulation of the
digits in 64 bits. -/
theorem integer_literals_keep_value (first : Char) (more : List Char) (hfirst : first.isDigit)
    (hmore : ∀ c ∈ logical more, c.isDigit ∨ c = '_') (file : String) :
    let source := String.ofList (first :: more) ++ " ;;"
    let literal := first :: logical more
    let digits := literal.filter Char.isDigit
    let token : Token := ⟨.int, String.ofList literal, .start file⟩
    let value : Nat := Nat.ofDigits 10 (digits.reverse.map digitValue)
    (value < 2 ^ 63 → ∃ program cell scope, compile source file = .ok program ∧
      program.stmts = [⟨.exp (.single token (.constant token (.int value) cell) scope), token, scope⟩] ∧
      program.store.kind? cell = some .int) ∧
    (2 ^ 63 ≤ value → compile source file =
      .error ⟨.intOutOfRange (String.ofList literal), .start file⟩) ∧
    accumulate? (2 ^ 63 - 1) 0 digits = if value < 2 ^ 63 then some value else none := by
  intro source literal digits token value
  have htail : IntegerTail more := hmore
  have hdigits : digits.all Char.isDigit := by
    rw [List.all_eq_true]
    intro c hc
    exact (List.mem_filter.mp hc).2
  have hsome : digits ≠ [] := List.ne_nil_of_mem (List.mem_filter.mpr ⟨List.mem_cons_self, hfirst⟩)
  have hread : accumulate? (2 ^ 63 - 1) 0 digits = if value < 2 ^ 63 then some value else none := by
    have hvalue : readOn 0 digits = value := decimalValue_eq digits
    rw [accumulate?_eq (Nat.zero_le _), hvalue]
    exact if_congr (by omega) rfl rfl
  have hnumeral : Constant.numeral (String.ofList literal) = digits := htail.numeral hfirst
  have hconstant : Constant.ofToken token = match int64? digits with
      | some n => .ok (.int n)
      | none => .error (.intOutOfRange (String.ofList literal)) := by
    rw [← hnumeral]
    exact Constant.ofToken_int (String.ofList literal) (.start file)
  rw [int64?_digits hsome hdigits, hread] at hconstant
  obtain ⟨ts, u, htokens, hts, hend⟩ := htail.tokenize hfirst file
  have hcompile : compile source file = parse (.ofList ts file) := by
    rw [compile, htokens]
    rfl
  refine ⟨?_, ?_, hread⟩
  · intro hlimit
    rw [if_pos hlimit] at hconstant
    rw [hcompile]
    exact parse_of_literal hts rfl hend file hconstant
  · intro hlimit
    rw [if_neg (by omega)] at hconstant
    rw [hcompile]
    exact parse_of_failed_literal hts rfl file hconstant

/-- The largest number behind zeros, with an underscore and a continuation in it and one behind it,
and the number that follows it. -/
theorem integer_literals_keep_value_largest :
    let largest := "00_9223372036854775\\\n807\\\n ;;"
    let next := "9223372036854775\\\n808_ ;;"
    let token : Token := ⟨.int, "00_9223372036854775807", .start "shell"⟩
    (∃ program cell scope, compile largest "shell" = .ok program ∧
      program.stmts =
        [⟨.exp (.single token (.constant token (.int 9223372036854775807) cell) scope), token, scope⟩] ∧
      program.store.kind? cell = some .int) ∧
    compile next "shell" = .error ⟨.intOutOfRange "9223372036854775808_", .start "shell"⟩ := by
  intro largest next token
  have htail : ∀ text ∈ ["0_9223372036854775\\\n807\\\n", "223372036854775\\\n808_"],
      (logical text.toList).all fun c => c.isDigit || c == '_' := by decide +kernel
  simp only [List.all_eq_true, Bool.or_eq_true, beq_iff_eq] at htail
  constructor
  · exact (integer_literals_keep_value '0' "0_9223372036854775\\\n807\\\n".toList rfl
      (htail _ (by simp)) "shell").1 (by decide +kernel)
  · exact (integer_literals_keep_value '9' "223372036854775\\\n808_".toList rfl
      (htail _ (by simp)) "shell").2.1 (by decide +kernel)

end MiniMl
