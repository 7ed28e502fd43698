import MiniMl.Proofs.Parser.Literals
import MiniMl.Proofs.Token.Faults

/-! # String literals

What a string literal holds is its logical text up to the next quote. The bound counts logical
characters, so of a text it is enough to look at as many of them as a literal may hold and one more:
either there is a quote among them, or the literal is too long, or the text ends before.
-/

namespace MiniMl

namespace Lexer

variable {room : Nat} {text body after : List Char}

theorem closeString_closed (hquote : '"' ∉ body) (hroom : body.length ≤ room) :
    closeString room (body ++ '"' :: after) = .ok (body, after) := by
  induction body generalizing room with
  | nil =>
    rw [List.nil_append, closeString, if_pos rfl]
  | cons c body ih =>
    obtain ⟨hc, hbody⟩ := not_or.mp (List.mem_cons.not.mp hquote)
    rw [List.length_cons] at hroom
    rw [List.cons_append, closeString, if_neg (Ne.symm hc), if_neg (by omega),
      ih hbody (by omega)]
    rfl

theorem closeString_long (hquote : '"' ∉ text.take (room + 1)) (hroom : room < text.length) :
    closeString room text = .error (.stringTooLong maxStringLength) := by
  induction text generalizing room with
  | nil => cases hroom
  | cons c text ih =>
    rw [List.take_succ_cons] at hquote
    obtain ⟨hc, htext⟩ := not_or.mp (List.mem_cons.not.mp hquote)
    rw [closeString, if_neg (Ne.symm hc)]
    by_cases hnone : room = 0
    · rw [if_pos hnone]
    · obtain ⟨room, rfl⟩ := Nat.exists_eq_succ_of_ne_zero hnone
      rw [List.length_cons] at hroom
      rw [if_neg hnone, Nat.succ_sub_one, ih htext (by omega)]
      rfl

theorem closeString_open (hquote : '"' ∉ text) (hroom : text.length ≤ room) :
    closeString room text = .error .unterminatedString := by
  induction text generalizing room with
  | nil => rw [closeString]
  | cons c text ih =>
    obtain ⟨hc, htext⟩ := not_or.mp (List.mem_cons.not.mp hquote)
    rw [List.length_cons] at hroom
    rw [closeString, if_neg (Ne.symm hc), if_neg (by omega), ih htext (by omega)]
    rfl

theorem quote_split {n : Nat} (h : '"' ∈ text.take (n + 1)) :
    ∃ body after, text = body ++ '"' :: after ∧ '"' ∉ body ∧ body.length ≤ n := by
  obtain ⟨body, more, htake, hbody⟩ := List.eq_append_cons_of_mem h
  refine ⟨body, more ++ text.drop (n + 1), ?_, hbody, ?_⟩
  · conv_lhs => rw [← List.take_append_drop (n + 1) text, htake]
    rw [List.append_assoc, List.cons_append]
  · have hlength : (text.take (n + 1)).length ≤ n + 1 := List.length_take_le _ _
    rw [htake, List.length_append, List.length_cons] at hlength
    omega

variable {rest : List Char} {p : Position} {problem : Problem}

theorem string_closed (file : String) (p : Position)
    (h : closeString maxStringLength (logical rest) = .ok (body, after)) :
    ∃ stop, stop.unread = after ∧ lexeme file ⟨'"' :: rest, p⟩ =
      .ok (some ⟨.string, "\"" ++ String.ofList body ++ "\"", p.location file⟩, stop) := by
  rw [← stringBody_logical p (p.after '"') (p.after '"')] at h
  rw [lexeme_string]
  cases hbody : stringBody p maxStringLength (p.after '"') rest (p.after '"') with
  | error e =>
    rw [hbody] at h
    cases h
  | ok read =>
    rw [hbody] at h
    cases h
    exact ⟨read.2, rfl, rfl⟩

theorem string_failed (file : String) (p : Position)
    (h : closeString maxStringLength (logical rest) = .error problem) :
    ∃ location, lexeme file ⟨'"' :: rest, p⟩ = .error ⟨problem, location⟩ ∧
      (problem = .unterminatedString → location = p.location file) := by
  rw [← stringBody_logical p (p.after '"') (p.after '"')] at h
  rw [lexeme_string]
  cases hbody : stringBody p maxStringLength (p.after '"') rest (p.after '"') with
  | ok read =>
    rw [hbody] at h
    cases h
  | error e =>
    obtain ⟨fault, q⟩ := e
    rw [hbody] at h
    cases h
    refine ⟨_, rfl, ?_⟩
    intro hopen
    rcases stringBody_error hbody [] rfl rfl with ⟨-, rfl, -⟩ | ⟨_, _, _, _, hlong, -⟩
    · rfl
    · rw [hlong] at hopen
      cases hopen

end Lexer

theorem Constant.unquote_quotes (body : List Char) :
    unquote ("\"" ++ String.ofList body ++ "\"") = String.ofList body := by
  have htext : ("\"" ++ String.ofList body ++ "\"").toList = '"' :: (body ++ ['"']) := by
    simp
  rw [unquote, htext]
  simp

/-- Which string a literal writes is decided by the first quote of the logical text behind its
opening one. If at most 128 characters come before, they are the value of the literal, also as a
constant of the parser, and reading goes on behind the quote. If not, and there are more characters,
the literal is too long, wherever it is closed, and else it is not closed. -/
theorem string_literals_read (start : Cursor) {rest : List Char} (hopen : start.rest = '"' :: rest)
    (file : String) :
    ('"' ∈ (logical rest).take 129 →
      ∃ body after stop, logical rest = body ++ '"' :: after ∧ '"' ∉ body ∧ body.length ≤ 128 ∧
        Lexer.lexeme file start = .ok (some ⟨.string, "\"" ++ String.ofList body ++ "\"",
          start.position.location file⟩, stop) ∧
        stop.unread = after ∧
        ∀ (p : Parser) (more : List Token), p.tokens.rest =
          ⟨.string, "\"" ++ String.ofList body ++ "\"", start.position.location file⟩ :: more →
            ∃ cell q, Parse.operand p = .ok (.constant p.peek (.string (String.ofList body)) cell) q ∧
              q.store.kind? cell = some .string ∧ q.tokens.rest = more) ∧
    ('"' ∉ (logical rest).take 129 → 129 ≤ (logical rest).length →
      ∃ location, Lexer.lexeme file start = .error ⟨.stringTooLong 128, location⟩) ∧
    ('"' ∉ (logical rest).take 129 → (logical rest).length < 129 →
      Lexer.lexeme file start = .error ⟨.unterminatedString, start.position.location file⟩) := by
  obtain ⟨text, p⟩ := start
  obtain rfl : text = '"' :: rest := hopen
  refine ⟨?_, ?_, ?_⟩
  · intro hquote
    obtain ⟨body, after, htext, hbody, hlength⟩ := Lexer.quote_split (n := 128) hquote
    have hclose : Lexer.closeString Lexer.maxStringLength (logical rest) = .ok (body, after) := by
      rw [htext]
      exact Lexer.closeString_closed hbody hlength
    obtain ⟨stop, hstop, hread⟩ := Lexer.string_closed file p hclose
    refine ⟨body, after, stop, htext, hbody, hlength, hread, hstop, ?_⟩
    intro parser more hrest
    obtain ⟨hpeek, hmore⟩ := TokenSequence.peek_of_rest hrest
    have hvalue : Constant.ofToken parser.peek = .ok (.string (String.ofList body)) := by
      rw [Parser.peek, hpeek, Constant.ofToken, Constant.unquote_quotes]
    refine ⟨parser.store.slots.size, Parse.behindConstant parser (.string (String.ofList body)), ?_,
      Store.kind?_new parser.store .string, hmore⟩
    rw [Parse.operand_of_literal hrest rfl]
    exact Parse.constant_run hvalue
  · intro hquote hlength
    have hclose : Lexer.closeString Lexer.maxStringLength (logical rest) =
        .error (.stringTooLong 128) := Lexer.closeString_long hquote hlength
    obtain ⟨location, hread, -⟩ := Lexer.string_failed file p hclose
    exact ⟨location, hread⟩
  · intro hquote hlength
    rw [List.take_of_length_le (by omega)] at hquote
    have hclose : Lexer.closeString Lexer.maxStringLength (logical rest) =
        .error .unterminatedString := Lexer.closeString_open hquote (Nat.le_of_lt_succ hlength)
    obtain ⟨location, hread, hlocation⟩ := Lexer.string_failed file p hclose
    rw [hread, hlocation rfl]

/-- The last two of 128 characters are a newline and a backslash, and a continuation comes before the
quote behind them. With one more character the quote comes too late, and without it the text ends. -/
theorem string_literals_read_bound :
    let body := List.replicate 126 'a' ++ ['\n', '\\']
    let closed := body ++ "\\\n\" ;;".toList
    let long := 'b' :: closed
    let opened := body ++ "\\\n".toList
    ('"' ∈ (logical closed).take 129 ∧ ∃ stop,
      Lexer.lexeme "shell" ⟨'"' :: closed, .start⟩ =
        .ok (some ⟨.string, "\"" ++ String.ofList body ++ "\"", .start "shell"⟩, stop) ∧
      stop.unread = " ;;".toList) ∧
    ('"' ∉ (logical long).take 129 ∧ 129 ≤ (logical long).length ∧ ∃ location,
      Lexer.lexeme "shell" ⟨'"' :: long, .start⟩ = .error ⟨.stringTooLong 128, location⟩) ∧
    ('"' ∉ (logical opened).take 129 ∧ (logical opened).length < 129 ∧
      Lexer.lexeme "shell" ⟨'"' :: opened, .start⟩ =
        .error ⟨.unterminatedString, .start "shell"⟩) := by
  intro body closed long opened
  have hquote : '"' ∈ (logical closed).take 129 := by decide +kernel
  have hlong : '"' ∉ (logical long).take 129 ∧ 129 ≤ (logical long).length := by decide +kernel
  have hopened : '"' ∉ (logical opened).take 129 ∧ (logical opened).length < 129 := by
    decide +kernel
  have hread := (string_literals_read ⟨'"' :: closed, .start⟩ rfl "shell").1 hquote
  have hfirst := (string_literals_read ⟨'"' :: long, .start⟩ rfl "shell").2.1
  have hlast := (string_literals_read ⟨'"' :: opened, .start⟩ rfl "shell").2.2
  refine ⟨⟨hquote, ?_⟩, ⟨hlong.1, hlong.2, hfirst hlong.1 hlong.2⟩, hopened.1, hopened.2,
    hlast hopened.1 hopened.2⟩
  obtain ⟨found, after, stop, htext, -, -, hlexeme, hafter, -⟩ := hread
  have hlogical : logical closed = body ++ '"' :: " ;;".toList := by decide +kernel
  rw [hlogical] at htext
  have hbody : '"' ∉ body := by decide +kernel
  obtain ⟨rfl, -, rfl⟩ := (List.append_cons_inj_of_notMem hbody (by decide)).mp htext
  exact ⟨stop, hlexeme, hafter⟩

end MiniMl
