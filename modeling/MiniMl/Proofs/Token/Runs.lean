import MiniMl.Proofs.Token.Lexing

/-! # Runs of the lexer

The turns of the loop over lexemes, without its bound. A run leads from a cursor to another one; what
is scanned is what the run has read and what is scanned from there on.
-/

namespace MiniMl.Lexer

variable {file : String} {bound bound' : Nat} {c d e : Cursor} {ts us : List Token}

/-- Lexemes are read one after the other; these are the tokens among them. -/
inductive Run (file : String) : Cursor → List Token → Cursor → Prop
  | done {c : Cursor} : Run file c [] c
  | turn {c next d : Cursor} {token : Option Token} {ts : List Token} : c.settle.rest ≠ [] →
      lexeme file c.settle = .ok (token, next) → Run file next ts d →
      Run file c (token.toList ++ ts) d

/-- Once it covers the characters left, the bound decides nothing. -/
theorem scan_bound (h : c.rest.length ≤ bound) (h' : c.rest.length ≤ bound') :
    scan file bound c = scan file bound' c := by
  induction bound using Nat.strong_induction_on generalizing bound' c with
  | _ bound ih =>
    by_cases hend : c.settle.rest = []
    · rw [scan_settled hend, scan_settled hend]
    · obtain ⟨n, rfl⟩ := bound_turn hend h
      obtain ⟨n', rfl⟩ := bound_turn hend h'
      rw [scan_read n hend, scan_read n' hend]
      cases hlexeme : lexeme file c.settle with
      | error d => rfl
      | ok r =>
        have hless := lexeme_shorter hend hlexeme
        have hsame : scan file n r.2 = scan file n' r.2 :=
          ih n (Nat.lt_succ_self n) (by omega) (by omega)
        exact congrArg (Except.map _) hsame

namespace Run

theorem once {token : Option Token} (hmore : c.settle.rest ≠ [])
    (hlexeme : lexeme file c.settle = .ok (token, d)) : Run file c token.toList d := by
  have hrun := Run.turn hmore hlexeme .done
  rwa [List.append_nil] at hrun

theorem turn_open {text : List Char} {p : Position} {token : Option Token}
    (hopen : ¬ Continued text) (hmore : text ≠ [])
    (hlexeme : lexeme file ⟨text, p⟩ = .ok (token, d)) : Run file ⟨text, p⟩ token.toList d := by
  have hsettle : (Cursor.mk text p).settle = ⟨text, p⟩ := Cursor.skipContinuations_open hopen p
  apply once
  · rwa [hsettle]
  · rwa [hsettle]

theorem trans (h : Run file c ts d) (k : Run file d us e) : Run file c (ts ++ us) e := by
  induction h with
  | done => exact k
  | turn hmore hlexeme _ ih =>
    rw [List.append_assoc]
    exact .turn hmore hlexeme (ih k)

theorem scan (h : Run file c ts d) (hbound : c.rest.length ≤ bound)
    (hbound' : d.rest.length ≤ bound') :
    Lexer.scan file bound c =
      (Lexer.scan file bound' d).map fun r => (ts ++ r.1, r.2) := by
  induction h generalizing bound with
  | done =>
    rw [scan_bound hbound hbound']
    cases Lexer.scan file bound' _ with
    | ok r => rfl
    | error e => rfl
  | turn hmore hlexeme _ ih =>
    have hless := lexeme_shorter hmore hlexeme
    obtain ⟨bound, rfl⟩ := bound_turn hmore hbound
    rw [scan_read bound hmore, hlexeme]
    change (Lexer.scan file bound _).map _ = _
    rw [ih (by omega) hbound']
    cases Lexer.scan file bound' _ with
    | ok r => simp [Except.map]
    | error e => rfl

end Run

theorem run_of_scan {stop : Position} (hbound : c.rest.length ≤ bound)
    (h : scan file bound c = .ok (ts, stop)) :
    ∃ d, Run file c ts d ∧ d.settle.rest = [] ∧ stop = d.settle.position := by
  induction bound using Nat.strong_induction_on generalizing c ts with
  | _ bound ih =>
    rcases scan_cases hbound h with
      ⟨hend, rfl, rfl⟩ | ⟨n, token, next, more, rfl, hmore, hlexeme, hnext, hscan, rfl⟩
    · exact ⟨c, .done, hend, rfl⟩
    · obtain ⟨d, hrun, hstop⟩ := ih n (Nat.lt_succ_self n) hnext hscan
      exact ⟨d, .turn hmore hlexeme hrun, hstop⟩

end MiniMl.Lexer
