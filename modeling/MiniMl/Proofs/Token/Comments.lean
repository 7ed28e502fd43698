import MiniMl.Proofs.Token.Faults
import MiniMl.Proofs.Token.Loops

/-! # Where comments end

A comment goes on to the first star and parenthesis of its logical text, whatever stands before
them. The lexer remembers whether the last character was a star. A reader that can go back one step
needs no memory: it puts the character behind a star back unless that closes the comment, and the
continuations passed on the way with it.
-/

namespace MiniMl

namespace Reader

/-- The reader behind the first star and parenthesis, after at most `bound` turns. -/
def commentEnd? : (bound : Nat) → Reader → Option Reader
  | 0, _ => none
  | bound + 1, r =>
    match r.next with
    | (none, _) => none
    | (some c, r) =>
      if c = '*' then
        match r.next with
        | (none, _) => none
        | (some d, r) => if d = ')' then some r else commentEnd? bound r.putBack
      else commentEnd? bound r

def skipComment? (bound : Nat) (r : Reader) : Option Reader := r.next.2.next.2.commentEnd? bound

theorem commentEnd?_turn (bound : Nat) (r : Reader) :
    r.commentEnd? (bound + 1) =
      match r.commentTurn with
      | .again r => r.commentEnd? bound
      | .done result => result := by
  rw [commentEnd?, commentTurn]
  obtain ⟨first, r⟩ := r.next
  cases first with
  | none => rfl
  | some c =>
    by_cases hstar : c = '*'
    · dsimp only
      rw [if_pos hstar, if_pos hstar]
      obtain ⟨second, r⟩ := r.next
      cases second with
      | none => rfl
      | some d =>
        by_cases hclose : d = ')'
        · simp [hclose]
        · simp [hclose]
    · dsimp only
      rw [if_neg hstar, if_neg hstar]

theorem commentEnd?_loop (limit : Nat) (r : Reader) :
    r.commentEnd? (limit + 1) = (Turn.loop? commentTurn limit r).join := by
  induction limit generalizing r with
  | zero =>
    rw [commentEnd?_turn, Turn.loop?]
    cases r.commentTurn with
    | again r => rfl
    | done result => rfl
  | succ limit ih =>
    rw [commentEnd?_turn, Turn.loop?]
    cases r.commentTurn with
    | again r => exact ih r
    | done result => rfl

end Reader

namespace Lexer

/-- A reader that goes back one step finds the same end. -/
theorem commentEnd?_byHand {bound : Nat} {r : Reader} (hbound : r.cursor.rest.length < bound) :
    (r.commentEnd? bound).map (·.cursor) =
      commentEnd? false r.cursor.rest r.cursor.position := by
  obtain ⟨limit, rfl⟩ := Nat.exists_eq_succ_of_ne_zero (Nat.ne_zero_of_lt hbound)
  obtain ⟨result, hloop, hresult⟩ :=
    Turn.loop?_ends (fun r _ => Reader.commentTurn_proper r) trivial (Nat.le_of_lt_succ hbound)
  rw [Reader.commentEnd?_loop, hloop]
  exact hresult

theorem first_close_unique {inner inner' after after' : List Char}
    (h : inner ++ '*' :: ')' :: after = inner' ++ '*' :: ')' :: after')
    (hfirst : ¬ ['*', ')'] <:+: inner ++ ['*']) (hfirst' : ¬ ['*', ')'] <:+: inner' ++ ['*']) :
    inner = inner' ∧ after = after' := by
  induction inner generalizing inner' with
  | nil =>
    cases inner' with
    | nil => simpa using h
    | cons c inner' =>
      obtain ⟨rfl, htail⟩ := List.cons.inj h
      refine absurd ?_ hfirst'
      cases inner' with
      | nil => cases htail
      | cons d inner' =>
        obtain ⟨rfl, -⟩ := List.cons.inj htail
        exact ⟨[], inner' ++ ['*'], rfl⟩
  | cons c inner ih =>
    cases inner' with
    | nil =>
      obtain ⟨rfl, htail⟩ := List.cons.inj h
      refine absurd ?_ hfirst
      cases inner with
      | nil => cases htail
      | cons d inner =>
        obtain ⟨rfl, -⟩ := List.cons.inj htail
        exact ⟨[], inner ++ ['*'], rfl⟩
    | cons d inner' =>
      obtain ⟨rfl, htail⟩ := List.cons.inj h
      rw [List.cons_append, List.infix_cons_iff, not_or] at hfirst hfirst'
      obtain ⟨rfl, rfl⟩ := ih htail hfirst.2 hfirst'.2
      exact ⟨rfl, rfl⟩

variable {file : String} {rest : List Char} {p : Position}

theorem comment_closed {inner after : List Char}
    (hrest : logical rest = inner ++ '*' :: ')' :: after) (hfirst : ¬ ['*', ')'] <:+: inner ++ ['*']) :
    ∃ raw stop, lexeme file ⟨'(' :: '*' :: rest, p⟩ = .ok (none, stop) ∧
      Cursor.Passes ⟨'(' :: '*' :: rest, p⟩ ('(' :: '*' :: raw) stop ∧ raw.getLast? = some ')' ∧
      logical raw = inner ++ ['*', ')'] ∧ stop.unread = after := by
  have hlogical := commentEnd?_logical false rest ((p.after '(').after '*')
  rw [lexeme_comment]
  cases hend : commentEnd? false rest ((p.after '(').after '*') with
  | none =>
    rw [hend] at hlogical
    refine absurd ?_ (closeComment_none hlogical.symm)
    rw [hrest]
    exact ⟨inner, after, by simp⟩
  | some stop =>
    obtain ⟨raw, inner', hpass, hlast, hraw, hfirst'⟩ := commentEnd?_passes hend
    have hraw : logical raw = inner' ++ ['*', ')'] := hraw
    have hsplit : logical rest = logical raw ++ stop.unread := by
      have htext : rest = raw ++ stop.rest := hpass.rest
      rw [htext, Cursor.unread]
      apply logical_append
      intro hslash
      rw [hlast] at hslash
      cases hslash
    have hsame : inner ++ '*' :: ')' :: after = inner' ++ '*' :: ')' :: stop.unread := by
      rw [← hrest, hsplit, hraw, List.append_assoc]
      rfl
    obtain ⟨rfl, rfl⟩ := first_close_unique hsame hfirst hfirst'
    exact ⟨raw, stop, rfl, hpass.cons.cons, hlast, hraw, rfl⟩

theorem comment_open (h : ¬ ['*', ')'] <:+: logical rest) :
    lexeme file ⟨'(' :: '*' :: rest, p⟩ = .error ⟨.unterminatedComment, p.location file⟩ := by
  rw [lexeme_comment]
  cases hend : commentEnd? false rest ((p.after '(').after '*') with
  | none => rfl
  | some stop =>
    obtain ⟨raw, inner, hpass, hlast, hraw, -⟩ := commentEnd?_passes hend
    have htext : rest = raw ++ stop.rest := hpass.rest
    have hraw : logical raw = inner ++ ['*', ')'] := hraw
    refine absurd ⟨inner, stop.unread, ?_⟩ h
    rw [htext, logical_append, hraw]
    · rfl
    · intro hslash
      rw [hlast] at hslash
      cases hslash

theorem comment_byHand {bound : Nat} (previous : Option Cursor) (hbound : rest.length < bound) :
    ((Reader.mk ⟨'(' :: '*' :: rest, p⟩ previous).skipComment? bound).map (·.cursor) =
      (lexeme file ⟨'(' :: '*' :: rest, p⟩).toOption.map (·.2) := by
  rw [Reader.skipComment?, lexeme_comment]
  have hbehind : (Reader.mk ⟨'(' :: '*' :: rest, p⟩ previous).next.2.next.2 =
      ⟨⟨rest, (p.after '(').after '*'⟩, some ⟨'*' :: rest, p.after '('⟩⟩ := rfl
  rw [hbehind]
  rw [commentEnd?_byHand hbound]
  cases commentEnd? false rest ((p.after '(').after '*') with
  | none => rfl
  | some stop => rfl

end Lexer

/-- At a parenthesis and a star, the lexer passes everything up to the first star and parenthesis of
the logical text and stands right behind them, or there are none and the comment is not closed. It is
so too when the character behind a star is put back. -/
theorem comments_end_first {source : String} {before rest : List Char} {start : Cursor}
    (hstart : (Cursor.ofText source.toList).Passes before start)
    (hopen : start.rest = '(' :: '*' :: rest) (file : String) :
    (∀ inner after, logical rest = inner ++ '*' :: ')' :: after →
      ¬ ['*', ')'] <:+: inner ++ ['*'] →
        ∃ comment stop, Lexer.lexeme file start = .ok (none, stop) ∧
          start.Passes comment stop ∧ comment.getLast? = some ')' ∧
          logical comment = '(' :: '*' :: inner ++ ['*', ')'] ∧ stop.unread = after ∧
          (stop.position.location file).Behind source (before ++ comment)) ∧
    (¬ ['*', ')'] <:+: logical rest →
      Lexer.lexeme file start = .error ⟨.unterminatedComment, start.position.location file⟩) ∧
    ∀ bound previous, rest.length < bound →
      ((Reader.mk start previous).skipComment? bound).map (·.cursor) =
        (Lexer.lexeme file start).toOption.map (·.2) := by
  obtain ⟨text, p⟩ := start
  obtain rfl : text = '(' :: '*' :: rest := hopen
  refine ⟨?_, Lexer.comment_open, fun bound previous => Lexer.comment_byHand previous⟩
  intro inner after hrest hfirst
  obtain ⟨raw, stop, hlexeme, hpass, hlast, hraw, hafter⟩ := Lexer.comment_closed hrest hfirst
  have hread := hstart.trans hpass
  refine ⟨_, stop, hlexeme, hpass, ?_, ?_, hafter, ?_⟩
  · rw [List.getLast?_cons, List.getLast?_cons, hlast]
    rfl
  · rw [logical_cons (by simp [continued_cons]), logical_cons (by simp [continued_cons]), hraw]
    rfl
  · rw [hread.position]
    exact Position.location_behind hread.rest file

/-- Stars and another opening stand in the comment, and continuations in front of its end; the
characters that would close a comment once more are behind it. -/
theorem comments_end_first_continued :
    let source := "a (* ** (* é\n **\\\n\\\n) *) b"
    let start : Cursor := ⟨"(* ** (* é\n **\\\n\\\n) *) b".toList, ⟨2, 1, 3, 0⟩⟩
    (Cursor.ofText source.toList).Passes "a ".toList start ∧
      logical " ** (* é\n **\\\n\\\n) *) b".toList =
        " ** (* é\n *".toList ++ '*' :: ')' :: " *) b".toList ∧
      ¬ ['*', ')'] <:+: " ** (* é\n *".toList ++ ['*'] ∧
      ∃ comment stop, Lexer.lexeme "shell" start = .ok (none, stop) ∧
        start.Passes comment stop ∧ comment.getLast? = some ')' ∧
        logical comment = '(' :: '*' :: " ** (* é\n *".toList ++ ['*', ')'] ∧
        stop.unread = " *) b".toList ∧
        (stop.position.location "shell").Behind source ("a ".toList ++ comment) ∧
        stop.position = ⟨22, 4, 2, 21⟩ := by
  intro source start
  have hstart : (Cursor.ofText source.toList).Passes "a ".toList start := ⟨by decide, by decide⟩
  have hrest : logical " ** (* é\n **\\\n\\\n) *) b".toList =
      " ** (* é\n *".toList ++ '*' :: ')' :: " *) b".toList := by decide +kernel
  have hfirst : ¬ ['*', ')'] <:+: " ** (* é\n *".toList ++ ['*'] := by decide +kernel
  have hopen : start.rest = '(' :: '*' :: " ** (* é\n **\\\n\\\n) *) b".toList := by decide +kernel
  obtain ⟨comment, stop, hlexeme, hpass, hlast, hcomment, hafter, hbehind⟩ :=
    (comments_end_first hstart hopen "shell").1 _ _ hrest hfirst
  have hrun : Lexer.lexeme "shell" start = .ok (none, ⟨" *) b".toList, ⟨22, 4, 2, 21⟩⟩) := by
    decide +kernel
  refine ⟨hstart, hrest, hfirst, comment, stop, hlexeme, hpass, hlast, hcomment, hafter, hbehind,
    ?_⟩
  rw [hrun] at hlexeme
  cases hlexeme
  rfl

end MiniMl
