import MiniMl.Proofs.Scope.Relocation
import MiniMl.Proofs.Token.Lexing

/-! # Texts further down

The lexer counts on from the position that it starts at and never asks where that is. The same text
some lines further down has the same tokens there, and the same problem.
-/

namespace MiniMl

variable (lines bytes : Nat)

/-- As many lines and bytes further down, in the same column. -/
def Location.shift (loc : Location) : Location :=
  { loc with line := loc.line + lines, lineBegin := loc.lineBegin + bytes }

def Position.shift (p : Position) : Position :=
  ⟨p.offset + bytes, p.line + lines, p.column, p.lineBegin + bytes⟩

def Cursor.shift (c : Cursor) : Cursor := ⟨c.rest, c.position.shift lines bytes⟩

theorem Position.shift_after (p : Position) (c : Char) :
    (p.shift lines bytes).after c = (p.after c).shift lines bytes := by
  by_cases hc : c = '\n'
  · simp [after, shift, hc, Nat.add_right_comm]
  · simp [after, shift, hc, Nat.add_right_comm]

theorem Cursor.settle_shift (c : Cursor) :
    (c.shift lines bytes).settle = c.settle.shift lines bytes := by
  change skipContinuations c.rest (c.position.shift lines bytes) =
    (skipContinuations c.rest c.position).shift lines bytes
  generalize c.position = p
  fun_induction skipContinuations c.rest p with
  | case1 p rest ih => rw [skipContinuations, Position.shift_after, Position.shift_after, ih]
  | case2 p text hfree =>
    unfold skipContinuations
    split
    · exact absurd rfl (hfree _)
    · rfl

namespace Lexer

theorem takeRun_shift (accept : Char → Bool) (text : List Char) (p : Position) :
    takeRun accept text (p.shift lines bytes) =
      ((takeRun accept text p).1, (takeRun accept text p).2.shift lines bytes) := by
  fun_induction takeRun accept text p with
  | case1 rest p ih => rw [takeRun, Position.shift_after, Position.shift_after, ih]
  | case2 c rest p hfree hc run stop hrun ih =>
    rw [takeRun, if_pos hc, Position.shift_after, ih, hrun]
    exact hfree
  | case3 c rest p hfree hc =>
    rw [takeRun, if_neg hc]
    · rfl
    · exact hfree
  | case4 p => rfl

theorem stringBody_shift (opening last p : Position) (room : Nat) (text : List Char) :
    stringBody (opening.shift lines bytes) room (last.shift lines bytes) text
        (p.shift lines bytes) =
      ((stringBody opening room last text p).map fun r => (r.1, r.2.shift lines bytes)).mapError
        fun e => (e.1, e.2.shift lines bytes) := by
  fun_induction stringBody opening room last text p with
  | case1 room last rest p ih =>
    rw [stringBody, Position.shift_after, Position.shift_after, ih]
  | case2 room last rest p =>
    rw [stringBody, Position.shift_after]
    rfl
  | case3 last c rest p hfree hquote =>
    rw [stringBody]
    · rfl
    · exact hfree
    · exact hquote
  | case4 last room c rest p hfree hquote body stop hmore ih =>
    rw [stringBody, Position.shift_after, ih, hmore]
    · rfl
    · exact hfree
    · exact hquote
  | case5 last room c rest p hfree hquote e hmore ih =>
    rw [stringBody, Position.shift_after, ih, hmore]
    · rfl
    · exact hfree
    · exact hquote
  | case6 =>
    rw [stringBody]
    rfl

theorem commentEnd?_shift (starred : Bool) (text : List Char) (p : Position) :
    commentEnd? starred text (p.shift lines bytes) =
      (commentEnd? starred text p).map (Cursor.shift lines bytes) := by
  fun_induction commentEnd? starred text p with
  | case1 starred rest p ih =>
    rw [commentEnd?, Position.shift_after, Position.shift_after, ih]
  | case2 rest p =>
    rw [commentEnd?, Position.shift_after]
    rfl
  | case3 starred c rest p hfree hclose ih =>
    rw [commentEnd?, Position.shift_after, ih]
    · exact hfree
    · exact hclose
  | case4 => rw [commentEnd?]; rfl

theorem pass_shift (n : Nat) (c : Cursor) :
    pass n (c.shift lines bytes) = (pass n c).shift lines bytes := by
  have hfold : ∀ (text : List Char) (p : Position),
      text.foldl Position.after (p.shift lines bytes) =
        (text.foldl Position.after p).shift lines bytes := by
    intro text
    induction text with
    | nil => exact fun _ => rfl
    | cons c text ih =>
      intro p
      rw [List.foldl_cons, Position.shift_after, ih]
      rfl
  exact congrArg (Cursor.mk (c.rest.drop n)) (hfold _ _)

def shiftOutcome (r : Except Diagnostic (Option Token × Cursor)) :
    Except Diagnostic (Option Token × Cursor) :=
  (r.map fun x => (x.1.map (Token.relocate (Location.shift lines bytes)),
    x.2.shift lines bytes)).mapError (Diagnostic.relocate (Location.shift lines bytes))

theorem lexeme_shift (file : String) (start : Cursor) :
    lexeme file (start.shift lines bytes) = shiftOutcome lines bytes (lexeme file start) := by
  obtain ⟨text, p⟩ := start
  change lexeme file ⟨text, p.shift lines bytes⟩ = _
  unfold lexeme
  dsimp only
  split
  · rfl
  · rw [Position.shift_after]
    rfl
  · rw [Position.shift_after, stringBody_shift]
    cases stringBody p maxStringLength (p.after '"') _ (p.after '"') with
    | ok r => rfl
    | error e => rfl
  · rw [Position.shift_after, Position.shift_after, commentEnd?_shift]
    cases commentEnd? false _ ((p.after '(').after '*') with
    | some stop => rfl
    | none => rfl
  · rw [takeRun_shift, takeRun_shift, takeRun_shift]
    split
    · rfl
    split
    · rfl
    split
    · rfl
    cases punctuation? _ with
    | some kind => exact congrArg (fun next => Except.ok (some _, next)) (pass_shift lines bytes _ ⟨_, p⟩)
    | none => rfl

theorem scan_shift (file : String) (bound : Nat) (c : Cursor) :
    scan file bound (c.shift lines bytes) =
      ((scan file bound c).map fun r =>
        (r.1.map (Token.relocate (Location.shift lines bytes)), r.2.shift lines bytes)).mapError
          (Diagnostic.relocate (Location.shift lines bytes)) := by
  induction bound generalizing c with
  | zero =>
    rw [scan, Cursor.settle_shift]
    rfl
  | succ bound ih =>
    by_cases hend : c.settle.rest = []
    · have hend' : (c.shift lines bytes).settle.rest = [] := by rw [Cursor.settle_shift]; exact hend
      rw [scan_settled hend, scan_settled hend', Cursor.settle_shift]
      rfl
    · have hmore : (c.shift lines bytes).settle.rest ≠ [] := by rw [Cursor.settle_shift]; exact hend
      rw [scan_read bound hend, scan_read bound hmore, Cursor.settle_shift, lexeme_shift]
      cases lexeme file c.settle with
      | error d => rfl
      | ok r =>
        obtain ⟨token, next⟩ := r
        change (scan file bound (next.shift lines bytes)).map _ =
          (((scan file bound next).map _).map _).mapError _
        rw [ih next]
        cases scan file bound next with
        | error d => rfl
        | ok s => cases token with
          | none => rfl
          | some t => rfl

end Lexer

end MiniMl
