import MiniMl.Proofs.Source.Logical
import MiniMl.Token.Lexer

/-! # Loops over a reader

The readers of the lexer as loops that are driven by hand: they look at the next character, take it
or not, and one of them puts a character back. Each turn that goes on has taken a character for good,
so a loop goes on at most as often as characters are left, and what it gives is what the recursion on
the text gives.
-/

namespace MiniMl

inductive Turn (σ ρ : Type) where
  | again (state : σ)
  | done (result : ρ)

namespace Turn

variable {σ ρ α : Type}

def loop? (turn : σ → Turn σ ρ) : (limit : Nat) → σ → Option ρ
  | 0, s =>
    match turn s with
    | .again _ => none
    | .done r => some r
  | limit + 1, s =>
    match turn s with
    | .again s => loop? turn limit s
    | .done r => some r

/-- What a turn in the state `s` may come to: it goes on with a smaller state, in which the
invariant holds again and the loop will come to the same, or it ends the loop with just that. -/
inductive Proper (inv : σ → Prop) (size : σ → Nat) (value : σ → α) (result : ρ → α) (s : σ) :
    Turn σ ρ → Prop where
  | again {s' : σ} : inv s' → size s' < size s → value s' = value s →
      Proper inv size value result s (.again s')
  | done {r : ρ} : result r = value s → Proper inv size value result s (.done r)

/-- A loop of proper turns ends, and goes on no more often than the size of the state it starts
with. -/
theorem loop?_ends {turn : σ → Turn σ ρ} {inv : σ → Prop} {size : σ → Nat} {value : σ → α}
    {result : ρ → α} (h : ∀ s, inv s → Proper inv size value result s (turn s)) {s : σ} {limit : Nat}
    (hs : inv s) (hlimit : size s ≤ limit) :
    ∃ r, loop? turn limit s = some r ∧ result r = value s := by
  induction limit generalizing s with
  | zero =>
    have hturn := h s hs
    rw [loop?]
    generalize turn s = t at hturn
    cases hturn with
    | again _ hless _ => omega
    | done hresult => exact ⟨_, rfl, hresult⟩
  | succ limit ih =>
    have hturn := h s hs
    rw [loop?]
    generalize turn s = t at hturn
    cases hturn with
    | again hs' hless hvalue =>
      obtain ⟨r, hr, hresult⟩ := ih hs' (by omega)
      exact ⟨r, hr, hresult.trans hvalue⟩
    | done hresult => exact ⟨_, rfl, hresult⟩

end Turn

namespace Reader

theorem peek_eq (r : Reader) :
    r.peek = (r.cursor.next?.map (·.1), ⟨r.cursor.settle, r.previous⟩) := by
  rw [peek, Cursor.next?]
  cases r.cursor.settle with
  | mk text p => cases text <;> rfl

def takeTurn (accept : Char → Bool) :
    List Char × Reader → Turn (List Char × Reader) (List Char × Reader)
  | (run, r) =>
    match r.peek with
    | (some c, r) => if accept c then .again (run ++ [c], r.next.2) else .done (run, r)
    | (none, r) => .done (run, r)

def stringTurn (opening : Position) :
    List Char × Reader →
      Turn (List Char × Reader) (Except (Problem × Position) (List Char × Reader))
  | (body, r) =>
    match r.next with
    | (none, _) => .done (.error (.unterminatedString, opening))
    | (some c, next) =>
      if c = '"' then .done (.ok (body, next))
      else if body.length + 1 > Lexer.maxStringLength then
        .done (.error (.stringTooLong Lexer.maxStringLength, r.cursor.position))
      else .again (body ++ [c], next)

/-- Takes a character of a comment, and one more behind a star, which is put back unless it closes
the comment. -/
def commentTurn (r : Reader) : Turn Reader (Option Reader) :=
  match r.next with
  | (none, _) => .done none
  | (some c, r) =>
    if c = '*' then
      match r.next with
      | (none, _) => .done none
      | (some d, r) => if d = ')' then .done (some r) else .again r.putBack
    else .again r

def left (r : Reader) : Nat := r.cursor.rest.length

variable {accept : Char → Bool} {run body : List Char} {r : Reader}

theorem takeTurn_eq (accept : Char → Bool) (run : List Char) (r : Reader) :
    takeTurn accept (run, r) =
      match r.cursor.next? with
      | none => .done (run, ⟨r.cursor.settle, r.previous⟩)
      | some (c, d) =>
        if accept c then .again (run ++ [c], ⟨d, some r.cursor.settle⟩)
        else .done (run, ⟨r.cursor.settle, r.previous⟩) := by
  rw [takeTurn, peek_eq]
  cases hnext : r.cursor.next? with
  | none => rfl
  | some step =>
    have hbehind : next ⟨r.cursor.settle, r.previous⟩ =
        (some step.1, ⟨step.2, some r.cursor.settle⟩) := by
      rw [next, Cursor.next?_settle, hnext]
    dsimp only [Option.map_some]
    rw [hbehind]

theorem stringTurn_eq (opening : Position) (body : List Char) (r : Reader) :
    stringTurn opening (body, r) =
      match r.cursor.next? with
      | none => .done (.error (.unterminatedString, opening))
      | some (c, d) =>
        if c = '"' then .done (.ok (body, ⟨d, some r.cursor⟩))
        else if body.length + 1 > Lexer.maxStringLength then
          .done (.error (.stringTooLong Lexer.maxStringLength, r.cursor.position))
        else .again (body ++ [c], ⟨d, some r.cursor⟩) := by
  rw [stringTurn, next]
  cases r.cursor.next? with
  | none => rfl
  | some step => rfl

theorem commentTurn_eq (r : Reader) :
    r.commentTurn =
      match r.cursor.next? with
      | none => .done none
      | some (c, d) =>
        if c = '*' then
          match d.next? with
          | none => .done none
          | some (e, f) => if e = ')' then .done (some ⟨f, some d⟩) else .again ⟨d, none⟩
        else .again ⟨d, some r.cursor⟩ := by
  rw [commentTurn, next]
  cases r.cursor.next? with
  | none => rfl
  | some step =>
    dsimp only
    rw [next]
    cases step.2.next? with
    | none => rfl
    | some step => rfl

end Reader

namespace Lexer

theorem takeRun_next (accept : Char → Bool) (c : Cursor) :
    takeRun accept c.rest c.position =
      match c.next? with
      | none => ([], c.settle)
      | some (x, d) =>
        if accept x then
          (x :: (takeRun accept d.rest d.position).1, (takeRun accept d.rest d.position).2)
        else ([], c.settle) := by
  rw [← c.settle_unseen (takeRun accept) fun rest p => by rw [takeRun]]
  have hsettled := c.settled
  generalize c.settle = start, c.next? = next at hsettled ⊢
  cases hsettled with
  | ended => rw [takeRun]
  | ahead hopen =>
    rw [takeRun]
    exact free_of_not_continued hopen

theorem stringBody_next (opening last : Position) (room : Nat) (c : Cursor) :
    stringBody opening room last c.rest c.position =
      match c.next? with
      | none => .error (.unterminatedString, opening)
      | some (x, d) =>
        if x = '"' then .ok ([], d)
        else if room = 0 then .error (.stringTooLong maxStringLength, last)
        else (stringBody opening (room - 1) d.position d.rest d.position).map
          fun read => (x :: read.1, read.2) := by
  rw [← c.settle_unseen (stringBody opening room last) fun rest p => by rw [stringBody]]
  have hsettled := c.settled
  generalize c.settle = start, c.next? = next at hsettled ⊢
  cases hsettled with
  | ended => rw [stringBody]
  | @ahead x text p hopen =>
    by_cases hquote : x = '"'
    · subst hquote
      rw [stringBody]
      rfl
    · dsimp only
      rw [if_neg hquote]
      cases room with
      | zero =>
        rw [stringBody, if_pos rfl]
        · exact free_of_not_continued hopen
        · exact hquote
      | succ room =>
        rw [stringBody, if_neg (Nat.succ_ne_zero room), Nat.succ_sub_one]
        · cases stringBody opening room (p.after x) text (p.after x) with
          | ok read => rfl
          | error e => rfl
        · exact free_of_not_continued hopen
        · exact hquote

theorem commentEnd?_next (starred : Bool) (c : Cursor) :
    commentEnd? starred c.rest c.position =
      match c.next? with
      | none => none
      | some (x, d) =>
        if starred ∧ x = ')' then some d else commentEnd? (x == '*') d.rest d.position := by
  rw [← c.settle_unseen (commentEnd? starred) fun rest p => by rw [commentEnd?]]
  have hsettled := c.settled
  generalize c.settle = start, c.next? = next at hsettled ⊢
  cases hsettled with
  | ended => rw [commentEnd?]
  | @ahead x text p hopen =>
    by_cases hclose : starred = true ∧ x = ')'
    · obtain ⟨rfl, rfl⟩ := hclose
      rw [commentEnd?]
      rfl
    · rw [commentEnd?]
      · exact (if_neg hclose).symm
      · exact free_of_not_continued hopen
      · intro hstarred hx
        exact hclose ⟨hstarred, hx⟩

theorem commentEnd?_plain (c : Cursor) :
    commentEnd? false c.rest c.position =
      match c.next? with
      | none => none
      | some (x, d) => commentEnd? (x == '*') d.rest d.position := by
  rw [commentEnd?_next]
  cases c.next? with
  | none => rfl
  | some step => exact if_neg fun h => Bool.noConfusion h.1

end Lexer

namespace Reader

theorem takeTurn_proper (accept : Char → Bool) (s : List Char × Reader) :
    Turn.Proper (fun _ => True) (fun s => s.2.left)
      (fun s => (s.1 ++ (Lexer.takeRun accept s.2.cursor.rest s.2.cursor.position).1,
        (Lexer.takeRun accept s.2.cursor.rest s.2.cursor.position).2))
      (fun s => (s.1, s.2.cursor)) s (takeTurn accept s) := by
  obtain ⟨run, r⟩ := s
  have hread := Lexer.takeRun_next accept r.cursor
  rw [takeTurn_eq]
  cases hnext : r.cursor.next? with
  | none =>
    rw [hnext] at hread
    apply Turn.Proper.done
    simp [hread]
  | some step =>
    obtain ⟨c, d⟩ := step
    rw [hnext] at hread
    dsimp only at hread ⊢
    by_cases hc : accept c
    · rw [if_pos hc] at hread ⊢
      refine .again trivial (Cursor.next?_shorter hnext) ?_
      simp [hread]
    · rw [if_neg hc] at hread ⊢
      apply Turn.Proper.done
      simp [hread]

theorem stringTurn_proper (opening : Position) (s : List Char × Reader) :
    Turn.Proper (fun _ => True) (fun s => s.2.left)
      (fun s => (Lexer.stringBody opening (Lexer.maxStringLength - s.1.length) s.2.cursor.position
        s.2.cursor.rest s.2.cursor.position).map fun read => (s.1 ++ read.1, read.2))
      (fun e => e.map fun s => (s.1, s.2.cursor)) s (stringTurn opening s) := by
  obtain ⟨body, r⟩ := s
  have hread := Lexer.stringBody_next opening r.cursor.position
    (Lexer.maxStringLength - body.length) r.cursor
  rw [stringTurn_eq]
  cases hnext : r.cursor.next? with
  | none =>
    rw [hnext] at hread
    apply Turn.Proper.done
    rw [hread]
    rfl
  | some step =>
    obtain ⟨c, d⟩ := step
    rw [hnext] at hread
    dsimp only at hread ⊢
    by_cases hquote : c = '"'
    · rw [if_pos hquote] at hread ⊢
      apply Turn.Proper.done
      simp [hread, Except.map]
    rw [if_neg hquote] at hread ⊢
    by_cases hlong : body.length + 1 > Lexer.maxStringLength
    · rw [if_pos (by omega)] at hread
      rw [if_pos hlong]
      apply Turn.Proper.done
      rw [hread]
      rfl
    · rw [if_neg (by omega)] at hread
      rw [if_neg hlong]
      refine .again trivial (Cursor.next?_shorter hnext) ?_
      dsimp only
      rw [hread, List.length_append, List.length_singleton, Nat.sub_add_eq]
      cases Lexer.stringBody opening (Lexer.maxStringLength - body.length - 1) d.position d.rest
        d.position with
      | ok read => simp [Except.map]
      | error e => rfl

theorem commentTurn_proper (r : Reader) :
    Turn.Proper (fun _ => True) left
      (fun r => Lexer.commentEnd? false r.cursor.rest r.cursor.position)
      (fun e => e.map (·.cursor)) r r.commentTurn := by
  have hread := Lexer.commentEnd?_plain r.cursor
  rw [commentTurn_eq]
  cases hnext : r.cursor.next? with
  | none =>
    rw [hnext] at hread
    exact .done hread.symm
  | some step =>
    obtain ⟨c, d⟩ := step
    rw [hnext] at hread
    dsimp only at hread ⊢
    have hless := Cursor.next?_shorter hnext
    by_cases hstar : c = '*'
    · subst hstar
      rw [beq_self_eq_true, Lexer.commentEnd?_next true d] at hread
      rw [if_pos rfl]
      cases hsecond : d.next? with
      | none =>
        rw [hsecond] at hread
        exact .done hread.symm
      | some step =>
        obtain ⟨e, f⟩ := step
        rw [hsecond] at hread
        dsimp only at hread ⊢
        by_cases hclose : e = ')'
        · rw [if_pos ⟨rfl, hclose⟩] at hread
          rw [if_pos hclose]
          exact .done hread.symm
        · rw [if_neg fun h => hclose h.2] at hread
          rw [if_neg hclose]
          refine .again trivial hless ?_
          dsimp only
          rw [hread, Lexer.commentEnd?_plain, hsecond]
    · rw [beq_false_of_ne hstar] at hread
      rw [if_neg hstar]
      exact .again trivial hless hread.symm

end Reader

end MiniMl
