import MiniMl.Token.Sequence

/-! # What a token sequence reads

Newlines are stepped over, so reading is told by the other tokens alone: the next one is the first
of those ahead, and at the end it is the sentinel.
-/

def MiniMl.Token.lexeme (t : MiniMl.Token) : MiniMl.TokenKind × String := (t.kind, t.value)

namespace MiniMl.TokenSequence

variable {s : TokenSequence}

def rest (s : TokenSequence) : List Token := s.ahead.filter (!·.isNewline)

def Ended (s : TokenSequence) : Prop := s.sentinel.kind = .endOfInput

theorem filter_upcoming (ts : List Token) :
    (ts.dropWhile Token.isNewline).filter (!·.isNewline) = ts.filter (!·.isNewline) := by
  induction ts with
  | nil => rfl
  | cons t ts ih =>
    by_cases h : t.isNewline = true
    · rw [List.dropWhile_cons_of_pos h, ih, List.filter_cons_of_neg (by simp [h])]
    · rw [List.dropWhile_cons_of_neg h]

theorem upcoming_head {ts us : List Token} {t : Token}
    (h : ts.dropWhile Token.isNewline = t :: us) : t.isNewline = false := by
  have hne : ts.dropWhile Token.isNewline ≠ [] := by simp [h]
  have hnot := List.head_dropWhile_not Token.isNewline hne
  simpa [h] using hnot

theorem head?_upcoming (ts : List Token) :
    (ts.dropWhile Token.isNewline).head? = (ts.filter (!·.isNewline)).head? := by
  rw [← filter_upcoming]
  cases h : ts.dropWhile Token.isNewline with
  | nil => rfl
  | cons t us => rw [List.filter_cons_of_pos (by simp [upcoming_head h])]; rfl

theorem peek_eq (s : TokenSequence) : s.peek = s.rest.headD s.sentinel := by
  rw [peek, upcoming, List.headD_eq_head?_getD, head?_upcoming, List.headD_eq_head?_getD]
  rfl

theorem upcoming_cases (s : TokenSequence) :
    (s.upcoming = [] ∧ s.rest = []) ∨
      ∃ t us, s.upcoming = t :: us ∧ t.isNewline = false ∧
        s.ahead = s.ahead.takeWhile Token.isNewline ++ t :: us ∧
        s.rest = t :: us.filter (!·.isNewline) := by
  have hrest : s.rest = s.upcoming.filter (!·.isNewline) := (filter_upcoming s.ahead).symm
  cases h : s.upcoming with
  | nil =>
    rw [h] at hrest
    exact .inl ⟨rfl, hrest⟩
  | cons t us =>
    have ht := upcoming_head h
    rw [h, List.filter_cons_of_pos (by simp [ht])] at hrest
    refine .inr ⟨t, us, rfl, ht, ?_, hrest⟩
    rw [← h]
    exact List.takeWhile_append_dropWhile.symm

theorem peekNext_eq (s : TokenSequence) : s.peekNext = s.rest.tail.headD s.sentinel := by
  rw [peekNext]
  rcases s.upcoming_cases with ⟨h, hrest⟩ | ⟨t, us, h, -, -, hrest⟩
  · rw [h, hrest]
    rfl
  · rw [h, hrest, List.headD_eq_head?_getD, List.tail_cons, List.tail_cons, head?_upcoming,
      List.headD_eq_head?_getD]

theorem rest_advance (s : TokenSequence) : s.advance.rest = s.rest.tail := by
  unfold advance
  rcases s.upcoming_cases with ⟨h, hrest⟩ | ⟨t, us, h, -, -, hrest⟩
  · rw [h, hrest]
    exact hrest
  · rw [h, hrest]
    rfl

theorem sentinel_advance (s : TokenSequence) : s.advance.sentinel = s.sentinel := by
  unfold advance
  split
  · rfl
  · rfl

theorem peekNext_eq_advance (s : TokenSequence) : s.peekNext = s.advance.peek := by
  rw [peekNext_eq, peek_eq, rest_advance, sentinel_advance]

theorem Ended.advance (hs : s.Ended) : s.advance.Ended := by
  rw [Ended, sentinel_advance]
  exact hs

theorem rest_eq_cons (hs : s.Ended) (hk : s.peek.kind ≠ .endOfInput) :
    s.rest = s.peek :: s.advance.rest ∧ s.advance.Ended := by
  refine ⟨?_, hs.advance⟩
  rw [peek_eq] at hk ⊢
  rw [rest_advance]
  cases hrest : s.rest with
  | nil =>
    rw [hrest] at hk
    exact absurd hs hk
  | cons t ts => rfl

/-- Where no token is called the end of the input, it is read behind the last one only. -/
theorem rest_eq_nil (hend : ∀ t ∈ s.rest, t.kind ≠ .endOfInput) (hk : s.peek.kind = .endOfInput) :
    s.rest = [] := by
  rw [peek_eq] at hk
  cases hrest : s.rest with
  | nil => rfl
  | cons t ts =>
    rw [hrest] at hk hend
    exact absurd hk (hend t List.mem_cons_self)

end MiniMl.TokenSequence
