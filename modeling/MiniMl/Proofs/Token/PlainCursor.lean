import Mathlib.Data.List.Basic
import MiniMl.Proofs.Token.Sequence

/-! # Reading without newlines

To its users a token sequence is a number: how many tokens were read of those that are no newlines,
with the reads behind the last one counted too. Whatever is asked of the sequence, and in whatever
order, a plain cursor gives the same answers.
-/

namespace MiniMl

/-- Tokens read by their index. Behind the last one the sentinel is read. -/
structure PlainCursor where
  tokens : List Token
  sentinel : Token
  index : Nat
deriving DecidableEq, Repr

namespace PlainCursor

def ofList (tokens : List Token) (file : String) : PlainCursor :=
  ⟨tokens, ⟨.endOfInput, "EOF", (tokens.getLast?.map (·.location)).getD (.start file)⟩, 0⟩

def peek (c : PlainCursor) : Token := c.tokens[c.index]?.getD c.sentinel

def peekNext (c : PlainCursor) : Token := c.tokens[c.index + 1]?.getD c.sentinel

def advance (c : PlainCursor) : PlainCursor := { c with index := c.index + 1 }

def putBack (c : PlainCursor) : PlainCursor := { c with index := c.index - 1 }

def tryConsume (c : PlainCursor) (kind : TokenKind) : Option Token × PlainCursor :=
  if c.peek.kind = kind then (some c.peek, c.advance) else (none, c)

def expect (c : PlainCursor) (kind : TokenKind) : Except Diagnostic (Token × PlainCursor) :=
  if c.peek.kind = kind then .ok (c.peek, c.advance)
  else if c.peek.kind = .endOfInput then .error ⟨.prematureEnd, c.peek.location⟩
  else .error ⟨.unexpectedToken kind.text c.peek.display, c.peek.location⟩

end PlainCursor

/-- What can be done with a cursor; `Mark` are the positions it can be reset to. -/
structure CursorOps (Cursor Mark : Type) where
  peek : Cursor → Token
  peekNext : Cursor → Token
  next : Cursor → Token × Cursor
  putBack : Cursor → Cursor
  test : Cursor → TokenKind → Bool
  tryConsume : Cursor → TokenKind → Option Token × Cursor
  expect : Cursor → TokenKind → Except Diagnostic (Token × Cursor)
  atEnd : Cursor → Bool
  mark : Cursor → Mark
  resetTo : Cursor → Mark → Cursor

def TokenSequence.ops : CursorOps TokenSequence Checkpoint where
  peek := peek
  peekNext := peekNext
  next := next
  putBack := putBack
  test := test
  tryConsume := tryConsume
  expect := expect
  atEnd := atEnd
  mark := mark
  resetTo := resetTo

def PlainCursor.ops : CursorOps PlainCursor Nat where
  peek := peek
  peekNext := peekNext
  next c := (c.peek, c.advance)
  putBack := putBack
  test c kind := c.peek.kind = kind
  tryConsume := tryConsume
  expect := expect
  atEnd c := c.peek.kind = .endOfInput
  mark c := c.index
  resetTo c i := { c with index := i }

/-- Something asked of a cursor. Marks are named by the order in which they were taken. -/
inductive CursorStep where
  | peek | peekNext | next | putBack
  | test (kind : TokenKind)
  | tryConsume (kind : TokenKind)
  | expect (kind : TokenKind)
  | atEnd | mark
  | resetTo (mark : Nat)
deriving DecidableEq, Repr

inductive CursorAnswer where
  | token (t : Token)
  | taken (t : Option Token)
  | flag (holds : Bool)
  | refused (d : Diagnostic)
  | done
deriving DecidableEq, Repr

structure CursorUse (Cursor Mark : Type) where
  cursor : Cursor
  marks : List Mark

namespace CursorUse

variable {Cursor Mark : Type}

def start (cursor : Cursor) : CursorUse Cursor Mark := ⟨cursor, []⟩

def step (ops : CursorOps Cursor Mark) (u : CursorUse Cursor Mark) :
    CursorStep → CursorAnswer × CursorUse Cursor Mark
  | .peek => (.token (ops.peek u.cursor), u)
  | .peekNext => (.token (ops.peekNext u.cursor), u)
  | .next => (.token (ops.next u.cursor).1, { u with cursor := (ops.next u.cursor).2 })
  | .putBack => (.done, { u with cursor := ops.putBack u.cursor })
  | .test kind => (.flag (ops.test u.cursor kind), u)
  | .tryConsume kind =>
    (.taken (ops.tryConsume u.cursor kind).1,
      { u with cursor := (ops.tryConsume u.cursor kind).2 })
  | .expect kind =>
    match ops.expect u.cursor kind with
    | .ok (t, cursor) => (.token t, { u with cursor })
    | .error d => (.refused d, u)
  | .atEnd => (.flag (ops.atEnd u.cursor), u)
  | .mark => (.done, { u with marks := u.marks ++ [ops.mark u.cursor] })
  | .resetTo n =>
    match u.marks[n]? with
    | some m => (.done, { u with cursor := ops.resetTo u.cursor m })
    | none => (.done, u)

def run (ops : CursorOps Cursor Mark) (u : CursorUse Cursor Mark) :
    List CursorStep → List CursorAnswer × CursorUse Cursor Mark
  | [] => ([], u)
  | o :: os =>
    let (answer, v) := u.step ops o
    let (answers, w) := v.run ops os
    (answer :: answers, w)

end CursorUse

namespace TokenSequence

variable {s u : TokenSequence}

/-- The cursor stands at the start or right behind a token that is no newline, and it has read the
sentinel only if there was nothing else to read. -/
structure Settled (s : TokenSequence) : Prop where
  behind : ∀ t ∈ s.behind.head?, t.isNewline = false
  overrun : 0 < s.overrun → s.rest = []

/-- How many tokens were read, the sentinel as often as it was. -/
def passed (behind : List Token) (overrun : Nat) : Nat :=
  (behind.filter (!·.isNewline)).length + overrun

/-- The sequence as its users see it. -/
def plain (s : TokenSequence) : PlainCursor :=
  ⟨s.toList.filter (!·.isNewline), s.sentinel, passed s.behind s.overrun⟩

theorem passed_cons {t : Token} (ht : t.isNewline = false) (behind : List Token) (n : Nat) :
    passed (t :: behind) n = passed behind n + 1 := by
  rw [passed, List.filter_cons_of_pos (by simp [ht]), List.length_cons, passed]
  omega

theorem passed_newlines {ns : List Token} (hns : ∀ t ∈ ns, t.isNewline = true)
    (behind : List Token) (n : Nat) : passed (ns ++ behind) n = passed behind n := by
  have hnone : ns.filter (!·.isNewline) = [] := List.filter_eq_nil_iff.mpr (by simpa using hns)
  rw [passed, List.filter_append, hnone, List.nil_append, passed]

theorem newlines_first (ts : List Token) : ∀ t ∈ ts.takeWhile Token.isNewline, t.isNewline = true :=
  List.all_eq_true.mp List.all_takeWhile

theorem newlines_before (ns ts : List Token) (hns : ∀ t ∈ ns, t.isNewline = true)
    (hts : ∀ t ∈ ts.head?, t.isNewline = false) :
    (ns ++ ts).takeWhile Token.isNewline = ns ∧ (ns ++ ts).dropWhile Token.isNewline = ts := by
  rw [List.takeWhile_append_of_pos hns, List.dropWhile_append_of_pos hns]
  cases ts with
  | nil => simp
  | cons t ts => simp [hts t rfl]

theorem Settled.plain_getElem? (h : s.Settled) (n : Nat) :
    s.plain.tokens[s.plain.index + n]? = s.rest[n]? := by
  have htokens : s.plain.tokens = (s.behind.filter (!·.isNewline)).reverse ++ s.rest := by
    simp only [plain, toList, rest, List.filter_append, List.filter_reverse]
  have hindex : s.plain.index = (s.behind.filter (!·.isNewline)).reverse.length + s.overrun := by
    rw [List.length_reverse]
    rfl
  rw [htokens, hindex, Nat.add_assoc, List.getElem?_append_right (Nat.le_add_right _ _),
    Nat.add_sub_cancel_left]
  rcases Nat.eq_zero_or_pos s.overrun with hzero | hpos
  · rw [hzero, Nat.zero_add]
  · rw [h.overrun hpos, List.getElem?_nil, List.getElem?_nil]

theorem Settled.plain_peek (h : s.Settled) : s.plain.peek = s.peek := by
  have hnext := h.plain_getElem? 0
  rw [Nat.add_zero] at hnext
  rw [PlainCursor.peek, hnext, peek_eq, List.headD_eq_head?_getD, List.head?_eq_getElem?]
  rfl

theorem Settled.plain_peekNext (h : s.Settled) : s.plain.peekNext = s.peekNext := by
  rw [PlainCursor.peekNext, h.plain_getElem? 1, peekNext_eq, List.headD_eq_head?_getD,
    List.head?_tail]
  rfl

structure Along (s u : TokenSequence) : Prop where
  settled : u.Settled
  tokens : u.toList = s.toList
  sentinel : u.sentinel = s.sentinel

theorem Along.refl (h : s.Settled) : s.Along s := ⟨h, rfl, rfl⟩

theorem Along.plain (h : s.Along u) :
    u.plain = { s.plain with index := passed u.behind u.overrun } := by
  simp only [TokenSequence.plain, h.tokens, h.sentinel]

/-- A read passes the newlines and the token behind them, or it counts a read of the sentinel. -/
theorem Settled.advance_cases (h : s.Settled) :
    (s.rest = [] ∧ s.upcoming = [] ∧ s.advance = { s with overrun := s.overrun + 1 }) ∨
      ∃ ns t us, (∀ n ∈ ns, n.isNewline = true) ∧ t.isNewline = false ∧ s.overrun = 0 ∧
        s.ahead = ns ++ t :: us ∧
        s.advance = { s with behind := t :: (ns.reverse ++ s.behind), ahead := us } := by
  unfold TokenSequence.advance
  rcases s.upcoming_cases with ⟨hend, hrest⟩ | ⟨t, us, hnext, ht, hahead, hrest⟩
  · rw [hend]
    exact .inl ⟨hrest, rfl, rfl⟩
  · rw [hnext]
    refine .inr ⟨_, t, us, newlines_first s.ahead, ht, ?_, hahead, rfl⟩
    by_contra hne
    rw [h.overrun (Nat.pos_of_ne_zero hne)] at hrest
    cases hrest

/-- Undoing a read takes back a read of the sentinel or else a token with the newlines before it;
at the start there is nothing to undo. -/
theorem Settled.putBack_cases (h : s.Settled) :
    (∃ n, s.overrun = n + 1 ∧ s.putBack = { s with overrun := n }) ∨
      (s.overrun = 0 ∧ s.behind = [] ∧ s.putBack = s) ∨
      ∃ t ns bs, (∀ n ∈ ns, n.isNewline = true) ∧ t.isNewline = false ∧
        (∀ b ∈ bs.head?, b.isNewline = false) ∧ s.overrun = 0 ∧ s.behind = t :: (ns ++ bs) ∧
        s.putBack = { s with behind := bs, ahead := ns.reverse ++ t :: s.ahead } := by
  unfold TokenSequence.putBack
  cases ho : s.overrun with
  | succ n => exact .inl ⟨n, rfl, rfl⟩
  | zero =>
    cases hb : s.behind with
    | nil => exact .inr (.inl ⟨rfl, rfl, rfl⟩)
    | cons t rest =>
      refine .inr (.inr ⟨t, _, _, newlines_first rest, h.behind t (by simp [hb]), ?_, rfl, ?_, rfl⟩)
      · intro b hmem
        exact upcoming_head (List.head?_eq_some_iff.mp hmem).choose_spec
      · rw [List.takeWhile_append_dropWhile]

theorem Settled.advance (h : s.Settled) : s.Along s.advance := by
  rcases h.advance_cases with ⟨hrest, -, hrun⟩ | ⟨ns, t, us, -, ht, hzero, hahead, hrun⟩
  · rw [hrun]
    exact ⟨⟨h.behind, fun _ => hrest⟩, rfl, rfl⟩
  · rw [hrun]
    refine ⟨⟨by simp [ht], by simp [hzero]⟩, ?_, rfl⟩
    rw [toList, toList, hahead]
    simp

theorem Settled.plain_advance (h : s.Settled) : s.advance.plain = s.plain.advance := by
  rw [h.advance.plain, PlainCursor.advance]
  rcases h.advance_cases with ⟨-, -, hrun⟩ | ⟨ns, t, us, hns, ht, -, -, hrun⟩
  · rw [hrun]
    rfl
  · rw [hrun, passed_cons ht, passed_newlines (by simpa using hns)]
    rfl

theorem Settled.putBack (h : s.Settled) : s.Along s.putBack := by
  rcases h.putBack_cases with
    ⟨n, ho, hrun⟩ | ⟨-, -, hrun⟩ | ⟨t, ns, bs, -, -, hbs, hzero, hbehind, hrun⟩
  · rw [hrun]
    exact ⟨⟨h.behind, fun _ => h.overrun (by omega)⟩, rfl, rfl⟩
  · rw [hrun]
    exact .refl h
  · rw [hrun]
    refine ⟨⟨hbs, by simp [hzero]⟩, ?_, rfl⟩
    rw [toList, toList, hbehind]
    simp

theorem Settled.plain_putBack (h : s.Settled) : s.putBack.plain = s.plain.putBack := by
  rw [h.putBack.plain, PlainCursor.putBack]
  rcases h.putBack_cases with
    ⟨n, ho, hrun⟩ | ⟨ho, hb, hrun⟩ | ⟨t, ns, bs, hns, ht, -, ho, hb, hrun⟩
  · rw [hrun, plain, ho]
    rfl
  · rw [hrun, plain, ho, hb]
    rfl
  · rw [hrun, plain, hb, passed_cons ht, passed_newlines hns]
    rfl

theorem Settled.advance_putBack (h : s.Settled) : s.advance.putBack = s := by
  rcases h.advance_cases with ⟨-, -, hrun⟩ | ⟨ns, t, us, hns, ht, hzero, hahead, hrun⟩
  · rw [hrun]
    rfl
  · obtain ⟨htake, hdrop⟩ := newlines_before ns.reverse s.behind (by simpa using hns) h.behind
    rw [hrun, TokenSequence.putBack, hzero]
    dsimp only
    rw [htake, hdrop, List.reverse_reverse, ← hahead]
    cases s
    cases hzero
    rfl

theorem Settled.putBack_advance (h : s.Settled) (hstart : s.plain.index ≠ 0) :
    s.putBack.advance = s := by
  rcases h.putBack_cases with
    ⟨n, ho, hrun⟩ | ⟨ho, hb, -⟩ | ⟨t, ns, bs, hns, ht, -, ho, hb, hrun⟩
  · have hrest := h.overrun (by omega)
    rcases s.upcoming_cases with ⟨hend, -⟩ | ⟨_, _, _, _, _, hne⟩
    · have hend : s.putBack.upcoming = [] := by
        rw [hrun]
        exact hend
      rw [TokenSequence.advance, hend, hrun, ← ho]
    · rw [hne] at hrest
      cases hrest
  · rw [plain, ho, hb] at hstart
    exact absurd rfl hstart
  · obtain ⟨htake, hdrop⟩ := newlines_before ns.reverse (t :: s.ahead)
      (by simpa using hns) (by simpa using ht)
    rw [hrun, TokenSequence.advance, upcoming, hdrop]
    dsimp only
    rw [htake, List.reverse_reverse, ← hb]

theorem ofList_settled (tokens : List Token) (file : String) : (ofList tokens file).Settled :=
  ⟨by simp [ofList], by simp [ofList]⟩

theorem plain_ofList (tokens : List Token) (file : String) :
    (ofList tokens file).plain = .ofList (tokens.filter (!·.isNewline)) file := by
  rw [PlainCursor.ofList, List.getLast?_filter]
  rfl

end TokenSequence

namespace CursorUse

open TokenSequence

variable {u : CursorUse TokenSequence Checkpoint}

/-- Every cursor position in use is a settled one among the same tokens. -/
structure Sound (u : CursorUse TokenSequence Checkpoint) : Prop where
  settled : u.cursor.Settled
  marks : ∀ c ∈ u.marks, u.cursor.Along (u.cursor.resetTo c)

def plain (u : CursorUse TokenSequence Checkpoint) : CursorUse PlainCursor Nat :=
  ⟨u.cursor.plain, u.marks.map fun c => passed c.behind c.overrun⟩

structure Agrees (a : CursorAnswer × CursorUse TokenSequence Checkpoint)
    (b : CursorAnswer × CursorUse PlainCursor Nat) : Prop where
  answer : a.1 = b.1
  plain : a.2.plain = b.2
  sound : a.2.Sound

theorem Sound.stay (h : u.Sound) {a b : CursorAnswer} (hab : a = b) : Agrees (a, u) (b, u.plain) :=
  ⟨hab, rfl, h⟩

theorem Sound.move (h : u.Sound) {s : TokenSequence} (hs : u.cursor.Along s) :
    Sound { u with cursor := s } := by
  refine ⟨hs.settled, fun c hc => ?_⟩
  have hmark := h.marks c hc
  -- A reset keeps the sentinel only, and that is the same one.
  have hreset : s.resetTo c = u.cursor.resetTo c := by
    simp only [resetTo, hs.sentinel]
  change s.Along (s.resetTo c)
  rw [hreset]
  exact ⟨hmark.settled, hmark.tokens.trans hs.tokens.symm, hs.sentinel.symm⟩

theorem Sound.moved (h : u.Sound) {s : TokenSequence} {c : PlainCursor} {a b : CursorAnswer}
    (hs : u.cursor.Along s) (hc : s.plain = c) (hab : a = b) :
    Agrees (a, { u with cursor := s }) (b, { u.plain with cursor := c }) := by
  refine ⟨hab, ?_, h.move hs⟩
  rw [plain, hc]
  rfl

theorem Sound.peek_kind (h : u.Sound) (kind : TokenKind) :
    u.cursor.test kind = decide (u.plain.cursor.peek.kind = kind) := by
  change _ = decide (u.cursor.plain.peek.kind = kind)
  rw [h.settled.plain_peek]
  rfl

theorem Sound.step (h : u.Sound) (o : CursorStep) :
    Agrees (u.step TokenSequence.ops o) (u.plain.step PlainCursor.ops o) := by
  have hs := h.settled
  have hpeek : u.plain.cursor.peek = u.cursor.peek := hs.plain_peek
  have hadvance : u.cursor.advance.plain = u.plain.cursor.advance := hs.plain_advance
  cases o with
  | peek => exact h.stay (congrArg CursorAnswer.token hpeek.symm)
  | peekNext => exact h.stay (congrArg CursorAnswer.token hs.plain_peekNext.symm)
  | next => exact h.moved hs.advance hadvance (congrArg CursorAnswer.token hpeek.symm)
  | putBack => exact h.moved hs.putBack hs.plain_putBack rfl
  | test kind => exact h.stay (congrArg CursorAnswer.flag (h.peek_kind kind))
  | atEnd => exact h.stay (congrArg CursorAnswer.flag (h.peek_kind .endOfInput))
  | tryConsume kind =>
    have hkind := h.peek_kind kind
    simp only [CursorUse.step, TokenSequence.ops, PlainCursor.ops, TokenSequence.tryConsume,
      PlainCursor.tryConsume, hkind, decide_eq_true_eq]
    by_cases hk : u.plain.cursor.peek.kind = kind
    · rw [if_pos hk, if_pos hk, hpeek]
      exact h.moved hs.advance hadvance rfl
    · rw [if_neg hk, if_neg hk]
      exact h.stay rfl
  | expect kind =>
    have hkind := h.peek_kind kind
    have hend := h.peek_kind .endOfInput
    simp only [CursorUse.step, TokenSequence.ops, PlainCursor.ops, TokenSequence.expect,
      PlainCursor.expect, TokenSequence.mismatch, hkind, hend, decide_eq_true_eq]
    by_cases hk : u.plain.cursor.peek.kind = kind
    · rw [if_pos hk, if_pos hk]
      exact h.moved hs.advance hadvance (congrArg CursorAnswer.token hpeek.symm)
    · rw [if_neg hk, if_neg hk, hpeek]
      by_cases he : u.cursor.peek.kind = .endOfInput
      · rw [if_pos he, if_pos he]
        exact h.stay rfl
      · rw [if_neg he, if_neg he]
        exact h.stay rfl
  | mark =>
    refine ⟨rfl, ?_, hs, ?_⟩
    · simp [CursorUse.step, plain, TokenSequence.ops, PlainCursor.ops, TokenSequence.mark,
        TokenSequence.plain]
    · intro c hc
      rcases List.mem_append.mp hc with hc | hc
      · exact h.marks c hc
      · obtain rfl := List.mem_singleton.mp hc
        exact .refl hs
  | resetTo n =>
    have hmark : u.plain.marks[n]? = u.marks[n]?.map fun c => passed c.behind c.overrun :=
      List.getElem?_map
    simp only [CursorUse.step, hmark]
    cases hn : u.marks[n]? with
    | none => exact h.stay rfl
    | some c =>
      have hc := h.marks c (List.mem_of_getElem? hn)
      exact h.moved hc hc.plain rfl

theorem Sound.run (h : u.Sound) (os : List CursorStep) :
    (u.run TokenSequence.ops os).1 = (u.plain.run PlainCursor.ops os).1 ∧
      (u.run TokenSequence.ops os).2.plain = (u.plain.run PlainCursor.ops os).2 ∧
      (u.run TokenSequence.ops os).2.Sound := by
  induction os generalizing u with
  | nil => exact ⟨rfl, rfl, h⟩
  | cons o os ih =>
    have hstep := h.step o
    obtain ⟨hanswers, hplain, hsound⟩ := ih hstep.sound
    rw [hstep.plain] at hanswers hplain
    exact ⟨congrArg₂ List.cons hstep.answer hanswers, hplain, hsound⟩

end CursorUse

/-- Whatever is asked of a token sequence, it answers like a number over its tokens that are no
newlines. Wherever that leads, a read can be undone, and unless that is the start, an undone read
can be done again; the very state is restored. -/
theorem sequence_refines_plainCursor (tokens : List Token) (file : String)
    (steps : List CursorStep) :
    let used := (CursorUse.start (TokenSequence.ofList tokens file)).run TokenSequence.ops steps
    let plain := (CursorUse.start (PlainCursor.ofList (tokens.filter (!·.isNewline)) file)).run
      PlainCursor.ops steps
    used.1 = plain.1 ∧ used.2.cursor.advance.putBack = used.2.cursor ∧
      (plain.2.cursor.index ≠ 0 → used.2.cursor.putBack.advance = used.2.cursor) := by
  intro used plain
  have hstart : (CursorUse.start (TokenSequence.ofList tokens file)).Sound :=
    ⟨TokenSequence.ofList_settled tokens file, fun c hc => by cases hc⟩
  obtain ⟨hanswers, hplain, hsound⟩ := hstart.run steps
  have hsame : (CursorUse.start (TokenSequence.ofList tokens file)).plain =
      CursorUse.start (PlainCursor.ofList (tokens.filter (!·.isNewline)) file) := by
    rw [← TokenSequence.plain_ofList]
    rfl
  rw [hsame] at hanswers hplain
  refine ⟨hanswers, hsound.settled.advance_putBack, fun hindex => ?_⟩
  apply hsound.settled.putBack_advance
  change used.2.plain.cursor.index ≠ 0
  rw [hplain]
  exact hindex

end MiniMl
