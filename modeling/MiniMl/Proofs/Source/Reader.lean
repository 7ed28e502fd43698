import MiniMl.Proofs.Token.Continuations
import MiniMl.Proofs.Token.Locations

/-! # A reader that is driven by hand

Whatever a reader is asked for, and in whatever order, it stands between two characters of its source
and never within a continuation, and its position is that of the text before it. The characters that
are taken are those of the logical text in their order. One that is put back was never taken: the
reader is where it was before, in front of the continuations that it had passed.
-/

namespace MiniMl

theorem gap_last {gap : List Char} (h : logical gap = []) : gap.getLast? ≠ some '\\' := by
  fun_induction logical gap with
  | case1 rest ih =>
    intro hlast
    cases rest with
    | nil => simp at hlast
    | cons c rest => exact ih h (by simpa using hlast)
  | case2 => cases h
  | case3 => simp

/-- The position is that of what stands behind the text `before`, with which the source begins. -/
structure Position.Exact (p : Position) (source : String) (before : List Char) : Prop where
  boundary : String.Pos.Raw.IsValid source ⟨p.offset⟩
  offset : p.offset = utf8Length before
  line : p.line = 1 + before.count '\n'
  column : p.column = 1 + (lastLine before).length
  lineBegin : p.lineBegin = utf8Length (earlierLines before)
  fits : LinesFit source → p.line < 2 ^ 32 ∧ p.column < 2 ^ 32

theorem Position.exact_behind {source : String} {before after : List Char}
    (h : source.toList = before ++ after) :
    (Position.start.behind before).Exact source before := by
  rw [behind_start]
  refine ⟨?_, rfl, rfl, rfl, rfl, fun hfit => hfit.behind h⟩
  rw [String.Pos.Raw.isValid_iff_exists_append]
  refine ⟨String.ofList before, String.ofList after, ?_, ?_⟩
  · rw [← String.ofList_append, ← h, String.ofList_toList]
  · rw [String.Pos.Raw.ext_iff, String.byteIdx_rawEndPos, ← utf8Length_toList, String.toList_ofList]

namespace Cursor

/-- The cursor stands behind `before`, and no continuation of the text is cut in two there. -/
structure Stands (text before : List Char) (c : Cursor) : Prop where
  passes : (ofText text).Passes before c
  uncut : before.getLast? = some '\\' → c.rest.head? ≠ some '\n'

namespace Stands

variable {text before raw : List Char} {c d : Cursor} {x : Char}

theorem ofText (text : List Char) : (Cursor.ofText text).Stands text [] :=
  ⟨.refl _, fun h => by cases h⟩

theorem logical (h : c.Stands text before) :
    MiniMl.logical text = MiniMl.logical before ++ c.unread := by
  have htext : text = before ++ c.rest := h.passes.rest
  rw [htext, logical_append h.uncut]
  rfl

theorem settle (h : c.Stands text before) : ∃ gap, c.settle.Stands text (before ++ gap) := by
  obtain ⟨gap, hgap, hpass, -⟩ := c.settle_passes
  refine ⟨gap, h.passes.trans hpass, fun hlast => ?_⟩
  cases gap with
  | nil =>
    rw [List.append_nil] at hlast
    have hrest : c.rest = c.settle.rest := hpass.rest
    rw [← hrest]
    exact h.uncut hlast
  | cons d gap =>
    rw [List.getLast?_append_of_ne_nil _ (List.cons_ne_nil d gap)] at hlast
    exact absurd hlast (gap_last hgap)

end Stands

theorem next?_cases (c : Cursor) :
    (c.next? = none ∧ c.unread = []) ∨
      ∃ x d, c.next? = some (x, d) ∧ c.unread = x :: d.unread ∧ ¬ Continued (x :: d.rest) ∧
        c.settle = ⟨x :: d.rest, c.settle.position⟩ ∧ d.position = c.settle.position.after x := by
  rw [← c.unread_settle]
  have hsettled := c.settled
  generalize c.settle = start, c.next? = next at hsettled ⊢
  cases hsettled with
  | ended => exact .inl ⟨rfl, rfl⟩
  | ahead hopen => exact .inr ⟨_, _, rfl, logical_cons hopen, hopen, rfl, rfl⟩

theorem Stands.next {text before : List Char} {c d : Cursor} {x : Char} (h : c.Stands text before)
    (hnext : c.next? = some (x, d)) : ∃ raw, d.Stands text (before ++ raw) := by
  obtain ⟨gap, hsettled⟩ := h.settle
  rcases c.next?_cases with ⟨hnone, -⟩ | ⟨y, e, hsome, -, hopen, hsettle, hposition⟩
  · cases hnone.symm.trans hnext
  cases hsome.symm.trans hnext
  have hpass : c.settle.Passes [x] d := by
    rw [hsettle]
    exact ⟨rfl, hposition⟩
  refine ⟨gap ++ [x], ?_, fun hlast => ?_⟩
  · rw [← List.append_assoc]
    exact hsettled.passes.trans hpass
  · rw [← List.append_assoc, List.getLast?_concat] at hlast
    intro hhead
    exact hopen (continued_cons.mpr ⟨Option.some.inj hlast, hhead⟩)

end Cursor

namespace Reader

inductive Request where
  | peek | next | putBack | atEnd
deriving DecidableEq, Repr

/-- The character that a request takes, if it does, and the reader behind it. -/
def ask (r : Reader) : Request → Option Char × Reader
  | .peek => (none, r.peek.2)
  | .next => r.next
  | .putBack => (none, r.putBack)
  | .atEnd => (none, r.atEnd.2)

/-- The characters that requests in a row take, and the reader behind them. -/
def askAll (r : Reader) : List Request → List Char × Reader
  | [] => ([], r)
  | request :: more =>
    ((r.ask request).1.toList ++ ((r.ask request).2.askAll more).1,
      ((r.ask request).2.askAll more).2)

/-- The reader stands in the text, and so does the place that it can go back to. -/
structure Stands (text : List Char) (r : Reader) : Prop where
  here : ∃ before, r.cursor.Stands text before
  back : ∀ c ∈ r.previous, ∃ before, c.Stands text before

variable {text : List Char} {r s : Reader} {c : Char}

theorem next_eq_some (h : r.next = (some c, s)) :
    r.cursor.next? = some (c, s.cursor) ∧ s.previous = some r.cursor := by
  unfold next at h
  split at h
  · next hnext =>
    cases h
    exact ⟨hnext, rfl⟩
  · cases h

/-- Only `next` takes a character. -/
theorem ask_next (r : Reader) (request : Request) (h : request ≠ .putBack) :
    ((r.ask request).1.toList = if request = .next then r.cursor.unread.take 1 else []) ∧
      (r.ask request).2.cursor.unread =
        if request = .next then r.cursor.unread.drop 1 else r.cursor.unread := by
  cases request with
  | peek => exact ⟨rfl, r.cursor.unread_settle⟩
  | atEnd => exact ⟨rfl, r.cursor.unread_settle⟩
  | putBack => exact absurd rfl h
  | next =>
    rw [if_pos rfl, if_pos rfl, ask, next]
    rcases r.cursor.next?_cases with ⟨hnone, hunread⟩ | ⟨x, d, hsome, hunread, -⟩
    · rw [hnone, hunread]
      exact ⟨rfl, r.cursor.unread_settle.trans hunread⟩
    · rw [hsome, hunread]
      exact ⟨rfl, rfl⟩

theorem askAll_take (requests : List Request) (r : Reader) (h : .putBack ∉ requests) :
    (r.askAll requests).1 = r.cursor.unread.take (requests.count .next) ∧
      (r.askAll requests).2.cursor.unread = r.cursor.unread.drop (requests.count .next) := by
  induction requests generalizing r with
  | nil => exact ⟨rfl, rfl⟩
  | cons request more ih =>
    obtain ⟨hfirst, hmore⟩ := not_or.mp (List.mem_cons.not.mp h)
    obtain ⟨htaken, hleft⟩ := r.ask_next request (Ne.symm hfirst)
    obtain ⟨hothers, hend⟩ := ih (r.ask request).2 hmore
    rw [askAll, htaken, hothers, hend, hleft]
    by_cases hnext : request = .next
    · subst hnext
      rw [if_pos rfl, if_pos rfl, List.count_cons_self, List.drop_drop, Nat.add_comm 1]
      refine ⟨?_, rfl⟩
      rw [Nat.add_comm, List.take_add]
    · rw [if_neg hnext, if_neg hnext, List.count_cons_of_ne hnext, List.nil_append]
      exact ⟨rfl, rfl⟩

theorem Stands.ask (h : r.Stands text) (request : Request) : (r.ask request).2.Stands text := by
  obtain ⟨⟨before, hhere⟩, hback⟩ := h
  obtain ⟨gap, hsettled⟩ := hhere.settle
  cases request with
  | peek => exact ⟨⟨_, hsettled⟩, hback⟩
  | atEnd => exact ⟨⟨_, hsettled⟩, hback⟩
  | next =>
    rw [Reader.ask, next]
    split
    · next x d hnext =>
      obtain ⟨raw, hread⟩ := hhere.next hnext
      refine ⟨⟨_, hread⟩, fun c hc => ?_⟩
      cases hc
      exact ⟨before, hhere⟩
    · exact ⟨⟨_, hsettled⟩, hback⟩
  | putBack =>
    rw [Reader.ask, putBack]
    split
    · next c hc => exact ⟨hback c hc, fun d hd => by cases hd⟩
    · exact ⟨⟨before, hhere⟩, hback⟩

theorem Stands.askAll (h : r.Stands text) (requests : List Request) :
    (r.askAll requests).2.Stands text := by
  induction requests generalizing r with
  | nil => exact h
  | cons request more ih => exact ih (h.ask request)

theorem askAll_previous (looks : List Request) (r : Reader)
    (h : ∀ request ∈ looks, request = .peek ∨ request = .atEnd) :
    (r.askAll looks).2.previous = r.previous := by
  induction looks generalizing r with
  | nil => rfl
  | cons request looks ih =>
    rw [askAll, ih _ fun q hq => h q (List.mem_cons_of_mem _ hq)]
    rcases h request List.mem_cons_self with rfl | rfl
    · rfl
    · rfl

theorem putBack_putBack (r : Reader) : r.putBack.putBack = r.putBack := by
  obtain ⟨cursor, previous⟩ := r
  cases previous with
  | none => rfl
  | some c => rfl

theorem putBack_of_previous {c : Cursor} (h : r.previous = some c) : r.putBack = ⟨c, none⟩ := by
  rw [putBack, h]

end Reader

/-- From the beginning of a source, requests of any kind in any order lead to a reader that stands
between two characters and whose position is that of the text before it. If nothing is put back, the
characters taken are the first ones of the logical text, and from wherever the reader stands the next
ones of what is left of it. A character that was taken may be put back, also after looking ahead: the
reader is then where it was before, in front of the continuations that came first. To put back again
changes nothing. -/
theorem reader_exact {source : String} {asked : List Reader.Request} {taken : List Char} {r : Reader}
    (h : (Reader.ofText source.toList).askAll asked = (taken, r)) :
    (∃ before, source.toList = before ++ r.cursor.rest ∧ r.cursor.position.Exact source before ∧
      logical source.toList = logical before ++ logical r.cursor.rest) ∧
    (.putBack ∉ asked → taken = (logical source.toList).take (asked.count .next)) ∧
    (∀ more, .putBack ∉ more →
      (r.askAll more).1 = (logical r.cursor.rest).take (more.count .next)) ∧
    (∀ c s looks, r.next = (some c, s) → (∀ request ∈ looks, request = .peek ∨ request = .atEnd) →
      (s.askAll looks).2.putBack.cursor = r.cursor) ∧
    r.putBack.putBack = r.putBack := by
  have hstart : (Reader.ofText source.toList).Stands source.toList :=
    ⟨⟨[], .ofText _⟩, fun c hc => by cases hc⟩
  have hstands := hstart.askAll asked
  rw [h] at hstands
  obtain ⟨before, hhere⟩ := hstands.here
  refine ⟨⟨before, hhere.passes.rest, ?_, hhere.logical⟩, ?_, ?_, ?_, r.putBack_putBack⟩
  · rw [hhere.passes.position]
    exact Position.exact_behind hhere.passes.rest
  · intro hasked
    have htake := (Reader.askAll_take asked (.ofText source.toList) hasked).1
    rw [h] at htake
    exact htake
  · intro more hmore
    exact (r.askAll_take more hmore).1
  · intro c s looks hnext hlooks
    have hprevious : (s.askAll looks).2.previous = some r.cursor :=
      (s.askAll_previous looks hlooks).trans (Reader.next_eq_some hnext).2
    rw [Reader.putBack_of_previous hprevious]

/-- A backslash stands behind two continuations and in front of another one, which looking ahead
passes. Put back, it is read again, and then the letter. -/
theorem reader_exact_continued :
    let source := "é\\\n\\\n\\\\\nb\n"
    LinesFit source ∧
      ∃ r s, (Reader.ofText source.toList).askAll [.next] = (['é'], r) ∧ r.next = (some '\\', s) ∧
      (s.askAll [.peek, .atEnd]).2.cursor.position = ⟨9, 4, 1, 9⟩ ∧
      (s.askAll [.peek, .atEnd]).2.putBack.cursor = r.cursor ∧
      r.cursor.position = ⟨2, 1, 2, 0⟩ ∧ (r.askAll [.next, .peek, .next]).1 = ['\\', 'b'] ∧
      logical source.toList = ['é', '\\', 'b', '\n'] ∧
      ∃ before, source.toList = before ++ r.cursor.rest ∧ r.cursor.position.Exact source before := by
  intro source
  have hasked : (Reader.ofText source.toList).askAll [.next] =
      (['é'], ⟨⟨"\\\n\\\n\\\\\nb\n".toList, ⟨2, 1, 2, 0⟩⟩, some (.ofText source.toList)⟩) := by
    decide +kernel
  obtain ⟨⟨before, htext, hexact, -⟩, htaken, hmore, hback, -⟩ := reader_exact hasked
  have hfit : LinesFit source := .of_length (by decide)
  refine ⟨hfit, _, _, hasked, rfl, by decide +kernel, hback _ _ [.peek, .atEnd] rfl (by decide), rfl,
    ?_, ?_, before, htext, hexact⟩
  · rw [hmore _ (by decide)]
    decide +kernel
  · decide +kernel

end MiniMl
