import Mathlib.Data.List.Basic
import MiniMl.Source.Cursor

/-! # Physical and logical text

The logical text of a source is what is left of it without its continuations. A cursor passes
physical text: what it has read is a prefix of the source, and its position counts all of it.
-/

namespace MiniMl

/-- The text as readers see it: pairs of a backslash and a newline are dropped from the left. -/
def logical : List Char → List Char
  | '\\' :: '\n' :: rest => logical rest
  | c :: rest => c :: logical rest
  | [] => []

theorem logical_plain {text : List Char} (h : '\\' ∉ text) : logical text = text := by
  fun_induction logical text with
  | case1 rest ih => exact absurd List.mem_cons_self h
  | case2 c rest _ ih => rw [ih (List.not_mem_of_not_mem_cons h)]
  | case3 => rfl

def Continued (text : List Char) : Prop := ['\\', '\n'] <+: text

theorem continued_cons {c : Char} {rest : List Char} :
    Continued (c :: rest) ↔ c = '\\' ∧ rest.head? = some '\n' := by
  unfold Continued
  cases rest with
  | nil => simp
  | cons d rest => simp [eq_comm]

theorem not_continued {c : Char} {rest : List Char}
    (h : ∀ more, c = '\\' → rest = '\n' :: more → False) : ¬ Continued (c :: rest) := by
  rintro ⟨more, hmore⟩
  obtain ⟨rfl, rfl⟩ := List.cons.inj hmore
  exact h more rfl rfl

theorem free_of_not_continued {c : Char} {rest : List Char} (h : ¬ Continued (c :: rest)) :
    ∀ more, c = '\\' → rest = '\n' :: more → False := by
  rintro more rfl rfl
  exact h ⟨more, rfl⟩

theorem logical_cons {c : Char} {rest : List Char} (h : ¬ Continued (c :: rest)) :
    logical (c :: rest) = c :: logical rest := by
  rw [logical]
  rintro more rfl rfl
  exact h (continued_cons.mpr ⟨rfl, rfl⟩)

theorem logical_append {a b : List Char} (h : a.getLast? = some '\\' → b.head? ≠ some '\n') :
    logical (a ++ b) = logical a ++ logical b := by
  fun_induction logical a with
  | case1 rest ih =>
    simp only [List.cons_append, logical]
    apply ih
    intro hlast
    apply h
    cases rest with
    | nil => simp at hlast
    | cons d rest => simpa using hlast
  | case2 c rest hfree ih =>
    have hopen : ¬ Continued (c :: (rest ++ b)) := by
      intro hc
      obtain ⟨rfl, hhead⟩ := continued_cons.mp hc
      cases rest with
      | nil => exact h rfl hhead
      | cons d rest =>
        obtain rfl : d = '\n' := by simpa using hhead
        exact hfree rest rfl rfl
    rw [List.cons_append, logical_cons hopen, List.cons_append, ih]
    intro hlast
    apply h
    cases rest with
    | nil => simp at hlast
    | cons d rest => simpa using hlast
  | case3 => rfl

theorem logical_gap {gap : List Char} (h : logical gap = []) (text : List Char) :
    logical (gap ++ text) = logical text := by
  fun_induction logical gap with
  | case1 rest ih => simpa only [List.cons_append, logical] using ih h
  | case2 c rest _ _ => simp at h
  | case3 => rfl

theorem logical_append_gap {gap : List Char} (h : logical gap = []) (text : List Char) :
    logical (text ++ gap) = logical text := by
  rw [logical_append, h, List.append_nil]
  intro _ hhead
  cases gap with
  | nil => simp at hhead
  | cons d gap =>
    obtain rfl : d = '\n' := by simpa using hhead
    rw [logical_cons] at h
    · cases h
    · simp [continued_cons]

namespace Position

def behind (p : Position) (text : List Char) : Position := text.foldl Position.after p

@[simp] theorem behind_append (p : Position) (a b : List Char) :
    p.behind (a ++ b) = (p.behind a).behind b := List.foldl_append

end Position

namespace Cursor

/-- The second cursor stands behind a text that the first one stands at. -/
structure Passes (c : Cursor) (text : List Char) (d : Cursor) : Prop where
  rest : c.rest = text ++ d.rest
  position : d.position = c.position.behind text

namespace Passes

variable {c d e : Cursor} {text more rest : List Char} {x : Char} {p : Position}

theorem refl (c : Cursor) : c.Passes [] c := ⟨rfl, rfl⟩

theorem cons (h : Passes ⟨rest, p.after x⟩ text d) : Passes ⟨x :: rest, p⟩ (x :: text) d := by
  constructor
  · exact congrArg (x :: ·) h.rest
  · exact h.position

theorem trans (h : c.Passes text d) (k : d.Passes more e) : c.Passes (text ++ more) e := by
  constructor
  · rw [h.rest, k.rest, List.append_assoc]
  · rw [k.position, h.position, Position.behind_append]

theorem length (h : c.Passes text d) : c.rest.length = text.length + d.rest.length := by
  rw [h.rest, List.length_append]

theorem behind (h : c.Passes text d) :
    d.position.behind d.rest = c.position.behind c.rest := by
  rw [h.position, h.rest, Position.behind_append]

end Passes

theorem skipContinuations_passes (text : List Char) (p : Position) :
    ∃ gap, logical gap = [] ∧ Passes ⟨text, p⟩ gap (skipContinuations text p) ∧
      ¬ Continued (skipContinuations text p).rest := by
  fun_induction skipContinuations text p with
  | case1 p rest ih =>
    obtain ⟨gap, hgap, hpass, hstop⟩ := ih
    exact ⟨'\\' :: '\n' :: gap, hgap, hpass.cons.cons, hstop⟩
  | case2 p text hfree =>
    refine ⟨[], rfl, .refl _, ?_⟩
    rintro ⟨rest, rfl⟩
    exact hfree rest rfl

theorem skipContinuations_open {text : List Char} (h : ¬ Continued text) (p : Position) :
    skipContinuations text p = ⟨text, p⟩ := by
  unfold skipContinuations
  split
  · exact absurd ⟨_, rfl⟩ h
  · rfl

theorem settle_passes (c : Cursor) :
    ∃ gap, logical gap = [] ∧ c.Passes gap c.settle ∧ ¬ Continued c.settle.rest :=
  skipContinuations_passes c.rest c.position

theorem settle_length (c : Cursor) : c.settle.rest.length ≤ c.rest.length := by
  obtain ⟨gap, -, hpass, -⟩ := c.settle_passes
  rw [hpass.length]
  exact Nat.le_add_left _ _

theorem settle_settle (c : Cursor) : c.settle.settle = c.settle := by
  obtain ⟨-, -, -, hopen⟩ := c.settle_passes
  exact skipContinuations_open hopen _

theorem next?_settle (c : Cursor) : c.settle.next? = c.next? := by
  rw [next?, settle_settle, next?]

/-- What is the same in front of a continuation as behind it is the same in front of all of them. -/
theorem settle_unseen {α : Type} (read : List Char → Position → α)
    (h : ∀ rest p, read ('\\' :: '\n' :: rest) p = read rest ((p.after '\\').after '\n'))
    (c : Cursor) : read c.settle.rest c.settle.position = read c.rest c.position := by
  obtain ⟨text, p⟩ := c
  change read (skipContinuations text p).rest (skipContinuations text p).position = read text p
  fun_induction skipContinuations text p with
  | case1 p rest ih =>
    rw [h]
    exact ih
  | case2 p text hfree => rfl

/-- A cursor that no continuation stands in front of, with the character that it reads next. -/
inductive Settled : Cursor → Option (Char × Cursor) → Prop where
  | ended {p : Position} : Settled ⟨[], p⟩ none
  | ahead {x : Char} {rest : List Char} {p : Position} : ¬ Continued (x :: rest) →
      Settled ⟨x :: rest, p⟩ (some (x, ⟨rest, p.after x⟩))

theorem settled (c : Cursor) : Settled c.settle c.next? := by
  obtain ⟨-, -, -, hopen⟩ := c.settle_passes
  unfold next?
  generalize c.settle = start at hopen
  obtain ⟨text, p⟩ := start
  cases text with
  | nil => exact .ended
  | cons x text => exact .ahead hopen

theorem next?_shorter {c d : Cursor} {x : Char} (h : c.next? = some (x, d)) :
    d.rest.length < c.rest.length := by
  have hlength := c.settle_length
  have hsettled := c.settled
  rw [h] at hsettled
  generalize c.settle = start at hlength hsettled
  cases hsettled with
  | ahead hopen => exact hlength

end Cursor

end MiniMl
