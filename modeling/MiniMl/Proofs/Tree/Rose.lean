import Mathlib.Data.List.Basic

/-! # Rose trees

Trees of labels, and their labels in a row with the depth of each, from the root on. Where the
children of a node end is told by the depths alone, so the row determines the trees.
-/

namespace MiniMl

inductive Rose (α : Type) where
  | node (label : α) (children : List (Rose α))

namespace Rose

variable {α : Type} {depth : Nat} {us vs : List (Nat × α)}

mutual

def rows (depth : Nat) : Rose α → List (Nat × α)
  | node label children => (depth, label) :: listRows (depth + 1) children

def listRows (depth : Nat) : List (Rose α) → List (Nat × α)
  | [] => []
  | t :: ts => t.rows depth ++ listRows depth ts

end

mutual

theorem le_of_mem_rows : ∀ (t : Rose α) {depth : Nat}, ∀ r ∈ t.rows depth, depth ≤ r.1
  | node label children, depth, r, hr => by
    rcases List.mem_cons.mp hr with rfl | hr
    · exact Nat.le_refl depth
    · exact Nat.le_of_succ_le (le_of_mem_listRows children r hr)

theorem le_of_mem_listRows : ∀ (ts : List (Rose α)) {depth : Nat}, ∀ r ∈ listRows depth ts,
    depth ≤ r.1
  | [], _, r, hr => by cases hr
  | t :: ts, depth, r, hr => by
    rcases List.mem_append.mp hr with hr | hr
    · exact le_of_mem_rows t r hr
    · exact le_of_mem_listRows ts r hr

end

/-- What comes next is no node of this depth or below one. -/
def Above (depth : Nat) (rows : List (Nat × α)) : Prop := ∀ r ∈ rows.head?, r.1 < depth

theorem Above.nil : Above depth ([] : List (Nat × α)) := nofun

theorem Above.behind (h : Above depth us) (ts : List (Rose α)) :
    Above (depth + 1) (listRows depth ts ++ us) := by
  intro r hr
  cases ts with
  | nil => exact Nat.lt_succ_of_lt (h r hr)
  | cons t ts =>
    cases t with
    | node label children =>
      obtain rfl := Option.mem_some.mp hr
      exact Nat.lt_succ_self depth

theorem Above.ne_rows (h : Above depth us) (t : Rose α) (ts : List (Rose α)) :
    us ≠ listRows depth (t :: ts) ++ vs := by
  rintro rfl
  cases t with
  | node label children => exact absurd (h (depth, label) rfl) (Nat.lt_irrefl depth)

mutual

theorem rows_inj : ∀ (t u : Rose α) {depth : Nat} {us vs : List (Nat × α)},
    Above (depth + 1) us → Above (depth + 1) vs → t.rows depth ++ us = u.rows depth ++ vs →
      t = u ∧ us = vs
  | node _ ts, node _ bs, _, _, _, hus, hvs, h => by
    obtain ⟨hlabel, hbelow⟩ := List.cons.inj h
    obtain ⟨rfl, hbehind⟩ := listRows_inj ts bs hus hvs hbelow
    rw [(Prod.mk.inj hlabel).2]
    exact ⟨rfl, hbehind⟩

theorem listRows_inj : ∀ (ts bs : List (Rose α)) {depth : Nat} {us vs : List (Nat × α)},
    Above depth us → Above depth vs → listRows depth ts ++ us = listRows depth bs ++ vs →
      ts = bs ∧ us = vs
  | [], [], _, _, _, _, _, h => ⟨rfl, h⟩
  | [], b :: bs, _, _, _, hus, _, h => absurd h (hus.ne_rows b bs)
  | t :: ts, [], _, _, _, _, hvs, h => absurd h.symm (hvs.ne_rows t ts)
  | t :: ts, b :: bs, _, _, _, hus, hvs, h => by
    rw [listRows, listRows, List.append_assoc, List.append_assoc] at h
    obtain ⟨rfl, hbehind⟩ := rows_inj t b (hus.behind ts) (hvs.behind bs) h
    obtain ⟨rfl, hrest⟩ := listRows_inj ts bs hus hvs hbehind
    exact ⟨rfl, hrest⟩

end

theorem listRows_injective (depth : Nat) : Function.Injective (listRows (α := α) depth) := by
  intro ts bs h
  exact (listRows_inj ts bs .nil .nil (congrArg (· ++ []) h)).1

end Rose

end MiniMl
