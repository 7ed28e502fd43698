import Mathlib.Data.List.Basic
import MiniMl.Text.Quoted

/-! # Quoted text is read in one way

The escape of a character tells where it ends: one character, or a backslash and one more, or a
backslash and a number in braces. So a quoted text determines the text, and it is on one line.
-/

namespace MiniMl

theorem run_inj {α : Type} {P : α → Prop} {xs ys us vs : List α} (hx : ∀ x ∈ xs, P x)
    (hy : ∀ y ∈ ys, P y) (hu : ∀ u ∈ us.head?, ¬ P u) (hv : ∀ v ∈ vs.head?, ¬ P v)
    (h : xs ++ us = ys ++ vs) : xs = ys ∧ us = vs := by
  induction xs generalizing ys with
  | nil =>
    cases ys with
    | nil => exact ⟨rfl, h⟩
    | cons y ys =>
      have hfirst := hu y (by rw [List.nil_append] at h; rw [h]; rfl)
      exact absurd (hy y List.mem_cons_self) hfirst
  | cons x xs ih =>
    cases ys with
    | nil =>
      have hfirst := hv x (by rw [List.nil_append] at h; rw [← h]; rfl)
      exact absurd (hx x List.mem_cons_self) hfirst
    | cons y ys =>
      obtain ⟨rfl, htail⟩ := List.cons.inj h
      obtain ⟨rfl, hrest⟩ := ih (List.forall_mem_cons.mp hx).2 (List.forall_mem_cons.mp hy).2 htail
      exact ⟨rfl, hrest⟩

theorem append_cons_first_inj {α : Type} {a : α} {xs ys us vs : List α} (hx : a ∉ xs) (hy : a ∉ ys)
    (h : xs ++ a :: us = ys ++ a :: vs) : xs = ys ∧ us = vs := by
  obtain ⟨hbefore, hbehind⟩ := run_inj (P := (· ≠ a)) (fun x hmem => ne_of_mem_of_not_mem hmem hx)
    (fun y hmem => ne_of_mem_of_not_mem hmem hy) (by simp) (by simp) h
  exact ⟨hbefore, (List.cons.inj hbehind).2⟩

/-! Digits in bases up to sixteen. -/

def hexDigits : List Char := "0123456789abcdef".toList

theorem digitChar_hex : ∀ m < 16, Nat.digitChar m ∈ hexDigits ∧
    ∀ n < 16, Nat.digitChar m = Nat.digitChar n → m = n := by
  decide +kernel

section Digits

variable {base : Nat} (hbase : 1 < base) (hsmall : base ≤ 16)

include hbase hsmall

theorem toDigits_hex (n : Nat) : ∀ c ∈ Nat.toDigits base n, c ∈ hexDigits := by
  induction n using Nat.strongRecOn with
  | _ n ih =>
    intro c hc
    rw [Nat.toDigits_eq_if hbase] at hc
    split at hc
    · rw [List.mem_singleton.mp hc]
      exact (digitChar_hex n (by omega)).1
    · have hlow := Nat.mod_lt n (Nat.zero_lt_of_lt hbase)
      rcases List.mem_append.mp hc with hc | hc
      · exact ih (n / base) (Nat.div_lt_self (by omega) hbase) c hc
      · rw [List.mem_singleton.mp hc]
        exact (digitChar_hex (n % base) (by omega)).1

theorem toDigits_inj {m n : Nat} (h : Nat.toDigits base m = Nat.toDigits base n) : m = n := by
  induction m using Nat.strongRecOn generalizing n with
  | _ m ih =>
    have hm' := Nat.mod_lt m (Nat.zero_lt_of_lt hbase)
    have hn' := Nat.mod_lt n (Nat.zero_lt_of_lt hbase)
    rw [Nat.toDigits_eq_if hbase, Nat.toDigits_eq_if (n := n) hbase] at h
    by_cases hm : m < base
    · by_cases hn : n < base
      · rw [if_pos hm, if_pos hn] at h
        exact (digitChar_hex m (by omega)).2 n (by omega) (List.cons.inj h).1
      · rw [if_pos hm, if_neg hn, ← List.nil_append [m.digitChar]] at h
        exact absurd (List.append_inj' h rfl).1.symm Nat.toDigits_ne_nil
    · by_cases hn : n < base
      · rw [if_neg hm, if_pos hn, ← List.nil_append [n.digitChar]] at h
        exact absurd (List.append_inj' h rfl).1 Nat.toDigits_ne_nil
      · rw [if_neg hm, if_neg hn] at h
        obtain ⟨hhigh, hlow⟩ := List.append_inj' h rfl
        have hhigh := ih (m / base) (Nat.div_lt_self (by omega) hbase) hhigh
        have hlow := (digitChar_hex (m % base) (by omega)).2 (n % base) (by omega)
          (List.cons.inj hlow).1
        rw [← Nat.div_add_mod m base, ← Nat.div_add_mod n base, hhigh, hlow]

end Digits

namespace Quoted

/-- The characters that are escaped by a letter or themselves. -/
def letters : List (Char × Char) :=
  [('\x00', '0'), ('\t', 't'), ('\n', 'n'), ('\r', 'r'), ('"', '"'), ('\\', '\\')]

/-- The three forms of escapes. -/
inductive Escaped : Char → List Char → Prop where
  | letter {c d : Char} : (c, d) ∈ letters → Escaped c ['\\', d]
  | numbered {c : Char} : Escaped c (numbered c)
  | plain {c : Char} : c ≠ '\\' → c ≠ '\n' → Escaped c [c]

theorem escaped (c : Char) : Escaped c (escape c) := by
  unfold escape
  split
  case h_7 hnewline _ _ hslash =>
    split
    · exact .numbered
    · exact .plain hslash hnewline
  all_goals exact .letter (by decide)

theorem numbered_inj {c d : Char} {us vs : List Char}
    (h : numbered c ++ us = numbered d ++ vs) : c = d ∧ us = vs := by
  have hnone : ∀ e : Char, '\x7d' ∉ Nat.toDigits 16 e.toNat := by
    intro e he
    exact absurd (toDigits_hex (by decide) (by decide) e.toNat _ he) (by decide)
  simp only [Quoted.numbered, List.cons_append, List.append_assoc, List.cons.injEq, true_and] at h
  obtain ⟨hdigits, hbehind⟩ := append_cons_first_inj (hnone c) (hnone d) h
  exact ⟨Char.toNat_inj.mp (toDigits_inj (by decide) (by decide) hdigits), hbehind⟩

/-- No escape is the beginning of another one. -/
theorem Escaped.inj {c d : Char} {xs ys us vs : List Char} (hc : Escaped c xs) (hd : Escaped d ys)
    (h : xs ++ us = ys ++ vs) : c = d ∧ us = vs := by
  have hnumber : ∀ p ∈ letters, p.2 ≠ 'u' := by decide
  have hletter : ∀ p ∈ letters, ∀ q ∈ letters, p.2 = q.2 → p.1 = q.1 := by decide
  cases hc with
  | letter hmem =>
    cases hd with
    | letter hmem' =>
      simp only [List.cons_append, List.nil_append, List.cons.injEq, true_and] at h
      exact ⟨hletter _ hmem _ hmem' h.1, h.2⟩
    | numbered =>
      simp only [Quoted.numbered, List.cons_append, List.cons.injEq, true_and] at h
      exact absurd h.1 (hnumber _ hmem)
    | plain hslash _ => exact absurd (List.cons.inj h).1.symm hslash
  | numbered =>
    cases hd with
    | letter hmem =>
      simp only [Quoted.numbered, List.cons_append, List.cons.injEq, true_and] at h
      exact absurd h.1.symm (hnumber _ hmem)
    | numbered => exact numbered_inj h
    | plain hslash _ => exact absurd (List.cons.inj h).1.symm hslash
  | plain hslash _ =>
    cases hd with
    | letter _ => exact absurd (List.cons.inj h).1 hslash
    | numbered => exact absurd (List.cons.inj h).1 hslash
    | plain _ _ => exact List.cons.inj h

theorem Escaped.ne_nil {c : Char} {xs : List Char} (h : Escaped c xs) : xs ≠ [] := by
  cases h with
  | letter _ => exact List.cons_ne_nil _ _
  | numbered => exact List.cons_ne_nil _ _
  | plain _ _ => exact List.cons_ne_nil _ _

theorem Escaped.one_line {c : Char} {xs : List Char} (h : Escaped c xs) : '\n' ∉ xs := by
  cases h with
  | letter hmem =>
    have hnone : ∀ p ∈ letters, '\n' ∉ ['\\', p.2] := by decide
    exact hnone _ hmem
  | numbered =>
    have hnone : '\n' ∉ Nat.toDigits 16 c.toNat := fun hc =>
      absurd (toDigits_hex (by decide) (by decide) c.toNat _ hc) (by decide)
    simp [Quoted.numbered, hnone]
  | plain _ hnewline => simpa using hnewline.symm

theorem flatMap_escape_inj {xs ys : List Char} (h : xs.flatMap escape = ys.flatMap escape) :
    xs = ys := by
  induction xs generalizing ys with
  | nil =>
    cases ys with
    | nil => rfl
    | cons d ys => exact absurd (List.append_eq_nil_iff.mp h.symm).1 (escaped d).ne_nil
  | cons c xs ih =>
    cases ys with
    | nil => exact absurd (List.append_eq_nil_iff.mp h).1 (escaped c).ne_nil
    | cons d ys =>
      rw [List.flatMap_cons, List.flatMap_cons] at h
      obtain ⟨rfl, hbehind⟩ := (escaped c).inj (escaped d) h
      rw [ih hbehind]

end Quoted

theorem toList_quoted (text : String) :
    (quoted text).toList = '"' :: (text.toList.flatMap Quoted.escape ++ ['"']) := by
  rw [quoted, String.toList_ofList]
  rfl

theorem quoted_injective : Function.Injective quoted := by
  intro s t h
  have h := congrArg String.toList h
  rw [toList_quoted, toList_quoted] at h
  have hinside := List.append_cancel_right (List.cons.inj h).2
  exact String.toList_injective (Quoted.flatMap_escape_inj hinside)

theorem quoted_one_line (text : String) : '\n' ∉ (quoted text).toList := by
  rw [toList_quoted]
  simp only [List.mem_cons, List.mem_append, List.mem_flatMap, not_or, List.not_mem_nil,
    not_false_iff, and_true]
  refine ⟨by decide, ?_, by decide⟩
  rintro ⟨c, -, hc⟩
  exact (Quoted.escaped c).one_line hc

end MiniMl
