import Mathlib.Data.Nat.Digits.Defs
import MiniMl.Number.Integer

/-! # Checked accumulation

Digits are read from the left into a number of bounded size: each one is added to ten times the
number read before, and reading fails once a product or a sum is over the bound. As what was read
never shrinks, reading fails just when the value of all digits is over the bound.
-/

namespace MiniMl

variable {limit n : Nat} {text : List Char}

/-- The number read from digits after `n`, none of it over the limit. -/
def accumulate? (limit : Nat) : (n : Nat) → List Char → Option Nat
  | n, [] => some n
  | n, c :: cs =>
    if limit < 10 * n then none
    else if limit < 10 * n + digitValue c then none
    else accumulate? limit (10 * n + digitValue c) cs

def readOn (n : Nat) (text : List Char) : Nat := text.foldl (fun n c => 10 * n + digitValue c) n

theorem le_readOn (n : Nat) (text : List Char) : n ≤ readOn n text := by
  induction text generalizing n with
  | nil => exact le_rfl
  | cons c text ih =>
    have hmore : 10 * n + digitValue c ≤ readOn n (c :: text) := ih _
    omega

theorem accumulate?_eq (hn : n ≤ limit) (text : List Char) :
    accumulate? limit n text = if readOn n text ≤ limit then some (readOn n text) else none := by
  induction text generalizing n with
  | nil => exact (if_pos hn).symm
  | cons c text ih =>
    have hmore : 10 * n + digitValue c ≤ readOn n (c :: text) := le_readOn _ text
    rw [accumulate?]
    by_cases hproduct : limit < 10 * n
    · rw [if_pos hproduct, if_neg (by omega)]
    · by_cases hsum : limit < 10 * n + digitValue c
      · rw [if_neg hproduct, if_pos hsum, if_neg (by omega)]
      · rw [if_neg hproduct, if_neg hsum, ih (by omega)]
        rfl

theorem decimalValue_eq (text : List Char) :
    decimalValue text = Nat.ofDigits 10 (text.reverse.map digitValue) := by
  rw [Nat.ofDigits_eq_foldr, List.foldr_map, List.foldr_reverse, decimalValue]
  congr 1
  funext n c
  exact Nat.add_comm _ _

theorem integer?_digits (hsome : text ≠ []) (hdigits : text.all Char.isDigit) :
    integer? text = some (decimalValue text : Int) := by
  have hsign : splitSign text = (false, text) := by
    unfold splitSign
    split
    · exact absurd hdigits (by simp)
    · exact absurd hdigits (by simp)
    · rfl
  have hnatural : natural? text = some (decimalValue text) := if_pos ⟨hsome, hdigits⟩
  rw [integer?, hsign]
  dsimp only
  rw [hnatural]
  rfl

/-- A literal that is all digits has the value that is accumulated below 2⁶³. -/
theorem int64?_digits (hsome : text ≠ []) (hdigits : text.all Char.isDigit) :
    int64? text = (accumulate? (2 ^ 63 - 1) 0 text).map Int.ofNat := by
  have hfits : fitsInt64 (decimalValue text : Int) = decide (decimalValue text < 2 ^ 63) := rfl
  rw [int64?, integer?_digits hsome hdigits, accumulate?_eq (Nat.zero_le _), Option.filter_some,
    hfits]
  change _ = (if decimalValue text ≤ _ then some (decimalValue text) else none).map _
  by_cases hlimit : decimalValue text < 2 ^ 63
  · rw [if_pos (decide_eq_true hlimit), if_pos (by omega)]
    rfl
  · rw [decide_eq_false hlimit, if_neg Bool.false_ne_true, if_neg (by omega)]
    rfl

end MiniMl
