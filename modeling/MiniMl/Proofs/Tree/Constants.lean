import MiniMl.Proofs.Text.Quoted
import MiniMl.Tree.Dump

/-! # Constants and types as text

The first character of the text of a constant tells its kind, and the text of that kind its value,
floats apart: what is shown of a float need not tell its kind. Neither constants nor types reach over
lines.
-/

namespace MiniMl

def OneLine (text : String) : Prop := '\n' ∉ text.toList

instance (text : String) : Decidable (OneLine text) := inferInstanceAs (Decidable (¬ _))

theorem OneLine.append {s t : String} (hs : OneLine s) (ht : OneLine t) : OneLine (s ++ t) := by
  rw [OneLine, String.toList_append]
  exact List.not_mem_append hs ht

theorem OneLine.intercalate {separator : String} {texts : List String} (hs : OneLine separator)
    (ht : ∀ text ∈ texts, OneLine text) : OneLine (separator.intercalate texts) := by
  induction texts with
  | nil =>
    rw [String.intercalate_nil]
    decide
  | cons text texts ih =>
    obtain ⟨htext, ht⟩ := List.forall_mem_cons.mp ht
    cases texts with
    | nil => rwa [String.intercalate_singleton]
    | cons next texts =>
      rw [String.intercalate_cons_cons]
      exact (htext.append hs).append (ih ht)

/-! Types as they are shown. -/

theorem Store.name_oneLine (s : Store) (c : Cell) : OneLine (s.name c) := by
  unfold Store.name
  cases s.kind? c with
  | none => decide
  | some kind =>
    cases kind with
    | _ => decide

theorem Signature.display_oneLine (f : Signature) (s : Store) : OneLine (f.display s) := by
  have hparams : OneLine (" * ".intercalate (f.params.map s.name)) := by
    apply OneLine.intercalate (by decide)
    intro text htext
    obtain ⟨c, -, rfl⟩ := List.mem_map.mp htext
    exact s.name_oneLine c
  refine (OneLine.append ?_ (by decide)).append (s.name_oneLine f.result)
  split
  · decide
  · exact hparams

theorem Symbol.typeName_oneLine (x : Symbol) (s : Store) : OneLine (x.typeName s) := by
  unfold Symbol.typeName
  split
  · exact Signature.display_oneLine _ s
  · exact s.name_oneLine x.cell

namespace Constant

theorem natural_text (m : Nat) : (toString (Int.ofNat m)).toList = Nat.toDigits 10 m := by
  change m.repr.toList = _
  rw [Nat.repr_eq_ofList_toDigits, String.toList_ofList]

theorem negative_text (m : Nat) :
    (toString (Int.negSucc m)).toList = '-' :: Nat.toDigits 10 (m + 1) := by
  change ("-" ++ (m + 1).repr).toList = _
  rw [String.toList_append, Nat.repr_eq_ofList_toDigits, String.toList_ofList,
    String.toList_ofList]
  rfl

theorem isDigit_of_mem {m : Nat} {c : Char} (h : c ∈ Nat.toDigits 10 m) : c.isDigit :=
  Nat.isDigit_of_mem_toDigits (by decide) (by decide) h

theorem int_text (n : Int) : ∃ c rest, (toString n).toList = c :: rest ∧
    ∀ d ∈ c :: rest, d.isDigit ∨ d = '-' := by
  cases n with
  | ofNat m =>
    rw [natural_text]
    cases hm : Nat.toDigits 10 m with
    | nil => exact absurd hm Nat.toDigits_ne_nil
    | cons c rest => exact ⟨c, rest, rfl, fun d hd => .inl (isDigit_of_mem (hm ▸ hd))⟩
  | negSucc m =>
    refine ⟨'-', _, negative_text m, ?_⟩
    intro d hd
    rcases List.mem_cons.mp hd with rfl | hd
    · exact .inr rfl
    · exact .inl (isDigit_of_mem hd)

/-- A number is written in one way, and a negative one is not written as another one. -/
theorem int_text_inj {m n : Int} (h : toString m = toString n) : m = n := by
  have hsign : ∀ k : Nat, '-' ∉ Nat.toDigits 10 k := fun k hk =>
    absurd (isDigit_of_mem hk) (by decide)
  have h := congrArg String.toList h
  cases m with
  | ofNat m =>
    cases n with
    | ofNat n =>
      rw [natural_text, natural_text] at h
      rw [toDigits_inj (by decide) (by decide) h]
    | negSucc n =>
      rw [natural_text, negative_text] at h
      exact absurd (h ▸ List.mem_cons_self) (hsign m)
  | negSucc m =>
    cases n with
    | ofNat n =>
      rw [natural_text, negative_text] at h
      exact absurd (h ▸ List.mem_cons_self) (hsign n)
    | negSucc n =>
      rw [negative_text, negative_text] at h
      have hdigits := toDigits_inj (by decide) (by decide) (List.cons.inj h).2
      rw [Nat.succ.inj hdigits]

def initialKind (c : Char) : Kind :=
  if c = '"' then .string
  else if c = '(' then .unit
  else if c = 't' ∨ c = 'f' then .bool
  else .int

theorem text_initial {value : Constant} (h : value.kind ≠ .float) :
    ∃ c rest, value.text.toList = c :: rest ∧ initialKind c = value.kind := by
  cases value with
  | int n =>
    obtain ⟨c, rest, htext, hall⟩ := int_text n
    refine ⟨c, rest, htext, ?_⟩
    have hc := hall c List.mem_cons_self
    unfold initialKind
    rw [if_neg, if_neg, if_neg]
    · rfl
    all_goals rintro hother
    · rcases hother with rfl | rfl
      · revert hc; decide
      · revert hc; decide
    · subst hother; revert hc; decide
    · subst hother; revert hc; decide
  | float x => exact absurd rfl h
  | bool b =>
    cases b with
    | true => exact ⟨'t', ['r', 'u', 'e'], rfl, rfl⟩
    | false => exact ⟨'f', ['a', 'l', 's', 'e'], rfl, rfl⟩
  | string text => exact ⟨_, _, toList_quoted text, rfl⟩
  | unit => exact ⟨'(', [')'], rfl, rfl⟩

theorem kind_of_text {a b : Constant} (ha : a.kind ≠ .float) (hb : b.kind ≠ .float)
    (h : a.text = b.text) : a.kind = b.kind := by
  obtain ⟨c, cs, htext, hkind⟩ := text_initial ha
  obtain ⟨d, ds, htext', hkind'⟩ := text_initial hb
  rw [h, htext'] at htext
  rw [← hkind, ← hkind', (List.cons.inj htext).1]

theorem text_inj {a b : Constant} (ha : a.kind ≠ .float) (hb : b.kind ≠ .float)
    (h : a.text = b.text) : a = b := by
  have hkind := kind_of_text ha hb h
  cases a with
  | int m =>
    cases b with
    | int n => exact congrArg int (int_text_inj h)
    | _ => cases hkind
  | float x => exact absurd rfl ha
  | bool x =>
    cases b with
    | bool y =>
      revert h
      cases x <;> cases y <;> decide
    | _ => cases hkind
  | string s =>
    cases b with
    | string t => exact congrArg string (quoted_injective h)
    | _ => cases hkind
  | unit =>
    cases b with
    | unit => rfl
    | _ => cases hkind

theorem text_oneLine {value : Constant} (h : value.kind ≠ .float) : OneLine value.text := by
  cases value with
  | int n =>
    obtain ⟨c, rest, htext, hall⟩ := int_text n
    intro hmem
    have htext : (int n).text.toList = c :: rest := htext
    rw [htext] at hmem
    exact absurd (hall _ hmem) (by decide)
  | float x => exact absurd rfl h
  | bool b =>
    cases b with
    | true => exact by decide
    | false => exact by decide
  | string text => exact quoted_one_line text
  | unit => exact by decide

end Constant

end MiniMl
