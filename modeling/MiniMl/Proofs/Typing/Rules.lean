import Mathlib.Data.List.Forall2
import MiniMl.Proofs.Parser.Runs
import MiniMl.Proofs.Typing.Evolution
import MiniMl.Proofs.Typing.Locations

/-! # What the typing rules establish

Every rule is stated as a relation between cells that later stores keep. A rule that succeeds in a
well-formed store has brought the relation about.
-/

namespace MiniMl

namespace Store

variable {s t : Store} {a b c : Cell} {k : Kind}

def Arithmetic (s : Store) (lhs rhs cell : Cell) : Prop :=
  ∃ k, (k = .int ∨ k = .float) ∧ s.kind? lhs = some k ∧ s.kind? rhs = some k ∧
    s.kind? cell = some k

def Relational (s : Store) (lhs rhs cell : Cell) : Prop :=
  ∃ k, (k = .int ∨ k = .float ∨ k = .bool) ∧ s.kind? lhs = some k ∧ s.kind? rhs = some k ∧
    s.kind? cell = some .bool

def Logical (s : Store) (lhs rhs cell : Cell) : Prop :=
  s.kind? lhs = some .bool ∧ s.kind? rhs = some .bool ∧ s.kind? cell = some .bool

def Binary (s : Store) (op : TokenKind) (lhs rhs cell : Cell) : Prop :=
  match op with
  | .plus | .dash | .star | .slash => s.Arithmetic lhs rhs cell
  | .less | .lessEquals | .greater | .greaterEquals | .equals | .notEquals =>
    s.Relational lhs rhs cell
  | .logicalAnd | .logicalOr => s.Logical lhs rhs cell
  | _ => False

def Unary (s : Store) (operand cell : Cell) : Prop :=
  ∃ k, (k = .int ∨ k = .float) ∧ s.kind? operand = some k ∧ s.kind? cell = some k

def Known (s : Store) (c : Cell) : Prop := ∃ k, s.kind? c = some k

/-- One argument for each parameter, and each agrees with its parameter. -/
def Passes (s : Store) (f : Signature) (args : List Cell) : Prop :=
  List.Forall₂ s.Agree f.params args

theorem Arithmetic.later (h : s.Arithmetic a b c) (he : s.Evolves t) : t.Arithmetic a b c := by
  obtain ⟨k, hk, ha, hb, hc⟩ := h
  exact ⟨k, hk, he.kind ha, he.kind hb, he.kind hc⟩

theorem Relational.later (h : s.Relational a b c) (he : s.Evolves t) : t.Relational a b c := by
  obtain ⟨k, hk, ha, hb, hc⟩ := h
  exact ⟨k, hk, he.kind ha, he.kind hb, he.kind hc⟩

theorem Logical.later (h : s.Logical a b c) (he : s.Evolves t) : t.Logical a b c :=
  ⟨he.kind h.1, he.kind h.2.1, he.kind h.2.2⟩

theorem Binary.later {op : TokenKind} (h : s.Binary op a b c) (he : s.Evolves t) :
    t.Binary op a b c := by
  cases op
  case plus | dash | star | slash => exact Arithmetic.later h he
  case less | lessEquals | greater | greaterEquals | equals | notEquals =>
    exact Relational.later h he
  case logicalAnd | logicalOr => exact Logical.later h he
  all_goals exact False.elim h

theorem Binary.lt {op : TokenKind} (h : s.Binary op a b c) : c < s.slots.size := by
  cases op
  case plus | dash | star | slash =>
    obtain ⟨k, _, _, _, hc⟩ := h
    exact lt_of_kind hc
  case less | lessEquals | greater | greaterEquals | equals | notEquals =>
    obtain ⟨k, _, _, _, hc⟩ := h
    exact lt_of_kind hc
  case logicalAnd | logicalOr => exact lt_of_kind h.2.2
  all_goals exact False.elim h

theorem Unary.later (h : s.Unary a c) (he : s.Evolves t) : t.Unary a c := by
  obtain ⟨k, hk, ha, hc⟩ := h
  exact ⟨k, hk, he.kind ha, he.kind hc⟩

theorem Known.later (h : s.Known c) (he : s.Evolves t) : t.Known c := by
  obtain ⟨k, hk⟩ := h
  exact ⟨k, he.kind hk⟩

theorem Passes.later {f : Signature} {args : List Cell} (h : s.Passes f args)
    (he : s.Evolves t) : t.Passes f args := by
  exact List.Forall₂.imp (fun a b hab => Agree.later hab he) h

end Store

namespace Signature

structure Within (f : Signature) (s : Store) : Prop where
  params : ∀ c ∈ f.params, c < s.slots.size
  result : f.result < s.slots.size

theorem Within.later {f : Signature} {s t : Store} (h : f.Within s) (he : s.Evolves t) :
    f.Within t where
  params := fun c hc => he.lt (h.params c hc)
  result := he.lt h.result

end Signature

namespace Typing

variable {s t : Store} {x y z : Typed} {c : Cell} {k : Kind} {α β : Type}

theorem new_run (slot : Slot) (s : Store) : new slot s = .ok (s.add slot).1 (s.add slot).2 := rfl

theorem expect_ok {u : Unit} (h : expect x k s = .ok u t) : s.kind? x.cell = some k ∧ t = s := by
  rw [expect, get_bind] at h
  split at h
  · rename_i hk
    obtain ⟨_, rfl⟩ := pure_ok.mp h
    exact ⟨hk, rfl⟩
  · exact absurd h throw_ok

theorem unexpect_ok {a : α} : ¬ unexpect x s = .ok a t := by
  intro h
  rw [unexpect, get_bind] at h
  exact throw_ok h

theorem new_known (hs : s.WellFormed) (h : new (.known k) s = .ok c t) :
    s.Evolves t ∧ t.kind? c = some k := by
  rw [new_run] at h
  cases h
  exact ⟨hs.evolves_add rfl, hs.kind_added rfl⟩

theorem new_unknown (hs : s.WellFormed) (h : new .unknown s = .ok c t) :
    s.Evolves t ∧ c < t.slots.size := by
  rw [new_run] at h
  cases h
  exact ⟨hs.evolves_add rfl, by simp [Store.add]⟩

theorem expectOrInfer_fixes {u : Unit} (hs : s.WellFormed) (hx : x.cell < s.slots.size)
    (h : expectOrInfer x k s = .ok u t) : s.Evolves t ∧ t.kind? x.cell = some k := by
  rw [expectOrInfer, get_bind] at h
  cases hk : s.kind? x.cell with
  | none =>
    rw [hk] at h
    have ht : t = s.fix x.cell k := by
      cases h
      rfl
    subst ht
    refine ⟨hs.evolves_fix hx hk k, ?_⟩
    rw [hs.kind_fix hx, if_pos rfl]
  | some l =>
    rw [hk] at h
    obtain ⟨hk, rfl⟩ := expect_ok h
    exact ⟨.refl hs, hk⟩

theorem unify_agrees {a b : Cell} {location : Location} {u : Unit} (hs : s.WellFormed)
    (ha : a < s.slots.size) (hb : b < s.slots.size) (h : unify a b location s = .ok u t) :
    s.Evolves t ∧ t.Agree a b := by
  rw [unify, get_bind] at h
  cases hka : s.kind? a with
  | some k =>
    cases hkb : s.kind? b with
    | some l =>
      rw [hka, hkb] at h
      obtain ⟨hk, rfl⟩ := expect_ok h
      exact ⟨.refl hs, .inl ⟨k, hka, hk⟩⟩
    | none =>
      rw [hka, hkb] at h
      obtain ⟨he, hk⟩ := expectOrInfer_fixes hs hb h
      exact ⟨he, .inl ⟨k, he.kind hka, hk⟩⟩
  | none =>
    cases hkb : s.kind? b with
    | some k =>
      rw [hka, hkb] at h
      obtain ⟨he, hk⟩ := expectOrInfer_fixes hs ha h
      exact ⟨he, .inl ⟨k, hk, he.kind hkb⟩⟩
    | none =>
      rw [hka, hkb] at h
      have ht : t = s.join a b := by
        cases h
        rfl
      subst ht
      refine ⟨hs.evolves_join ha hb hka hkb, .of_shares ?_⟩
      rw [Store.shares_iff, hs.root_join ha hb, hs.root_join ha hb, if_pos rfl]
      split
      · rfl
      · rfl

theorem operandKind_fixes {allowed : List Kind} (hint : .int ∈ allowed) (hs : s.WellFormed)
    (hx : x.cell < s.slots.size) (hy : y.cell < s.slots.size)
    (h : operandKind allowed x y s = .ok k t) :
    s.Evolves t ∧ k ∈ allowed ∧ t.kind? x.cell = some k ∧ t.kind? y.cell = some k := by
  have hchosen : ∃ l ∈ allowed, (do
      expectOrInfer x l
      expectOrInfer y l
      pure l : Typing Kind) s = .ok k t := by
    rw [operandKind, get_bind] at h
    cases hkx : s.kind? x.cell with
    | some l =>
      rw [hkx] at h
      dsimp only at h
      split at h
      · rename_i hl
        exact ⟨l, hl, h⟩
      · obtain ⟨_, _, hu, _⟩ := bind_ok.mp h
        exact absurd hu unexpect_ok
    | none =>
      cases hky : s.kind? y.cell with
      | some l =>
        rw [hkx, hky] at h
        dsimp only at h
        split at h
        · rename_i hl
          exact ⟨l, hl, h⟩
        · obtain ⟨_, _, hu, _⟩ := bind_ok.mp h
          exact absurd hu unexpect_ok
      | none =>
        rw [hkx, hky] at h
        exact ⟨.int, hint, h⟩
  obtain ⟨l, hl, h⟩ := hchosen
  obtain ⟨_, s₂, h₂, h⟩ := bind_ok.mp h
  obtain ⟨_, s₃, h₃, h⟩ := bind_ok.mp h
  obtain ⟨rfl, rfl⟩ := pure_ok.mp h
  obtain ⟨he₂, hkx⟩ := expectOrInfer_fixes hs hx h₂
  obtain ⟨he₃, hky⟩ := expectOrInfer_fixes he₂.wellFormed (he₂.lt hy) h₃
  exact ⟨he₂.trans he₃, hl, he₃.kind hkx, hky⟩

theorem operandKind_decides {allowed : List Kind} (result : Kind → Kind) (hint : .int ∈ allowed)
    (hs : s.WellFormed) (hx : x.cell < s.slots.size) (hy : y.cell < s.slots.size)
    (h : (operandKind allowed x y >>= fun k => new (.known (result k))) s = .ok c t) :
    s.Evolves t ∧ ∃ k ∈ allowed, t.kind? x.cell = some k ∧ t.kind? y.cell = some k ∧
      t.kind? c = some (result k) := by
  obtain ⟨k, s₁, h₁, h⟩ := bind_ok.mp h
  obtain ⟨he, hk, hkx, hky⟩ := operandKind_fixes hint hs hx hy h₁
  obtain ⟨he', hkc⟩ := new_known he.wellFormed h
  exact ⟨he.trans he', k, hk, he'.kind hkx, he'.kind hky, hkc⟩

theorem arithmetic_holds (hs : s.WellFormed) (hx : x.cell < s.slots.size)
    (hy : y.cell < s.slots.size) (h : arithmetic x y s = .ok c t) :
    s.Evolves t ∧ t.Arithmetic x.cell y.cell c := by
  obtain ⟨he, k, hk, hkinds⟩ := operandKind_decides id (by decide) hs hx hy h
  exact ⟨he, k, by simpa using hk, hkinds⟩

theorem relational_holds (hs : s.WellFormed) (hx : x.cell < s.slots.size)
    (hy : y.cell < s.slots.size) (h : relational x y s = .ok c t) :
    s.Evolves t ∧ t.Relational x.cell y.cell c := by
  obtain ⟨he, k, hk, hkinds⟩ := operandKind_decides (fun _ => .bool) (by decide) hs hx hy h
  exact ⟨he, k, by simpa using hk, hkinds⟩

theorem logical_holds (hs : s.WellFormed) (hx : x.cell < s.slots.size)
    (hy : y.cell < s.slots.size) (h : logical x y s = .ok c t) :
    s.Evolves t ∧ t.Logical x.cell y.cell c := by
  obtain ⟨_, s₁, h₁, h⟩ := bind_ok.mp h
  obtain ⟨_, s₂, h₂, h⟩ := bind_ok.mp h
  obtain ⟨he₁, hkx⟩ := expectOrInfer_fixes hs hx h₁
  obtain ⟨he₂, hky⟩ := expectOrInfer_fixes he₁.wellFormed (he₁.lt hy) h₂
  obtain ⟨he₃, hkc⟩ := new_known he₂.wellFormed h
  exact ⟨(he₁.trans he₂).trans he₃, he₃.kind (he₂.kind hkx), he₃.kind hky, hkc⟩

theorem binary_holds {op : Token} (hs : s.WellFormed) (hx : x.cell < s.slots.size)
    (hy : y.cell < s.slots.size) (h : binary op x y s = .ok c t) :
    s.Evolves t ∧ t.Binary op.kind x.cell y.cell c := by
  unfold Store.Binary
  unfold binary at h
  cases hop : op.kind
  all_goals rw [hop] at h
  case plus | dash | star | slash => exact arithmetic_holds hs hx hy h
  case less | lessEquals | greater | greaterEquals | equals | notEquals =>
    exact relational_holds hs hx hy h
  case logicalAnd | logicalOr => exact logical_holds hs hx hy h
  all_goals exact absurd h throw_ok

theorem unary_holds (hs : s.WellFormed) (hx : x.cell < s.slots.size)
    (h : unary x s = .ok c t) : s.Evolves t ∧ t.Unary x.cell c := by
  have hchosen : ∃ k : Kind, k.isNumeric = true ∧ (do
      expectOrInfer x k
      new (.known k) : Typing Cell) s = .ok c t := by
    rw [unary, get_bind] at h
    cases hkx : s.kind? x.cell with
    | some k =>
      rw [hkx] at h
      dsimp only at h
      split at h
      · rename_i hk
        exact ⟨k, hk, h⟩
      · obtain ⟨_, _, hu, _⟩ := bind_ok.mp h
        exact absurd hu unexpect_ok
    | none =>
      rw [hkx] at h
      exact ⟨.int, rfl, h⟩
  obtain ⟨k, hk, h⟩ := hchosen
  obtain ⟨_, s₂, h₂, h⟩ := bind_ok.mp h
  obtain ⟨he₂, hkx⟩ := expectOrInfer_fixes hs hx h₂
  obtain ⟨he₃, hkc⟩ := new_known he₂.wellFormed h
  refine ⟨he₂.trans he₃, k, ?_, he₃.kind hkx, hkc⟩
  cases k
  case int => exact .inl rfl
  case float => exact .inr rfl
  all_goals cases hk

theorem defaultToUnit_knows {u : Unit} (hs : s.WellFormed) (hx : x.cell < s.slots.size)
    (h : defaultToUnit x s = .ok u t) : s.Evolves t ∧ t.Known x.cell := by
  rw [defaultToUnit, get_bind] at h
  split at h
  · obtain ⟨he, hk⟩ := expectOrInfer_fixes hs hx h
    exact ⟨he, _, hk⟩
  · rename_i hu
    obtain ⟨_, rfl⟩ := pure_ok.mp h
    refine ⟨.refl hs, Option.isSome_iff_exists.mp ?_⟩
    simpa [Store.isUnknown, Option.ne_none_iff_isSome] using hu

/-- A conditional is of the type of its first branch, with which the second one agrees. -/
theorem conditional_holds {second : Option Typed} (hs : s.WellFormed)
    (hx : x.cell < s.slots.size) (hy : y.cell < s.slots.size)
    (hz : ∀ z ∈ second, z.cell < s.slots.size) (h : conditional x y second s = .ok c t) :
    s.Evolves t ∧ c = y.cell ∧ t.kind? x.cell = some .bool ∧
      second.elim (t.Known y.cell) fun z => t.Agree y.cell z.cell := by
  obtain ⟨_, s₁, h₁, h⟩ := bind_ok.mp h
  obtain ⟨he₁, hkx⟩ := expectOrInfer_fixes hs hx h₁
  cases second with
  | none =>
    obtain ⟨_, s₂, h₂, h⟩ := bind_ok.mp h
    obtain ⟨rfl, rfl⟩ := pure_ok.mp h
    obtain ⟨he₂, hk⟩ := defaultToUnit_knows he₁.wellFormed (he₁.lt hy) h₂
    exact ⟨he₁.trans he₂, rfl, he₂.kind hkx, hk⟩
  | some z =>
    obtain ⟨_, s₂, h₂, h⟩ := bind_ok.mp h
    obtain ⟨rfl, rfl⟩ := pure_ok.mp h
    obtain ⟨he₂, hk⟩ := unify_agrees he₁.wellFormed (he₁.lt hy) (he₁.lt (hz z rfl)) h₂
    exact ⟨he₁.trans he₂, rfl, he₂.kind hkx, hk⟩

theorem loop_holds (hs : s.WellFormed) (hx : x.cell < s.slots.size) (hy : y.cell < s.slots.size)
    (h : loop x y s = .ok c t) :
    s.Evolves t ∧ c = y.cell ∧ t.kind? x.cell = some .bool ∧ t.Known y.cell := by
  obtain ⟨_, s₁, h₁, h⟩ := bind_ok.mp h
  obtain ⟨_, s₂, h₂, h⟩ := bind_ok.mp h
  obtain ⟨rfl, rfl⟩ := pure_ok.mp h
  obtain ⟨he₁, hkx⟩ := expectOrInfer_fixes hs hx h₁
  obtain ⟨he₂, hk⟩ := defaultToUnit_knows he₁.wellFormed (he₁.lt hy) h₂
  exact ⟨he₁.trans he₂, rfl, he₂.kind hkx, hk⟩

theorem unifyArguments_agree {params : List Cell} {args : List Typed} {u : Unit}
    (hs : s.WellFormed) (hp : ∀ c ∈ params, c < s.slots.size)
    (ha : ∀ x ∈ args, x.cell < s.slots.size) (hl : args.length = params.length)
    (h : unifyArguments params args s = .ok u t) :
    s.Evolves t ∧ List.Forall₂ t.Agree params (args.map Typed.cell) := by
  induction params generalizing args s with
  | nil =>
    obtain rfl := List.length_eq_zero_iff.mp hl
    obtain ⟨_, rfl⟩ := pure_ok.mp h
    exact ⟨.refl hs, .nil⟩
  | cons param params ih =>
    cases args with
    | nil => cases hl
    | cons arg args =>
      obtain ⟨_, s₁, h₁, h⟩ := bind_ok.mp h
      obtain ⟨hp₀, hp⟩ := List.forall_mem_cons.mp hp
      obtain ⟨ha₀, ha⟩ := List.forall_mem_cons.mp ha
      obtain ⟨he₁, hag⟩ := unify_agrees hs hp₀ ha₀ h₁
      obtain ⟨he₂, hags⟩ := ih he₁.wellFormed (fun c hc => he₁.lt (hp c hc))
        (fun x hx => he₁.lt (ha x hx)) (Nat.succ.inj hl) h
      exact ⟨he₁.trans he₂, .cons (hag.later he₂) hags⟩

theorem call_holds {name : Token} {f : Signature} {args : List Typed} (hs : s.WellFormed)
    (hf : f.Within s) (ha : ∀ x ∈ args, x.cell < s.slots.size)
    (h : call name f args s = .ok c t) :
    s.Evolves t ∧ c = f.result ∧ t.Passes f (args.map Typed.cell) := by
  unfold call at h
  split at h
  · exact absurd h throw_ok
  · rename_i hl
    obtain ⟨_, s₁, h₁, h⟩ := bind_ok.mp h
    obtain ⟨rfl, rfl⟩ := pure_ok.mp h
    obtain ⟨he, hags⟩ := unifyArguments_agree hs hf.params ha (Decidable.not_not.mp hl) h₁
    exact ⟨he, rfl, hags⟩

theorem functionBody_agrees {f : Signature} {u : Unit} (hs : s.WellFormed) (hf : f.Within s)
    (hx : x.cell < s.slots.size) (h : functionBody f x s = .ok u t) :
    s.Evolves t ∧ t.Agree f.result x.cell :=
  unify_agrees hs hf.result hx h

end Typing

open Typing

variable {s t : Store}

theorem Signature.newParams_within {n : Nat} {cells : List Cell} (hs : s.WellFormed)
    (h : newParams n s = .ok cells t) : s.Evolves t ∧ ∀ c ∈ cells, c < t.slots.size := by
  induction n generalizing s cells with
  | zero =>
    obtain ⟨rfl, rfl⟩ := pure_ok.mp h
    exact ⟨.refl hs, by simp⟩
  | succ n ih =>
    obtain ⟨first, s₁, h₁, h⟩ := bind_ok.mp h
    obtain ⟨others, s₂, h₂, h⟩ := bind_ok.mp h
    obtain ⟨rfl, rfl⟩ := pure_ok.mp h
    obtain ⟨he₁, hc⟩ := new_unknown hs h₁
    obtain ⟨he₂, hcs⟩ := ih he₁.wellFormed h₂
    exact ⟨he₁.trans he₂, List.forall_mem_cons.mpr ⟨he₂.lt hc, hcs⟩⟩

theorem Signature.new_within {n : Nat} {f : Signature} (hs : s.WellFormed)
    (h : new n s = .ok f t) : s.Evolves t ∧ f.Within t := by
  obtain ⟨params, s₁, h₁, h⟩ := bind_ok.mp h
  obtain ⟨result, s₂, h₂, h⟩ := bind_ok.mp h
  obtain ⟨rfl, rfl⟩ := pure_ok.mp h
  obtain ⟨he₁, hcs⟩ := newParams_within hs h₁
  obtain ⟨he₂, hc⟩ := new_unknown he₁.wellFormed h₂
  exact ⟨he₁.trans he₂, fun c hc => he₂.lt (hcs c hc), hc⟩

end MiniMl
