import MiniMl.Proofs.Scope.Relocation
import MiniMl.Typing.Rules

/-! # Typing at other locations

A typing rule looks at no location. With relocated operands it fixes and links the same cells, and
an error is reported at the relocated place.
-/

namespace MiniMl

variable {α β : Type} (f : Location → Location)

def Typed.relocate (x : Typed) : Typed := { x with location := f x.location }

@[simp] theorem Typed.relocate_cell (x : Typed) : (x.relocate f).cell = x.cell := rfl

@[simp] theorem Typed.relocate_location (x : Typed) :
    (x.relocate f).location = f x.location := rfl

namespace Typing

/-- The rule with its error reported elsewhere. -/
def relocate (rule : Typing α) : Typing α := fun s =>
  match rule s with
  | .ok a t => .ok a t
  | .error d t => .error (d.relocate f) t

@[simp] theorem relocate_pure (a : α) : relocate f (pure a) = pure a := rfl

@[simp] theorem relocate_get : relocate f get = get := rfl

@[simp] theorem relocate_new (slot : Slot) : relocate f (new slot) = new slot := rfl

@[simp] theorem relocate_throw (d : Diagnostic) :
    relocate f (throw d : Typing α) = throw (d.relocate f) := rfl

@[simp] theorem relocate_seq (x : Typing α) (rule : α → Typing β) :
    relocate f (x >>= rule) = relocate f x >>= fun a => relocate f (rule a) := by
  funext s
  cases h : x s with
  | ok a t => simp only [relocate, bind, EStateM.bind, h]
  | error d t => simp only [relocate, bind, EStateM.bind, h]

@[simp] theorem relocate_map (g : α → β) (x : Typing α) :
    relocate f (g <$> x) = g <$> relocate f x := by
  rw [map_eq_pure_bind, map_eq_pure_bind, relocate_seq]
  rfl

@[simp] theorem relocate_ite (c : Prop) [Decidable c] (x y : Typing α) :
    relocate f (if c then x else y) = if c then relocate f x else relocate f y :=
  apply_ite (relocate f) c x y

variable (lhs rhs x : Typed) (a b : Cell) (kind : Kind)

@[simp] theorem expect_relocate : expect (x.relocate f) kind = relocate f (expect x kind) := by
  unfold expect
  rw [relocate_seq]
  refine bind_congr fun s => ?_
  rw [relocate_ite]
  rfl

@[simp] theorem expectOrInfer_relocate :
    expectOrInfer (x.relocate f) kind = relocate f (expectOrInfer x kind) := by
  unfold expectOrInfer
  rw [relocate_seq]
  refine bind_congr fun s => ?_
  rw [Typed.relocate_cell]
  cases s.kind? x.cell with
  | none => rfl
  | some _ => exact expect_relocate f x kind

@[simp] theorem unexpect_relocate :
    (unexpect (x.relocate f) : Typing α) = relocate f (unexpect x) := by
  simp [unexpect, Diagnostic.relocate]

@[simp] theorem unify_relocate (location : Location) :
    unify a b (f location) = relocate f (unify a b location) := by
  unfold unify
  rw [relocate_seq]
  refine bind_congr fun s => ?_
  cases s.kind? a with
  | none =>
    cases s.kind? b with
    | none => rfl
    | some kind => exact expectOrInfer_relocate f ⟨a, location⟩ kind
  | some kind =>
    cases s.kind? b with
    | none => exact expectOrInfer_relocate f ⟨b, location⟩ kind
    | some _ => exact expect_relocate f ⟨b, location⟩ kind

@[simp] theorem operandKind_relocate (allowed : List Kind) :
    operandKind allowed (lhs.relocate f) (rhs.relocate f) =
      relocate f (operandKind allowed lhs rhs) := by
  unfold operandKind
  rw [relocate_seq]
  refine bind_congr fun s => ?_
  rw [Typed.relocate_cell, Typed.relocate_cell]
  cases s.kind? lhs.cell with
  | some kind => simp
  | none =>
    cases s.kind? rhs.cell with
    | some kind => simp
    | none => simp

theorem binary_relocate (op : Token) :
    binary (op.relocate f) (lhs.relocate f) (rhs.relocate f) = relocate f (binary op lhs rhs) := by
  have harithmetic : arithmetic (lhs.relocate f) (rhs.relocate f) =
      relocate f (arithmetic lhs rhs) := by simp [arithmetic]
  have hrelational : relational (lhs.relocate f) (rhs.relocate f) =
      relocate f (relational lhs rhs) := by simp [relational]
  have hlogical : logical (lhs.relocate f) (rhs.relocate f) = relocate f (logical lhs rhs) := by
    simp [logical]
  unfold binary
  rw [Token.relocate_kind, harithmetic, hrelational, hlogical]
  cases op.kind <;> rfl

theorem unary_relocate : unary (x.relocate f) = relocate f (unary x) := by
  unfold unary
  rw [relocate_seq]
  refine bind_congr fun s => ?_
  rw [Typed.relocate_cell]
  cases s.kind? x.cell with
  | some kind => simp
  | none => simp

@[simp] theorem defaultToUnit_relocate :
    defaultToUnit (x.relocate f) = relocate f (defaultToUnit x) := by
  simp [defaultToUnit]

theorem conditional_relocate (condition first : Typed) (second : Option Typed) :
    conditional (condition.relocate f) (first.relocate f) (second.map (Typed.relocate f)) =
      relocate f (conditional condition first second) := by
  cases second with
  | none => simp [conditional]
  | some second => simp [conditional]

theorem loop_relocate (condition body : Typed) :
    loop (condition.relocate f) (body.relocate f) = relocate f (loop condition body) := by
  simp [loop]

@[simp] theorem unifyArguments_relocate (params : List Cell) (args : List Typed) :
    unifyArguments params (args.map (Typed.relocate f)) =
      relocate f (unifyArguments params args) := by
  induction params generalizing args with
  | nil => rfl
  | cons param params ih =>
    cases args with
    | nil => rfl
    | cons arg args => simp [unifyArguments, ih]

theorem call_relocate (name : Token) (g : Signature) (args : List Typed) :
    call (name.relocate f) g (args.map (Typed.relocate f)) = relocate f (call name g args) := by
  simp [call, Diagnostic.relocate]

theorem functionBody_relocate (g : Signature) (body : Typed) :
    functionBody g (body.relocate f) = relocate f (functionBody g body) := by
  simp [functionBody]

theorem newParams_relocate (n : Nat) :
    relocate f (Signature.newParams n) = Signature.newParams n := by
  induction n with
  | zero => rfl
  | succ n ih => simp [Signature.newParams, ih]

theorem signature_relocate (arity : Nat) :
    relocate f (Signature.new arity) = Signature.new arity := by
  simp [Signature.new, newParams_relocate]

end Typing

end MiniMl
