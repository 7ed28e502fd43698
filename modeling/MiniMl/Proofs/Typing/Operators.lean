import MiniMl.Proofs.Typing.Histories

/-! # The typing table of the operators

Whether an operator accepts its operands depends on the kinds that are known of them and on nothing
else. The operands may be one cell, linked cells or unrelated ones: the second is looked at in the
store that the first has left behind, where it fits a kind exactly if it did so before.
-/

namespace MiniMl

namespace Store

variable {s t : Store} {a b c d : Cell} {k l result : Kind} {operands : List Cell}
  {allowed : List Kind}

/-- No other kind is known of the cell. -/
def Fits (s : Store) (c : Cell) (k : Kind) : Prop := ∀ l, s.kind? c = some l → l = k

def settle (s : Store) (c : Cell) (k : Kind) : Store := if s.isUnknown c then s.fix c k else s

def settleAll (s : Store) (operands : List Cell) (k : Kind) : Store :=
  operands.foldl (fun s c => s.settle c k) s

/-- The cell is one with an unknown operand. -/
def Affected (s : Store) (operands : List Cell) (c : Cell) : Prop :=
  ∃ a ∈ operands, s.kind? a = none ∧ s.shares c a

/-- The kinds that are known of two operands are allowed ones and do not differ. -/
structure Admits (s : Store) (allowed : List Kind) (a b : Cell) : Prop where
  left : ∀ k, s.kind? a = some k → k ∈ allowed
  right : ∀ k, s.kind? b = some k → k ∈ allowed
  same : ∀ k l, s.kind? a = some k → s.kind? b = some l → k = l

/-- The kind that is known of either operand, and `int` if none is. -/
def common (s : Store) (a b : Cell) : Kind := ((s.kind? a).or (s.kind? b)).getD .int

/-- What an operator leaves behind: operands of one kind and a new cell for the result. -/
structure Decides (s : Store) (operands : List Cell) (k result : Kind) (c : Cell) (t : Store) :
    Prop where
  operand : ∀ a ∈ operands, t.kind? a = some k
  fresh : c = s.slots.size ∧ t.slots.size = s.slots.size + 1
  result : t.kind? c = some result
  alone : ∀ d < s.slots.size, ¬ t.shares d c
  links : ∀ d e, t.shares d e = s.shares d e
  affected : ∀ d, s.Affected operands d → t.kind? d = some k
  kept : ∀ d < s.slots.size, ¬ s.Affected operands d → t.kind? d = s.kind? d

theorem isUnknown_iff : s.isUnknown c ↔ s.kind? c = none := by
  simp [isUnknown, Option.isNone_iff_eq_none]

theorem settle_unknown (h : s.kind? c = none) : s.settle c k = s.fix c k :=
  if_pos (isUnknown_iff.mpr h)

theorem settle_known (h : s.kind? c ≠ none) : s.settle c k = s :=
  if_neg fun hu => h (isUnknown_iff.mp hu)

@[simp] theorem size_settle : (s.settle c k).slots.size = s.slots.size := by
  unfold settle
  split
  · simp [fix]
  · rfl

theorem WellFormed.settle (hs : s.WellFormed) (c : Cell) (k : Kind) : (s.settle c k).WellFormed := by
  unfold Store.settle
  split
  · exact hs.fix c k
  · exact hs

theorem WellFormed.root_settle (hs : s.WellFormed) (a : Cell) (k : Kind) (c : Cell) :
    (s.settle a k).root c = s.root c := by
  unfold Store.settle
  split
  · exact hs.root_fix a k c
  · rfl

theorem WellFormed.shares_settle (hs : s.WellFormed) : (s.settle c k).shares a b = s.shares a b := by
  unfold shares
  rw [hs.root_settle, hs.root_settle]

theorem WellFormed.kind_settle_shared (hs : s.WellFormed) (ha : a < s.slots.size)
    (hk : s.kind? a = none) (h : s.shares c a) : (s.settle a k).kind? c = some k := by
  rw [settle_unknown hk, hs.kind_fix ha, if_pos (shares_iff.mp h)]

theorem WellFormed.kind_settle_other (hs : s.WellFormed) (ha : a < s.slots.size)
    (h : ¬ (s.kind? a = none ∧ s.shares c a)) : (s.settle a k).kind? c = s.kind? c := by
  by_cases hk : s.kind? a = none
  · have hroot : s.root c ≠ s.root a := fun hr => h ⟨hk, shares_iff.mpr hr⟩
    rw [settle_unknown hk, hs.kind_fix ha, if_neg hroot]
  · rw [settle_known hk]

theorem WellFormed.fits_settle (hs : s.WellFormed) (ha : a < s.slots.size) :
    (s.settle a k).Fits c k ↔ s.Fits c k := by
  by_cases h : s.kind? a = none ∧ s.shares c a
  · constructor
    · intro _ l hl
      rw [kind_of_shares h.2, h.1] at hl
      cases hl
    · intro _ l hl
      rw [hs.kind_settle_shared ha h.1 h.2] at hl
      exact (Option.some.inj hl).symm
  · unfold Fits
    rw [hs.kind_settle_other ha h]

theorem not_affected_of_known (h : s.kind? c = some k) : ¬ s.Affected operands c := by
  rintro ⟨a, _, ha, hshares⟩
  rw [kind_of_shares hshares, ha] at h
  cases h

theorem affected_of_unknown (ha : a ∈ operands) (h : s.kind? a = none) : s.Affected operands a :=
  ⟨a, ha, h, shares_iff.mpr rfl⟩

@[simp] theorem size_settleAll : (s.settleAll operands k).slots.size = s.slots.size := by
  induction operands generalizing s with
  | nil => rfl
  | cons a operands ih =>
    change ((s.settle a k).settleAll operands k).slots.size = _
    rw [ih, size_settle]

theorem WellFormed.settleAll (hs : s.WellFormed) (operands : List Cell) (k : Kind) :
    (s.settleAll operands k).WellFormed := by
  induction operands generalizing s with
  | nil => exact hs
  | cons a operands ih => exact ih (hs.settle a k)

theorem WellFormed.root_settleAll (hs : s.WellFormed) (operands : List Cell) (k : Kind) (c : Cell) :
    (s.settleAll operands k).root c = s.root c := by
  induction operands generalizing s with
  | nil => rfl
  | cons a operands ih =>
    change ((s.settle a k).settleAll operands k).root c = _
    rw [ih (hs.settle a k), hs.root_settle]

theorem WellFormed.affected_settle (hs : s.WellFormed) (ha : a < s.slots.size)
    (h : (s.settle a k).Affected operands c) : s.Affected operands c := by
  obtain ⟨b, hb, hk, hshares⟩ := h
  rw [hs.shares_settle] at hshares
  refine ⟨b, hb, ?_, hshares⟩
  by_cases hab : s.kind? a = none ∧ s.shares b a
  · rw [hs.kind_settle_shared ha hab.1 hab.2] at hk
    cases hk
  · rwa [hs.kind_settle_other ha hab] at hk

theorem WellFormed.kind_unaffected (hs : s.WellFormed) (hin : ∀ a ∈ operands, a < s.slots.size)
    (h : ¬ s.Affected operands c) : (s.settleAll operands k).kind? c = s.kind? c := by
  induction operands generalizing s with
  | nil => rfl
  | cons a operands ih =>
    obtain ⟨ha, hrest⟩ := List.forall_mem_cons.mp hin
    have hself : ¬ (s.kind? a = none ∧ s.shares c a) := fun hc =>
      h ⟨a, List.mem_cons_self, hc.1, hc.2⟩
    have hothers : ¬ (s.settle a k).Affected operands c := by
      intro hc
      obtain ⟨b, hb, hk, hshares⟩ := hs.affected_settle ha hc
      exact h ⟨b, List.mem_cons_of_mem a hb, hk, hshares⟩
    change ((s.settle a k).settleAll operands k).kind? c = _
    rw [ih (hs.settle a k) (by simpa using hrest) hothers, hs.kind_settle_other ha hself]

/-- The first operand that the cell is linked with decides; those behind it find it known. -/
theorem WellFormed.kind_affected (hs : s.WellFormed) (hin : ∀ a ∈ operands, a < s.slots.size)
    (h : s.Affected operands c) : (s.settleAll operands k).kind? c = some k := by
  induction operands generalizing s with
  | nil =>
    obtain ⟨a, ha, _⟩ := h
    cases ha
  | cons a operands ih =>
    obtain ⟨ha, hrest⟩ := List.forall_mem_cons.mp hin
    replace hrest : ∀ b ∈ operands, b < (s.settle a k).slots.size := by simpa using hrest
    change ((s.settle a k).settleAll operands k).kind? c = _
    by_cases hself : s.kind? a = none ∧ s.shares c a
    · have hk := hs.kind_settle_shared (k := k) ha hself.1 hself.2
      rw [(hs.settle a k).kind_unaffected hrest (not_affected_of_known hk), hk]
    · apply ih (hs.settle a k) hrest
      obtain ⟨b, hb, hk, hshares⟩ := h
      rcases List.mem_cons.mp hb with rfl | hb
      · exact absurd ⟨hk, hshares⟩ hself
      refine ⟨b, hb, ?_, by rwa [hs.shares_settle]⟩
      rw [← kind_of_shares (s := s.settle a k) (by rwa [hs.shares_settle]),
        hs.kind_settle_other ha hself, kind_of_shares hshares, hk]

theorem WellFormed.kind_operand (hs : s.WellFormed) (hin : ∀ a ∈ operands, a < s.slots.size)
    (ha : a ∈ operands) (hfits : s.Fits a k) : (s.settleAll operands k).kind? a = some k := by
  cases hk : s.kind? a with
  | none => exact hs.kind_affected hin (affected_of_unknown ha hk)
  | some l =>
    rw [hs.kind_unaffected hin (not_affected_of_known hk), hk, hfits l hk]

theorem WellFormed.decides (hs : s.WellFormed) (hin : ∀ a ∈ operands, a < s.slots.size)
    (hfits : ∀ a ∈ operands, s.Fits a k) :
    s.Decides operands k result ((s.settleAll operands k).add (.known result)).1
      ((s.settleAll operands k).add (.known result)).2 := by
  have hset := hs.settleAll operands k
  have hroot : ∀ d, ((s.settleAll operands k).add (.known result)).2.root d = s.root d := by
    intro d
    rw [hset.root_add rfl, hs.root_settleAll]
  have hold : ∀ d < s.slots.size, ((s.settleAll operands k).add (.known result)).2.kind? d =
      (s.settleAll operands k).kind? d := fun d hd => hset.kind_add rfl (by simpa using hd)
  constructor
  · intro a ha
    rw [hold a (hin a ha), hs.kind_operand hin ha (hfits a ha)]
  · constructor
    · simp [Store.add]
    · simp [Store.add]
  · exact hset.kind_added rfl
  · intro d hd h
    have hnew : ((s.settleAll operands k).add (.known result)).1 = s.slots.size := by
      simp [Store.add]
    have hend : s.root s.slots.size = s.slots.size :=
      root_of_isRoot (isRoot_of_size_le (Nat.le_refl _))
    rw [shares_iff, hroot, hroot, hnew, hend] at h
    exact absurd h (Nat.ne_of_lt (hs.root_lt hd))
  · intro d e
    unfold shares
    rw [hroot, hroot]
  · intro d hd
    have hlt : d < s.slots.size := by
      obtain ⟨a, ha, _, hshares⟩ := hd
      exact lt_of_root_lt (by
        rw [shares_iff.mp hshares]
        exact hs.root_lt (hin a ha))
    rw [hold d hlt, hs.kind_affected hin hd]
  · intro d hlt hd
    rw [hold d hlt, hs.kind_unaffected hin hd]

theorem Admits.fits (h : s.Admits allowed a b) :
    s.Fits a (s.common a b) ∧ s.Fits b (s.common a b) := by
  constructor
  · intro k hk
    simp [common, hk]
  · intro l hl
    cases hk : s.kind? a with
    | none => simp [common, hk, hl]
    | some k =>
      simp only [common, hk, Option.some_or, Option.getD_some]
      exact (h.same k l hk hl).symm

theorem fits_of_kind (h : s.kind? c = some k) : s.Fits c k :=
  fun _ hl => Option.some.inj (hl.symm.trans h)

theorem admits_of_known (hk : s.kind? a = some k) :
    s.Admits allowed a b ↔ k ∈ allowed ∧ s.Fits b k := by
  constructor
  · intro h
    exact ⟨h.left k hk, fun l hl => (h.same k l hk hl).symm⟩
  · rintro ⟨hallowed, hfits⟩
    constructor
    · intro l hl
      rwa [fits_of_kind hk l hl]
    · intro l hl
      rwa [hfits l hl]
    · intro l m hl hm
      rw [fits_of_kind hk l hl, hfits m hm]

theorem admits_of_unknown (hk : s.kind? a = none) :
    s.Admits allowed a b ↔ ∀ l, s.kind? b = some l → l ∈ allowed := by
  constructor
  · intro h
    exact h.right
  · intro h
    constructor
    · simp [hk]
    · exact h
    · simp [hk]

theorem admits_self : s.Admits allowed a a ↔ ∀ k, s.kind? a = some k → k ∈ allowed := by
  cases hk : s.kind? a with
  | none => simp [admits_of_unknown hk, hk]
  | some k => simp [admits_of_known hk, fits_of_kind hk]

theorem common_self : s.common a a = (s.kind? a).getD .int := by
  cases hk : s.kind? a with
  | none => simp [common, hk]
  | some k => simp [common, hk]

theorem affected_twice : s.Affected [a, a] c ↔ s.Affected [a] c := by simp [Affected]

theorem Decides.of_twice (h : s.Decides [a, a] k result c t) : s.Decides [a] k result c t where
  operand := fun b hb => h.operand b (List.mem_cons_of_mem a hb)
  fresh := h.fresh
  result := h.result
  alone := h.alone
  links := h.links
  affected := fun d hd => h.affected d (affected_twice.mpr hd)
  kept := fun d hlt hd => h.kept d hlt (mt affected_twice.mp hd)

end Store

namespace Typing

variable {s t : Store} {x y : Typed} {k : Kind} {allowed : List Kind}

theorem expectOrInfer_fits (h : s.Fits x.cell k) :
    expectOrInfer x k s = .ok () (s.settle x.cell k) := by
  rw [expectOrInfer, get_bind]
  cases hk : s.kind? x.cell with
  | none =>
    rw [Store.settle_unknown hk]
    rfl
  | some l =>
    obtain rfl := h l hk
    rw [Store.settle_known (by simp [hk])]
    change expect x l s = _
    rw [expect, get_bind, if_pos hk]
    rfl

theorem expectOrInfer_unfit (h : ¬ s.Fits x.cell k) :
    expectOrInfer x k s = .error ⟨.typeMismatch k.name (s.name x.cell), x.location⟩ s := by
  rw [expectOrInfer, get_bind]
  cases hk : s.kind? x.cell with
  | none => exact absurd (fun l hl => by rw [hk] at hl; cases hl) h
  | some l =>
    have hne : s.kind? x.cell ≠ some k := by
      intro hk'
      exact h fun m hm => Option.some.inj (hm.symm.trans hk')
    change expect x k s = _
    rw [expect, get_bind, if_neg hne]
    rfl

theorem settleBoth_run (hs : s.WellFormed) (hx : x.cell < s.slots.size) (hfx : s.Fits x.cell k)
    (hfy : s.Fits y.cell k) {α : Type} (f : Typing α) :
    (do
      expectOrInfer x k
      expectOrInfer y k
      f : Typing α) s = f (s.settleAll [x.cell, y.cell] k) := by
  have hfy' := (hs.fits_settle (k := k) hx).mpr hfy
  simp only [bind_of_run (expectOrInfer_fits hfx), bind_of_run (expectOrInfer_fits hfy')]
  rfl

theorem operandKind_admitted (hs : s.WellFormed) (hx : x.cell < s.slots.size)
    (h : s.Admits allowed x.cell y.cell) :
    operandKind allowed x y s = .ok (s.common x.cell y.cell)
      (s.settleAll [x.cell, y.cell] (s.common x.cell y.cell)) := by
  have hrun := settleBoth_run hs hx h.fits.1 h.fits.2 (pure (s.common x.cell y.cell))
  rw [operandKind, get_bind]
  cases hkx : s.kind? x.cell with
  | some k =>
    rw [show s.common x.cell y.cell = k by simp [Store.common, hkx]] at hrun ⊢
    dsimp only
    rw [if_pos (h.left k hkx)]
    exact hrun
  | none =>
    cases hky : s.kind? y.cell with
    | some k =>
      rw [show s.common x.cell y.cell = k by simp [Store.common, hkx, hky]] at hrun ⊢
      dsimp only
      rw [if_pos (h.right k hky)]
      exact hrun
    | none =>
      rw [show s.common x.cell y.cell = .int by simp [Store.common, hkx, hky]] at hrun ⊢
      exact hrun

/-- The error about operands that are not admitted: a kind that is not allowed is reported at the
operand that has it, the left one first, and a difference at the right one. -/
def operandFault (s : Store) (allowed : List Kind) (x y : Typed) : Diagnostic :=
  match s.kind? x.cell with
  | none => ⟨.unexpectedType (s.name y.cell), y.location⟩
  | some k =>
    if k ∈ allowed then ⟨.typeMismatch k.name (s.name y.cell), y.location⟩
    else ⟨.unexpectedType (s.name x.cell), x.location⟩

theorem operandKind_refused (h : ¬ s.Admits allowed x.cell y.cell) :
    operandKind allowed x y s = .error (operandFault s allowed x y) s := by
  rw [operandKind, get_bind]
  unfold operandFault
  cases hkx : s.kind? x.cell with
  | some k =>
    rw [Store.admits_of_known hkx] at h
    dsimp only
    by_cases hk : k ∈ allowed
    · have hfy : ¬ s.Fits y.cell k := fun hfy => h ⟨hk, hfy⟩
      have hfirst := expectOrInfer_fits (Store.fits_of_kind hkx)
      rw [Store.settle_known (by simp [hkx])] at hfirst
      rw [if_pos hk, if_pos hk]
      change (do
        expectOrInfer x k
        expectOrInfer y k
        pure k : Typing Kind) s = _
      rw [bind_of_run hfirst, bind_of_error (expectOrInfer_unfit hfy)]
    · rw [if_neg hk, if_neg hk]
      rfl
  | none =>
    rw [Store.admits_of_unknown hkx] at h
    cases hky : s.kind? y.cell with
    | some k =>
      have hk : k ∉ allowed := by
        intro hk
        exact h fun l hl => by rwa [Store.fits_of_kind hky l hl]
      dsimp only
      rw [if_neg hk]
      rfl
    | none => exact absurd (by simp [hky]) h

/-- A rule in a store: when it succeeds, what it then leaves behind, and what it fails with. -/
structure Follows (rule : Typing Cell) (s : Store) (admitted : Prop)
    (decides : Cell → Store → Prop) (refused : Diagnostic → Store → Prop) : Prop where
  succeeds : (∃ c t, rule s = .ok c t) ↔ admitted
  decides : ∀ c t, rule s = .ok c t → decides c t
  refused : ∀ d t, rule s = .error d t → refused d t

/-- A failure that has changed nothing. It is reported at the left operand exactly if the kind of
that one is known and not allowed. -/
structure Refused (s : Store) (allowed : List Kind) (x y : Typed) (d : Diagnostic) (t : Store) :
    Prop where
  unchanged : t = s
  diagnostic : d = operandFault s allowed x y
  left : (∃ k, s.kind? x.cell = some k ∧ k ∉ allowed) → d.location = x.location
  right : ¬ (∃ k, s.kind? x.cell = some k ∧ k ∉ allowed) → d.location = y.location

variable {rule : Typing Cell} {admitted : Prop} {decides : Cell → Store → Prop}
  {refused : Diagnostic → Store → Prop} {c : Cell} {d : Diagnostic}

theorem Follows.of_ok (hrun : rule s = .ok c t) (ha : admitted) (hd : decides c t) :
    Follows rule s admitted decides refused := by
  constructor
  · exact ⟨fun _ => ha, fun _ => ⟨c, t, hrun⟩⟩
  · intro c' t' h
    rw [hrun] at h
    cases h
    exact hd
  · intro d t' h
    rw [hrun] at h
    cases h

theorem Follows.of_error (hrun : rule s = .error d t) (ha : ¬ admitted) (hd : refused d t) :
    Follows rule s admitted decides refused := by
  constructor
  · constructor
    · rintro ⟨c, t', h⟩
      rw [hrun] at h
      cases h
    · intro h
      exact absurd h ha
  · intro c t' h
    rw [hrun] at h
    cases h
  · intro d' t' h
    rw [hrun] at h
    cases h
    exact hd

theorem operandFault_refused : Refused s allowed x y (operandFault s allowed x y) s := by
  constructor
  · rfl
  · rfl
  · rintro ⟨k, hk, hn⟩
    simp [operandFault, hk, hn]
  · intro h
    unfold operandFault
    cases hk : s.kind? x.cell with
    | none => rfl
    | some k =>
      dsimp only
      by_cases hn : k ∈ allowed
      · rw [if_pos hn]
      · exact absurd ⟨k, hk, hn⟩ h

theorem operandKind_follows (result : Kind → Kind) (hs : s.WellFormed) (hx : x.cell < s.slots.size)
    (hy : y.cell < s.slots.size) :
    Follows (operandKind allowed x y >>= fun k => new (.known (result k))) s
      (s.Admits allowed x.cell y.cell)
      (s.Decides [x.cell, y.cell] (s.common x.cell y.cell) (result (s.common x.cell y.cell)))
      (Refused s allowed x y) := by
  by_cases h : s.Admits allowed x.cell y.cell
  · refine .of_ok ?_ h (hs.decides ?_ ?_)
    · rw [bind_of_run (operandKind_admitted hs hx h), new_run]
    · simp [hx, hy]
    · simp [h.fits]
  · refine .of_error ?_ h operandFault_refused
    rw [bind_of_error (operandKind_refused h)]

theorem logical_follows (hs : s.WellFormed) (hx : x.cell < s.slots.size)
    (hy : y.cell < s.slots.size) :
    Follows (logical x y) s (s.Fits x.cell .bool ∧ s.Fits y.cell .bool)
      (s.Decides [x.cell, y.cell] .bool .bool)
      (fun d t => (t = s ∧ ¬ s.Fits x.cell .bool ∧ d.location = x.location) ∨
        (t = s.settle x.cell .bool ∧ s.Fits x.cell .bool ∧ d.location = y.location)) := by
  by_cases hfx : s.Fits x.cell .bool
  · have hfirst := expectOrInfer_fits hfx
    by_cases hfy : s.Fits y.cell .bool
    · refine .of_ok ?_ ⟨hfx, hfy⟩ (hs.decides ?_ ?_)
      · exact settleBoth_run hs hx hfx hfy (new (.known .bool))
      · simp [hx, hy]
      · simp [hfx, hfy]
    · have hsecond := expectOrInfer_unfit (mt (hs.fits_settle (k := .bool) hx).mp hfy)
      have hrun : logical x y s = .error
          ⟨.typeMismatch Kind.bool.name ((s.settle x.cell .bool).name y.cell), y.location⟩
          (s.settle x.cell .bool) := by
        rw [logical, bind_of_run hfirst, bind_of_error hsecond]
      exact .of_error hrun (fun h => hfy h.2) (.inr ⟨rfl, hfx, rfl⟩)
  · have hrun : logical x y s =
        .error ⟨.typeMismatch Kind.bool.name (s.name x.cell), x.location⟩ s := by
      rw [logical, bind_of_error (expectOrInfer_unfit hfx)]
    exact .of_error hrun (fun h => hfx h.1) (.inl ⟨rfl, hfx, rfl⟩)

theorem unary_eq_arithmetic (hs : s.WellFormed) (hx : x.cell < s.slots.size) :
    unary x s = arithmetic x x s := by
  rw [arithmetic, unary, get_bind]
  by_cases h : s.Admits [.int, .float] x.cell x.cell
  · have hfx := h.fits.1
    have hagain : s.settleAll [x.cell, x.cell] (s.common x.cell x.cell) =
        s.settle x.cell (s.common x.cell x.cell) := by
      have hin : ∀ a ∈ [x.cell], a < s.slots.size := by simpa using hx
      have hk := hs.kind_operand hin (List.mem_singleton_self _) hfx
      exact Store.settle_known (by simp [show (s.settle x.cell _).kind? x.cell = _ from hk])
    rw [bind_of_run (operandKind_admitted hs hx h), hagain]
    cases hk : s.kind? x.cell with
    | none =>
      rw [show s.common x.cell x.cell = .int by simp [Store.common, hk]] at hfx ⊢
      exact bind_of_run (expectOrInfer_fits hfx)
    | some k =>
      have hnumeric : k.isNumeric := by
        rcases List.mem_pair.mp (h.left k hk) with rfl | rfl
        · rfl
        · rfl
      rw [show s.common x.cell x.cell = k by simp [Store.common, hk]] at hfx ⊢
      dsimp only
      rw [if_pos hnumeric]
      exact bind_of_run (expectOrInfer_fits hfx)
  · rw [bind_of_error (operandKind_refused h), operandFault]
    rw [Store.admits_self] at h
    cases hk : s.kind? x.cell with
    | none => exact absurd (by simp [hk]) h
    | some k =>
      have hother : k ∉ [Kind.int, .float] := by simpa [hk] using h
      have hnumeric : ¬ k.isNumeric := by
        cases k
        case int | float => simp at hother
        all_goals decide
      dsimp only
      rw [if_neg hnumeric, if_neg hother]
      rfl

theorem unary_follows (hs : s.WellFormed) (hx : x.cell < s.slots.size) :
    Follows (unary x) s (∀ k, s.kind? x.cell = some k → k ∈ [Kind.int, .float])
      (s.Decides [x.cell] ((s.kind? x.cell).getD .int) ((s.kind? x.cell).getD .int))
      (fun d t => t = s ∧ d.location = x.location) := by
  have h : Follows (arithmetic x x) s _ _ _ := operandKind_follows id hs hx hx
  rw [← Store.common_self]
  constructor
  · rw [unary_eq_arithmetic hs hx, h.succeeds, Store.admits_self]
  · intro c t hrun
    rw [unary_eq_arithmetic hs hx] at hrun
    exact (h.decides c t hrun).of_twice
  · intro d t hrun
    rw [unary_eq_arithmetic hs hx] at hrun
    have hrefused := h.refused d t hrun
    refine ⟨hrefused.unchanged, ?_⟩
    by_cases hleft : ∃ k, s.kind? x.cell = some k ∧ k ∉ [Kind.int, .float]
    · exact hrefused.left hleft
    · exact hrefused.right hleft

/-- The table of the operators, whether the operands are one cell, linked cells or unrelated ones.
A logical operator that fails at its right operand has made the left one `bool`; every other failure
changes nothing. -/
theorem operators_follow_table (hs : s.WellFormed) (hx : x.cell < s.slots.size)
    (hy : y.cell < s.slots.size) :
    Follows (arithmetic x y) s (s.Admits [.int, .float] x.cell y.cell)
      (s.Decides [x.cell, y.cell] (s.common x.cell y.cell) (s.common x.cell y.cell))
      (Refused s [.int, .float] x y) ∧
    Follows (relational x y) s (s.Admits [.int, .float, .bool] x.cell y.cell)
      (s.Decides [x.cell, y.cell] (s.common x.cell y.cell) .bool)
      (Refused s [.int, .float, .bool] x y) ∧
    Follows (logical x y) s (s.Fits x.cell .bool ∧ s.Fits y.cell .bool)
      (s.Decides [x.cell, y.cell] .bool .bool)
      (fun d t => (t = s ∧ ¬ s.Fits x.cell .bool ∧ d.location = x.location) ∨
        (t = s.settle x.cell .bool ∧ s.Fits x.cell .bool ∧ d.location = y.location)) ∧
    Follows (unary x) s (∀ k, s.kind? x.cell = some k → k ∈ [Kind.int, .float])
      (s.Decides [x.cell] ((s.kind? x.cell).getD .int) ((s.kind? x.cell).getD .int))
      (fun d t => t = s ∧ d.location = x.location) := by
  refine ⟨?arithmetic, ?relational, ?logical, ?unary⟩
  case arithmetic => exact operandKind_follows id hs hx hy
  case relational => exact operandKind_follows (fun _ => .bool) hs hx hy
  case logical => exact logical_follows hs hx hy
  case unary => exact unary_follows hs hx

/-- Adding up two linked unknown cells makes one number of them, which a known `bool` is no
second operand for. -/
theorem operators_follow_table_linked :
    let s := (CellUse.empty.history
      [.create none, .create none, .unify 1 0 .null, .create (some .bool)]).store
    s.WellFormed ∧
    (∃ c t, arithmetic ⟨0, .null⟩ ⟨1, .null⟩ s = .ok c t ∧ c = 3 ∧ t.kind? 0 = some .int ∧
      t.kind? 1 = some .int ∧ t.kind? 2 = some .bool) ∧
    ¬ ∃ c t, arithmetic ⟨0, .null⟩ ⟨2, .null⟩ s = .ok c t := by
  intro s
  have hs : s.WellFormed := (CellUse.empty_sound.history _).1.wellFormed
  have hlinked : s.kind? 0 = none := by decide
  have hbool : s.kind? 2 = some .bool := by decide
  obtain ⟨hrule, _⟩ := operators_follow_table (x := ⟨0, .null⟩) (y := ⟨1, .null⟩) hs
    (by decide) (by decide)
  obtain ⟨hother, _⟩ := operators_follow_table (x := ⟨0, .null⟩) (y := ⟨2, .null⟩) hs
    (by decide) (by decide)
  refine ⟨hs, ?_, ?_⟩
  · obtain ⟨c, t, hrun⟩ := hrule.succeeds.mpr ((Store.admits_of_unknown hlinked).mpr (by decide))
    have hd := hrule.decides c t hrun
    have hkept := hd.kept 2 (by decide) (Store.not_affected_of_known hbool)
    refine ⟨c, t, hrun, hd.fresh.1, hd.operand 0 (by decide), hd.operand 1 (by decide), ?_⟩
    rw [hkept, hbool]
  · intro h
    have hallowed := (hother.succeeds.mp h).right .bool hbool
    revert hallowed
    decide

end Typing

end MiniMl
