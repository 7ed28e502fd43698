import Mathlib.Data.List.Forall2
import Mathlib.Logic.Relation
import MiniMl.Proofs.Typing.Rules

/-! # Constraints between cells

To unify two cells and to expect a kind of a cell are constraints. Whatever order they are run in,
they succeed exactly if no class of connected cells is asked to be of two kinds, and then each cell
is of the kind that its class is asked to be.
-/

namespace MiniMl

/-- What is required of cells, with the place that errors about it are reported at. -/
inductive Constraint where
  | same (a b : Cell) (location : Location)
  | ofKind (x : Typed) (kind : Kind)
deriving DecidableEq, Repr

namespace Constraint

def run : Constraint → Typing Unit
  | same a b location => Typing.unify a b location
  | ofKind x kind => Typing.expectOrInfer x kind

def runAll : List Constraint → Typing Unit
  | [] => pure ()
  | c :: cs => do
    c.run
    runAll cs

def Within (s : Store) : Constraint → Prop
  | same a b _ => a < s.slots.size ∧ b < s.slots.size
  | ofKind x _ => x.cell < s.slots.size

/-- The equivalence closure of the pairs that are to be unified. -/
def Connected (cs : List Constraint) : Cell → Cell → Prop :=
  Relation.EqvGen fun a b => ∃ location, same a b location ∈ cs

/-- The kind is that of the cell from the start, or it is expected of the cell. -/
def Asked (s : Store) (cs : List Constraint) (c : Cell) (k : Kind) : Prop :=
  s.kind? c = some k ∨ ∃ location, ofKind ⟨c, location⟩ k ∈ cs

/-- No two kinds are asked of one class of connected cells. -/
def Satisfiable (s : Store) (cs : List Constraint) : Prop :=
  ∀ c d k l, Connected cs c d → Asked s cs c k → Asked s cs d l → k = l

/-- The same requirement, possibly with the sides swapped, and reported anywhere. -/
inductive Similar : Constraint → Constraint → Prop where
  | same {a b l m} : Similar (same a b l) (same a b m)
  | swapped {a b l m} : Similar (same a b l) (same b a m)
  | ofKind {c k l m} : Similar (ofKind ⟨c, l⟩ k) (ofKind ⟨c, m⟩ k)

def Reordered (cs ds : List Constraint) : Prop := ∃ es, cs.Perm es ∧ List.Forall₂ Similar es ds

/-- Every requirement of the first list is one of the second list. -/
def Covers (cs ds : List Constraint) : Prop := ∀ c ∈ cs, ∃ d ∈ ds, Similar c d

variable {s t u : Store} {cs ds : List Constraint} {c d : Constraint} {a b x y : Cell} {k : Kind}

theorem Covers.of_subset (h : cs ⊆ ds) : Covers cs ds := by
  intro c hc
  refine ⟨c, h hc, ?_⟩
  cases c with
  | same a b location => exact .same
  | ofKind x kind => exact .ofKind

theorem Similar.symm (h : Similar c d) : Similar d c := by
  cases h with
  | same => exact .same
  | swapped => exact .swapped
  | ofKind => exact .ofKind

theorem covers_of_forall₂ (h : List.Forall₂ Similar cs ds) : Covers cs ds ∧ Covers ds cs := by
  induction h with
  | nil => exact ⟨by simp [Covers], by simp [Covers]⟩
  | cons hcd _ ih =>
    obtain ⟨hleft, hright⟩ := ih
    constructor
    · intro c hc
      rcases List.mem_cons.mp hc with rfl | hc
      · exact ⟨_, List.mem_cons_self, hcd⟩
      · obtain ⟨d, hd, h⟩ := hleft c hc
        exact ⟨d, List.mem_cons_of_mem _ hd, h⟩
    · intro d hd
      rcases List.mem_cons.mp hd with rfl | hd
      · exact ⟨_, List.mem_cons_self, hcd.symm⟩
      · obtain ⟨c, hc, h⟩ := hright d hd
        exact ⟨c, List.mem_cons_of_mem _ hc, h⟩

theorem Reordered.covers (h : Reordered cs ds) : Covers cs ds ∧ Covers ds cs := by
  obtain ⟨es, hperm, h⟩ := h
  obtain ⟨hleft, hright⟩ := covers_of_forall₂ h
  constructor
  · intro c hc
    exact hleft c (hperm.mem_iff.mp hc)
  · intro d hd
    obtain ⟨c, hc, h⟩ := hright d hd
    exact ⟨c, hperm.mem_iff.mpr hc, h⟩

theorem Covers.within (h : Covers ds cs) (hcs : ∀ c ∈ cs, c.Within s) : ∀ d ∈ ds, d.Within s := by
  intro d hd
  obtain ⟨c, hc, h⟩ := h d hd
  have hw := hcs c hc
  cases h with
  | same => exact hw
  | swapped => exact hw.symm
  | ofKind => exact hw

theorem Covers.connected (h : Covers cs ds) (hab : Connected cs a b) : Connected ds a b := by
  induction hab with
  | rel a b hab =>
    obtain ⟨location, hab⟩ := hab
    obtain ⟨d, hd, h⟩ := h _ hab
    cases h with
    | same => exact .rel _ _ ⟨_, hd⟩
    | swapped => exact .symm _ _ (.rel _ _ ⟨_, hd⟩)
  | refl a => exact .refl a
  | symm a b _ ih => exact .symm _ _ ih
  | trans a b c _ _ ih₁ ih₂ => exact .trans _ _ _ ih₁ ih₂

theorem Covers.asked (h : Covers cs ds) (hk : Asked s cs a k) : Asked s ds a k := by
  rcases hk with hk | ⟨location, hk⟩
  · exact .inl hk
  · obtain ⟨d, hd, h⟩ := h _ hk
    cases h with
    | ofKind => exact .inr ⟨_, hd⟩

theorem Covers.satisfiable (h : Covers cs ds) (hds : Satisfiable s ds) : Satisfiable s cs :=
  fun _ _ _ _ hcd hc hd => hds _ _ _ _ (h.connected hcd) (h.asked hc) (h.asked hd)

/-- The store has only what the constraints ask for. -/
structure Explained (s : Store) (cs : List Constraint) (t : Store) : Prop where
  known : ∀ c k, t.kind? c = some k → ∃ d, Connected cs c d ∧ Asked s cs d k
  linked : ∀ a b, t.shares a b → Connected cs a b

/-- The constraints hold in the store, and nothing else was added to it. -/
structure Solved (s : Store) (cs : List Constraint) (t : Store) : Prop extends
    Explained s cs t where
  later : s.Evolves t
  size : t.slots.size = s.slots.size
  agree : ∀ a b location, same a b location ∈ cs → t.Agree a b
  fixed : ∀ x k, ofKind x k ∈ cs → t.kind? x.cell = some k

theorem Explained.mono (h : Explained s cs t) (hcs : Covers cs ds) : Explained s ds t where
  known := by
    intro c k hk
    obtain ⟨d, hcd, hd⟩ := h.known c k hk
    exact ⟨d, hcs.connected hcd, hcs.asked hd⟩
  linked := fun a b hab => hcs.connected (h.linked a b hab)

theorem Explained.fix (h : Explained s cs t) (ht : t.WellFormed) (ha : a < t.slots.size)
    (hab : Connected cs a b) (hb : Asked s cs b k) : Explained s cs (t.fix a k) where
  known := by
    intro c l hl
    rw [ht.kind_fix ha] at hl
    by_cases hc : t.root c = t.root a
    · rw [if_pos hc] at hl
      cases hl
      have hca := h.linked c a (Store.shares_iff.mpr hc)
      exact ⟨b, .trans _ _ _ hca hab, hb⟩
    · rw [if_neg hc] at hl
      exact h.known c l hl
  linked := by
    intro c d hcd
    rw [Store.shares_iff, ht.root_fix, ht.root_fix] at hcd
    exact h.linked c d (Store.shares_iff.mpr hcd)

theorem Explained.join (h : Explained s cs t) (ht : t.WellFormed) (ha : a < t.slots.size)
    (hb : b < t.slots.size) (hka : t.kind? a = none) (hkb : t.kind? b = none)
    (hab : Connected cs a b) : Explained s cs (t.join a b) where
  known := by
    intro c l hl
    rw [ht.kind_join ha hb hka hkb] at hl
    exact h.known c l hl
  linked := by
    -- Either cell has kept its root, or it is linked to `a` and its root is now that of `b`.
    have hroot : ∀ c, ∃ d, Connected cs c d ∧ (t.join a b).root c = t.root d := by
      intro c
      rw [ht.root_join ha hb]
      by_cases hc : t.root c = t.root a
      · rw [if_pos hc]
        exact ⟨b, .trans _ _ _ (h.linked c a (Store.shares_iff.mpr hc)) hab, rfl⟩
      · rw [if_neg hc]
        exact ⟨c, .refl c, rfl⟩
    intro c d hcd
    obtain ⟨c', hc, hcroot⟩ := hroot c
    obtain ⟨d', hd, hdroot⟩ := hroot d
    rw [Store.shares_iff, hcroot, hdroot] at hcd
    have hcd := h.linked c' d' (Store.shares_iff.mpr hcd)
    exact .trans _ _ _ hc (.trans _ _ _ hcd (.symm _ _ hd))

theorem covers_append (cs : List Constraint) (c : Constraint) : Covers cs (cs ++ [c]) :=
  .of_subset (List.subset_append_left cs [c])

theorem Solved.kind_of_asked (h : Solved s cs t) (hk : Asked s cs a k) : t.kind? a = some k := by
  rcases hk with hk | ⟨location, hk⟩
  · exact h.later.kind hk
  · exact h.fixed _ k hk

theorem Solved.kind_of_connected (h : Solved s cs t) (hab : Connected cs a b) :
    t.kind? a = t.kind? b := by
  induction hab with
  | rel a b hab =>
    obtain ⟨location, hab⟩ := hab
    rcases h.agree a b location hab with ⟨k, ha, hb⟩ | ⟨ha, hb, _⟩
    · rw [ha, hb]
    · rw [ha, hb]
  | refl a => rfl
  | symm a b _ ih => exact ih.symm
  | trans a b c _ _ ih₁ ih₂ => exact ih₁.trans ih₂

theorem Solved.kind_iff (h : Solved s cs t) :
    t.kind? a = some k ↔ ∃ b, Connected cs a b ∧ Asked s cs b k := by
  constructor
  · exact h.known a k
  · rintro ⟨b, hab, hb⟩
    rw [h.kind_of_connected hab]
    exact h.kind_of_asked hb

theorem Solved.satisfiable (h : Solved s cs t) : Satisfiable s cs := by
  intro c d k l hcd hc hd
  have hk := h.kind_iff.mpr ⟨c, .refl c, hc⟩
  have hl := h.kind_iff.mpr ⟨d, hcd, hd⟩
  exact Option.some.inj (hk.symm.trans hl)

theorem expectOrInfer_cases {z : Typed} (h : Typing.expectOrInfer z k t = .ok () u) :
    (t.kind? z.cell = some k ∧ u = t) ∨ (t.kind? z.cell = none ∧ u = t.fix z.cell k) := by
  rw [Typing.expectOrInfer, Typing.get_bind] at h
  cases hk : t.kind? z.cell with
  | none =>
    rw [hk] at h
    cases h
    exact .inr ⟨rfl, rfl⟩
  | some l =>
    rw [hk] at h
    obtain ⟨hl, rfl⟩ := Typing.expect_ok h
    exact .inl ⟨hk.symm.trans hl, rfl⟩

theorem expectOrInfer_error {z : Typed} {e : Diagnostic}
    (h : Typing.expectOrInfer z k t = .error e u) : ∃ l, t.kind? z.cell = some l ∧ l ≠ k := by
  rw [Typing.expectOrInfer, Typing.get_bind] at h
  cases hk : t.kind? z.cell with
  | none =>
    rw [hk] at h
    cases h
  | some l =>
    refine ⟨l, rfl, ?_⟩
    intro hl
    subst hl
    rw [hk] at h
    change Typing.expect z l t = _ at h
    rw [Typing.expect, Typing.get_bind, if_pos hk] at h
    cases h

theorem unify_cases {location : Location} (h : Typing.unify a b location t = .ok () u) :
    (∃ k, t.kind? a = some k ∧ t.kind? b = some k ∧ u = t) ∨
    (∃ k, t.kind? a = some k ∧ t.kind? b = none ∧ u = t.fix b k) ∨
    (∃ k, t.kind? a = none ∧ t.kind? b = some k ∧ u = t.fix a k) ∨
    (t.kind? a = none ∧ t.kind? b = none ∧ u = t.join a b) := by
  rw [Typing.unify, Typing.get_bind] at h
  cases hka : t.kind? a with
  | some k =>
    cases hkb : t.kind? b with
    | some l =>
      rw [hka, hkb] at h
      obtain ⟨hk, rfl⟩ := Typing.expect_ok h
      exact .inl ⟨k, rfl, hkb.symm.trans hk, rfl⟩
    | none =>
      rw [hka, hkb] at h
      rcases expectOrInfer_cases h with ⟨hk, _⟩ | ⟨_, hu⟩
      · rw [hkb] at hk
        cases hk
      · exact .inr (.inl ⟨k, rfl, rfl, hu⟩)
  | none =>
    cases hkb : t.kind? b with
    | some k =>
      rw [hka, hkb] at h
      rcases expectOrInfer_cases h with ⟨hk, _⟩ | ⟨_, hu⟩
      · rw [hka] at hk
        cases hk
      · exact .inr (.inr (.inl ⟨k, rfl, rfl, hu⟩))
    | none =>
      rw [hka, hkb] at h
      cases h
      exact .inr (.inr (.inr ⟨rfl, rfl, rfl⟩))

theorem unify_error {location : Location} {e : Diagnostic}
    (h : Typing.unify a b location t = .error e u) :
    ∃ k l, t.kind? a = some k ∧ t.kind? b = some l ∧ k ≠ l := by
  rw [Typing.unify, Typing.get_bind] at h
  cases hka : t.kind? a with
  | some k =>
    cases hkb : t.kind? b with
    | some l =>
      refine ⟨k, l, rfl, rfl, ?_⟩
      intro hkl
      subst hkl
      rw [hka, hkb] at h
      change Typing.expect ⟨b, location⟩ k t = _ at h
      rw [Typing.expect, Typing.get_bind, if_pos hkb] at h
      cases h
    | none =>
      rw [hka, hkb] at h
      obtain ⟨l, hl, _⟩ := expectOrInfer_error h
      rw [hkb] at hl
      cases hl
  | none =>
    cases hkb : t.kind? b with
    | some k =>
      rw [hka, hkb] at h
      obtain ⟨l, hl, _⟩ := expectOrInfer_error h
      rw [hka] at hl
      cases hl
    | none =>
      rw [hka, hkb] at h
      cases h

theorem mem_append_last (cs : List Constraint) (c : Constraint) : c ∈ cs ++ [c] :=
  List.mem_append_right cs (List.mem_singleton.mpr rfl)

theorem run_evolves (ht : t.WellFormed) (hc : c.Within t) (h : c.run t = .ok () u) :
    t.Evolves u := by
  cases c with
  | same a b location => exact (Typing.unify_agrees ht hc.1 hc.2 h).1
  | ofKind z kind => exact (Typing.expectOrInfer_fixes ht hc h).1

theorem run_size (h : c.run t = .ok () u) : u.slots.size = t.slots.size := by
  have hfix : ∀ (a : Cell) (k : Kind), (t.fix a k).slots.size = t.slots.size :=
    fun a k => Array.size_setIfInBounds
  cases c with
  | same a b location =>
    rcases unify_cases h with ⟨_, _, _, rfl⟩ | ⟨_, _, _, rfl⟩ | ⟨_, _, _, rfl⟩ | ⟨_, _, rfl⟩
    · rfl
    · exact hfix b _
    · exact hfix a _
    · unfold Store.join
      split
      · rfl
      · exact Array.size_setIfInBounds
  | ofKind z kind =>
    rcases expectOrInfer_cases h with ⟨_, rfl⟩ | ⟨_, rfl⟩
    · rfl
    · exact hfix z.cell kind

theorem Explained.step (h : Explained s cs t) (ht : t.WellFormed) (hc : c.Within t)
    (hrun : c.run t = .ok () u) : Explained s (cs ++ [c]) u := by
  have hmono := h.mono (covers_append cs c)
  have hlast := mem_append_last cs c
  cases c with
  | same a b location =>
    have hab : Connected (cs ++ [same a b location]) a b := .rel _ _ ⟨location, hlast⟩
    rcases unify_cases hrun with
      ⟨_, _, _, rfl⟩ | ⟨k, hka, _, rfl⟩ | ⟨k, _, hkb, rfl⟩ | ⟨hka, hkb, rfl⟩
    · exact hmono
    · obtain ⟨d, had, hd⟩ := hmono.known a k hka
      exact hmono.fix ht hc.2 (.trans _ _ _ (.symm _ _ hab) had) hd
    · obtain ⟨d, hbd, hd⟩ := hmono.known b k hkb
      exact hmono.fix ht hc.1 (.trans _ _ _ hab hbd) hd
    · exact hmono.join ht hc.1 hc.2 hka hkb hab
  | ofKind z kind =>
    rcases expectOrInfer_cases hrun with ⟨_, rfl⟩ | ⟨_, rfl⟩
    · exact hmono
    · exact hmono.fix ht hc (.refl z.cell) (.inr ⟨z.location, hlast⟩)

theorem Within.of_size (hc : c.Within s) (h : t.slots.size = s.slots.size) : c.Within t := by
  cases c with
  | same a b location => exact ⟨h ▸ hc.1, h ▸ hc.2⟩
  | ofKind z kind =>
    change z.cell < t.slots.size
    rw [h]
    exact hc

theorem Solved.step (h : Solved s cs t) (hc : c.Within s) (hrun : c.run t = .ok () u) :
    Solved s (cs ++ [c]) u := by
  have ht := h.later.wellFormed
  have hc := hc.of_size h.size
  have he := run_evolves ht hc hrun
  refine ⟨h.toExplained.step ht hc hrun, h.later.trans he, (run_size hrun).trans h.size, ?_, ?_⟩
  · intro a b location hab
    rcases List.mem_append.mp hab with hab | hab
    · exact (h.agree a b location hab).later he
    · obtain rfl := List.mem_singleton.mp hab
      exact (Typing.unify_agrees ht hc.1 hc.2 hrun).2
  · intro z k hz
    rcases List.mem_append.mp hz with hz | hz
    · exact he.kind (h.fixed z k hz)
    · obtain rfl := List.mem_singleton.mp hz
      exact (Typing.expectOrInfer_fixes ht hc hrun).2

theorem Solved.step_error {e : Diagnostic} (h : Solved s cs t) (hrun : c.run t = .error e u) :
    ¬ Satisfiable s (cs ++ [c]) := by
  intro hsat
  have hmono := h.toExplained.mono (covers_append cs c)
  have hlast := mem_append_last cs c
  cases c with
  | same a b location =>
    obtain ⟨k, l, hka, hkb, hne⟩ := unify_error hrun
    obtain ⟨d, had, hd⟩ := hmono.known a k hka
    obtain ⟨f, hbf, hf⟩ := hmono.known b l hkb
    have hab : Connected (cs ++ [same a b location]) a b := .rel _ _ ⟨location, hlast⟩
    have hdf := Relation.EqvGen.trans _ _ _ (.symm _ _ had) (.trans _ _ _ hab hbf)
    exact hne (hsat d f k l hdf hd hf)
  | ofKind z kind =>
    obtain ⟨l, hl, hne⟩ := expectOrInfer_error hrun
    obtain ⟨d, hzd, hd⟩ := hmono.known z.cell l hl
    exact hne (hsat d z.cell l kind (.symm _ _ hzd) hd (.inr ⟨z.location, hlast⟩))

theorem Solved.runAll (h : Solved s cs t) (hds : ∀ c ∈ ds, c.Within s)
    (hrun : runAll ds t = .ok () u) : Solved s (cs ++ ds) u := by
  induction ds generalizing cs t with
  | nil =>
    obtain ⟨_, rfl⟩ := pure_ok.mp hrun
    rwa [List.append_nil]
  | cons c ds ih =>
    obtain ⟨hc, hds⟩ := List.forall_mem_cons.mp hds
    obtain ⟨_, r, hstep, hrun⟩ := bind_ok.mp hrun
    rw [List.append_cons]
    exact ih (h.step hc hstep) hds hrun

theorem Solved.runAll_succeeds (h : Solved s cs t) (hds : ∀ c ∈ ds, c.Within s)
    (hsat : Satisfiable s (cs ++ ds)) : ∃ u, Constraint.runAll ds t = .ok () u := by
  induction ds generalizing cs t with
  | nil => exact ⟨t, rfl⟩
  | cons c ds ih =>
    obtain ⟨hc, hds⟩ := List.forall_mem_cons.mp hds
    rw [List.append_cons] at hsat
    cases hstep : c.run t with
    | ok _ r =>
      obtain ⟨u, hu⟩ := ih (h.step hc hstep) hds hsat
      exact ⟨u, (bind_of_run hstep).trans hu⟩
    | error e r =>
      have hpart : Covers (cs ++ [c]) (cs ++ [c] ++ ds) :=
        .of_subset (List.subset_append_left _ ds)
      exact absurd (hpart.satisfiable hsat) (h.step_error hstep)

theorem Solved.initial (hs : ∀ slot ∈ s.slots, slot.isLink = false) : Solved s [] s := by
  have hroot : ∀ c, s.IsRoot c := by
    intro c d hd
    obtain ⟨hlt, hslot⟩ := Array.getElem?_eq_some_iff.mp hd
    have hlink := hs _ (Array.getElem_mem hlt)
    rw [hslot] at hlink
    cases hlink
  have hwf : s.WellFormed := ⟨fun c d hd => absurd hd (hroot c d), fun c => hroot _⟩
  refine ⟨⟨?_, ?_⟩, .refl hwf, rfl, by simp, by simp⟩
  · intro c k hk
    exact ⟨c, .refl c, .inl hk⟩
  · intro a b hab
    rw [Store.shares_iff, Store.root_of_isRoot (hroot a), Store.root_of_isRoot (hroot b)] at hab
    subst hab
    exact .refl a

end Constraint

open Constraint

variable {s : Store} {cs : List Constraint}

theorem runAll_succeeds_iff (hs : ∀ slot ∈ s.slots, slot.isLink = false)
    (hcs : ∀ c ∈ cs, c.Within s) : (∃ t, runAll cs s = .ok () t) ↔ Satisfiable s cs := by
  constructor
  · rintro ⟨t, ht⟩
    exact ((Solved.initial hs).runAll hcs ht).satisfiable
  · intro hsat
    exact (Solved.initial hs).runAll_succeeds hcs hsat

/-- Constraints over cells that are not linked yet succeed exactly if no class is asked to be of two
kinds. Each cell is then of the kind that its class is asked to be. Neither depends on the order of
the constraints or on which side of a unification a cell stands. -/
theorem unification_order_independent (hs : ∀ slot ∈ s.slots, slot.isLink = false)
    (hcs : ∀ c ∈ cs, c.Within s) :
    ((∃ t, runAll cs s = .ok () t) ↔ Satisfiable s cs) ∧
    (∀ t, runAll cs s = .ok () t → ∀ c k,
      t.kind? c = some k ↔ ∃ d, Connected cs c d ∧ Asked s cs d k) ∧
    ∀ ds, Reordered cs ds →
      ((∃ t, runAll cs s = .ok () t) ↔ ∃ t, runAll ds s = .ok () t) ∧
      ∀ t u, runAll cs s = .ok () t → runAll ds s = .ok () u → ∀ c, t.kind? c = u.kind? c := by
  refine ⟨runAll_succeeds_iff hs hcs, ?_, ?_⟩
  · intro t ht c k
    exact ((Solved.initial hs).runAll hcs ht).kind_iff
  · intro ds hds
    obtain ⟨hleft, hright⟩ := hds.covers
    have hdw := hright.within hcs
    constructor
    · rw [runAll_succeeds_iff hs hcs, runAll_succeeds_iff hs hdw]
      exact ⟨hright.satisfiable, hleft.satisfiable⟩
    · intro t u ht hu c
      have ht := (Solved.initial hs).runAll hcs ht
      have hu := (Solved.initial hs).runAll hdw hu
      apply Option.ext
      intro k
      rw [ht.kind_iff, hu.kind_iff]
      constructor
      · rintro ⟨d, hcd, hd⟩
        exact ⟨d, hleft.connected hcd, hleft.asked hd⟩
      · rintro ⟨d, hcd, hd⟩
        exact ⟨d, hright.connected hcd, hright.asked hd⟩

/-- Two unknown cells and an `int`: one order links the two before either is known, the other fixes
one after the other. -/
theorem unification_order_independent_pair :
    ∃ s cs ds t u, Reordered cs ds ∧ runAll cs s = .ok () t ∧ runAll ds s = .ok () u ∧
      t.shares 0 1 = true ∧ u.shares 0 1 = false ∧ ∀ c, t.kind? c = u.kind? c := by
  let shell : Location := .start "shell"
  let s : Store := ⟨#[.unknown, .unknown, .known .int]⟩
  let cs := [same 0 1 shell, same 1 2 shell]
  let ds := [same 2 1 shell, same 1 0 shell]
  let t : Store := ⟨#[.link 1, .known .int, .known .int]⟩
  let u : Store := ⟨#[.known .int, .known .int, .known .int]⟩
  have hs : ∀ slot ∈ s.slots, slot.isLink = false := by simp [s, Slot.isLink]
  have hcs : ∀ c ∈ cs, c.Within s := by simp [cs, s, Within]
  have hds : Reordered cs ds :=
    ⟨cs.reverse, (List.reverse_perm cs).symm, .cons .swapped (.cons .swapped .nil)⟩
  have ht : runAll cs s = .ok () t := rfl
  have hu : runAll ds s = .ok () u := rfl
  have hkinds := ((unification_order_independent hs hcs).2.2 ds hds).2 t u ht hu
  exact ⟨s, cs, ds, t, u, hds, ht, hu, rfl, rfl, hkinds⟩

end MiniMl
