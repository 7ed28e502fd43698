import MiniMl.Proofs.Typing.Cells
import MiniMl.Typing.Rules

/-! # How cells evolve

Rules only add what is known: a kind that is known stays known and cells that are linked stay
linked. So two cells that agree in a store agree in every later one.
-/

namespace MiniMl

namespace Store

variable {s t u : Store} {a b c : Cell} {k : Kind}

/-- The second store is a later one. -/
structure Evolves (s t : Store) : Prop where
  wellFormed : t.WellFormed
  size : s.slots.size ≤ t.slots.size
  kind : ∀ {c k}, s.kind? c = some k → t.kind? c = some k
  shares : ∀ {a b}, s.shares a b → t.shares a b

theorem Evolves.refl (hs : s.WellFormed) : s.Evolves s := ⟨hs, Nat.le_refl _, id, id⟩

theorem Evolves.trans (h : s.Evolves t) (h' : t.Evolves u) : s.Evolves u where
  wellFormed := h'.wellFormed
  size := Nat.le_trans h.size h'.size
  kind := fun hk => h'.kind (h.kind hk)
  shares := fun hs => h'.shares (h.shares hs)

theorem Evolves.lt (h : s.Evolves t) (hc : c < s.slots.size) : c < t.slots.size :=
  Nat.lt_of_lt_of_le hc h.size

theorem WellFormed.evolves_add (hs : s.WellFormed) {slot : Slot} (hn : slot.isLink = false) :
    s.Evolves (s.add slot).2 where
  wellFormed := hs.add hn
  size := by simp [Store.add]
  kind := fun hk => by rw [hs.kind_add hn (lt_of_kind hk), hk]
  shares := fun h => by
    rw [shares_iff] at h ⊢
    rw [hs.root_add hn, hs.root_add hn, h]

theorem WellFormed.evolves_fix (hs : s.WellFormed) (ha : a < s.slots.size)
    (hka : s.kind? a = none) (k : Kind) : s.Evolves (s.fix a k) where
  wellFormed := hs.fix a k
  size := by simp [Store.fix]
  kind := by
    intro c l hk
    rw [hs.kind_fix ha, if_neg]
    · exact hk
    · intro h
      rw [kind_of_shares (shares_iff.mpr h), hka] at hk
      cases hk
  shares := fun h => by
    rw [shares_iff] at h ⊢
    rw [hs.root_fix, hs.root_fix, h]

theorem WellFormed.evolves_join (hs : s.WellFormed) (ha : a < s.slots.size)
    (hb : b < s.slots.size) (hka : s.kind? a = none) (hkb : s.kind? b = none) :
    s.Evolves (s.join a b) where
  wellFormed := hs.join ha hb
  size := by
    unfold Store.join
    split
    · exact Nat.le_refl _
    · simp
  kind := fun hk => by rw [hs.kind_join ha hb hka hkb, hk]
  shares := fun h => by
    rw [shares_iff] at h ⊢
    rw [hs.root_join ha hb, hs.root_join ha hb, h]

/-- The same kind is known of both cells, or nothing yet and they are linked. -/
def Agree (s : Store) (a b : Cell) : Prop :=
  (∃ k, s.kind? a = some k ∧ s.kind? b = some k) ∨
    (s.kind? a = none ∧ s.kind? b = none ∧ s.shares a b)

theorem Agree.of_shares (h : s.shares a b) : s.Agree a b := by
  have hk := kind_of_shares h
  cases ha : s.kind? a with
  | none => exact .inr ⟨ha, by rw [← hk, ha], h⟩
  | some k => exact .inl ⟨k, ha, by rw [← hk, ha]⟩

theorem Agree.later (h : s.Agree a b) (he : s.Evolves t) : t.Agree a b := by
  rcases h with ⟨k, ha, hb⟩ | ⟨_, _, h⟩
  · exact .inl ⟨k, he.kind ha, he.kind hb⟩
  · exact .of_shares (he.shares h)

end Store

end MiniMl
