import MiniMl.Typing.Store

/-! # The forest of type cells

Links lead from cell to cell and never in a circle, so that every cell has a root that is no link.
What adding, fixing and joining cells does to roots and kinds is said exactly, for all cells.
-/

namespace MiniMl

def Slot.isLink : Slot → Bool
  | .link _ => true
  | _ => false

namespace Store

variable {s t : Store} {a b c d : Cell} {k : Kind}

def LinksTo (s : Store) (c d : Cell) : Prop := s.slots[c]? = some (Slot.link d)

def IsRoot (s : Store) (c : Cell) : Prop := ∀ d, ¬ s.LinksTo c d

def links (s : Store) : Nat := s.slots.countP Slot.isLink

/-- No chain of links is longer than there are links, so none is a circle. -/
structure WellFormed (s : Store) : Prop where
  bounded : ∀ c d, s.LinksTo c d → d < s.slots.size
  acyclic : ∀ c, s.IsRoot (s.chase s.links c)

theorem empty_wellFormed : empty.WellFormed := by
  constructor
  · intro c d h
    simp [LinksTo, empty] at h
  · intro c d h
    simp [LinksTo, empty] at h

theorem isRoot_or_link (s : Store) (c : Cell) : s.IsRoot c ∨ ∃ d, s.LinksTo c d := by
  by_cases h : ∃ d, s.LinksTo c d
  · exact .inr h
  · exact .inl fun d hd => h ⟨d, hd⟩

theorem isRoot_of_size_le (h : s.slots.size ≤ c) : s.IsRoot c := by
  intro d hd
  rw [LinksTo, Array.getElem?_eq_none h] at hd
  cases hd

theorem chase_isRoot (h : s.IsRoot c) (n : Nat) : s.chase n c = c := by
  cases n with
  | zero => rfl
  | succ n =>
    unfold chase
    split
    · rename_i d hd
      exact absurd hd (h d)
    · rfl

theorem chase_link (h : s.LinksTo c d) (n : Nat) : s.chase (n + 1) c = s.chase n d := by
  rw [LinksTo] at h
  simp [chase, h]

theorem chase_add (n m : Nat) (c : Cell) : s.chase (n + m) c = s.chase m (s.chase n c) := by
  induction n generalizing c with
  | zero => simp [chase]
  | succ n ih =>
    rcases isRoot_or_link s c with hc | ⟨d, hd⟩
    · rw [chase_isRoot hc, chase_isRoot hc, chase_isRoot hc]
    · rw [Nat.add_right_comm, chase_link hd, chase_link hd, ih]

theorem links_le_size (s : Store) : s.links ≤ s.slots.size := Array.countP_le_size

theorem WellFormed.root_eq (hs : s.WellFormed) (c : Cell) : s.root c = s.chase s.links c := by
  obtain ⟨n, hn⟩ := Nat.exists_eq_add_of_le (links_le_size s)
  rw [root, hn, chase_add, chase_isRoot (hs.acyclic c)]

theorem WellFormed.isRoot_root (hs : s.WellFormed) (c : Cell) : s.IsRoot (s.root c) := by
  rw [hs.root_eq]
  exact hs.acyclic c

theorem root_of_isRoot (h : s.IsRoot c) : s.root c = c := chase_isRoot h _

theorem WellFormed.chase_lt (hs : s.WellFormed) (n : Nat) (h : c < s.slots.size) :
    s.chase n c < s.slots.size := by
  induction n generalizing c with
  | zero => exact h
  | succ n ih =>
    rcases isRoot_or_link s c with hc | ⟨d, hd⟩
    · rwa [chase_isRoot hc]
    · rw [chase_link hd]
      exact ih (hs.bounded c d hd)

theorem WellFormed.root_lt (hs : s.WellFormed) (h : c < s.slots.size) : s.root c < s.slots.size :=
  hs.chase_lt _ h

theorem lt_of_root_lt (h : s.root c < s.slots.size) : c < s.slots.size := by
  rcases Nat.lt_or_ge c s.slots.size with hc | hc
  · exact hc
  · rwa [root_of_isRoot (isRoot_of_size_le hc)] at h

theorem kind_eq_some : s.kind? c = some k ↔ s.slots[s.root c]? = some (Slot.known k) := by
  unfold kind?
  split
  · rename_i k' h
    simp [h]
  · rename_i h
    constructor
    · intro h'
      cases h'
    · intro h'
      exact absurd h' (h k)

theorem lt_of_kind (h : s.kind? c = some k) : c < s.slots.size := by
  obtain ⟨hlt, _⟩ := Array.getElem?_eq_some_iff.mp (kind_eq_some.mp h)
  exact lt_of_root_lt hlt

theorem shares_iff : s.shares a b ↔ s.root a = s.root b := by simp [shares]

theorem kind_of_shares (h : s.shares a b) : s.kind? a = s.kind? b := by
  unfold kind?
  rw [shares_iff.mp h]

/-! Where the links are the same, so are the chains: new and fixed cells lead nowhere. -/

theorem chase_congr (h : ∀ c d, t.LinksTo c d ↔ s.LinksTo c d) (n : Nat) (c : Cell) :
    t.chase n c = s.chase n c := by
  induction n generalizing c with
  | zero => rfl
  | succ n ih =>
    rcases isRoot_or_link s c with hc | ⟨d, hd⟩
    · rw [chase_isRoot hc, chase_isRoot fun d hd => hc d ((h c d).mp hd)]
    · rw [chase_link hd, chase_link ((h c d).mpr hd), ih]

theorem WellFormed.congr (hs : s.WellFormed) (hsize : s.slots.size ≤ t.slots.size)
    (hlinks : t.links = s.links) (h : ∀ c d, t.LinksTo c d ↔ s.LinksTo c d) : t.WellFormed := by
  constructor
  · intro c d hd
    exact Nat.lt_of_lt_of_le (hs.bounded c d ((h c d).mp hd)) hsize
  · intro c d hd
    rw [hlinks, chase_congr h] at hd
    exact hs.acyclic c d ((h _ d).mp hd)

theorem WellFormed.root_congr (hs : s.WellFormed) (ht : t.WellFormed) (hlinks : t.links = s.links)
    (h : ∀ c d, t.LinksTo c d ↔ s.LinksTo c d) (c : Cell) : t.root c = s.root c := by
  rw [ht.root_eq, hs.root_eq, hlinks, chase_congr h]

section Add

variable {slot : Slot}

theorem linksTo_add (hn : slot.isLink = false) (c d : Cell) :
    (s.add slot).2.LinksTo c d ↔ s.LinksTo c d := by
  unfold LinksTo add
  rw [Array.getElem?_push]
  split
  · rename_i hc
    subst hc
    constructor
    · rintro ⟨⟩
      cases hn
    · intro h
      rw [Array.getElem?_eq_none (Nat.le_refl _)] at h
      cases h
  · rfl

theorem links_add (hn : slot.isLink = false) : (s.add slot).2.links = s.links := by
  simp [links, add, hn]

theorem WellFormed.add (hs : s.WellFormed) (hn : slot.isLink = false) :
    (s.add slot).2.WellFormed :=
  hs.congr (by simp [Store.add]) (links_add hn) (linksTo_add hn)

theorem WellFormed.root_add (hs : s.WellFormed) (hn : slot.isLink = false) (c : Cell) :
    (s.add slot).2.root c = s.root c :=
  hs.root_congr (hs.add hn) (links_add hn) (linksTo_add hn) c

theorem WellFormed.kind_add (hs : s.WellFormed) (hn : slot.isLink = false)
    (h : c < s.slots.size) : (s.add slot).2.kind? c = s.kind? c := by
  unfold kind?
  rw [hs.root_add hn]
  simp [Store.add, Array.getElem?_push, Nat.ne_of_lt (hs.root_lt h)]

theorem WellFormed.kind_added (hs : s.WellFormed) (hn : slot.isLink = false) :
    (s.add slot).2.kind? (s.add slot).1 = match slot with
      | .known k => some k
      | _ => none := by
  unfold kind?
  rw [hs.root_add hn, root_of_isRoot (isRoot_of_size_le (by simp [Store.add]))]
  cases slot with
  | unknown => simp [Store.add]
  | known k => simp [Store.add]
  | link d => cases hn

end Add

theorem links_set (h : s.IsRoot a) (ha : a < s.slots.size) (slot : Slot) :
    links ⟨s.slots.setIfInBounds a slot⟩ = s.links + if slot.isLink then 1 else 0 := by
  have hn : s.slots[a].isLink = false := by
    cases hslot : s.slots[a] with
    | unknown => rfl
    | known k => rfl
    | link d => exact absurd (by rw [LinksTo, Array.getElem?_eq_getElem ha, hslot]) (h d)
  rw [Array.setIfInBounds_def, dif_pos ha, links, Array.countP_set, hn]
  simp [links]

section Fix

theorem WellFormed.linksTo_fix (hs : s.WellFormed) (a : Cell) (k : Kind) (c d : Cell) :
    (s.fix a k).LinksTo c d ↔ s.LinksTo c d := by
  unfold LinksTo fix
  rw [Array.getElem?_setIfInBounds]
  split
  · rename_i hc
    subst hc
    constructor
    · intro h
      split at h <;> cases h
    · intro h
      exact absurd h (hs.isRoot_root a d)
  · rfl

theorem WellFormed.links_fix (hs : s.WellFormed) (a : Cell) (k : Kind) :
    (s.fix a k).links = s.links := by
  rcases Nat.lt_or_ge (s.root a) s.slots.size with ha | ha
  · exact links_set (hs.isRoot_root a) ha (.known k)
  · rw [fix, Array.setIfInBounds_def, dif_neg (Nat.not_lt.mpr ha)]

theorem WellFormed.fix (hs : s.WellFormed) (a : Cell) (k : Kind) : (s.fix a k).WellFormed :=
  hs.congr (by simp [Store.fix]) (hs.links_fix a k) (hs.linksTo_fix a k)

theorem WellFormed.root_fix (hs : s.WellFormed) (a : Cell) (k : Kind) (c : Cell) :
    (s.fix a k).root c = s.root c :=
  hs.root_congr (hs.fix a k) (hs.links_fix a k) (hs.linksTo_fix a k) c

theorem WellFormed.kind_fix (hs : s.WellFormed) (ha : a < s.slots.size) (k : Kind) (c : Cell) :
    (s.fix a k).kind? c = if s.root c = s.root a then some k else s.kind? c := by
  have hlt := hs.root_lt ha
  unfold kind?
  rw [hs.root_fix]
  by_cases h : s.root c = s.root a
  · simp [h, Store.fix, hlt]
  · simp [h, Store.fix, Ne.symm h]

end Fix

section Join

theorem join_eq (h : s.root a ≠ s.root b) :
    s.join a b = ⟨s.slots.setIfInBounds (s.root a) (Slot.link (s.root b))⟩ := if_neg h

theorem join_same (h : s.root a = s.root b) : s.join a b = s := if_pos h

theorem linksTo_join (h : s.root a ≠ s.root b) (ha : s.root a < s.slots.size) (c d : Cell) :
    (s.join a b).LinksTo c d ↔
      (c = s.root a ∧ d = s.root b) ∨ (c ≠ s.root a ∧ s.LinksTo c d) := by
  rw [join_eq h, LinksTo, LinksTo, Array.getElem?_setIfInBounds]
  by_cases hc : s.root a = c
  · subst hc
    simp [ha, eq_comm]
  · simp [hc, Ne.symm hc]

theorem isRoot_join (h : s.root a ≠ s.root b) (ha : s.root a < s.slots.size) (hc : s.IsRoot c)
    (hca : c ≠ s.root a) : (s.join a b).IsRoot c := by
  intro d hd
  rcases (linksTo_join h ha c d).mp hd with ⟨he, _⟩ | ⟨_, hd⟩
  · exact hca he
  · exact hc d hd

/-- A chain that ended at the root of `a` goes one link further, to that of `b`. -/
theorem WellFormed.chase_join (hs : s.WellFormed) (h : s.root a ≠ s.root b)
    (ha : s.root a < s.slots.size) {n : Nat} {c : Cell} (hc : s.IsRoot (s.chase n c)) :
    (s.join a b).chase (n + 1) c =
      if s.chase n c = s.root a then s.root b else s.chase n c := by
  have hroot := isRoot_join h ha (hs.isRoot_root b) (Ne.symm h)
  have hlink : (s.join a b).LinksTo (s.root a) (s.root b) :=
    (linksTo_join h ha _ _).mpr (.inl ⟨rfl, rfl⟩)
  induction n generalizing c with
  | zero =>
    replace hc : s.IsRoot c := hc
    change (s.join a b).chase 1 c = if c = s.root a then s.root b else c
    by_cases hca : c = s.root a
    · subst hca
      rw [chase_link hlink, if_pos rfl]
      rfl
    · rw [chase_isRoot (isRoot_join h ha hc hca), if_neg hca]
  | succ n ih =>
    rcases isRoot_or_link s c with hr | ⟨d, hd⟩
    · rw [chase_isRoot hr]
      by_cases hca : c = s.root a
      · subst hca
        rw [chase_link hlink, chase_isRoot hroot, if_pos rfl]
      · rw [chase_isRoot (isRoot_join h ha hr hca), if_neg hca]
    · have hca : c ≠ s.root a := by
        intro he
        subst he
        exact hs.isRoot_root a d hd
      rw [chase_link hd] at hc ⊢
      rw [chase_link ((linksTo_join h ha c d).mpr (.inr ⟨hca, hd⟩))]
      exact ih hc

theorem WellFormed.links_join (hs : s.WellFormed) (h : s.root a ≠ s.root b)
    (ha : s.root a < s.slots.size) : (s.join a b).links = s.links + 1 := by
  rw [join_eq h]
  exact links_set (hs.isRoot_root a) ha _

theorem WellFormed.join (hs : s.WellFormed) (ha : a < s.slots.size) (hb : b < s.slots.size) :
    (s.join a b).WellFormed := by
  by_cases h : s.root a = s.root b
  · rwa [join_same h]
  have har := hs.root_lt ha
  constructor
  · intro c d hd
    have hsize : (s.join a b).slots.size = s.slots.size := by simp [join_eq h]
    rw [hsize]
    rcases (linksTo_join h har c d).mp hd with ⟨_, rfl⟩ | ⟨_, hd⟩
    · exact hs.root_lt hb
    · exact hs.bounded c d hd
  · intro c
    rw [hs.links_join h har, hs.chase_join h har (hs.acyclic c), ← hs.root_eq]
    split
    · exact isRoot_join h har (hs.isRoot_root b) (Ne.symm h)
    · rename_i hca
      exact isRoot_join h har (hs.isRoot_root c) hca

theorem WellFormed.root_join (hs : s.WellFormed) (ha : a < s.slots.size) (hb : b < s.slots.size)
    (c : Cell) :
    (s.join a b).root c = if s.root c = s.root a then s.root b else s.root c := by
  by_cases h : s.root a = s.root b
  · rw [join_same h]
    split
    · rename_i hc
      rw [hc, h]
    · rfl
  have har := hs.root_lt ha
  rw [(hs.join ha hb).root_eq, hs.links_join h har, hs.chase_join h har (hs.acyclic c),
    ← hs.root_eq]

/-- Two unknown cells that are joined stay unknown, and nothing else changes. -/
theorem WellFormed.kind_join (hs : s.WellFormed) (ha : a < s.slots.size) (hb : b < s.slots.size)
    (hka : s.kind? a = none) (hkb : s.kind? b = none) (c : Cell) :
    (s.join a b).kind? c = s.kind? c := by
  by_cases h : s.root a = s.root b
  · rw [join_same h]
  have hslot : ∀ r, r ≠ s.root a → (s.join a b).slots[r]? = s.slots[r]? := by
    intro r hr
    rw [join_eq h, Array.getElem?_setIfInBounds, if_neg (Ne.symm hr)]
  by_cases hc : s.root c = s.root a
  · rw [kind_of_shares (shares_iff.mpr hc), hka]
    unfold kind? at hkb ⊢
    rw [hs.root_join ha hb, if_pos hc, hslot _ (Ne.symm h)]
    exact hkb
  · unfold kind?
    rw [hs.root_join ha hb, if_neg hc, hslot _ hc]

end Join

end Store

end MiniMl
