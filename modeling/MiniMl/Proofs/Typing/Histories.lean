import MiniMl.Proofs.Typing.Constraints

/-! # Type cells over time

Cells are used through handles, and a handle can be cloned. Any sequence of calls, those that fail
included, leaves a forest in which every known kind stays and linked cells stay linked. A call
touches nothing but the cells linked with those it is made on, and one that fails touches nothing.
-/

namespace MiniMl

namespace Store

variable {s t : Store} {a b c : Cell} {k : Kind}

/-- The links lead from every cell to an end, and the cells with one end are of one kind. -/
structure Forest (s : Store) : Prop where
  links : WellFounded fun d c => s.LinksTo c d
  reaches : ∀ c, Relation.ReflTransGen s.LinksTo c (s.root c)
  isRoot : ∀ c, s.IsRoot (s.root c)
  shares : Equivalence fun a b => s.shares a b = true
  kind : ∀ a b, s.shares a b = true → s.kind? a = s.kind? b

theorem accessible_of_chase {n : Nat} (h : s.IsRoot (s.chase n c)) :
    Acc (fun d c => s.LinksTo c d) c := by
  induction n generalizing c with
  | zero => exact .intro c fun d hd => absurd hd (h d)
  | succ n ih =>
    refine .intro c fun d hd => ih ?_
    rwa [chase_link hd] at h

theorem chase_reaches (n : Nat) (c : Cell) :
    Relation.ReflTransGen s.LinksTo c (s.chase n c) := by
  induction n generalizing c with
  | zero => exact .refl
  | succ n ih =>
    rcases isRoot_or_link s c with hc | ⟨d, hd⟩
    · rw [chase_isRoot hc]
    · rw [chase_link hd]
      exact .head hd (ih d)

theorem shares_equivalence (s : Store) : Equivalence fun a b => s.shares a b = true := by
  constructor
  · intro a
    exact shares_iff.mpr rfl
  · intro a b hab
    exact shares_iff.mpr (shares_iff.mp hab).symm
  · intro a b c hab hbc
    exact shares_iff.mpr ((shares_iff.mp hab).trans (shares_iff.mp hbc))

theorem WellFormed.forest (hs : s.WellFormed) : s.Forest where
  links := ⟨fun c => accessible_of_chase (hs.acyclic c)⟩
  reaches := fun c => chase_reaches _ c
  isRoot := hs.isRoot_root
  shares := shares_equivalence s
  kind := fun _ _ => kind_of_shares

/-- What a call does to the cells, given those it is made on. -/
inductive Effect (s : Store) (operands : List Cell) : Store → Prop where
  | nothing : Effect s operands s
  | added {slot : Slot} : slot.isLink = false → Effect s operands (s.add slot).2
  | fixed {a : Cell} (k : Kind) : a ∈ operands → s.kind? a = none → Effect s operands (s.fix a k)
  | joined {a b : Cell} : a ∈ operands → b ∈ operands → s.kind? a = none → s.kind? b = none →
      Effect s operands (s.join a b)

variable {operands : List Cell}

theorem Effect.evolves (h : s.Effect operands t) (hs : s.WellFormed)
    (hin : ∀ a ∈ operands, a < s.slots.size) : s.Evolves t := by
  cases h with
  | nothing => exact .refl hs
  | added hslot => exact hs.evolves_add hslot
  | fixed k ha hk => exact hs.evolves_fix (hin _ ha) hk k
  | joined ha hb hka hkb => exact hs.evolves_join (hin _ ha) (hin _ hb) hka hkb

theorem Effect.kind_changed (h : s.Effect operands t) (hs : s.WellFormed)
    (hin : ∀ a ∈ operands, a < s.slots.size) (hc : c < s.slots.size)
    (hne : t.kind? c ≠ s.kind? c) : ∃ a ∈ operands, s.shares c a := by
  cases h with
  | nothing => exact absurd rfl hne
  | added hslot => exact absurd (hs.kind_add hslot hc) hne
  | @fixed a k ha hk =>
    refine ⟨a, ha, shares_iff.mpr ?_⟩
    by_contra hroot
    rw [hs.kind_fix (hin a ha), if_neg hroot] at hne
    exact hne rfl
  | joined ha hb hka hkb => exact absurd (hs.kind_join (hin _ ha) (hin _ hb) hka hkb c) hne

end Store

namespace Typing

variable {s t : Store} {x : Typed} {a b : Cell} {k : Kind} {u : Unit} {d : Diagnostic}
  {location : Location}

theorem expect_error (h : expect x k s = .error d t) : t = s := by
  rw [expect, get_bind] at h
  split at h
  · cases h
  · cases h
    rfl

theorem expectOrInfer_unchanged (h : expectOrInfer x k s = .error d t) : t = s := by
  rw [expectOrInfer, get_bind] at h
  cases hk : s.kind? x.cell with
  | none =>
    rw [hk] at h
    cases h
  | some l =>
    rw [hk] at h
    exact expect_error h

theorem unify_unchanged (h : unify a b location s = .error d t) : t = s := by
  rw [unify, get_bind] at h
  cases hka : s.kind? a with
  | some k =>
    cases hkb : s.kind? b with
    | some l =>
      rw [hka, hkb] at h
      exact expect_error h
    | none =>
      rw [hka, hkb] at h
      exact expectOrInfer_unchanged h
  | none =>
    cases hkb : s.kind? b with
    | some k =>
      rw [hka, hkb] at h
      exact expectOrInfer_unchanged h
    | none =>
      rw [hka, hkb] at h
      cases h

theorem expect_effect (h : expect x k s = .ok u t) (operands : List Cell) :
    s.Effect operands t := by
  obtain ⟨_, rfl⟩ := expect_ok h
  exact .nothing

theorem expectOrInfer_effect (h : expectOrInfer x k s = .ok u t) : s.Effect [x.cell] t := by
  rcases Constraint.expectOrInfer_cases h with ⟨_, rfl⟩ | ⟨hk, rfl⟩
  · exact .nothing
  · exact .fixed k List.mem_cons_self hk

theorem unify_effect (h : unify a b location s = .ok u t) : s.Effect [a, b] t := by
  rcases Constraint.unify_cases h with
    ⟨_, _, _, rfl⟩ | ⟨k, _, hk, rfl⟩ | ⟨k, hk, _, rfl⟩ | ⟨hka, hkb, rfl⟩
  · exact .nothing
  · exact .fixed k (by simp) hk
  · exact .fixed k (by simp) hk
  · exact .joined (by simp) (by simp) hka hkb

end Typing

/-- A call on type cells, which are named by handles in the order in which these were made. -/
inductive CellCall where
  | create (kind : Option Kind)
  | clone (x : Nat)
  | expectOrInfer (x : Nat) (kind : Kind) (location : Location)
  | expect (x : Nat) (kind : Kind) (location : Location)
  | unify (x y : Nat) (location : Location)
deriving DecidableEq, Repr

/-- Cells and the handles on them; clones are handles on one cell. -/
structure CellUse where
  store : Store
  handles : List Cell
deriving DecidableEq, Repr

namespace CellUse

def empty : CellUse := ⟨.empty, []⟩

def add (u : CellUse) (slot : Slot) : CellUse :=
  ⟨(u.store.add slot).2, u.handles ++ [(u.store.add slot).1]⟩

def typing (u : CellUse) (rule : Typing Unit) : EStateM.Result Diagnostic CellUse Unit :=
  match rule u.store with
  | .ok _ store => .ok () { u with store }
  | .error d store => .error d { u with store }

end CellUse

namespace CellCall

def operands (u : CellUse) : CellCall → List Cell
  | create _ => []
  | clone x | expectOrInfer x _ _ | expect x _ _ => u.handles[x]?.toList
  | unify x y _ => u.handles[x]?.toList ++ u.handles[y]?.toList

/-- A call on a handle that was not made does nothing. -/
def run (u : CellUse) : CellCall → EStateM.Result Diagnostic CellUse Unit
  | create kind => .ok () (u.add (kind.elim .unknown .known))
  | clone x => .ok () { u with handles := u.handles ++ u.handles[x]?.toList }
  | expectOrInfer x kind location =>
    match u.handles[x]? with
    | some c => u.typing (Typing.expectOrInfer ⟨c, location⟩ kind)
    | none => .ok () u
  | expect x kind location =>
    match u.handles[x]? with
    | some c => u.typing (Typing.expect ⟨c, location⟩ kind)
    | none => .ok () u
  | unify x y location =>
    match u.handles[x]?, u.handles[y]? with
    | some a, some b => u.typing (Typing.unify a b location)
    | _, _ => .ok () u

end CellCall

namespace CellUse

def after (u : CellUse) (call : CellCall) : CellUse :=
  match call.run u with
  | .ok _ v => v
  | .error _ v => v

def history (u : CellUse) (calls : List CellCall) : CellUse := calls.foldl after u

structure Sound (u : CellUse) : Prop where
  wellFormed : u.store.WellFormed
  handles : ∀ c ∈ u.handles, c < u.store.slots.size

variable {u v : CellUse} {call : CellCall} {rule : Typing Unit} {d : Diagnostic}

theorem typing_ok (h : u.typing rule = .ok () v) :
    ∃ t, rule u.store = .ok () t ∧ v = { u with store := t } := by
  unfold typing at h
  split at h
  next t ht =>
    cases h
    exact ⟨t, ht, rfl⟩
  next => cases h

theorem typing_error (h : u.typing rule = .error d v) :
    ∃ t, rule u.store = .error d t ∧ v = { u with store := t } := by
  unfold typing at h
  split at h
  next => cases h
  next t ht =>
    cases h
    exact ⟨t, ht, rfl⟩

theorem Sound.operands (h : u.Sound) (call : CellCall) :
    ∀ a ∈ call.operands u, a < u.store.slots.size := by
  have hget : ∀ x : Nat, ∀ a ∈ u.handles[x]?.toList, a < u.store.slots.size := by
    intro x a ha
    exact h.handles a (List.mem_of_getElem? (Option.mem_toList.mp ha))
  intro a ha
  cases call with
  | create kind => cases ha
  | clone x => exact hget x a ha
  | expectOrInfer x kind location => exact hget x a ha
  | expect x kind location => exact hget x a ha
  | unify x y location =>
    rcases List.mem_append.mp ha with ha | ha
    · exact hget x a ha
    · exact hget y a ha

end CellUse

namespace CellCall

open CellUse

variable {u v : CellUse} {call : CellCall} {d : Diagnostic}

theorem run_error (h : call.run u = .error d v) : v = u := by
  have hrule : ∀ rule : Typing Unit, (∀ s t, rule s = .error d t → t = s) →
      u.typing rule = .error d v → v = u := by
    intro rule hunchanged h
    obtain ⟨t, ht, rfl⟩ := typing_error h
    rw [hunchanged _ _ ht]
  cases call with
  | create kind => cases h
  | clone x => cases h
  | expectOrInfer x kind location =>
    simp only [run] at h
    split at h
    · exact hrule _ (fun s t => Typing.expectOrInfer_unchanged) h
    · cases h
  | expect x kind location =>
    simp only [run] at h
    split at h
    · exact hrule _ (fun s t => Typing.expect_error) h
    · cases h
  | unify x y location =>
    simp only [run] at h
    split at h
    · exact hrule _ (fun s t => Typing.unify_unchanged) h
    · cases h

/-- A call that succeeds changes cells by one effect at most. A handle behind it is an old one or is
on a cell that is there. -/
theorem run_ok (h : call.run u = .ok () v) :
    u.store.Effect (call.operands u) v.store ∧
      ∀ c ∈ v.handles, c ∈ u.handles ∨ c < v.store.slots.size := by
  cases call with
  | create kind =>
    cases h
    refine ⟨.added (by cases kind <;> rfl), fun c hc => ?_⟩
    rcases List.mem_append.mp hc with hc | hc
    · exact .inl hc
    · obtain rfl := List.mem_singleton.mp hc
      exact .inr (by simp [add, Store.add])
  | clone x =>
    cases h
    refine ⟨.nothing, fun c hc => .inl ?_⟩
    rcases List.mem_append.mp hc with hc | hc
    · exact hc
    · exact List.mem_of_getElem? (Option.mem_toList.mp hc)
  | expectOrInfer x kind location =>
    simp only [run] at h
    split at h
    next c hc =>
      obtain ⟨t, ht, rfl⟩ := typing_ok h
      rw [operands, hc]
      exact ⟨Typing.expectOrInfer_effect ht, fun c => .inl⟩
    next =>
      cases h
      exact ⟨.nothing, fun c => .inl⟩
  | expect x kind location =>
    simp only [run] at h
    split at h
    next c hc =>
      obtain ⟨t, ht, rfl⟩ := typing_ok h
      exact ⟨Typing.expect_effect ht _, fun c => .inl⟩
    next =>
      cases h
      exact ⟨.nothing, fun c => .inl⟩
  | unify x y location =>
    simp only [run] at h
    split at h
    next a b ha hb =>
      obtain ⟨t, ht, rfl⟩ := typing_ok h
      rw [operands, ha, hb]
      exact ⟨Typing.unify_effect ht, fun c => .inl⟩
    next =>
      cases h
      exact ⟨.nothing, fun c => .inl⟩

end CellCall

namespace CellUse

variable {u v : CellUse} {call : CellCall} {d : Diagnostic}

theorem after_ok (h : call.run u = .ok () v) : u.after call = v := by
  rw [after, h]

theorem after_effect (u : CellUse) (call : CellCall) :
    u.store.Effect (call.operands u) (u.after call).store := by
  unfold after
  split
  next h => exact (CellCall.run_ok h).1
  next h =>
    rw [CellCall.run_error h]
    exact .nothing

theorem Sound.evolves (h : u.Sound) (call : CellCall) : u.store.Evolves (u.after call).store :=
  (after_effect u call).evolves h.wellFormed (h.operands call)

theorem Sound.after (h : u.Sound) (call : CellCall) : (u.after call).Sound := by
  have he := h.evolves call
  refine ⟨he.wellFormed, ?_⟩
  revert he
  unfold CellUse.after
  split
  next v hrun =>
    intro he c hc
    rcases (CellCall.run_ok hrun).2 c hc with hc | hc
    · exact he.lt (h.handles c hc)
    · exact hc
  next v hrun =>
    intro _
    rw [CellCall.run_error hrun]
    exact h.handles

theorem Sound.history (h : u.Sound) (calls : List CellCall) :
    (u.history calls).Sound ∧ u.store.Evolves (u.history calls).store := by
  induction calls generalizing u with
  | nil => exact ⟨h, .refl h.wellFormed⟩
  | cons call calls ih =>
    obtain ⟨hsound, hlater⟩ := ih (h.after call)
    exact ⟨hsound, (h.evolves call).trans hlater⟩

theorem empty_sound : empty.Sound := ⟨Store.empty_wellFormed, fun c hc => by cases hc⟩

theorem Sound.unified (h : u.Sound) {x y : Nat} {a b : Cell} {location : Location}
    (ha : u.handles[x]? = some a) (hb : u.handles[y]? = some b)
    (hrun : (CellCall.unify x y location).run u = .ok () v) (calls : List CellCall) :
    (v.history calls).store.Agree a b := by
  have hrule : u.typing (Typing.unify a b location) = .ok () v := by
    simpa only [CellCall.run, ha, hb] using hrun
  obtain ⟨t, ht, hv⟩ := typing_ok hrule
  have hagree : t.Agree a b := (Typing.unify_agrees h.wellFormed
    (h.handles a (List.mem_of_getElem? ha)) (h.handles b (List.mem_of_getElem? hb)) ht).2
  have hsound : v.Sound := by
    rw [← after_ok hrun]
    exact h.after _
  subst hv
  exact hagree.later (hsound.history calls).2

end CellUse

/-- After any calls the cells are a forest. Whatever is called next: a known kind stays, linked
cells stay linked, a call that fails changes nothing, one that succeeds changes the kinds of cells
linked with its operands only, and unified cells agree for ever. -/
theorem cells_assigned_once (calls : List CellCall) :
    let u := CellUse.empty.history calls
    u.store.Forest ∧
    (∀ more, (∀ c k, u.store.kind? c = some k → (u.history more).store.kind? c = some k) ∧
      ∀ a b, u.store.shares a b → (u.history more).store.shares a b) ∧
    (∀ call d v, CellCall.run u call = .error d v → v = u) ∧
    (∀ call, ∀ c < u.store.slots.size, (u.after call).store.kind? c ≠ u.store.kind? c →
      ∃ a ∈ call.operands u, u.store.shares c a) ∧
    ∀ x y a b location v, u.handles[x]? = some a → u.handles[y]? = some b →
      CellCall.run u (.unify x y location) = .ok () v →
        ∀ more, (v.history more).store.Agree a b := by
  intro u
  have hu : u.Sound := (CellUse.empty_sound.history calls).1
  refine ⟨hu.wellFormed.forest, fun more => ?_, fun call d v => CellCall.run_error, ?_, ?_⟩
  · have hlater := (hu.history more).2
    exact ⟨fun c k => hlater.kind, fun a b => hlater.shares⟩
  · intro call c hc hne
    exact (CellUse.after_effect u call).kind_changed hu.wellFormed (hu.operands call) hc hne
  · intro x y a b location v ha hb hrun more
    exact hu.unified ha hb hrun more

/-- Fixing a clone fixes both linked cells for ever, also against the failing call behind it. -/
theorem cells_assigned_once_linked :
    let u := CellUse.empty.history [.create none, .create none, .unify 0 1 .null, .clone 0,
      .expectOrInfer 2 .int .null, .expectOrInfer 1 .bool .null]
    u = ⟨⟨#[.link 1, .known .int]⟩, [0, 1, 0]⟩ ∧ u.store.Forest ∧
      ∀ more, (u.history more).store.kind? 0 = some .int ∧ (u.history more).store.shares 0 1 := by
  intro u
  have hu : u = ⟨⟨#[.link 1, .known .int]⟩, [0, 1, 0]⟩ := by decide
  obtain ⟨hforest, hlater, -⟩ := cells_assigned_once [.create none, .create none,
    .unify 0 1 .null, .clone 0, .expectOrInfer 2 .int .null, .expectOrInfer 1 .bool .null]
  refine ⟨hu, hforest, fun more => ?_⟩
  obtain ⟨hkinds, hshares⟩ := hlater more
  constructor
  · exact hkinds 0 .int (by decide)
  · exact hshares 0 1 (by decide)

end MiniMl
