import MiniMl.Proofs.Scope.Names
import MiniMl.Proofs.Tree.Occurrences

/-! # Lexical scoping

Which symbol a use of a name must have, told from the tree alone, and what follows for the use:
something in front of it binds the symbol, and it stands nowhere that the symbol is hidden.
-/

namespace MiniMl

def NameUse.Resolved (use : NameUse) (seen : Names) : Prop :=
  seen (.ofName use.token.value) = some use.symbol

/-- Symbols are bound under their names, one after the other. -/
def Names.bindAll (f : Names) (xs : List Symbol) : Names :=
  xs.foldl (fun g x => g.set (.ofName x.name) x) f

mutual

/-- Every use has the symbol that is bound under its name. The first map is what the scope around
the expression binds, and the second is what is seen further out. -/
def Term.Resolved : Term → Names → Names → Prop
  | .binary _ lhs rhs _, here, outer =>
    lhs.Resolved here outer ∧ rhs.Resolved (here.behind lhs.exports) outer
  | .unary _ operand _, here, outer => operand.Resolved here outer
  | .pair _ first second _, here, outer =>
    first.Resolved here outer ∧ second.Resolved (here.behind first.exports) outer
  | .projection _ _ first second, here, outer =>
    first.Resolved here outer ∧ second.Resolved (here.behind first.exports) outer
  | .sequence _ first second, here, outer =>
    first.Resolved here outer ∧ second.Resolved (here.behind first.exports) outer
  | .var use, here, outer => use.Resolved (here.behind outer)
  | .constant _ _ _, _, _ => True
  | .conditional _ condition first second _, here, outer =>
    condition.Resolved here outer ∧
      (first.Resolved .empty ((here.behind condition.exports).behind outer) ∧
        Exp.elseResolved second .empty ((here.behind condition.exports).behind outer))
  | .loop _ condition body _, here, outer =>
    condition.Resolved here outer ∧
      body.Resolved .empty ((here.behind condition.exports).behind outer)
  | .letIn _ bindings body _, here, outer =>
    Binding.listResolved bindings .empty (here.behind outer) ∧
      body.Resolved (Binding.listBinds bindings .empty) (here.behind outer)
  | .call callee args _, here, outer =>
    (callee.Resolved (here.behind outer) ∧ callee.symbol.isFunction = true) ∧
      Exp.listResolved args here outer
  | .paren _ inner, here, outer => inner.Resolved here outer

def Exp.Resolved : Exp → Names → Names → Prop
  | .apply head args _ _, here, outer =>
    (head.Resolved (here.behind outer) ∧ head.symbol.isFunction = true) ∧
      Term.listResolved args here outer
  | .single _ item _, here, outer => item.Resolved here outer

/-- The parameters are all that the scope of a function binds when its body starts. -/
def Binding.Resolved : Binding → Names → Names → Prop
  | .value _ body, here, outer => body.Resolved here outer
  | .function f params body isRec _, here, outer =>
    body.Resolved (Names.empty.bindAll params)
      ((if isRec then here.set (.ofName f.name) f else here).behind outer)

def Exp.elseResolved : Option Exp → Names → Names → Prop
  | none, _, _ => True
  | some e, here, outer => e.Resolved here outer

def Term.listResolved : List Term → Names → Names → Prop
  | [], _, _ => True
  | t :: ts, here, outer =>
    t.Resolved here outer ∧ Term.listResolved ts (here.behind t.exports) outer

def Exp.listResolved : List Exp → Names → Names → Prop
  | [], _, _ => True
  | e :: es, here, outer =>
    e.Resolved here outer ∧ Exp.listResolved es (here.behind e.exports) outer

def Binding.listResolved : List Binding → Names → Names → Prop
  | [], _, _ => True
  | b :: bs, here, outer =>
    b.Resolved here outer ∧ Binding.listResolved bs (b.binds here) outer

end

namespace Names

variable {P Q : Key → Symbol → Prop} {e f g : Names}

def All (P : Key → Symbol → Prop) (f : Names) : Prop := ∀ k x, f k = some x → P k x

theorem All.imp (h : f.All P) (hpq : ∀ k x, P k x → Q k x) : f.All Q :=
  fun k x hx => hpq k x (h k x hx)

theorem All.set {key : Key} {x : Symbol} (h : f.All P) (hx : P key x) : (f.set key x).All P := by
  intro k y hy
  unfold Names.set at hy
  split at hy
  · rename_i hk
    cases hy
    exact hk ▸ hx
  · exact h k y hy

theorem All.bindAll (h : f.All P) {xs : List Symbol} (hxs : ∀ x ∈ xs, P (.ofName x.name) x) :
    (f.bindAll xs).All P := by
  induction xs generalizing f with
  | nil => exact h
  | cons x xs ih =>
    obtain ⟨hx, hxs⟩ := List.forall_mem_cons.mp hxs
    exact ih (h.set hx) hxs

theorem All.left (h : (f.behind g).All P) : f.All P := by
  intro k x hx
  refine h k x ?_
  rw [behind, hx, Option.some_or]

theorem All.between (h : (f.behind g).All P) (he : e.All P) :
    ((f.behind e).behind g).All P := by
  intro k x hx
  unfold behind at hx
  rcases Option.or_eq_some_iff.mp hx with hx | ⟨hnone, hx⟩
  · rcases Option.or_eq_some_iff.mp hx with hx | ⟨_, hx⟩
    · exact h.left k x hx
    · exact he k x hx
  · refine h k x ?_
    rw [behind, (Option.or_eq_none_iff.mp hnone).1, hx, Option.none_or]

theorem set_behind (f g : Names) (key : Key) (x : Symbol) :
    (f.set key x).behind g = (f.behind g).set key x := by
  funext k
  unfold behind set
  split
  · rfl
  · rfl

end Names

/-! Names that are plain stand for themselves. -/

def Symbol.NamedBy (x : Symbol) (key : Key) : Prop := ∀ name, key = .plain name → x.name = name

theorem Symbol.namedBy_ofName (x : Symbol) : x.NamedBy (.ofName x.name) := by
  intro name h
  unfold Key.ofName at h
  split at h
  · cases h
  · cases h
    rfl

theorem Symbol.namedBy_tag (x : Symbol) (name : String) : x.NamedBy (.tag name) := by
  intro _ h
  cases h

theorem Key.ofName_plain {name : String} (h : '@' ∉ name.toList) :
    Key.ofName name = .plain name := by
  have hstem : stem? name.toList.reverse = none := by
    unfold stem?
    split
    · rename_i rest hrest
      refine absurd ?_ h
      rw [← List.mem_reverse, hrest]
      simp
    · rfl
  rw [ofName, hstem]

/-- The binder may be used inside these constructs. -/
structure Occurrence.UsableIn (b : Occurrence) (within : List Enclosure) : Prop where
  binds : b.binds = true
  outside : ∀ c ∈ within, b.symbol ∉ c.hides
  parameter : ∀ f, b.role = .parameter f → ∃ isRec, .body f isRec ∈ within

/-- Behind these occurrences, the use is one of a symbol that one of them binds. -/
structure Occurrence.Grounded (o : Occurrence) (before : List Occurrence) : Prop where
  binder : ∃ b ∈ before, b.symbol = o.symbol ∧ b.UsableIn o.within
  name : '@' ∉ o.token.value.toList → o.symbol.name = o.token.value
  function : o.role = .callee → o.symbol.isFunction = true

/-- Each use is grounded in what comes before it. -/
def Grounded : (before os : List Occurrence) → Prop
  | _, [] => True
  | before, o :: os => (o.binds = false → o.Grounded before) ∧ Grounded (before ++ [o]) os

section Grounded

variable {before os ps : List Occurrence} {o : Occurrence}

theorem grounded_append :
    Grounded before (os ++ ps) ↔ Grounded before os ∧ Grounded (before ++ os) ps := by
  induction os generalizing before with
  | nil => simp [Grounded]
  | cons o os ih => simp [Grounded, ih, and_assoc]

theorem grounded_binders (h : ∀ o ∈ os, o.binds = true) : Grounded before os := by
  induction os generalizing before with
  | nil => trivial
  | cons o os ih =>
    obtain ⟨ho, hos⟩ := List.forall_mem_cons.mp h
    refine ⟨?_, ih hos⟩
    intro huse
    rw [ho] at huse
    cases huse

theorem Grounded.use (h : Grounded before (os ++ o :: ps)) (ho : o.binds = false) :
    o.Grounded (before ++ os) := (grounded_append.mp h).2.1 ho

end Grounded

def Visible (before : List Occurrence) (within : List Enclosure) (key : Key) (x : Symbol) : Prop :=
  x.NamedBy key ∧ ∃ b ∈ before, b.symbol = x ∧ b.UsableIn within

/-- What is seen at a place of the tree agrees with the occurrences in front of it. -/
structure Covers (before : List Occurrence) (within : List Enclosure) (seen : Names) : Prop where
  visible : seen.All (Visible before within)
  /-- What the constructs around hide has come before, so what comes later is not hidden. -/
  placed : ∀ c ∈ within, ∀ x ∈ c.hides, x ∈ binders before

section Covers

variable {before os : List Occurrence} {w : List Enclosure} {c : Enclosure} {b : Occurrence}
  {seen here outer e f : Names} {key : Key} {x : Symbol}

theorem Visible.later (h : Visible before w key x) (os : List Occurrence) :
    Visible (before ++ os) w key x :=
  ⟨h.1, h.2.imp fun _ hb => ⟨List.mem_append_left os hb.1, hb.2⟩⟩

theorem Visible.leave (h : Visible before (c :: w) key x) (hc : ∀ f isRec, c ≠ .body f isRec) :
    Visible before w key x := by
  obtain ⟨hname, b, hb, hx, hu⟩ := h
  refine ⟨hname, b, hb, hx, hu.binds, (List.forall_mem_cons.mp hu.outside).2, ?_⟩
  intro f hf
  obtain ⟨isRec, hmem⟩ := hu.parameter f hf
  rcases List.mem_cons.mp hmem with heq | hmem
  · exact absurd heq.symm (hc f isRec)
  · exact ⟨isRec, hmem⟩

theorem Covers.later (h : Covers before w seen) (os : List Occurrence) :
    Covers (before ++ os) w seen where
  visible := h.visible.imp fun _ _ hx => hx.later os
  placed := by
    intro c hc x hx
    rw [binders_append]
    exact List.mem_append_left _ (h.placed c hc x hx)

theorem nodup_parts {ps : List Occurrence} (hd : (binders (before ++ (os ++ ps))).Nodup) :
    (binders (before ++ os)).Nodup ∧ (binders ((before ++ os) ++ ps)).Nodup := by
  rw [← List.append_assoc] at hd
  refine ⟨?_, hd⟩
  rw [binders_append] at hd
  exact hd.of_append_left

/-- What is bound only here is bound by none of the occurrences in front. -/
theorem not_bound_before (hd : (binders (before ++ os)).Nodup) (hx : x ∈ binders os) :
    x ∉ binders before := by
  intro hbefore
  rw [binders_append] at hd
  exact (List.nodup_append.mp hd).2.2 x hbefore x hx rfl

theorem Covers.outside (h : Covers before w seen) (hd : (binders (before ++ os)).Nodup)
    (hx : x ∈ binders os) : ∀ c ∈ w, x ∉ c.hides := by
  intro c hc hhides
  exact not_bound_before hd hx (h.placed c hc x hhides)

theorem Covers.usable (h : Covers before w seen) (hd : (binders (before ++ os)).Nodup)
    (hb : b ∈ os) (hbinds : b.binds = true) (hp : ∀ f, b.role ≠ .parameter f) : b.UsableIn w where
  binds := hbinds
  outside := h.outside hd (mem_binders.mpr ⟨b, hb, hbinds, rfl⟩)
  parameter := fun f hf => absurd hf (hp f)

theorem Covers.enclose (h : Covers before w seen) (hd : (binders (before ++ os)).Nodup)
    (hc : ∀ x ∈ c.hides, x ∈ binders os) : Covers (before ++ os) (c :: w) seen where
  visible := by
    intro k x hx
    obtain ⟨hname, b, hb, rfl, hu⟩ := h.visible k x hx
    have hbefore := mem_binders.mpr ⟨b, hb, hu.binds, rfl⟩
    refine ⟨hname, b, List.mem_append_left os hb, rfl, hu.binds, ?_, ?_⟩
    · refine List.forall_mem_cons.mpr ⟨?_, hu.outside⟩
      intro hhides
      exact not_bound_before hd (hc _ hhides) hbefore
    · intro f hf
      exact (hu.parameter f hf).imp fun _ hmem => List.mem_cons_of_mem c hmem
  placed := by
    refine List.forall_mem_cons.mpr ⟨?_, (h.later os).placed⟩
    intro x hx
    rw [binders_append]
    exact List.mem_append_right _ (hc x hx)

theorem Covers.bind (h : Covers before w (here.behind outer)) (hkey : x.NamedBy key)
    (hb : ∃ b ∈ before, b.symbol = x ∧ b.UsableIn w) :
    Covers before w ((here.set key x).behind outer) where
  visible := by
    rw [Names.set_behind]
    exact h.visible.set ⟨hkey, hb⟩
  placed := h.placed

end Covers

/-- From places where what is seen agrees with the occurrences in front, these uses are grounded,
and what is seen behind them agrees again. -/
def Scoped (resolved : Names → Names → Prop) (binds : Names → Names)
    (occurrences : List Enclosure → List Occurrence) : Prop :=
  ∀ ⦃here outer before w⦄, resolved here outer → Covers before w (here.behind outer) →
    (binders (before ++ occurrences w)).Nodup → Grounded before (occurrences w) ∧
      Covers (before ++ occurrences w) w ((binds here).behind outer)

section Scoped

variable {R R' : Names → Names → Prop} {T T' : Names → Names} {e e' : Names}
  {O O' : List Enclosure → List Occurrence}

theorem Scoped.andThen (h : Scoped R T O) (h' : Scoped R' T' O') :
    Scoped (fun f g => R f g ∧ R' (T f) g) (fun f => T' (T f)) fun w => O w ++ O' w := by
  intro here outer before w hr hc hd
  obtain ⟨hfirst, hd⟩ := nodup_parts hd
  rw [← List.append_assoc]
  obtain ⟨hg, hc⟩ := h hr.1 hc hfirst
  obtain ⟨hg', hc'⟩ := h' hr.2 hc hd
  exact ⟨grounded_append.mpr ⟨hg, hg'⟩, hc'⟩

theorem Scoped.both (h : Scoped R (·.behind e) O) (h' : Scoped R' (·.behind e') O') :
    Scoped (fun f g => R f g ∧ R' (f.behind e) g) (·.behind (e.behind e'))
      fun w => O w ++ O' w := by
  have hboth := h.andThen h'
  simp only [Names.behind_assoc] at hboth
  exact hboth

theorem Scoped.block (h : Scoped R T O) :
    Scoped (fun f g => R .empty (f.behind g)) (·.behind (T .empty)) O := by
  intro here outer before w hr hc hd
  obtain ⟨hg, hc'⟩ := h hr hc hd
  exact ⟨hg, (hc.later _).visible.between hc'.visible.left, hc'.placed⟩

/-- Two branches see the same, and the second uses nothing that the first one binds. -/
theorem Scoped.either (h : Scoped R (·.behind e) O) (h' : Scoped R' (·.behind e') O') :
    Scoped (fun f g => R .empty (f.behind g) ∧ R' .empty (f.behind g)) (·.behind (e.behind e'))
      fun w => O w ++ O' (.otherwise (binders (O w)) :: w) := by
  intro here outer before w hr hc hd
  obtain ⟨hfirst, hd⟩ := nodup_parts hd
  rw [← List.append_assoc]
  obtain ⟨hg, hc₁⟩ := h.block hr.1 hc hfirst
  -- The second branch is entered from what was seen before the first, so nothing seen is hidden.
  have hinside := hc.enclose (c := .otherwise (binders (O w))) hfirst fun _ hx => hx
  obtain ⟨hg', hc₂⟩ := h' hr.2 hinside hd
  refine ⟨grounded_append.mpr ⟨hg, hg'⟩, ?_, (hc₁.later _).placed⟩
  change Names.All _ ((here.behind (e.behind e')).behind outer)
  rw [← Names.behind_assoc]
  refine (hc₁.later _).visible.between ?_
  exact hc₂.visible.left.imp fun _ _ hx => hx.leave (by simp)

theorem scoped_nothing (hT : ∀ f, T f = f) : Scoped R T fun _ => [] := by
  intro here outer before w _ hc _
  rw [hT]
  have hq := hc.later []
  exact ⟨trivial, hq⟩

theorem scoped_use {use : NameUse} {role : Role} (hT : ∀ f, T f = f)
    (hR : ∀ f g, R f g →
      use.Resolved (f.behind g) ∧ (role = .callee → use.symbol.isFunction = true)) :
    Scoped R T fun w => [.ofUse role w use] := by
  intro here outer before w hr hc _
  obtain ⟨hresolved, hfunction⟩ := hR here outer hr
  obtain ⟨hname, hb⟩ := hc.visible _ _ hresolved
  rw [hT]
  refine ⟨⟨fun _ => ⟨hb, ?_, hfunction⟩, trivial⟩, hc.later _⟩
  intro hplain
  exact hname _ (Key.ofName_plain hplain)

theorem Scoped.called (callee : NameUse) (h : Scoped R T O) :
    Scoped (fun f g =>
        (callee.Resolved (f.behind g) ∧ callee.symbol.isFunction = true) ∧ R f g)
      T fun w => .ofUse .callee w callee :: O w :=
  (scoped_use (T := fun f => f) (fun _ => rfl) fun _ _ hr => ⟨hr.1, fun _ => hr.2⟩).andThen h

theorem Covers.bindHere {before os : List Occurrence} {w : List Enclosure} {here outer : Names}
    {key : Key} {b : Occurrence} (h : Covers (before ++ os) w (here.behind outer))
    (hkey : b.symbol.NamedBy key) (hb : b ∈ os) (hu : b.UsableIn w) :
    Covers (before ++ os) w ((here.set key b.symbol).behind outer) :=
  h.bind hkey ⟨b, List.mem_append_right before hb, rfl, hu⟩

/-- A variable is bound behind its value, which does not see it. -/
theorem Scoped.value (x : Symbol) (h : Scoped R T O) :
    Scoped R (fun f => (T f).set (.ofName x.name) x)
      fun w => [.ofBinder .value w x] ++ O (.value x :: w) := by
  intro here outer before w hr hc hd
  obtain ⟨hfirst, hbody⟩ := nodup_parts hd
  have hmem : Occurrence.ofBinder .value w x ∈
      [.ofBinder .value w x] ++ O (.value x :: w) := List.mem_cons_self
  have husable := hc.usable hd hmem rfl (by simp [Occurrence.ofBinder])
  have hinside := hc.enclose (c := .value x) hfirst fun _ hy => hy
  obtain ⟨hg, hc'⟩ := h hr hinside hbody
  refine ⟨grounded_append.mpr ⟨grounded_binders (by simp [Occurrence.ofBinder, Occurrence.binds,
    Role.binds]), hg⟩, ?_⟩
  refine Covers.bindHere (b := .ofBinder .value w x) ?_ x.namedBy_ofName hmem husable
  rw [List.append_assoc] at hc'
  exact ⟨hc'.visible.imp fun _ _ hx => hx.leave (by simp), (hc.later _).placed⟩

theorem Covers.body {before os : List Occurrence} {w : List Enclosure} {here outer : Names}
    {f : Symbol} {params : List Symbol} {isRec : Bool} (hc : Covers before w (here.behind outer))
    (hos : os = .ofBinder .function w f :: params.map (.ofBinder (.parameter f) w))
    (hd : (binders (before ++ os)).Nodup) :
    Covers (before ++ os) (.body f isRec :: w)
      ((Names.empty.bindAll params).behind
        ((if isRec then here.set (.ofName f.name) f else here).behind outer)) := by
  have hbinders : binders os = f :: params := by
    rw [hos]
    exact congrArg (f :: ·) (binders_parameters f w params)
  have hf : f ∉ params := by
    rw [binders_append, hbinders] at hd
    exact (List.nodup_cons.mp hd.of_append_right).1
  have hhides : ∀ y ∈ (Enclosure.body f isRec).hides, y = f := by
    cases isRec
    · simp [Enclosure.hides]
    · simp [Enclosure.hides]
  have hinside := hc.enclose (c := .body f isRec) hd (by
    intro y hy
    rw [hhides y hy, hbinders]
    exact List.mem_cons_self)
  have houtside : ∀ y ∈ f :: params, ∀ c ∈ w, y ∉ c.hides := by
    rw [← hbinders]
    exact fun y hy => hc.outside hd hy
  have hself : Covers (before ++ os) (.body f isRec :: w)
      ((if isRec then here.set (.ofName f.name) f else here).behind outer) := by
    cases isRec
    · exact hinside
    · refine Covers.bindHere (b := .ofBinder .function w f) hinside f.namedBy_ofName ?_
        ⟨rfl, ?_, ?_⟩
      · rw [hos]
        exact List.mem_cons_self
      · exact List.forall_mem_cons.mpr ⟨by simp [Enclosure.hides], houtside f List.mem_cons_self⟩
      · simp [Occurrence.ofBinder]
  have hparams : ∀ y ∈ params, Visible (before ++ os) (.body f isRec :: w) (.ofName y.name) y := by
    intro y hy
    refine ⟨y.namedBy_ofName, .ofBinder (.parameter f) w y, ?_, rfl, rfl, ?_, ?_⟩
    · rw [hos]
      exact List.mem_append_right _ (List.mem_cons_of_mem _ (List.mem_map_of_mem hy))
    · refine List.forall_mem_cons.mpr ⟨?_, houtside y (List.mem_cons_of_mem f hy)⟩
      intro hhidden
      exact hf (hhides y hhidden ▸ hy)
    · rintro g ⟨⟩
      exact ⟨isRec, List.mem_cons_self⟩
  have hall : (Names.empty.bindAll params).All (Visible (before ++ os) (.body f isRec :: w)) :=
    Names.All.bindAll (fun _ _ hnone => by cases hnone) hparams
  exact ⟨Names.All.between (f := .empty) hself.visible hall, hself.placed⟩

/-- A function is bound around its body if it is recursive; its parameters are left behind. -/
theorem Scoped.function (f : Symbol) (params : List Symbol) (isRec : Bool) (h : Scoped R T O) :
    Scoped (fun here outer => R (Names.empty.bindAll params)
        ((if isRec then here.set (.ofName f.name) f else here).behind outer))
      (fun g => (g.set (.ofName f.name) f).set (.tag f.name) f)
      fun w => (.ofBinder .function w f :: params.map (.ofBinder (.parameter f) w)) ++
        O (.body f isRec :: w) := by
  intro here outer before w hr hc hd
  obtain ⟨hfirst, hbody⟩ := nodup_parts hd
  obtain ⟨hg, _⟩ := h hr (hc.body rfl hfirst) hbody
  constructor
  · refine grounded_append.mpr ⟨grounded_binders ?_, hg⟩
    simp [Occurrence.ofBinder, Occurrence.binds, Role.binds]
  · have hmem : Occurrence.ofBinder .function w f ∈
        (.ofBinder .function w f :: params.map (.ofBinder (.parameter f) w)) ++
          O (.body f isRec :: w) := List.mem_cons_self
    have husable := hc.usable hd hmem rfl (by simp [Occurrence.ofBinder])
    have hname := Covers.bindHere (b := .ofBinder .function w f) (hc.later _) f.namedBy_ofName
      hmem husable
    exact Covers.bindHere (b := .ofBinder .function w f) hname (f.namedBy_tag f.name) hmem husable

end Scoped

/-! The names of a tree whose uses are resolved are grounded: one rule for each node. -/

mutual

theorem Term.scoped : ∀ t : Term, Scoped t.Resolved (·.behind t.exports) fun w => t.occurrences w
  | .binary _ lhs rhs _ => lhs.scoped.both rhs.scoped
  | .unary _ operand _ => operand.scoped
  | .pair _ first second _ => first.scoped.both second.scoped
  | .projection _ _ first second => first.scoped.both second.scoped
  | .sequence _ first second => first.scoped.both second.scoped
  | .var _ => scoped_use Names.behind_empty fun _ _ hr => ⟨hr, fun hrole => by cases hrole⟩
  | .constant _ _ _ => scoped_nothing Names.behind_empty
  | .conditional _ condition first second _ => by
    have h := condition.scoped.both (first.scoped.either (Exp.else_scoped second))
    rw [← Names.behind_assoc] at h
    exact h
  | .loop _ condition body _ => condition.scoped.both body.scoped.block
  | .letIn _ bindings body _ => ((Binding.list_scoped bindings).andThen body.scoped).block
  | .call callee args _ => (Exp.list_scoped args).called callee
  | .paren _ inner => inner.scoped

theorem Exp.scoped : ∀ e : Exp, Scoped e.Resolved (·.behind e.exports) fun w => e.occurrences w
  | .apply head args _ _ => (Term.list_scoped args).called head
  | .single _ item _ => item.scoped

theorem Binding.scoped : ∀ b : Binding, Scoped b.Resolved b.binds fun w => b.occurrences w
  | .value x body => body.scoped.value x
  | .function f params body isRec _ => body.scoped.function f params isRec

theorem Exp.else_scoped : ∀ e : Option Exp, Scoped (Exp.elseResolved e)
    (·.behind (Exp.optionExports e)) fun w => Exp.elseOccurrences w e
  | none => scoped_nothing Names.behind_empty
  | some e => e.scoped

theorem Term.list_scoped : ∀ ts : List Term, Scoped (Term.listResolved ts)
    (·.behind (Term.listExports ts)) fun w => Term.listOccurrences w ts
  | [] => scoped_nothing Names.behind_empty
  | t :: ts => t.scoped.both (Term.list_scoped ts)

theorem Exp.list_scoped : ∀ es : List Exp, Scoped (Exp.listResolved es)
    (·.behind (Exp.listExports es)) fun w => Exp.listOccurrences w es
  | [] => scoped_nothing Names.behind_empty
  | e :: es => e.scoped.both (Exp.list_scoped es)

theorem Binding.list_scoped : ∀ bs : List Binding, Scoped (Binding.listResolved bs)
    (Binding.listBinds bs) fun w => Binding.listOccurrences w bs
  | [] => scoped_nothing fun _ => rfl
  | b :: bs => b.scoped.andThen (Binding.list_scoped bs)

end

end MiniMl
