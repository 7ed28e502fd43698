import MiniMl.Proofs.Parser.Productions
import MiniMl.Proofs.Scope.Names

/-! # What a name means behind an expression

A finished scope is copied into the one around it, which keeps the names it binds itself. Names
bound further out are not looked at, so an expression that leaves such a name bound shadows it for
the code that follows.
-/

namespace MiniMl

namespace Scopes

variable {u v w r : Scopes} {e f : Names}

/-- A run between reachable states; what comes to be bound in the current scope was made in it. -/
structure Moves (v w : Scopes) : Prop where
  start : v.Reachable
  stop : w.Reachable
  keeps : v.Keeps w
  fresh : ∀ k x, w.here k = some x → v.here k = some x ∨ v.symbols ≤ x.id

/-- A run that leaves these names bound where the current scope bound nothing. -/
structure Leaves (v : Scopes) (e : Names) (w : Scopes) : Prop extends Moves v w where
  here : w.here = v.here.behind e

theorem Moves.refl (hv : v.Reachable) : v.Moves v := ⟨hv, hv, .refl v, fun _ _ hx => .inl hx⟩

theorem Moves.trans (h : u.Moves v) (h' : v.Moves w) : u.Moves w where
  start := h.start
  stop := h'.stop
  keeps := h.keeps.trans h'.keeps
  fresh := by
    intro k x hx
    rcases h'.fresh k x hx with hx | hx
    · exact h.fresh k x hx
    · exact .inr (Nat.le_trans h.keeps.symbols hx)

theorem Leaves.refl (hv : v.Reachable) : v.Leaves .empty v :=
  ⟨.refl hv, (Names.behind_empty _).symm⟩

theorem Leaves.trans (h : u.Leaves e v) (h' : v.Leaves f w) : u.Leaves (e.behind f) w where
  toMoves := h.toMoves.trans h'.toMoves
  here := by rw [h'.here, h.here, Names.behind_assoc]

theorem Leaves.trans_empty (h : u.Leaves e v) (h' : v.Leaves .empty w) : u.Leaves e w := by
  have hw := h.trans h'
  rwa [Names.behind_empty] at hw

theorem Moves.numbered (h : v.Moves w) (n : Nat) : v.Moves (w.numbered n) where
  start := h.start
  stop := h.stop.numbered n
  keeps := h.keeps.trans (.numbered w n)
  fresh := h.fresh

theorem here_bind (hv : v.Formed) (key : Key) (x : Symbol) :
    (v.bind v.scope key x).here = v.here.set key x := by
  funext k
  change ((v.arena.bind v.scope key x).bindings v.scope).find? k = _
  rw [Arena.find?_bind hv.scope]
  simp only [true_and, Names.set, here]

theorem Keeps.bind (v : Scopes) (key : Key) (x : Symbol) : v.Keeps (v.bind v.scope key x) where
  scope := rfl
  size := Nat.le_of_eq (bind_size v v.scope key x).symm
  symbols := Nat.le_refl _
  parent := fun id _ => Arena.parent?_setBindings _ _ _ _
  kind := fun id _ => Arena.kind?_setBindings _ _ _ _
  others := by
    intro id hid hne
    rcases Nat.lt_or_ge v.scope v.arena.size with hs | hs
    · exact (Arena.bindings_setBindings hs _ id).trans (if_neg hne)
    · rw [Scopes.bind, Arena.bind, Arena.setBindings_of_size_le hs]

theorem Moves.bind (h : v.Moves w) (key : Key) {x : Symbol} (hx : x.id < w.symbols)
    (hnew : v.symbols ≤ x.id) : v.Moves (w.bind w.scope key x) where
  start := h.start
  stop := h.stop.bind w.scope key hx
  keeps := h.keeps.trans (.bind w key x)
  fresh := by
    intro k y hy
    rw [here_bind h.stop.formed] at hy
    unfold Names.set at hy
    split at hy
    · cases hy
      exact .inr hnew
    · exact h.fresh k y hy

theorem enter_here (v : Scopes) (kind : ScopeKind) : (v.enter kind).here = .empty := by
  funext k
  change ((v.arena.create kind (some v.scope)).2.bindings v.arena.size).find? k = _
  rw [Arena.bindings_create, Arena.bindings_of_size_le (Nat.le_refl _)]
  rfl

/-- A scope that was opened and closed during a run, with what it binds. -/
structure Closed (v : Scopes) (source : ScopeId) (f : Names) (w : Scopes) : Prop where
  opened : v.arena.size ≤ source
  inside : source < w.arena.size
  names : (w.arena.bindings source).find? = f
  fresh : ∀ k x, f k = some x → v.symbols ≤ x.id

theorem Closed.earlier {source : ScopeId} (h : v.Closed source f w) (hk : u.Keeps v) :
    u.Closed source f w where
  opened := Nat.le_trans hk.size h.opened
  inside := h.inside
  names := h.names
  fresh := fun k x hx => Nat.le_trans hk.symbols (h.fresh k x hx)

theorem Closed.ne_scope {source : ScopeId} (h : v.Closed source f w) (hm : v.Moves w) :
    source ≠ w.scope := by
  have hs := Nat.lt_of_lt_of_le hm.start.formed.scope h.opened
  rw [hm.keeps.scope]
  exact Nat.ne_of_gt hs

theorem Closed.later {source : ScopeId} (h : v.Closed source f w) (hm : v.Moves w)
    (hk : w.Keeps r) : v.Closed source f r where
  opened := h.opened
  inside := Nat.lt_of_lt_of_le h.inside hk.size
  names := by rw [hk.others source h.inside (h.ne_scope hm), h.names]
  fresh := h.fresh

theorem Moves.block {kind : ScopeKind} (hv : v.Reachable) (h : (v.enter kind).Moves w) :
    v.Leaves .empty w.leave ∧ v.Closed v.arena.size w.here w.leave := by
  have hsize : (v.enter kind).arena.size = v.arena.size + 1 := Arena.size_create _ _ _
  have hlt : v.arena.size < (v.enter kind).arena.size := hsize ▸ Nat.lt_succ_self _
  have hscope : w.scope = v.arena.size := h.keeps.scope
  have hleave : w.leave.scope = v.scope := by
    have hp : w.arena.parent? v.arena.size = some v.scope := by
      rw [h.keeps.parent _ hlt]
      exact (Arena.parent?_create _ _ _ _).trans (if_pos rfl)
    simp only [leave, hscope, hp, Option.getD_some]
  have hold : ∀ id, id < v.arena.size → w.arena.bindings id = v.arena.bindings id := by
    intro id hid
    rw [h.keeps.others id (Nat.lt_trans hid hlt) (Nat.ne_of_lt hid)]
    exact Arena.bindings_create _ _ _ _
  have hhere : w.leave.here = v.here := by
    change (w.arena.bindings w.leave.scope).find? = _
    rw [hleave, hold _ hv.formed.scope]
    rfl
  have hkeeps : v.Keeps w.leave :=
    { scope := hleave
      size := Nat.le_trans (Nat.le_of_lt hlt) h.keeps.size
      symbols := h.keeps.symbols
      parent := by
        intro id hid
        refine (h.keeps.parent id (Nat.lt_trans hid hlt)).trans ?_
        exact (Arena.parent?_create _ _ _ _).trans (if_neg (Nat.ne_of_lt hid))
      kind := by
        intro id hid
        refine (h.keeps.kind id (Nat.lt_trans hid hlt)).trans ?_
        exact (Arena.kind?_create _ _ _ _).trans (if_neg (Nat.ne_of_lt hid))
      others := fun id hid _ => hold id hid }
  constructor
  · refine ⟨⟨hv, h.stop.leave, hkeeps, fun k x hx => .inl (hhere ▸ hx)⟩, ?_⟩
    rw [hhere, Names.behind_empty]
  · refine ⟨Nat.le_refl _, Nat.lt_of_lt_of_le hlt h.keeps.size, by rw [here, hscope]; rfl, ?_⟩
    intro k x hx
    rcases h.fresh k x hx with hx | hx
    · rw [enter_here] at hx
      cases hx
    · exact hx

theorem Leaves.block {kind : ScopeKind} (hv : v.Reachable) (h : (v.enter kind).Leaves e w) :
    v.Leaves .empty w.leave ∧ v.Closed v.arena.size e w.leave := by
  have hblock := h.toMoves.block hv
  rwa [h.here, enter_here, Names.empty_behind] at hblock

theorem absorb_here {source : ScopeId} (hv : v.Formed) (hne : source ≠ v.scope) :
    (v.absorb source).here = v.here.behind (v.arena.bindings source).find? := by
  funext k
  change ((v.arena.append source v.scope).bindings v.scope).find? k = _
  rw [Arena.find?_append hne hv.scope, if_pos rfl]
  rfl

theorem Keeps.absorb (v : Scopes) (source : ScopeId) : v.Keeps (v.absorb source) where
  scope := rfl
  size := Nat.le_of_eq (absorb_size v source).symm
  symbols := Nat.le_refl _
  parent := fun id _ => absorb_parent? v source id
  kind := fun id _ => absorb_kind? v source id
  others := by
    intro id hid hne
    unfold Scopes.absorb Arena.append
    split
    · rfl
    · rcases Nat.lt_or_ge v.scope v.arena.size with hs | hs
      · exact (Arena.bindings_setBindings hs _ id).trans (if_neg hne)
      · rw [Arena.setBindings_of_size_le hs]

theorem Leaves.absorb {source : ScopeId} (h : v.Leaves e w) (hc : v.Closed source f w) :
    v.Leaves (e.behind f) (w.absorb source) := by
  have hhere := absorb_here h.stop.formed (hc.ne_scope h.toMoves)
  rw [hc.names] at hhere
  refine ⟨⟨h.start, h.stop.absorb source, h.keeps.trans (.absorb w source), ?_⟩, ?_⟩
  · intro k x hx
    rw [hhere] at hx
    rcases Option.or_eq_some_iff.mp hx with hx | ⟨_, hx⟩
    · exact h.fresh k x hx
    · exact .inr (hc.fresh k x hx)
  · rw [hhere, h.here, Names.behind_assoc]

end Scopes

namespace Parse

variable {α : Type} {p q : Parser}

section Expressions

variable {names : α → Names} {operand other : Parse Term}

/-- What the reader makes tells which names it leaves bound. -/
def Exports (names : α → Names) (item : Parse α) : Prop :=
  ∀ ⦃p x q⦄, item p = .ok x q → p.scopes.Reachable → p.scopes.Leaves (names x) q.scopes

theorem separated_exports {es : List Exp} {item : Parse Exp} (hi : Exports Exp.exports item)
    (h : Separated .comma item p es q) (hp : p.scopes.Reachable) :
    p.scopes.Leaves (Exp.listExports es) q.scopes := by
  induction h with
  | last hx =>
    rw [Exp.listExports, Exp.listExports, Names.behind_empty]
    exact hi hx hp
  | cons hx _ _ ih =>
    have hr := hi hx hp
    exact hr.trans (ih hr.stop)

theorem parenthesised_exports {es : List Exp} {item : Parse Exp} (hi : Exports Exp.exports item)
    (h : Parenthesised item p es q) (hp : p.scopes.Reachable) :
    p.scopes.Leaves (Exp.listExports es) q.scopes := by
  cases h with
  | unit => exact .refl hp
  | items _ hs _ =>
    have hq := separated_exports hi hs hp
    exact hq

theorem chained_exports (ho : Exports Term.exports operand) {ts : List Term}
    (h : Chained operand p ts q) (hp : p.scopes.Reachable) :
    p.scopes.Leaves (Term.listExports ts) q.scopes := by
  induction h with
  | stop => exact .refl hp
  | cons _ ht _ ih =>
    have hr := ho ht hp
    exact hr.trans (ih hr.stop)

theorem climbs_exports (ho : Exports Term.exports operand) {v : Scopes} {floor : Nat}
    {lhs t : Term} (h : Climbs operand floor lhs p t q) (hp : v.Leaves lhs.exports p.scopes) :
    v.Leaves t.exports q.scopes := by
  induction h generalizing v with
  | stop => exact hp
  | step _ _ hf _ _ _ ihr ih =>
    have hr := ho hf hp.stop
    exact ih (hp.trans (ihr hr))

theorem operators_exports (ho : Exports Term.exports operand) :
    Exports Term.exports (operators operand) := by
  intro p t q h hp
  obtain ⟨first, r, hf, h⟩ := operators_ok h
  exact climbs_exports ho h (ho hf hp)

theorem sequence_exports (ho : Exports Term.exports operand) :
    Exports Term.exports (sequence operand) := by
  intro p t q h hp
  have hs := sequence_ok h
  clear h
  induction hs with
  | last h => exact operators_exports ho h hp
  | cons hf _ _ ih =>
    have hr := operators_exports ho hf hp
    exact hr.trans (ih hr.stop)

theorem application_exports (ho : Exports Term.exports operand) :
    Exports Exp.exports (application operand) := by
  intro p e q h hp
  obtain ⟨x, f, args, r, c, s, _, _, ha, _, rfl, rfl⟩ := application_ok h
  have hr := chained_exports ho ha hp
  exact hr

theorem chainOr_exports (ho : Exports Term.exports operand)
    (hother : Exports Term.exports other) : Exports Exp.exports (chainOr operand other) := by
  intro p e q h hp
  rcases chainOr_ok h with ⟨_, _, h⟩ | ⟨item, hi, rfl⟩
  · exact application_exports ho h hp
  · exact hother hi hp

theorem exp_exports (ho : Exports Term.exports operand) : Exports Exp.exports (exp operand) :=
  chainOr_exports ho (sequence_exports ho)

theorem constant_exports : Exports Term.exports constant := by
  intro p t q h hp
  obtain ⟨value, c, s, _, _, rfl, rfl⟩ := constant_ok h
  exact .refl hp

theorem signed_exports (ho : Exports Term.exports operand) :
    Exports Term.exports (signed operand) := by
  intro p t q h hp
  obtain ⟨inner, r, c, s, hi, _, rfl, rfl⟩ := signed_ok h
  have hr := ho hi hp
  exact hr

theorem name_exports (ho : Exports Term.exports operand) :
    Exports Term.exports (name operand) := by
  intro p t q h hp
  rcases name_ok h with ⟨x, _, ⟨f, args, r, c, s, _, ha, _, rfl, rfl⟩ | ⟨rfl, rfl⟩⟩
  · have hr := parenthesised_exports (exp_exports ho) ha hp
    exact hr
  · exact .refl hp

theorem grouping_exports (ho : Exports Term.exports operand) :
    Exports Term.exports (grouping operand) := by
  intro p t q h hp
  rcases grouping_ok h with
    ⟨first, r, hf, ⟨_, second, u, c, s, hs, _, _, rfl, rfl⟩ | ⟨_, rfl, rfl⟩⟩
  · have hr := exp_exports ho hf hp
    have hu := exp_exports ho hs hr.stop
    exact hr.trans hu
  · have hr := exp_exports ho hf hp
    exact hr

theorem projection_exports (ho : Exports Term.exports operand) :
    Exports Term.exports (projection operand) := by
  intro p t q h hp
  obtain ⟨first, r, second, u, _, hf, _, hs, _, rfl, rfl⟩ := projection_ok h
  have hr := exp_exports ho hf hp
  have hu := exp_exports ho hs hr.stop
  exact hr.trans hu

/-- A branch leaves nothing yet, but its scope holds what it would leave. -/
theorem branch_exports (ho : Exports Term.exports operand) {b : Exp × ScopeId}
    (h : branch operand p = .ok b q) (hp : p.scopes.Reachable) :
    p.scopes.Leaves .empty q.scopes ∧ p.scopes.Closed b.2 b.1.exports q.scopes := by
  obtain ⟨r, he, hb, rfl⟩ := branch_ok h
  have hr : (p.scopes.enter .block).Leaves b.1.exports r.scopes :=
    chainOr_exports ho (operators_exports ho) he (hp.enter .block)
  rw [hb]
  exact hr.block hp

theorem conditional_exports (ho : Exports Term.exports operand) :
    Exports Term.exports (conditional operand) := by
  intro p t q h hp
  obtain ⟨condition, r, first, u, second, v, c, s, hc, _, hf, hs, _, rfl, rfl⟩ :=
    conditional_ok h
  have hr := exp_exports ho hc hp
  obtain ⟨hu, hfirst⟩ := branch_exports ho hf hr.stop
  rcases elseBranch_ok hs with ⟨_, b, hb, rfl⟩ | ⟨rfl, rfl⟩
  · obtain ⟨hv, hsecond⟩ := branch_exports ho hb hu.stop
    have hpv := (hr.trans_empty hu).trans_empty hv
    have hfirst := (hfirst.later hu.toMoves hv.keeps).earlier hr.keeps
    have hsecond := hsecond.earlier (hr.keeps.trans hu.keeps)
    have hboth := (hpv.absorb hfirst).absorb
      (hsecond.later hpv.toMoves (.absorb v.scopes first.2))
    exact hboth
  · have hone := (hr.trans_empty hu).absorb (hfirst.earlier hr.keeps)
    rw [Term.exports, Option.map_none, Exp.optionExports, Names.behind_empty]
    exact hone

theorem loop_exports (ho : Exports Term.exports operand) : Exports Term.exports (loop operand) := by
  intro p t q h hp
  obtain ⟨condition, r, body, u, c, s, hc, _, hb, _, _, rfl, rfl⟩ := loop_ok h
  have hr := exp_exports ho hc hp
  have hu : (r.scopes.enter .block).Leaves body.exports u.scopes :=
    exp_exports ho hb (hr.stop.enter .block)
  obtain ⟨hleave, hclosed⟩ := hu.block hr.stop
  have hdone := (hr.trans_empty hleave).absorb (hclosed.earlier hr.keeps)
  exact hdone

theorem separated_names {tokens : List Token}
    (h : Separated .comma (expect .identifier) p tokens q) : q.scopes = p.scopes := by
  induction h with
  | last hx =>
    obtain ⟨_, _, rfl⟩ := expect_ok.mp hx
    rfl
  | cons hx _ _ ih =>
    obtain ⟨_, _, rfl⟩ := expect_ok.mp hx
    exact ih

theorem parenthesised_names {tokens : List Token}
    (h : Parenthesised (expect .identifier) p tokens q) : q.scopes = p.scopes := by
  cases h with
  | unit => rfl
  | items _ hs _ =>
    have hq := separated_names hs
    exact hq

theorem parameters_ids {n : Nat} {tokens : List Token} {cells : List Cell} :
    ∀ x ∈ parameters n tokens cells, n ≤ x.id ∧ x.id < n + (parameters n tokens cells).length := by
  induction tokens generalizing n cells with
  | nil => simp [parameters]
  | cons token tokens ih =>
    cases cells with
    | nil => simp [parameters]
    | cons c cells =>
      intro x hx
      rw [parameters, List.length_cons]
      rcases List.mem_cons.mp hx with rfl | hx
      · exact ⟨Nat.le_refl _, Nat.lt_add_of_pos_right (Nat.succ_pos _)⟩
      · obtain ⟨hlow, hhigh⟩ := ih x hx
        omega

theorem defineAll_moves {v : Scopes} (h : v.Moves p.scopes) (xs : List Symbol)
    (hxs : ∀ x ∈ xs, v.symbols ≤ x.id ∧ x.id < p.symbols) :
    v.Moves (p.defineAll xs).scopes := by
  induction xs generalizing p with
  | nil => exact h
  | cons x xs ih =>
    obtain ⟨hx, hxs⟩ := List.forall_mem_cons.mp hxs
    exact ih (p := p.define x) (h.bind (.ofName x.name) hx.2 hx.1) hxs

structure Binds (v : Scopes) (b : Binding) (w : Scopes) : Prop extends Scopes.Moves v w where
  here : w.here = b.binds v.here
  made : b.symbol.id < w.symbols

/-- Whether a function is bound before or behind its body, its own scope is left without trace. -/
theorem function_binds (ho : Exports Term.exports operand) {name : Token} {isRec : Bool}
    {b : Binding} (h : function operand name isRec p = .ok b q) (hp : p.scopes.Reachable) :
    Binds p.scopes b q.scopes := by
  obtain ⟨tokens, p₁, f, s₁, x, s₂, p₂, params, body, p₃, s₃, ht, _, hx, hp₂, hparams, _, hb, _,
    rfl, rfl⟩ := function_ok h
  have hscopes := parenthesised_names ht
  have hid : x.id = p.symbols := by
    obtain ⟨c, _, rfl⟩ := functionOf_ok.mp hx
    exact congrArg Scopes.symbols hscopes
  -- The body is read from a state that has made the symbol, and bound it if it is recursive.
  have hbody : ∀ v, p.scopes.Moves v → p₂.scopes = v.enter .function →
      v.Leaves .empty p₃.scopes.leave := by
    intro v hv hp₂
    have hstart := Scopes.Moves.refl (hv.stop.enter .function)
    rw [← hp₂] at hstart
    have hdefined : p₂.scopes.Moves ((p₂.numbered params.length).defineAll params).scopes := by
      refine defineAll_moves (p := p₂.numbered params.length) (hstart.numbered _) params ?_
      rw [hparams]
      exact parameters_ids
    have hread := exp_exports ho hb hdefined.stop
    have hinner : (v.enter .function).Moves p₃.scopes := hp₂ ▸ hdefined.trans hread.toMoves
    exact (hinner.block hv.stop).1
  have hnumbered : p.scopes.Moves (p.scopes.numbered 1) := (Scopes.Moves.refl hp).numbered 1
  have hlow : p.scopes.symbols ≤ x.id := Nat.le_of_eq hid.symm
  have hhigh : x.id < (p.scopes.numbered 1).symbols := hid ▸ Nat.lt_succ_self _
  cases isRec
  · have hp₂ : p₂.scopes = (p.scopes.numbered 1).enter .function := by
      rw [hp₂]
      exact congrArg (fun v => (Scopes.numbered v 1).enter .function) hscopes
    have hleave := hbody _ hnumbered hp₂
    have hmoves := hnumbered.trans hleave.toMoves
    have hhigh := Nat.lt_of_lt_of_le hhigh hleave.keeps.symbols
    have hplain := hmoves.bind (.ofName x.name) hhigh hlow
    have htag := hplain.bind (.tag x.name) hhigh hlow
    refine ⟨htag, ?_, hhigh⟩
    have hhere := Scopes.here_bind hplain.stop.formed (.tag x.name) x
    rw [Scopes.here_bind hmoves.stop.formed, hleave.here, Names.behind_empty] at hhere
    exact hhere
  · have hplain := hnumbered.bind (.ofName x.name) hhigh hlow
    have hp₂ : p₂.scopes =
        ((p.scopes.numbered 1).bind p.scope (.ofName x.name) x).enter .function := by
      rw [hp₂]
      exact congrArg (fun v =>
        ((Scopes.numbered v 1).bind v.scope (.ofName x.name) x).enter .function) hscopes
    have hleave := hbody _ hplain hp₂
    have hmoves := hplain.trans hleave.toMoves
    have hhigh := Nat.lt_of_lt_of_le hhigh hleave.keeps.symbols
    have htag := hmoves.bind (.tag x.name) hhigh hlow
    refine ⟨htag, ?_, hhigh⟩
    have hhere := Scopes.here_bind hmoves.stop.formed (.tag x.name) x
    rw [hleave.here, Names.behind_empty, Scopes.here_bind hnumbered.stop.formed] at hhere
    exact hhere

theorem binding_binds (ho : Exports Term.exports operand) {isRec : Bool} {b : Binding}
    (h : binding operand isRec p = .ok b q) (hp : p.scopes.Reachable) :
    Binds p.scopes b q.scopes := by
  rcases binding_ok h with ⟨_, h | ⟨body, r, _, hb, rfl, rfl⟩⟩
  · have hq := function_binds ho h hp
    exact hq
  · have hr := exp_exports ho hb hp
    have hnumbered := hr.toMoves.numbered 1
    have hbound := hnumbered.bind (x := .variableOf r.symbols p.peek body.cell)
      (.ofName p.peek.value) (Nat.lt_succ_self _) hr.keeps.symbols
    refine ⟨hbound, ?_, Nat.lt_succ_self _⟩
    have hhere := Scopes.here_bind hnumbered.stop.formed (.ofName p.peek.value)
      (.variableOf r.symbols p.peek body.cell)
    have hsame : (r.scopes.numbered 1).here = p.scopes.here.behind body.exports := hr.here
    rw [hsame] at hhere
    exact hhere

theorem bindings_bind (ho : Exports Term.exports operand) {isRec : Bool} {bs : List Binding}
    (h : Separated .andWord (binding operand isRec) p bs q) (hp : p.scopes.Reachable) :
    p.scopes.Moves q.scopes ∧ q.scopes.here = Binding.listBinds bs p.scopes.here ∧
      ∀ b ∈ bs, b.symbol.id < q.symbols := by
  induction h with
  | last hb =>
    have hq := binding_binds ho hb hp
    exact ⟨hq.toMoves, hq.here, List.forall_mem_singleton.mpr hq.made⟩
  | cons hb _ _ ih =>
    have hr := binding_binds ho hb hp
    obtain ⟨hmoves, hhere, hmade⟩ := ih hr.stop
    refine ⟨hr.toMoves.trans hmoves, ?_, List.forall_mem_cons.mpr ⟨?_, hmade⟩⟩
    · rw [Binding.listBinds, ← hr.here]
      exact hhere
    · exact Nat.lt_of_lt_of_le hr.made hmoves.keeps.symbols

theorem letWords_scopes (p : Parser) : (p.advance.skip .recWord).scopes = p.scopes := by
  simp [Parser.scopes, Parser.advance]

theorem letBindings_bind (ho : Exports Term.exports operand) {isRec : Bool} {bs : List Binding}
    (h : Separated .andWord (binding operand isRec) ((p.advance.skip .recWord).enter .block) bs q)
    (hp : p.scopes.Reachable) :
    (p.scopes.enter .block).Moves q.scopes ∧
      q.scopes.here = Binding.listBinds bs (p.scopes.enter .block).here ∧
      ∀ b ∈ bs, b.symbol.id < q.symbols := by
  have henter : ((p.advance.skip .recWord).enter .block).scopes = p.scopes.enter .block :=
    congrArg (Scopes.enter · .block) (letWords_scopes p)
  have hbs := bindings_bind ho h (henter ▸ hp.enter .block)
  rwa [henter] at hbs

theorem finishLet_exports (ho : Exports Term.exports operand) {v : Scopes} {token : Token}
    {bs : List Binding} {t : Term} (h : finishLet operand token bs v.arena.size p = .ok t q)
    (hv : v.Reachable) (hbs : (v.enter .block).Moves p.scopes)
    (hhere : p.scopes.here = Binding.listBinds bs (v.enter .block).here) :
    v.Leaves t.exports q.scopes := by
  obtain ⟨body, r, _, hb, rfl, rfl⟩ := finishLet_ok h
  have hr := exp_exports ho hb hbs.stop
  have hmoves : (v.enter .block).Moves r.scopes := hbs.trans hr.toMoves
  obtain ⟨hleave, hclosed⟩ := hmoves.block hv
  have hnames : r.scopes.here = (Binding.listBinds bs .empty).behind body.exports := by
    rw [hr.here, ← Scopes.enter_here v .block, ← hhere]
    rfl
  rw [hnames] at hclosed
  have hq := hleave.absorb hclosed
  exact hq

theorem letIn_exports (ho : Exports Term.exports operand) :
    Exports Term.exports (letIn operand) := by
  intro p t q h hp
  obtain ⟨bs, r, hbs, h⟩ := letIn_ok h
  obtain ⟨hmoves, hhere, _⟩ := letBindings_bind ho hbs hp
  have hsize : (p.advance.skip .recWord).arena.size = p.scopes.arena.size :=
    congrArg (fun v => v.arena.size) (letWords_scopes p)
  rw [hsize] at h
  exact finishLet_exports ho h hp hmoves hhere

theorem operandStep_exports (ho : Exports Term.exports operand) :
    Exports Term.exports (operandStep operand) := by
  intro p t q h hp
  cases operandStep_ok h with
  | name _ h => exact name_exports ho h hp
  | constant _ h => exact constant_exports h hp
  | signed _ h => exact signed_exports ho h hp
  | grouping _ h => exact grouping_exports ho h hp
  | projection _ h => exact projection_exports ho h hp
  | conditional _ h => exact conditional_exports ho h hp
  | loop _ h => exact loop_exports ho h hp
  | letIn _ h => exact letIn_exports ho h hp

theorem operand_exports : Exports Term.exports Parse.operand := by
  intro p t q h hp
  obtain ⟨n, h⟩ := operand_ok h
  exact operand_induction (P := Exports Term.exports) (fun _ _ _ h => absurd h unexpected_ok)
    (fun _ => operandStep_exports) n h hp

end Expressions

/-! Statements: the states between them are reachable too, and each has opened a scope. -/

theorem foldl_atTop_reachable {bs : List Binding} (hp : p.scopes.Reachable)
    (hbs : ∀ b ∈ bs, b.symbol.id < p.symbols) :
    (bs.foldl atTop p).scopes.Reachable ∧ (bs.foldl atTop p).arena.size = p.arena.size := by
  induction bs generalizing p with
  | nil => exact ⟨hp, rfl⟩
  | cons b bs ih =>
    obtain ⟨hb, hrest⟩ := List.forall_mem_cons.mp hbs
    cases b with
    | value x body =>
      obtain ⟨hq, hsize⟩ := ih (p := atTop p (.value x body)) (hp.bind _ _ hb) hrest
      exact ⟨hq, hsize.trans (Scopes.bind_size p.scopes _ _ _)⟩
    | function x params body isRec scope =>
      obtain ⟨hq, hsize⟩ := ih (p := atTop p (.function x params body isRec scope))
        ((hp.bind _ _ hb).bind _ _ hb) hrest
      exact ⟨hq, hsize.trans ((Scopes.bind_size _ _ _ _).trans (Scopes.bind_size p.scopes _ _ _))⟩

theorem letStmt_reachable {token : Token} {block : ScopeId} {ss : List Stmt}
    (h : letStmt token block p = .ok ss q) (hp : p.scopes.Reachable) :
    q.scopes.Reachable ∧ p.arena.size ≤ q.arena.size := by
  obtain ⟨bs, r, hbs, h⟩ := letStmt_ok h
  obtain ⟨hmoves, hhere, hmade⟩ := letBindings_bind operand_exports hbs hp
  rcases h with ⟨item, u, hi, _, rfl, rfl⟩ | ⟨_, rfl, rfl⟩
  · have hsize : (p.advance.skip .recWord).arena.size = p.scopes.arena.size :=
      congrArg (fun v => v.arena.size) (letWords_scopes p)
    rw [hsize] at hi
    have hu := finishLet_exports operand_exports hi hp hmoves hhere
    exact ⟨hu.stop, hu.keeps.size⟩
  · obtain ⟨hq, hsize⟩ := foldl_atTop_reachable (p := r.leaveScope.advance) hmoves.stop.leave hmade
    exact ⟨hq, hsize ▸ (hmoves.block hp).1.keeps.size⟩

theorem stmt_reachable {ss : List Stmt} (h : stmt p = .ok ss q) (hp : p.scopes.Reachable) :
    q.scopes.Reachable ∧ p.arena.size < q.arena.size := by
  have hlt : p.arena.size < (p.enter .block).arena.size := by
    change p.arena.size < (p.arena.create .block (some p.scope)).2.size
    rw [Arena.size_create]
    exact Nat.lt_succ_self _
  have hp := hp.enter .block
  rcases stmt_ok h with ⟨r, rfl, ⟨_, h⟩ | h⟩
  · obtain ⟨hr, hsize⟩ := letStmt_reachable h hp
    exact ⟨hr.leave, Nat.lt_of_lt_of_le hlt hsize⟩
  · obtain ⟨e, u, he, _, rfl, _⟩ := expStmt_ok h
    have hu := exp_exports operand_exports he hp
    exact ⟨hu.stop.leave, Nat.lt_of_lt_of_le hlt hu.keeps.size⟩

/-- One of the readers of expressions, with what the expression leaves bound. -/
inductive ReadsExpression : Parser → Names → Parser → Prop where
  | exp {p e q} : exp operand p = .ok e q → ReadsExpression p e.exports q
  | sequence {p t q} : sequence operand p = .ok t q → ReadsExpression p t.exports q
  | operators {p t q} : operators operand p = .ok t q → ReadsExpression p t.exports q
  | operand {p t q} : Parse.operand p = .ok t q → ReadsExpression p t.exports q

theorem ReadsExpression.leaves {e : Names} (h : ReadsExpression p e q)
    (hp : p.scopes.Reachable) : p.scopes.Leaves e q.scopes := by
  cases h with
  | exp h => exact exp_exports operand_exports h hp
  | sequence h => exact sequence_exports operand_exports h hp
  | operators h => exact operators_exports operand_exports h hp
  | operand h => exact operand_exports h hp

end Parse

open Parse

variable {p q : Parser}

/-- Behind an expression, the scope's own bindings come first, then what the expression has left,
and only then the bindings further out. -/
theorem resolve_behind_expression {e : Names} (h : ReadsExpression p e q)
    (hp : p.scopes.Reachable) (k : Key) :
    q.arena.resolve q.scope k =
      (p.scopes.here k).or ((e k).or (p.arena.resolve p.scope k)) := by
  have hl := h.leaves hp
  rw [hl.stop.formed.resolve k, hp.formed.resolve k, hl.keeps.outer hp.formed, hl.here]
  unfold Names.behind
  cases p.scopes.here k with
  | some x => rfl
  | none => rfl

/-- A name keeps its meaning exactly if the scope binds it itself or the expression leaves it
alone. -/
theorem restored_iff {e : Names} {name : String} {x : Symbol} (h : ReadsExpression p e q)
    (hp : p.scopes.Reachable) (hx : p.arena.find? p.scope name = some x) :
    q.arena.find? q.scope name = some x ↔
      (p.arena.findHere? p.scope name).isSome = true ∨ e (.ofName name) = none := by
  have hafter := resolve_behind_expression h hp (.ofName name)
  have hbefore := hp.formed.resolve (.ofName name)
  have hl := h.leaves hp
  change p.arena.resolve p.scope (.ofName name) = some x at hx
  change q.arena.resolve q.scope (.ofName name) = some x ↔
    (p.scopes.here (.ofName name)).isSome = true ∨ e (.ofName name) = none
  rw [hafter]
  cases hhere : p.scopes.here (.ofName name) with
  | some y =>
    have hxy : y = x := by
      rw [hx, Names.behind, hhere] at hbefore
      exact (Option.some.inj hbefore).symm
    simp [hxy]
  | none =>
    cases he : e (.ofName name) with
    | none => simp [hx]
    | some y =>
      have hnew : p.symbols ≤ y.id := by
        have hy : q.scopes.here (.ofName name) = some y := by
          rw [hl.here, Names.behind, hhere, he]
          rfl
        rcases hl.fresh _ _ hy with hy | hy
        · rw [hhere] at hy
          cases hy
        · exact hy
      have hold : x.id < p.symbols := hp.formed.made.lookup hx
      have hne : y ≠ x := by
        intro hyx
        subst hyx
        exact absurd hold (Nat.not_lt.mpr hnew)
      simp [hne]

/-- At the top level the scope binds the name itself, and the let inside is forgotten. -/
theorem restored_iff_topLevel :
    ∃ tokens ss p e q x, tokenize "let x = 1 ;; let x = true in x ;;" "shell" = .ok tokens ∧
      Parse.stmt (.ofTokens tokens) = .ok ss p ∧ Parse.exp Parse.operand p = .ok e q ∧
      p.arena.find? p.scope "x" = some x ∧ e.exports (.ofName "x") ≠ none ∧
      q.arena.find? q.scope "x" = some x := by
  have hrun : ((tokenize "let x = 1 ;; let x = true in x ;;" "shell").toOption.bind fun tokens =>
      (Parse.stmt.outcome? (.ofTokens tokens)).bind fun (_, p) =>
        ((Parse.exp Parse.operand).outcome? p).map fun (e, _) =>
          ((p.arena.find? p.scope "x").isSome, (p.arena.findHere? p.scope "x").isSome,
            (e.exports (.ofName "x")).isSome)) = some (true, true, true) := by decide +kernel
  obtain ⟨tokens, ht, hrun⟩ := Option.bind_eq_some_iff.mp hrun
  obtain ⟨⟨ss, p⟩, hs, hrun⟩ := Option.bind_eq_some_iff.mp hrun
  obtain ⟨⟨e, q⟩, he, hrun⟩ := Option.map_eq_some_iff.mp hrun
  have ht := ok_of_toOption ht
  have hs := Parse.outcome?_eq_some.mp hs
  have he := Parse.outcome?_eq_some.mp he
  obtain ⟨hx, hrun⟩ := Prod.mk.inj hrun
  obtain ⟨hhere, hleft⟩ := Prod.mk.inj hrun
  obtain ⟨x, hx⟩ := Option.isSome_iff_exists.mp hx
  have hp := (Parse.stmt_reachable hs .initial).1
  exact ⟨tokens, ss, p, e, q, x, ht, hs, he, hx, Option.ne_none_iff_isSome.mpr hleft,
    (restored_iff (.exp he) hp hx).mpr (.inl hhere)⟩

/-- One scope further in, the same let takes the name over for what follows. -/
theorem shadowed_behind_let :
    ∃ tokens ss p e q, tokenize "let x = 1 ;; let x = true in x ;;" "shell" = .ok tokens ∧
      Parse.stmt (.ofTokens tokens) = .ok ss p ∧ (p.enter .block).scopes.Reachable ∧
      Parse.exp Parse.operand (p.enter .block) = .ok e q ∧
      ((p.enter .block).arena.find? (p.enter .block).scope "x").isSome = true ∧
      q.arena.find? q.scope "x" ≠ (p.enter .block).arena.find? (p.enter .block).scope "x" := by
  have hrun : ((tokenize "let x = 1 ;; let x = true in x ;;" "shell").toOption.bind fun tokens =>
      (Parse.stmt.outcome? (.ofTokens tokens)).bind fun (_, p) =>
        ((Parse.exp Parse.operand).outcome? (p.enter .block)).map fun (_, q) =>
          (((p.enter .block).arena.find? (p.enter .block).scope "x").isSome,
            q.arena.find? q.scope "x" ==
              (p.enter .block).arena.find? (p.enter .block).scope "x")) =
      some (true, false) := by decide +kernel
  obtain ⟨tokens, ht, hrun⟩ := Option.bind_eq_some_iff.mp hrun
  obtain ⟨⟨ss, p⟩, hs, hrun⟩ := Option.bind_eq_some_iff.mp hrun
  obtain ⟨⟨e, q⟩, he, hrun⟩ := Option.map_eq_some_iff.mp hrun
  have hs := Parse.outcome?_eq_some.mp hs
  obtain ⟨hx, hne⟩ := Prod.mk.inj hrun
  have hp := (Parse.stmt_reachable hs .initial).1
  exact ⟨tokens, ss, p, e, q, ok_of_toOption ht, hs, hp.enter .block,
    Parse.outcome?_eq_some.mp he, hx, by simpa using hne⟩

end MiniMl
