import MiniMl.Proofs.Parser.Productions
import MiniMl.Proofs.Scope.Arena
import MiniMl.Proofs.Typing.WellTyped

/-! # Accepted programs are well typed

Rules are applied while the tree is built, and its cells go on changing until the input ends. Every
production keeps the store well formed and the cells of all bound names in it, answers a
well-typed tree, and spoils none that was read before.
-/

namespace MiniMl

structure Symbol.Within (x : Symbol) (s : Store) : Prop where
  cell : x.cell < s.slots.size
  signature : ∀ f, x.signature? = some f → f.Within s

/-- The cells of everything that can be looked up are in the store. -/
structure Consistent (s : Store) (a : Arena) : Prop where
  wellFormed : s.WellFormed
  held : a.Holds (Symbol.Within · s)

variable {s t u : Store} {a : Arena} {x : Symbol}

theorem Symbol.Within.later (h : x.Within s) (he : s.Evolves t) : x.Within t where
  cell := he.lt h.cell
  signature := fun f hf => (h.signature f hf).later he

theorem Symbol.Within.called {name : Token} {f : Signature} {args : List Typed} {c : Cell}
    (hx : x.Within s) (hf : x.signature? = some f) (he : s.Evolves t)
    (hargs : ∀ z ∈ args, z.cell < t.slots.size) (h : Typing.call name f args t = .ok c u) :
    t.Evolves u ∧ u.Calls x (args.map Typed.cell) c ∧ c < u.slots.size := by
  have hwithin := (hx.signature f hf).later he
  obtain ⟨he', rfl, hpasses⟩ := Typing.call_holds he.wellFormed hwithin hargs h
  exact ⟨he', ⟨f, hf, hpasses, rfl⟩, (hwithin.later he').result⟩

theorem Symbol.variableOf_within {id : Nat} {token : Token} {c : Cell} (hc : c < s.slots.size) :
    (variableOf id token c).Within s where
  cell := hc
  signature := fun f hf => by cases hf

theorem Symbol.functionOf_within {id : Nat} {token : Token} {f : Signature}
    (hs : s.WellFormed) (hf : f.Within s) (h : functionOf id token f s = .ok x t) :
    s.Evolves t ∧ x.Within t ∧ x.signature? = some f := by
  obtain ⟨c, hc, rfl⟩ := Parse.functionOf_ok.mp h
  obtain ⟨he, hk⟩ := Typing.new_known hs hc
  refine ⟨he, ⟨Store.lt_of_kind hk, ?_⟩, rfl⟩
  intro g hg
  cases hg
  exact hf.later he

namespace Consistent

theorem later (h : Consistent s a) (he : s.Evolves t) : Consistent t a where
  wellFormed := he.wellFormed
  held := h.held.imp fun _ hx => hx.later he

theorem bind (h : Consistent s a) (id : ScopeId) (key : Key) (hx : x.Within s) :
    Consistent s (a.bind id key x) where
  wellFormed := h.wellFormed
  held := h.held.bind id key hx

theorem enter (h : Consistent s a) (kind : ScopeKind) (parent : Option ScopeId) :
    Consistent s (a.create kind parent).2 where
  wellFormed := h.wellFormed
  held := h.held.create kind parent

theorem absorb (h : Consistent s a) (source target : ScopeId) :
    Consistent s (a.append source target) where
  wellFormed := h.wellFormed
  held := h.held.append source target

theorem defineAll {p : Parser} (h : Consistent p.store p.arena) (xs : List Symbol)
    (hxs : ∀ x ∈ xs, x.Within p.store) :
    Consistent (p.defineAll xs).store (p.defineAll xs).arena ∧
      (p.defineAll xs).store = p.store := by
  induction xs generalizing p with
  | nil => exact ⟨h, rfl⟩
  | cons x xs ih =>
    obtain ⟨hx, hxs⟩ := List.forall_mem_cons.mp hxs
    exact ih (p := p.define x) (h.bind p.scope _ hx) hxs

end Consistent

theorem Parse.parameters_within {n : Nat} {tokens : List Token} {cells : List Cell}
    (hc : ∀ c ∈ cells, c < s.slots.size) : ∀ x ∈ parameters n tokens cells, x.Within s := by
  induction tokens generalizing n cells with
  | nil => simp [parameters]
  | cons token tokens ih =>
    cases cells with
    | nil => simp [parameters]
    | cons c cells =>
      obtain ⟨hc₀, hc⟩ := List.forall_mem_cons.mp hc
      exact List.forall_mem_cons.mpr ⟨Symbol.variableOf_within hc₀, ih hc⟩

theorem Parse.parameters_cells {n : Nat} {tokens : List Token} {cells : List Cell}
    (hl : cells.length = tokens.length) :
    (parameters n tokens cells).map Symbol.cell = cells := by
  induction tokens generalizing n cells with
  | nil => simpa [parameters] using (List.length_eq_zero_iff.mp hl).symm
  | cons token tokens ih =>
    cases cells with
    | nil => cases hl
    | cons c cells =>
      rw [parameters, List.map_cons, ih (Nat.succ.inj hl)]
      rfl

/-- A successful run keeps what is bound consistent and makes something with the property. -/
structure Checks (P : Store → α → Prop) (p : Parser) (x : α) (q : Parser) : Prop where
  consistent : Consistent q.store q.arena
  evolves : p.store.Evolves q.store
  made : P q.store x

namespace Parse

variable {α : Type} {P : Store → α → Prop} {operand other : Parse Term} {p q : Parser}

def Sound (P : Store → α → Prop) (item : Parse α) : Prop :=
  ∀ ⦃p x q⦄, item p = .ok x q → Consistent p.store p.arena → Checks P p x q

def Lasting (P : Store → α → Prop) : Prop := ∀ ⦃s t x⦄, P s x → s.Evolves t → P t x

def TermTyped (s : Store) (t : Term) : Prop := t.WellTyped s ∧ t.cell < s.slots.size

def ExpTyped (s : Store) (e : Exp) : Prop := e.WellTyped s ∧ e.cell < s.slots.size

def BindingTyped (s : Store) (b : Binding) : Prop := b.WellTyped s ∧ b.symbol.Within s

theorem lasting_term : Lasting TermTyped :=
  fun _ _ x h he => ⟨x.wellTyped_later he h.1, he.lt h.2⟩

theorem lasting_exp : Lasting ExpTyped :=
  fun _ _ e h he => ⟨e.wellTyped_later he h.1, he.lt h.2⟩

theorem lasting_binding : Lasting BindingTyped :=
  fun _ _ b h he => ⟨b.wellTyped_later he h.1, h.2.later he⟩

/-! Loops: what each item has, all have. -/

theorem separated_sound (hl : Lasting P) {separator : TokenKind} {item : Parse α} {xs : List α}
    (hi : Sound P item) (h : Separated separator item p xs q)
    (hp : Consistent p.store p.arena) : Checks (fun s xs => ∀ x ∈ xs, P s x) p xs q := by
  induction h with
  | last hx =>
    obtain ⟨hq, he, hx⟩ := hi hx hp
    exact ⟨hq, he, by simpa using hx⟩
  | cons hx hk _ ih =>
    obtain ⟨hr, he, hx⟩ := hi hx hp
    obtain ⟨hq, he', hxs⟩ := ih hr
    exact ⟨hq, he.trans he', List.forall_mem_cons.mpr ⟨hl hx he', hxs⟩⟩

theorem parenthesised_sound (hl : Lasting P) {item : Parse α} {xs : List α} (hi : Sound P item)
    (h : Parenthesised item p xs q) (hp : Consistent p.store p.arena) :
    Checks (fun s xs => ∀ x ∈ xs, P s x) p xs q := by
  cases h with
  | unit hk => exact ⟨hp, .refl hp.wellFormed, by simp⟩
  | items ho hs hc =>
    obtain ⟨hq, he, hxs⟩ := separated_sound hl hi hs hp
    exact ⟨hq, he, hxs⟩

theorem chained_sound (ho : Sound TermTyped operand) {ts : List Term}
    (h : Chained operand p ts q) (hp : Consistent p.store p.arena) :
    Checks (fun s ts => ∀ t ∈ ts, TermTyped s t) p ts q := by
  induction h with
  | stop => exact ⟨hp, .refl hp.wellFormed, by simp⟩
  | cons hk ht _ ih =>
    obtain ⟨hr, he, ht⟩ := ho ht hp
    obtain ⟨hq, he', hts⟩ := ih hr
    exact ⟨hq, he.trans he', List.forall_mem_cons.mpr ⟨lasting_term ht he', hts⟩⟩

theorem climbs_sound (ho : Sound TermTyped operand) {floor : Nat} {lhs t : Term}
    (h : Climbs operand floor lhs p t q) (hp : Consistent p.store p.arena)
    (hlhs : TermTyped p.store lhs) : Checks TermTyped p t q := by
  induction h with
  | stop => exact ⟨hp, .refl hp.wellFormed, hlhs⟩
  | step hop hfloor hf _ hc _ ihr ih =>
    obtain ⟨hr, he₁, hf⟩ := ho hf hp
    obtain ⟨hu, he₂, hrhs⟩ := ihr hr hf
    have hlhs := lasting_term hlhs (he₁.trans he₂)
    obtain ⟨he₃, hb⟩ := Typing.binary_holds hu.wellFormed hlhs.2 hrhs.2 hc
    have ht := lasting_term hlhs he₃
    have hrhs := lasting_term hrhs he₃
    obtain ⟨hq, he₄, ht⟩ := ih (hu.later he₃) ⟨⟨ht.1, hrhs.1, hb⟩, hb.lt⟩
    exact ⟨hq, ((he₁.trans he₂).trans he₃).trans he₄, ht⟩

theorem operators_sound (ho : Sound TermTyped operand) : Sound TermTyped (operators operand) := by
  intro p t q h hp
  obtain ⟨first, r, hf, h⟩ := operators_ok h
  obtain ⟨hr, he, hf⟩ := ho hf hp
  obtain ⟨hq, he', ht⟩ := climbs_sound ho h hr hf
  exact ⟨hq, he.trans he', ht⟩

theorem sequence_sound (ho : Sound TermTyped operand) : Sound TermTyped (sequence operand) := by
  intro p t q h hp
  have hs := sequence_ok h
  clear h
  induction hs with
  | last h => exact operators_sound ho h hp
  | cons hf hk _ ih =>
    obtain ⟨hr, he, hf⟩ := operators_sound ho hf hp
    obtain ⟨hq, he', hs⟩ := ih hr
    exact ⟨hq, he.trans he', ⟨(lasting_term hf he').1, hs.1⟩, hs.2⟩

/-! Each production. A rule is applied to cells that were answered in earlier stores. -/

theorem application_sound (ho : Sound TermTyped operand) :
    Sound ExpTyped (application operand) := by
  intro p e q h hp
  obtain ⟨x, f, args, r, c, s, hx, hf, ha, hc, rfl, rfl⟩ := application_ok h
  have hwithin := hp.held.lookup hx
  obtain ⟨hr, he, ha⟩ := chained_sound ho ha hp
  obtain ⟨he', hcalls, hlt⟩ :=
    hwithin.called hf he (by simpa [Term.typed] using fun t ht => (ha t ht).2) hc
  rw [List.map_map] at hcalls
  refine ⟨hr.later he', he.trans he', ⟨?_, hcalls⟩, hlt⟩
  exact (Term.listWellTyped_iff args).mpr fun t ht => (lasting_term (ha t ht) he').1

theorem chainOr_sound (ho : Sound TermTyped operand) (hother : Sound TermTyped other) :
    Sound ExpTyped (chainOr operand other) := by
  intro p e q h hp
  rcases chainOr_ok h with ⟨_, _, h⟩ | ⟨item, hi, rfl⟩
  · exact application_sound ho h hp
  · obtain ⟨hq, he, hi⟩ := hother hi hp
    exact ⟨hq, he, hi⟩

theorem exp_sound (ho : Sound TermTyped operand) : Sound ExpTyped (exp operand) :=
  chainOr_sound ho (sequence_sound ho)

theorem constant_sound : Sound TermTyped constant := by
  intro p t q h hp
  obtain ⟨value, c, s, _, hc, rfl, rfl⟩ := constant_ok h
  obtain ⟨he, hk⟩ := Typing.new_known hp.wellFormed hc
  exact ⟨hp.later he, he, hk, Store.lt_of_kind hk⟩

theorem signed_sound (ho : Sound TermTyped operand) : Sound TermTyped (signed operand) := by
  intro p t q h hp
  obtain ⟨inner, r, c, s, hi, hc, rfl, rfl⟩ := signed_ok h
  obtain ⟨hr, he, hi⟩ := ho hi hp
  obtain ⟨he', hu⟩ := Typing.unary_holds hr.wellFormed hi.2 hc
  have hlt : c < s.slots.size := by
    obtain ⟨k, _, _, hk⟩ := hu
    exact Store.lt_of_kind hk
  exact ⟨hr.later he', he.trans he', ⟨(lasting_term hi he').1, hu⟩, hlt⟩

theorem name_sound (ho : Sound TermTyped operand) : Sound TermTyped (name operand) := by
  intro p t q h hp
  rcases name_ok h with ⟨x, hx, ⟨f, args, r, c, s, hf, ha, hc, rfl, rfl⟩ | ⟨rfl, rfl⟩⟩
  · have hwithin := hp.held.lookup hx
    obtain ⟨hr, he, ha⟩ := parenthesised_sound lasting_exp (exp_sound ho) ha hp
    obtain ⟨he', hcalls, hlt⟩ :=
      hwithin.called hf he (by simpa [Exp.typed] using fun e h => (ha e h).2) hc
    rw [List.map_map] at hcalls
    refine ⟨hr.later he', he.trans he', ⟨?_, hcalls⟩, hlt⟩
    exact (Exp.listWellTyped_iff args).mpr fun e h => (lasting_exp (ha e h) he').1
  · exact ⟨hp, .refl hp.wellFormed, trivial, (hp.held.lookup hx).cell⟩

theorem grouping_sound (ho : Sound TermTyped operand) : Sound TermTyped (grouping operand) := by
  intro p t q h hp
  rcases grouping_ok h with
    ⟨first, r, hf, ⟨_, second, u, c, s, hs, _, hc, rfl, rfl⟩ | ⟨_, rfl, rfl⟩⟩
  · obtain ⟨hr, he₁, hf⟩ := exp_sound ho hf hp
    obtain ⟨hu, he₂, hs⟩ := exp_sound ho hs hr
    obtain ⟨he₃, hk⟩ := Typing.new_known hu.wellFormed hc
    exact ⟨hu.later he₃, (he₁.trans he₂).trans he₃,
      ⟨(lasting_exp hf (he₂.trans he₃)).1, (lasting_exp hs he₃).1, hk⟩, Store.lt_of_kind hk⟩
  · obtain ⟨hr, he, hf⟩ := exp_sound ho hf hp
    exact ⟨hr, he, hf⟩

theorem projection_sound (ho : Sound TermTyped operand) :
    Sound TermTyped (projection operand) := by
  intro p t q h hp
  obtain ⟨first, r, second, u, _, hf, _, hs, _, rfl, rfl⟩ := projection_ok h
  obtain ⟨hr, he₁, hf⟩ := exp_sound ho hf hp
  obtain ⟨hu, he₂, hs⟩ := exp_sound ho hs hr
  have hf := lasting_exp hf he₂
  refine ⟨hu, he₁.trans he₂, ⟨hf.1, hs.1⟩, ?_⟩
  split
  · exact hf.2
  · exact hs.2

theorem branch_sound (ho : Sound TermTyped operand) :
    Sound (fun s b => ExpTyped s b.1) (branch operand) := by
  intro p b q h hp
  obtain ⟨r, he, _, rfl⟩ := branch_ok h
  obtain ⟨hr, he, hb⟩ := chainOr_sound ho (operators_sound ho) he (hp.enter .block (some p.scope))
  exact ⟨hr, he, hb⟩

theorem elseBranch_sound (ho : Sound TermTyped operand) :
    Sound (fun s b => ∀ c ∈ b, ExpTyped s c.1) (elseBranch operand) := by
  intro p b q h hp
  rcases elseBranch_ok h with ⟨_, c, hc, rfl⟩ | ⟨rfl, rfl⟩
  · obtain ⟨hq, he, hc⟩ := branch_sound ho hc hp
    exact ⟨hq, he, by simpa using hc⟩
  · exact ⟨hp, .refl hp.wellFormed, by simp⟩

theorem conditional_sound (ho : Sound TermTyped operand) :
    Sound TermTyped (conditional operand) := by
  intro p t q h hp
  obtain ⟨condition, r, first, u, second, v, c, s, hc, _, hf, hs, hrule, rfl, rfl⟩ :=
    conditional_ok h
  obtain ⟨hr, he₁, hc⟩ := exp_sound ho hc hp
  obtain ⟨hu, he₂, hf⟩ := branch_sound ho hf hr
  obtain ⟨hv, he₃, hs⟩ := elseBranch_sound ho hs hu
  have hc := lasting_exp hc (he₂.trans he₃)
  have hf := lasting_exp hf he₃
  have hz : ∀ z ∈ second.map fun b => b.1.typed, z.cell < v.store.slots.size := by
    intro z hz
    obtain ⟨b, hb, rfl⟩ := Option.map_eq_some_iff.mp hz
    exact (hs b hb).2
  obtain ⟨he₄, rfl, hk, hbranches⟩ := Typing.conditional_holds hv.wellFormed hc.2 hf.2 hz hrule
  have he := ((he₁.trans he₂).trans he₃).trans he₄
  have hc := lasting_exp hc he₄
  have hf := lasting_exp hf he₄
  have hw := hv.later he₄
  cases second with
  | none =>
    exact ⟨hw.absorb first.2 v.scope, he, ⟨hc.1, hf.1, trivial, hk, rfl, hbranches⟩, hf.2⟩
  | some b =>
    have hb := lasting_exp (hs b rfl) he₄
    exact ⟨(hw.absorb first.2 v.scope).absorb b.2 v.scope, he,
      ⟨hc.1, hf.1, hb.1, hk, rfl, hbranches⟩, hf.2⟩

theorem loop_sound (ho : Sound TermTyped operand) : Sound TermTyped (loop operand) := by
  intro p t q h hp
  obtain ⟨condition, r, body, u, c, s, hc, _, hb, _, hrule, rfl, rfl⟩ := loop_ok h
  obtain ⟨hr, he₁, hc⟩ := exp_sound ho hc hp
  obtain ⟨hu, he₂, hb⟩ := exp_sound ho hb (hr.enter .block (some r.scope))
  have hc := lasting_exp hc he₂
  obtain ⟨he₃, rfl, hk, hknown⟩ := Typing.loop_holds hu.wellFormed hc.2 hb.2 hrule
  have hb := lasting_exp hb he₃
  exact ⟨(hu.later he₃).absorb _ _, (he₁.trans he₂).trans he₃,
    ⟨(lasting_exp hc he₃).1, hb.1, hk, rfl, hknown⟩, hb.2⟩

theorem expect_sound (kind : TokenKind) : Sound (fun _ _ => True) (expect kind) := by
  intro p t q h hp
  obtain ⟨_, _, rfl⟩ := expect_ok.mp h
  exact ⟨hp, .refl hp.wellFormed, trivial⟩

theorem function_sound (ho : Sound TermTyped operand) (name : Token) (isRec : Bool) :
    Sound BindingTyped (function operand name isRec) := by
  intro p b q h hp
  obtain ⟨tokens, p₁, f, s₁, x, s₂, p₂, params, body, p₃, s₃, ht, hf, hx, he₂, hparams, _, hb,
    hrule, rfl, rfl⟩ := function_ok h
  obtain ⟨hp₁, he, _⟩ := parenthesised_sound (fun _ _ _ _ _ => trivial)
    (expect_sound .identifier) ht hp
  have hl := Signature.new_length hf
  obtain ⟨hf₁, hf⟩ := Signature.new_within hp₁.wellFormed hf
  obtain ⟨hx₂, hx, hsig⟩ := Symbol.functionOf_within hf₁.wellFormed hf hx
  have hf := hf.later hx₂
  have hp₁ := hp₁.later (hf₁.trans hx₂)
  have hp₂ : Consistent p₂.store p₂.arena ∧ p₂.store = s₂ := by
    subst he₂
    cases isRec
    · exact ⟨hp₁.enter .function _, rfl⟩
    · exact ⟨(hp₁.bind _ _ hx).enter .function _, rfl⟩
  obtain ⟨hp₂, rfl⟩ := hp₂
  -- The parameters and the body are in the scope of the function.
  have hwithin : ∀ y ∈ params, y.Within p₂.store := by
    rw [hparams]
    exact parameters_within hf.params
  obtain ⟨hp₂', hstore⟩ := Consistent.defineAll (p := p₂.numbered params.length) hp₂ params hwithin
  obtain ⟨hp₃, hb₃, hb⟩ := exp_sound ho hb hp₂'
  have hb₃ : p₂.store.Evolves p₃.store := hstore ▸ hb₃
  obtain ⟨hr₃, hagree⟩ := Typing.functionBody_agrees hp₃.wellFormed (hf.later hb₃) hb.2 hrule
  have hx := hx.later (hb₃.trans hr₃)
  have hcells : f.params = params.map Symbol.cell := by
    rw [hparams, parameters_cells hl]
  have hmade : BindingTyped s₃ (.function x params body isRec p₂.scope) :=
    ⟨⟨(lasting_exp hb hr₃).1, f, hsig, hcells, hagree⟩, hx⟩
  have he := ((he.trans (hf₁.trans hx₂)).trans hb₃).trans hr₃
  have hp₃ := hp₃.later hr₃
  cases isRec
  · exact ⟨(hp₃.bind _ _ hx).bind _ _ hx, he, hmade⟩
  · exact ⟨hp₃.bind _ _ hx, he, hmade⟩

theorem binding_sound (ho : Sound TermTyped operand) (isRec : Bool) :
    Sound BindingTyped (binding operand isRec) := by
  intro p b q h hp
  rcases binding_ok h with ⟨_, h | ⟨body, r, _, hb, rfl, rfl⟩⟩
  · obtain ⟨hq, he, hb⟩ := function_sound ho p.peek isRec h hp
    exact ⟨hq, he, hb⟩
  · obtain ⟨hr, he, hb⟩ := exp_sound ho hb hp
    have hx : (Symbol.variableOf r.symbols p.peek body.cell).Within r.store :=
      Symbol.variableOf_within hb.2
    exact ⟨hr.bind r.scope _ hx, he, ⟨hb.1, rfl⟩, hx⟩

theorem letBindings_sound (ho : Sound TermTyped operand) {isRec : Bool} {bs : List Binding}
    (h : Separated .andWord (binding operand isRec) ((p.advance.skip .recWord).enter .block) bs q)
    (hp : Consistent p.store p.arena) :
    Checks (fun s bs => ∀ b ∈ bs, BindingTyped s b) p bs q := by
  have hp₁ : Consistent (p.advance.skip .recWord).store (p.advance.skip .recWord).arena := by
    rw [Parser.skip_store, Parser.skip_arena]
    exact hp
  obtain ⟨hq, he, hbs⟩ := separated_sound lasting_binding (binding_sound ho _) h
    (hp₁.enter .block _)
  exact ⟨hq, Parser.skip_store p.advance .recWord ▸ he, hbs⟩

theorem finishLet_sound (ho : Sound TermTyped operand) {token : Token} {bs : List Binding}
    {scope : ScopeId} {t : Term} (h : finishLet operand token bs scope p = .ok t q)
    (hp : Consistent p.store p.arena) (hbs : ∀ b ∈ bs, BindingTyped p.store b) :
    Checks TermTyped p t q := by
  obtain ⟨body, r, _, hb, rfl, rfl⟩ := finishLet_ok h
  obtain ⟨hr, he, hb⟩ := exp_sound ho hb hp
  refine ⟨hr.absorb _ _, he, ⟨?_, hb.1⟩, hb.2⟩
  exact (Binding.listWellTyped_iff bs).mpr fun b h => (lasting_binding (hbs b h) he).1

theorem letIn_sound (ho : Sound TermTyped operand) : Sound TermTyped (letIn operand) := by
  intro p t q h hp
  obtain ⟨bs, r, hbs, h⟩ := letIn_ok h
  obtain ⟨hr, he, hbs⟩ := letBindings_sound ho hbs hp
  obtain ⟨hq, he', ht⟩ := finishLet_sound ho h hr hbs
  exact ⟨hq, he.trans he', ht⟩

theorem operandStep_sound (ho : Sound TermTyped operand) :
    Sound TermTyped (operandStep operand) := by
  intro p t q h hp
  cases operandStep_ok h with
  | name _ h => exact name_sound ho h hp
  | constant _ h => exact constant_sound h hp
  | signed _ h => exact signed_sound ho h hp
  | grouping _ h => exact grouping_sound ho h hp
  | projection _ h => exact projection_sound ho h hp
  | conditional _ h => exact conditional_sound ho h hp
  | loop _ h => exact loop_sound ho h hp
  | letIn _ h => exact letIn_sound ho h hp

theorem operand_sound : Sound TermTyped Parse.operand := by
  intro p t q h hp
  obtain ⟨n, h⟩ := operand_ok h
  exact operand_induction (P := Sound TermTyped) (fun _ _ _ h => absurd h unexpected_ok)
    (fun _ => operandStep_sound) n h hp

/-! Statements. A parsed statement stays well typed in the store of every later state. -/

def StmtsTyped (s : Store) (ss : List Stmt) : Prop := ∀ st ∈ ss, st.kind.WellTyped s

theorem foldl_atTop_consistent {bs : List Binding} (hp : Consistent p.store p.arena)
    (hbs : ∀ b ∈ bs, BindingTyped p.store b) :
    Consistent (bs.foldl atTop p).store (bs.foldl atTop p).arena ∧
      (bs.foldl atTop p).store = p.store := by
  induction bs generalizing p with
  | nil => exact ⟨hp, rfl⟩
  | cons b bs ih =>
    obtain ⟨hb, hrest⟩ := List.forall_mem_cons.mp hbs
    cases b with
    | value x body => exact ih (p := atTop p (.value x body)) (hp.bind _ _ hb.2) hrest
    | function x params body isRec scope =>
      exact ih (p := atTop p (.function x params body isRec scope))
        ((hp.bind _ _ hb.2).bind _ _ hb.2) hrest

theorem expStmt_sound {token : Token} {block : ScopeId} :
    Sound StmtsTyped (expStmt token block) := by
  intro p ss q h hp
  obtain ⟨e, r, he, _, rfl, rfl⟩ := expStmt_ok h
  obtain ⟨hr, he, hw⟩ := exp_sound operand_sound he hp
  refine ⟨hr, he, List.forall_mem_singleton.mpr ?_⟩
  cases e.var? with
  | none => exact hw.1
  | some use => exact trivial

theorem letStmt_sound {token : Token} {block : ScopeId} :
    Sound StmtsTyped (letStmt token block) := by
  intro p ss q h hp
  obtain ⟨bs, r, hbs, h⟩ := letStmt_ok h
  obtain ⟨hr, he, hbs⟩ := letBindings_sound operand_sound hbs hp
  rcases h with ⟨item, u, hi, _, rfl, rfl⟩ | ⟨_, rfl, rfl⟩
  · obtain ⟨hu, he', hi⟩ := finishLet_sound operand_sound hi hr hbs
    exact ⟨hu, he.trans he', List.forall_mem_singleton.mpr hi.1⟩
  · obtain ⟨hq, hs⟩ := foldl_atTop_consistent (p := r.leaveScope.advance) hr hbs
    refine ⟨hq, hs ▸ he, ?_⟩
    intro st hst
    obtain ⟨b, hb, rfl⟩ := List.mem_map.mp hst
    exact hs ▸ (hbs b hb).1

theorem stmt_sound : Sound StmtsTyped stmt := by
  intro p ss q h hp
  have hp := hp.enter .block (some p.scope)
  rcases stmt_ok h with ⟨r, rfl, ⟨_, h⟩ | h⟩
  · obtain ⟨hr, he, hs⟩ := letStmt_sound h hp
    exact ⟨hr, he, hs⟩
  · obtain ⟨hr, he, hs⟩ := expStmt_sound h hp
    exact ⟨hr, he, hs⟩

theorem stmts_sound (n : Nat) : Sound StmtsTyped (stmts n) := by
  induction n with
  | zero =>
    intro p ss q h hp
    obtain ⟨rfl, rfl⟩ := pure_ok.mp h
    exact ⟨hp, .refl hp.wellFormed, by simp [StmtsTyped]⟩
  | succ n ih =>
    intro p ss q h hp
    rcases stmts_succ_ok h with ⟨_, _, h⟩ | ⟨_, first, r, others, hf, ho, rfl⟩ | ⟨_, rfl, rfl⟩
    · obtain ⟨hq, he, hs⟩ := ih h hp
      exact ⟨hq, he, hs⟩
    · obtain ⟨hr, he, hf⟩ := stmt_sound hf hp
      obtain ⟨hq, he', ho⟩ := ih ho hr
      refine ⟨hq, he.trans he', List.forall_mem_append.mpr ⟨?_, ho⟩⟩
      exact fun st hst => st.kind.wellTyped_later he' (hf st hst)
    · exact ⟨hp, .refl hp.wellFormed, by simp [StmtsTyped]⟩

end Parse

theorem Consistent.initial : Consistent .empty (Arena.empty.create .file none).2 where
  wellFormed := Store.empty_wellFormed
  held := Arena.Holds.create (fun id k x hx => by cases hx) .file none

/-- Every node of the tree of an accepted program satisfies its rule in the final store. -/
theorem parse_wellTyped {tokens : TokenSequence} {program : Program}
    (h : parse tokens = .ok program) : program.WellTyped := by
  obtain ⟨p, hp, _, _, hs⟩ := parse_ok h
  obtain ⟨_, _, hw⟩ := Parse.stmts_sound _ hp Consistent.initial
  intro st hst
  rw [hs]
  exact hw st hst

theorem parse_wellTyped_factorial :
    ∃ tokens program,
      tokenize "let rec fact(n) = if n < 1 then 1 else n * fact(n - 1) ;;\nfact(5) ;;" "shell" =
        .ok tokens ∧
      parse tokens = .ok program ∧ program.stmts.length = 2 ∧ program.WellTyped := by
  have hrun : ((tokenize
      "let rec fact(n) = if n < 1 then 1 else n * fact(n - 1) ;;\nfact(5) ;;" "shell").toOption.bind
      fun tokens => (parse tokens).toOption.map (·.stmts.length)) = some 2 := by decide +kernel
  obtain ⟨tokens, ht, hrun⟩ := Option.bind_eq_some_iff.mp hrun
  obtain ⟨program, hp, hl⟩ := Option.map_eq_some_iff.mp hrun
  have ht := ok_of_toOption ht
  have hp := ok_of_toOption hp
  exact ⟨tokens, program, ht, hp, hl, parse_wellTyped hp⟩

end MiniMl
