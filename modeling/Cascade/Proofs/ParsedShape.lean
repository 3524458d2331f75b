import Cascade.Parse.Statement
import Cascade.Proofs.Grammar

/-!
# The shape of parsed trees

A parser builds every node with the children that belong to its kind, and in the places in which
later stages look for them.  `Node.Shaped` says for a single node what that means, and this file
describes with it what the parsers give.

In one place the shape of a node depends on the tokens: a slash is kept only between two numbers, and
for the second one the parser has looked ahead.
-/

set_option autoImplicit false

namespace Cascade

open Node List

variable {loose line loose' : Nat} {n v b : Node} {cs : List Node} {mode : Mode} {op : BinaryOp}
  {kind : Kind}

/-! ## Shapes -/

/-- The forms of statements that a parser lists in blocks.  Steps of an animation are not among them,
and a block is no statement of its own. -/
def Form.isListed : Form → Bool
  | property | declaration | assign | marker | directive | rule | keyframes | template | call
  | conditional => true
  | _ => false

namespace Node

variable {place : Option Relation}

/-- A statement in a list of statements. -/
def IsListed (c : Node) : Prop :=
  c.kind.form.isListed = true ∧ c.relation = none

/-- A step of an animation. -/
def IsStep (c : Node) : Prop :=
  c.kind.form = .frame ∧ c.relation = none

/-- A block of statements, in a place of its parent. -/
def IsBody (place : Relation) (b : Node) : Prop :=
  b.kind.form = .block ∧ b.relation = some place ∧ ∀ c ∈ b.children, c.IsListed

/-- A block of steps, in the place of the rules of an animation. -/
def IsStepList (b : Node) : Prop :=
  b.kind.form = .block ∧ b.relation = some .rules ∧ ∀ c ∈ b.children, c.IsStep

/-- A value in a place of its parent, or in none.  Its parts hang together by blanks only if `loose`
is one, and by commas only if it is two. -/
def IsValueIn (place : Option Relation) (loose : Nat) (v : Node) : Prop :=
  v.kind.form.isValue = true ∧ v.relation = place ∧ v.kind.form.looseness ≤ loose

/-- A list of parameters or arguments in its place. -/
def IsParams (entry : Node → Prop) (ps : Node) : Prop :=
  ps.kind.form = .params ∧ ps.relation = some .params ∧ ∀ c ∈ ps.children, entry c

/-- A parameter in a list of parameters. -/
def IsParam (p : Node) : Prop :=
  p.kind.form = .param ∧ p.relation = none

/-- A number as part of a value. -/
def IsNumber (v : Node) : Prop :=
  (∃ value unit, v.kind = .number value unit) ∧ v.relation = none

/-- What stands in the second part of a conditional. -/
def IsElsePart (e : Node) : Prop :=
  e.IsBody .elsePart ∨ e.kind.form = .conditional ∧ e.relation = some .elsePart

/-- **A node with the children that belong to its kind.** -/
def Shaped (n : Node) : Prop :=
  match n.kind.form, n.children with
  | .sheet, cs => ∀ c ∈ cs, c.IsListed
  | .block, cs => (∀ c ∈ cs, c.IsListed) ∨ ∀ c ∈ cs, c.IsStep
  | .rule, [b] | .frame, [b] => b.IsBody .rules
  | .keyframes, [b] => b.IsStepList
  | .property, [v] => v.IsValueIn none 2
  | .declaration, [v] | .assign, [v] => v.IsValueIn (some .initializer) 2
  | .template, [ps, b] => ps.IsParams IsParam ∧ b.IsBody .rules
  | .params, _ => True
  | .param, [] => True
  | .param, [v] => v.IsValueIn (some .initializer) 1
  | .call, [ps] => ps.IsParams (IsValueIn none 1)
  | .call, [ps, b] => ps.IsParams (IsValueIn none 1) ∧ b.IsBody .rules
  | .conditional, [c, t] => c.IsValueIn (some .condition) 0 ∧ t.IsBody .thenPart
  | .conditional, [c, t, e] =>
    c.IsValueIn (some .condition) 0 ∧ t.IsBody .thenPart ∧ e.IsElsePart
  | .directive, [ps] => ps.IsParams (IsValueIn none 2)
  | .application, [ps] => ps.IsParams (IsValueIn none 1)
  | .binary, [a, b] => a.IsValueIn none 0 ∧ b.IsValueIn none 0
  | .slash, [a, b] => a.IsNumber ∧ b.IsNumber
  | .unary, [a] => a.IsValueIn none 0
  | .list, cs => 2 ≤ cs.length ∧ ∀ c ∈ cs, c.IsValueIn none 0
  | .comma, cs => 2 ≤ cs.length ∧ ∀ c ∈ cs, c.IsValueIn none 1
  | .atom, [] | .marker, [] => True
  | _, _ => False

/-- Every node of the tree is shaped. -/
def WellShaped (n : Node) : Prop :=
  ∀ m ∈ n.preorder, m.Shaped

theorem WellShaped.mk {l : Label} (h : (mk l cs).Shaped) (hcs : ∀ c ∈ cs, c.WellShaped) :
    (mk l cs).WellShaped :=
  forall_mem_preorder.2 ⟨h, hcs⟩

theorem WellShaped.self (h : n.WellShaped) : n.Shaped :=
  h n n.self_mem_preorder

theorem WellShaped.child (h : n.WellShaped) : ∀ c ∈ n.children, c.WellShaped := by
  obtain ⟨l, cs⟩ := n
  exact fun c hc m hm => h m (mem_preorder_of_mem hc hm)

/-- The shape of a node does not depend on its line, its place, its comments and its scope. -/
theorem WellShaped.relabel {l l' : Label} (h : (Node.mk l cs).WellShaped) (hk : l'.kind = l.kind) :
    (Node.mk l' cs).WellShaped := by
  refine .mk ?_ h.child
  have hself := h.self
  rw [Shaped, kind_mk, children_mk] at hself ⊢
  rwa [hk]

theorem WellShaped.withRelation (h : n.WellShaped) (r : Option Relation) :
    (n.withRelation r).WellShaped := by
  cases n
  exact h.relabel rfl

theorem WellShaped.addComments (h : n.WellShaped) (comments : List Comment) :
    (n.addComments comments).WellShaped := by
  cases n
  exact h.relabel rfl

theorem IsValueIn.mono (h : v.IsValueIn place loose) (hle : loose ≤ loose') :
    v.IsValueIn place loose' :=
  ⟨h.1, h.2.1, Nat.le_trans h.2.2 hle⟩

theorem IsValueIn.placed (h : v.IsValueIn place loose) (r : Relation) :
    (v.placed r).IsValueIn (some r) loose :=
  ⟨h.1, rfl, h.2.2⟩

theorem IsNumber.isValueIn (h : v.IsNumber) : v.IsValueIn none 0 := by
  obtain ⟨⟨value, unit, hk⟩, hr⟩ := h
  refine ⟨?_, hr, ?_⟩
  · rw [hk]; rfl
  · rw [hk]; exact Nat.le_refl 0

end Node

/-! ## Values -/

/-- A value as a parser gives it: in no named place, and not too loose. -/
structure ParsedValue (loose : Nat) (v : Node) : Prop where
  shaped : v.WellShaped
  isValue : v.IsValueIn none loose

theorem ParsedValue.mono (h : ParsedValue loose v) (hle : loose ≤ loose') : ParsedValue loose' v :=
  ⟨h.shaped, h.isValue.mono hle⟩

theorem ParsedValue.placed (h : ParsedValue loose v) (r : Relation) :
    (v.placed r).WellShaped ∧ (v.placed r).IsValueIn (some r) loose :=
  ⟨h.shaped.withRelation _, h.isValue.placed r⟩

/-- A new value in no place. -/
theorem ParsedValue.make (hs : (make kind line cs).Shaped) (hcs : ∀ c ∈ cs, c.WellShaped)
    (hv : kind.form.isValue = true) (h : kind.form.looseness ≤ loose) :
    ParsedValue loose (.make kind line cs) :=
  ⟨.mk hs hcs, hv, rfl, h⟩

theorem ParsedValue.atom (line : Nat) (h : kind.form = .atom) :
    ParsedValue 0 (.make kind line) := by
  refine .make ?_ (by simp) (h ▸ rfl) (h ▸ Nat.le_refl 0)
  rw [Node.Shaped, Node.make, kind_mk, h]
  trivial

/-- A list of arguments as a parser gives it. -/
structure ParsedArguments (loose : Nat) (n : Node) : Prop where
  kind : n.kind = .params
  entries : ∀ c ∈ n.children, ParsedValue loose c

theorem ParsedArguments.make (h : ∀ c ∈ cs, ParsedValue loose c) :
    ParsedArguments loose (.make .params line cs) :=
  ⟨rfl, h⟩

theorem ParsedArguments.mono (h : ParsedArguments loose n) (hle : loose ≤ loose') :
    ParsedArguments loose' n :=
  ⟨h.kind, fun c hc => (h.entries c hc).mono hle⟩

theorem ParsedArguments.raw (line : Nat) (text : String) :
    ParsedArguments 1 (.make .params line [.make (.raw text) line]) :=
  .make (by simpa using (ParsedValue.atom line rfl).mono (Nat.zero_le 1))

/-- A list of parameters or arguments that is put in its place. -/
theorem Node.wellShaped_params (hk : n.kind = .params) (h : ∀ c ∈ n.children, c.WellShaped) :
    (n.placed .params).WellShaped := by
  refine .mk ?_ h
  have hform : n.label.kind.form = .params := by
    change n.kind.form = _
    rw [hk]; rfl
  rw [Node.Shaped, kind_mk]
  simp only [hform]

theorem ParsedArguments.placed (h : ParsedArguments loose n) :
    (n.placed .params).WellShaped ∧ (n.placed .params).IsParams (Node.IsValueIn none loose) := by
  refine ⟨wellShaped_params h.kind fun c hc => (h.entries c hc).shaped, ?_, rfl,
    fun c hc => (h.entries c hc).isValue⟩
  change n.kind.form = _
  rw [h.kind]; rfl

/-- A function or a command with parsed arguments is a value. -/
theorem ParsedArguments.application (h : ParsedArguments 1 n) (line : Nat)
    (hk : kind.form = .application) : ParsedValue 0 (.make kind line [n.placed .params]) := by
  obtain ⟨hshaped, hparams⟩ := h.placed
  refine .make ?_ (by simpa using hshaped) (hk ▸ rfl) (hk ▸ Nat.le_refl 0)
  rw [Node.Shaped, Node.make, kind_mk, hk]
  exact hparams

namespace Parse

/-- Two operands joined by an operator, or two numbers joined by a slash. -/
theorem joined_parsed {kept : Bool} {left right : Node} (hl : ParsedValue 0 left)
    (hr : ParsedValue 0 right) (hkept : kept = true → left.IsNumber ∧ right.IsNumber) :
    ParsedValue 0 (joined kept op left right) := by
  have hboth : ∀ c ∈ [left, right], c.WellShaped := by simpa using ⟨hl.shaped, hr.shaped⟩
  cases kept with
  | false => exact .make ⟨hl.isValue, hr.isValue⟩ hboth rfl (Nat.le_refl 0)
  | true => exact .make (hkept rfl) hboth rfl (Nat.le_refl 0)

theorem level_of_divide {level : Nat} {sign : TokenKind}
    (h : operatorAt mode level sign = some .divide) : level = 0 := by
  revert h
  unfold operatorAt
  split <;> simp

end Parse

/-! ## Statements -/

/-- A statement as a parser gives it. -/
structure ParsedStatement (n : Node) : Prop where
  shaped : n.WellShaped
  isListed : n.IsListed

theorem ParsedStatement.make (hs : (make kind line cs).Shaped) (hcs : ∀ c ∈ cs, c.WellShaped)
    (hk : kind.form.isListed = true) : ParsedStatement (.make kind line cs) :=
  ⟨.mk hs hcs, hk, rfl⟩

theorem ParsedStatement.addComments (h : ParsedStatement n) (comments : List Comment) :
    ParsedStatement (n.addComments comments) :=
  ⟨h.shaped.addComments comments, h.isListed⟩

/-- A block as a parser gives it, not yet in its place. -/
structure ParsedBlock (b : Node) : Prop where
  shaped : b.WellShaped
  form : b.kind.form = .block
  isListed : ∀ c ∈ b.children, c.IsListed

theorem ParsedBlock.make (h : ∀ c ∈ cs, ParsedStatement c) : ParsedBlock (.make .block line cs) :=
  ⟨.mk (.inl fun c hc => (h c hc).isListed) fun c hc => (h c hc).shaped, rfl,
    fun c hc => (h c hc).isListed⟩

theorem ParsedBlock.placed (h : ParsedBlock b) (place : Relation) :
    (b.placed place).WellShaped ∧ (b.placed place).IsBody place :=
  ⟨h.shaped.withRelation _, h.form, rfl, h.isListed⟩

/-- A statement that consists of a block. -/
theorem ParsedBlock.rule (hb : ParsedBlock b) (line : Nat)
    (h : kind.form = .rule ∨ kind.form = .frame) :
    (Node.make kind line [b.placed .rules]).WellShaped := by
  obtain ⟨hshaped, hbody⟩ := hb.placed .rules
  refine .mk ?_ (by simpa using hshaped)
  rcases h with h | h <;> rw [Node.Shaped, kind_mk, h] <;> exact hbody

theorem ParsedBlock.statement (hb : ParsedBlock b) (line : Nat) (h : kind.form = .rule) :
    ParsedStatement (.make kind line [b.placed .rules]) :=
  ⟨hb.rule line (.inl h), h ▸ rfl, rfl⟩

/-- A statement without parts. -/
theorem ParsedStatement.marker (line : Nat) (h : kind.form = .marker) :
    ParsedStatement (.make kind line) :=
  .make (by rw [Node.Shaped, Node.make, kind_mk, h]; trivial) (by simp) (h ▸ rfl)

/-- A variable with its new value. -/
theorem ParsedValue.initialized (h : ParsedValue 2 v)
    (hk : kind.form = .declaration ∨ kind.form = .assign) :
    ParsedStatement (.make kind line [v.placed .initializer]) := by
  obtain ⟨hshaped, hvalue⟩ := h.placed .initializer
  refine .make ?_ (forall_mem_singleton.2 hshaped) (by rcases hk with hk | hk <;> rw [hk] <;> rfl)
  rcases hk with hk | hk <;> rw [Node.Shaped, Node.make, kind_mk, hk] <;> exact hvalue

theorem ParsedBlock.mixin (hb : ParsedBlock b) {name : String} {ps : List Node}
    (hps : ∀ p ∈ ps, p.WellShaped ∧ p.IsParam) : ParsedStatement (.make (.mixin name none 0) line
      [(Node.make .params line ps).placed .params, b.placed .rules]) := by
  obtain ⟨hshaped, hbody⟩ := hb.placed .rules
  refine .make ⟨⟨rfl, rfl, fun p hp => (hps p hp).2⟩, hbody⟩ (forall_mem_cons.2 ⟨?_, ?_⟩) rfl
  · exact wellShaped_params rfl fun p hp => (hps p hp).1
  · exact forall_mem_singleton.2 hshaped

/-- The second part of a conditional as a parser gives it, not yet in its place. -/
def ParsedElse (e : Node) : Prop :=
  ParsedBlock e ∨ ParsedStatement e ∧ e.kind = .conditional

theorem ParsedStatement.conditional {c t : Node} {es : List Node} (hc : ParsedValue 0 c)
    (ht : ParsedBlock t) (hes : ∀ e ∈ es, ParsedElse e) (hone : es.length ≤ 1) :
    ParsedStatement (.make .conditional line
      (c.placed .condition :: t.placed .thenPart :: es.map fun e => e.placed .elsePart)) := by
  obtain ⟨hcshaped, hcondition⟩ := hc.placed .condition
  obtain ⟨htshaped, hbody⟩ := ht.placed .thenPart
  have hparts : ∀ e ∈ es, (e.placed .elsePart).WellShaped ∧ (e.placed .elsePart).IsElsePart := by
    intro e he
    rcases hes e he with he | ⟨he, hk⟩
    · exact ⟨(he.placed _).1, .inl (he.placed _).2⟩
    · refine ⟨he.shaped.withRelation _, .inr ⟨?_, rfl⟩⟩
      change e.kind.form = _
      rw [hk]; rfl
  refine .make ?_ (forall_mem_cons.2 ⟨hcshaped, forall_mem_cons.2 ⟨htshaped, ?_⟩⟩) rfl
  · match es, hone with
    | [], _ => exact ⟨hcondition, hbody⟩
    | [e], _ => exact ⟨hcondition, hbody, (hparts e mem_cons_self).2⟩
  · exact forall_mem_map.2 fun e he => (hparts e he).1

namespace Parse

theorem withComments_parsed {hasPrevious : Bool} {comments passed : List Comment}
    (h : ParsedStatement n) : ParsedStatement (withComments hasPrevious comments n passed).1 := by
  rw [withComments]
  cases hasPrevious with
  | false => exact h.addComments _
  | true => exact h.addComments _

theorem commentPrevious_parsed {comments : List Comment} {ns : List Node}
    (h : ∀ n ∈ ns, ParsedStatement n) : ∀ n ∈ commentPrevious comments ns, ParsedStatement n := by
  cases ns with
  | nil => simp [commentPrevious]
  | cons n ns =>
    intro m hm
    rcases mem_cons.1 hm with rfl | hm
    · exact (h n (by simp)).addComments _
    · exact h m (by simp [hm])

end Parse

end Cascade
