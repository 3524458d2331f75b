import Cascade.Node.Basic
import Cascade.Proofs.Outcome

/-!
# The grammar of trees

The children of a node are a list of nodes, but not every list will do: a rule has a block, an
operator its operands, a use of a mixin its arguments and perhaps a block that it passes along.
This file says which trees there are.  Parsing gives no others, and every stage up to evaluation
turns such trees into such trees.

Kinds that are built alike are of the same `Form`, and the grammar only speaks of forms and of the
places that children take.  So a change of names, lines, comments or scopes cannot spoil it, and
neither can statements that are left out of a block or put into it.  `Edited` is the relation
between a tree and what such changes make of it, and `IsStatement.edited` says once for all stages
that they keep the grammar.
-/

set_option autoImplicit false

namespace Cascade

open Node List

variable {n m c : Node} {cs cs' : List Node} {l lp : Label}

/-! ## Induction on trees -/

/-- Induction on trees: what holds of a node if it holds of its children, holds of every node. -/
@[elab_as_elim]
theorem Node.ind {motive : Node → Prop}
    (mk : ∀ label children, (∀ c ∈ children, motive c) → motive (.mk label children))
    (node : Node) : motive node :=
  @Node.rec motive (fun nodes => ∀ c ∈ nodes, motive c) mk (by simp)
    (fun _ _ hhead htail => by simpa using ⟨hhead, htail⟩) node

/-- Induction on several trees at once: on what is below the first one and on the others. -/
@[elab_as_elim]
theorem Node.forest_ind {motive : List Node → Prop} (nil : motive [])
    (cons : ∀ label children rest, motive children → motive rest →
      motive (.mk label children :: rest)) (nodes : List Node) : motive nodes := by
  have htree : ∀ node rest, motive rest → motive (node :: rest) := fun node => by
    induction node using ind with
    | mk label children ih =>
      refine fun rest hrest => cons label children rest ?_ hrest
      clear hrest
      induction children with
      | nil => exact nil
      | cons c cs ihcs =>
        exact ih c mem_cons_self cs (ihcs fun c hc => ih c (mem_cons_of_mem _ hc))
  induction nodes with
  | nil => exact nil
  | cons node rest ih => exact htree node rest ih

@[simp] theorem Node.kind_mk (l : Label) (cs : List Node) : (Node.mk l cs).kind = l.kind := rfl

@[simp] theorem Node.relation_mk (l : Label) (cs : List Node) :
    (Node.mk l cs).relation = l.relation := rfl

/-! ## Other labels -/

namespace Node

mutual

/-- A tree with every label changed. -/
def relabeled (g : Label → Label) : Node → Node
  | mk label children => mk (g label) (relabeledAll g children)

/-- Several trees with every label changed. -/
def relabeledAll (g : Label → Label) : List Node → List Node
  | [] => []
  | node :: rest => relabeled g node :: relabeledAll g rest

end

theorem relabeledAll_eq_map (g : Label → Label) (ns : List Node) :
    relabeledAll g ns = ns.map (relabeled g) := by
  induction ns with
  | nil => rfl
  | cons n ns ih => rw [relabeledAll, ih, map_cons]

theorem relabeled_mk (g : Label → Label) (l : Label) (cs : List Node) :
    relabeled g (mk l cs) = mk (g l) (cs.map (relabeled g)) := by
  rw [relabeled, relabeledAll_eq_map]

end Node

/-! ## Forms -/

/-- How the nodes of a kind are built. -/
inductive Form where
  /-- A value without parts. -/
  | atom
  | list
  | comma
  | slash
  | binary
  | unary
  | assign
  /-- A function or a command with its arguments. -/
  | application
  | params
  | param
  | property
  | declaration
  /-- A statement without parts. -/
  | marker
  | directive
  /-- A statement that consists of a block. -/
  | rule
  | frame
  | keyframes
  /-- A mixin that no selector extends. -/
  | template
  /-- A mixin with the selectors that extend it. -/
  | extended
  | call
  | conditional
  | block
  | sheet
  deriving DecidableEq, Repr

/-- How the nodes of a kind are built. -/
def Kind.form : Kind → Form
  | .sheet => .sheet
  | .block => .block
  | .selector .. | .media .. | .supports _ | .root | .fontFace => .rule
  | .property .. => .property
  | .keyframes .. => .keyframes
  | .frame _ => .frame
  | .declaration _ => .declaration
  | .assign .. => .assign
  | .mixin _ none _ => .template
  | .mixin _ (some _) _ => .extended
  | .param _ => .param
  | .call .. => .call
  | .content | .inclusion _ => .marker
  | .conditional => .conditional
  | .directive _ => .directive
  | .command _ | .function _ => .application
  | .params => .params
  | .binary _ => .binary
  | .unary _ => .unary
  | .reference _ | .number .. | .string .. | .identifier _ | .boolean _ | .null | .raw _ => .atom
  | .list => .list
  | .comma => .comma
  | .slash => .slash

namespace Kind

variable {kind : Kind}

/-- The kinds of those forms that have their own names and values. -/
theorem of_form {form : Form} (h : kind.form = form) : match form with
    | .conditional => kind = .conditional
    | .call => ∃ name extend, kind = .call name extend
    | .sheet => kind = .sheet
    | .block => kind = .block
    | .slash => kind = .slash
    | .binary => ∃ op, kind = .binary op
    | .unary => ∃ op, kind = .unary op
    | .assign => ∃ name op, kind = .assign name op
    | .application => (∃ name, kind = .command name) ∨ ∃ name, kind = .function name
    | .params => kind = .params
    | .template => ∃ name dropped, kind = .mixin name none dropped
    | .property => ∃ name dynamic important, kind = .property name dynamic important
    | _ => True := by
  subst h
  unfold form
  split <;> simp

theorem eq_conditional (h : kind.form = .conditional) : kind = .conditional := of_form h

theorem eq_sheet (h : kind.form = .sheet) : kind = .sheet := of_form h

theorem eq_block (h : kind.form = .block) : kind = .block := of_form h

theorem eq_params (h : kind.form = .params) : kind = .params := of_form h

end Kind

namespace Form

/-- How loosely the parts of a value hang together: by commas, by blanks, or more tightly. -/
def looseness : Form → Nat
  | comma => 2
  | list => 1
  | _ => 0

/-- The forms of values. -/
def isValue : Form → Bool
  | atom | list | comma | slash | binary | unary | assign | application => true
  | _ => false

/-- The forms of nodes whose children are statements among others. -/
def isBlockLike : Form → Bool
  | block | sheet => true
  | _ => false

/-- The forms of statements. -/
def isStatement : Form → Bool
  | property | declaration | assign | marker | directive | rule | frame | keyframes | template
  | extended | call | conditional | block => true
  | _ => false

/-- The forms of values and lists of arguments. -/
def isOperand : Form → Bool
  | params => true
  | form => form.isValue

/-- The forms of values, arguments and parameters. -/
def isPart : Form → Bool
  | params | param => true
  | form => form.isValue

/-- The forms of statements that stand nowhere but among other statements. -/
def isLoose : Form → Bool
  | property | declaration | marker | directive | rule | keyframes | template | extended
  | call => true
  | _ => false

end Form

/-! ## The grammar -/

/-- **A value or an expression.**  Its parts hang together more tightly than the whole. -/
inductive IsValue : Node → Prop
  | atom {l : Label} (h : l.kind.form = .atom) : IsValue (.mk l [])
  | series {l : Label} {cs : List Node} (h : 0 < l.kind.form.looseness) (hlen : 2 ≤ cs.length)
      (hloose : ∀ c ∈ cs, c.kind.form.looseness < l.kind.form.looseness)
      (hcs : ∀ c ∈ cs, IsValue c) : IsValue (.mk l cs)
  | pair {l : Label} {a b : Node} (h : l.kind.form = .slash ∨ l.kind.form = .binary)
      (ha : IsValue a) (hb : IsValue b) : IsValue (.mk l [a, b])
  | unary {l : Label} {a : Node} (h : l.kind.form = .unary) (ha : IsValue a) :
      IsValue (.mk l [a])
  | assign {l : Label} {a : Node} (h : l.kind.form = .assign)
      (hr : a.relation = some .initializer) (ha : IsValue a) : IsValue (.mk l [a])
  | application {l lp : Label} {cs : List Node} (h : l.kind.form = .application)
      (hk : lp.kind.form = .params) (hr : lp.relation = some .params)
      (hloose : ∀ c ∈ cs, c.kind.form.looseness < 2) (hcs : ∀ c ∈ cs, IsValue c) :
      IsValue (.mk l [.mk lp cs])

/-- At most one value in the place of an initializer. -/
structure IsInitializer (cs : List Node) : Prop where
  length_le : cs.length ≤ 1
  relation : ∀ c ∈ cs, c.relation = some .initializer
  isValue : ∀ c ∈ cs, IsValue c

/-- A parameter of a mixin, with or without a default. -/
inductive IsParameter : Node → Prop
  | mk {l : Label} {cs : List Node} (h : l.kind.form = .param) (hcs : IsInitializer cs) :
      IsParameter (.mk l cs)

/-- Arguments in the place where a use or a directive keeps them. -/
structure IsArguments (lp : Label) (cs : List Node) : Prop where
  kind : lp.kind.form = .params
  relation : lp.relation = some .params
  isValue : ∀ c ∈ cs, IsValue c

/-- A node that can stand among statements: it takes no place of its own in its parent, and it is
no step of an animation. -/
def IsMember (c : Node) : Prop :=
  c.relation = none ∧ c.kind.form ≠ .frame

/-- **A statement**, or a block of statements.  `sharing` says whether there may be mixins that have
been extended. -/
inductive IsStatement (sharing : Prop) : Node → Prop
  | marker {l : Label} (h : l.kind.form = .marker) : IsStatement sharing (.mk l [])
  | property {l : Label} {v : Node} (h : l.kind.form = .property) (hr : v.relation = none)
      (hv : IsValue v) : IsStatement sharing (.mk l [v])
  | declaration {l : Label} {cs : List Node} (h : l.kind.form = .declaration)
      (hcs : IsInitializer cs) : IsStatement sharing (.mk l cs)
  | assign {l : Label} {v : Node} (h : l.kind.form = .assign)
      (hr : v.relation = some .initializer) (hv : IsValue v) : IsStatement sharing (.mk l [v])
  | directive {l lp : Label} {cs : List Node} (h : l.kind.form = .directive)
      (hcs : IsArguments lp cs) : IsStatement sharing (.mk l [.mk lp cs])
  | rule {l : Label} {b : Node} (h : l.kind.form = .rule ∨ l.kind.form = .frame)
      (hk : b.kind.form = .block) (hr : b.relation = some .rules) (hb : IsStatement sharing b) :
      IsStatement sharing (.mk l [b])
  | keyframes {l lb : Label} {cs : List Node} (h : l.kind.form = .keyframes)
      (hk : lb.kind.form = .block) (hr : lb.relation = some .rules)
      (hframe : ∀ c ∈ cs, c.relation = none ∧ c.kind.form = .frame)
      (hcs : ∀ c ∈ cs, IsStatement sharing c) : IsStatement sharing (.mk l [.mk lb cs])
  | mixin {l lp : Label} {ps : List Node} {b : Node}
      (h : l.kind.form = .template ∨ sharing ∧ l.kind.form = .extended ∧ ps = [])
      (hk : lp.kind.form = .params) (hr : lp.relation = some .params)
      (hps : ∀ p ∈ ps, IsParameter p) (hbk : b.kind.form = .block)
      (hbr : b.relation = some .rules) (hb : IsStatement sharing b) : IsStatement sharing (.mk l [.mk lp ps, b])
  | call {l lp : Label} {as bs : List Node} (h : l.kind.form = .call) (has : IsArguments lp as)
      (hlen : bs.length ≤ 1)
      (hbs : ∀ b ∈ bs, b.kind.form = .block ∧ b.relation = some .rules)
      (hb : ∀ b ∈ bs, IsStatement sharing b) : IsStatement sharing (.mk l (.mk lp as :: bs))
  | conditional {l : Label} {c t : Node} {es : List Node} (h : l.kind.form = .conditional)
      (hc : IsValue c) (hcr : c.relation = some .condition) (htk : t.kind.form = .block)
      (htr : t.relation = some .thenPart) (hlen : es.length ≤ 1)
      (hes : ∀ e ∈ es, e.relation = some .elsePart ∧
        (e.kind.form = .block ∨ e.kind.form = .conditional))
      (ht : IsStatement sharing t) (he : ∀ e ∈ es, IsStatement sharing e) : IsStatement sharing (.mk l (c :: t :: es))
  | block {l : Label} {cs : List Node} (h : l.kind.form = .block) (hm : ∀ c ∈ cs, IsMember c)
      (hcs : ∀ c ∈ cs, IsStatement sharing c) : IsStatement sharing (.mk l cs)

/-- A statement that stands among others. -/
structure IsItem (sharing : Prop) (n : Node) : Prop where
  isMember : IsMember n
  isStatement : IsStatement sharing n

/-- **A stylesheet.** -/
structure IsSheet (sharing : Prop) (root : Node) : Prop where
  kind : root.kind.form = .sheet
  item : ∀ c ∈ root.children, IsItem sharing c

variable {sharing : Prop}

/-! ## The topmost label

Of the topmost label of a tree the grammar only sees the form; the place that a node takes is a
condition on its parent. -/

theorem IsValue.relabel {l' : Label} (h : IsValue (.mk l cs)) (hf : l'.kind.form = l.kind.form) :
    IsValue (.mk l' cs) := by
  cases h with
  | atom h => exact .atom (hf ▸ h)
  | series h hlen hloose hcs => exact .series (hf ▸ h) hlen (hf ▸ hloose) hcs
  | pair h ha hb => exact .pair (hf ▸ h) ha hb
  | unary h ha => exact .unary (hf ▸ h) ha
  | assign h hr ha => exact .assign (hf ▸ h) hr ha
  | application h hk hr hloose hcs => exact .application (hf ▸ h) hk hr hloose hcs

theorem IsStatement.relabel {l' : Label} (h : IsStatement sharing (.mk l cs))
    (hf : l'.kind.form = l.kind.form) : IsStatement sharing (.mk l' cs) := by
  cases h with
  | marker h => exact .marker (hf ▸ h)
  | property h hr hv => exact .property (hf ▸ h) hr hv
  | declaration h hcs => exact .declaration (hf ▸ h) hcs
  | assign h hr hv => exact .assign (hf ▸ h) hr hv
  | directive h hcs => exact .directive (hf ▸ h) hcs
  | rule h hk hr hb => exact .rule (hf ▸ h) hk hr hb
  | keyframes h hk hr hframe hcs => exact .keyframes (hf ▸ h) hk hr hframe hcs
  | mixin h hk hr hps hbk hbr hb => exact .mixin (hf ▸ h) hk hr hps hbk hbr hb
  | call h has hlen hbs hb => exact .call (hf ▸ h) has hlen hbs hb
  | conditional h hc hcr htk htr hlen hes ht he =>
    exact .conditional (hf ▸ h) hc hcr htk htr hlen hes ht he
  | block h hm hcs => exact .block (hf ▸ h) hm hcs

theorem IsValue.form_isValue (h : IsValue n) : n.kind.form.isValue = true := by
  cases h with
  | @series l cs h =>
    rw [kind_mk]
    revert h
    cases l.kind.form <;> simp [Form.looseness, Form.isValue]
  | pair h => rcases h with h | h <;> simp [h, Form.isValue]
  | atom h | unary h | assign h | application h => simp [h, Form.isValue]

theorem IsStatement.form_isStatement (h : IsStatement sharing n) :
    n.kind.form.isStatement = true := by
  cases h with
  | rule h | mixin h => rcases h with h | h <;> simp [h, Form.isStatement]
  | marker h | property h | declaration h | assign h | directive h | keyframes h | call h
  | conditional h | block h => simp [h, Form.isStatement]

theorem IsStatement.form_ne_application (h : IsStatement sharing n) :
    n.kind.form ≠ .application := by
  intro hk
  have := h.form_isStatement
  rw [hk] at this
  cases this

theorem Kind.form_of_isMixin {kind : Kind} (h : kind.isMixin = true) :
    kind.form = .template ∨ kind.form = .extended := by
  unfold Kind.isMixin at h
  unfold Kind.form
  split <;> simp_all

theorem Kind.isLoose_of_isMixin {kind : Kind} (h : kind.isMixin = true) :
    kind.form.isLoose = true := by
  rcases Kind.form_of_isMixin h with h | h <;> exact h ▸ rfl

section

variable (hn : IsStatement sharing n)

include hn

/-- What a mixin consists of. -/
theorem IsStatement.mixin_cases (hk : n.kind.isMixin = true) :
    ∃ l lp ps b, n = .mk l [.mk lp ps, b] ∧
      (l.kind.form = .template ∨ sharing ∧ l.kind.form = .extended ∧ ps = []) ∧
      lp.kind.form = .params ∧ lp.relation = some .params ∧ (∀ p ∈ ps, IsParameter p) ∧
      b.kind.form = .block ∧ b.relation = some .rules ∧ IsStatement sharing b := by
  have hform := Kind.form_of_isMixin hk
  cases hn with
  | mixin h hkp hrp hps hbk hbr hb => exact ⟨_, _, _, _, rfl, h, hkp, hrp, hps, hbk, hbr, hb⟩
  | rule h => rcases h with h | h <;> simp [h] at hform
  | marker h | property h | declaration h | assign h | directive h | keyframes h | call h
  | conditional h | block h => simp [h] at hform

/-- The block and the parameters of a mixin. -/
theorem IsStatement.mixin_parts (hk : n.kind.isMixin = true) :
    ∃ b, n.rules? = some b ∧ b.kind.form = .block ∧ IsStatement sharing b ∧
      ∀ p ∈ n.arguments, IsParameter p := by
  obtain ⟨l, lp, ps, b, rfl, -, -, hrp, hps, hbk, hbr, hb⟩ := hn.mixin_cases hk
  have hargs : (Node.mk l [.mk lp ps, b]).arguments = ps := by
    simp [arguments, child?, hrp]
  exact ⟨b, by simp [rules?, child?, hrp, hbr], hbk, hb, by rwa [hargs]⟩

/-- What a use of a mixin consists of. -/
theorem IsStatement.call_cases (hk : n.kind.form = .call) :
    ∃ l lp as bs, n = .mk l (.mk lp as :: bs) ∧ IsArguments lp as ∧ bs.length ≤ 1 ∧
      (∀ b ∈ bs, b.kind.form = .block ∧ b.relation = some .rules) ∧ ∀ b ∈ bs, IsStatement sharing b := by
  cases hn with
  | call h has hlen hbs hb => exact ⟨_, _, _, _, rfl, has, hlen, hbs, hb⟩
  | rule h | mixin h => rcases h with h | h <;> simp [h] at hk
  | marker h | property h | declaration h | assign h | directive h | keyframes h
  | conditional h | block h => simp [h] at hk

/-- What a block consists of, unless it is that of an animation. -/
theorem IsStatement.block_cases (hk : n.kind.form = .block) :
    ∀ c ∈ n.children, IsItem sharing c := by
  cases hn with
  | block h hm hcs => exact fun c hc => ⟨hm c hc, hcs c hc⟩
  | rule h | mixin h => rcases h with h | h <;> simp [h] at hk
  | marker h | property h | declaration h | assign h | directive h | keyframes h
  | conditional h | call h => simp [h] at hk

theorem IsStatement.call_arguments (hk : n.kind.form = .call) : ∀ a ∈ n.arguments, IsValue a := by
  obtain ⟨l, lp, as, bs, rfl, has, -⟩ := hn.call_cases hk
  simpa [arguments, child?, has.relation] using has.isValue

theorem IsStatement.call_content {b : Node} (hk : n.kind.form = .call) (hb : n.rules? = some b) :
    b.kind.form = .block ∧ IsStatement sharing b := by
  obtain ⟨l, lp, as, bs, rfl, has, -, hbs, hst⟩ := hn.call_cases hk
  have hmem := mem_of_find?_eq_some hb
  have hrel := find?_some hb
  rw [children_mk, mem_cons] at hmem
  rcases hmem with rfl | hmem
  · simp [has.relation] at hrel
  · exact ⟨(hbs b hmem).1, hst b hmem⟩

end

theorem IsValue.withRelation (h : IsValue n) (r : Option Relation) :
    IsValue (n.withRelation r) := by
  cases n
  exact h.relabel rfl

theorem IsStatement.withRelation (h : IsStatement sharing n) (r : Option Relation) :
    IsStatement sharing (n.withRelation r) := by
  cases n
  exact h.relabel rfl

/-! ## Where statements stand -/

theorem Node.mem_preorder_mk :
    m ∈ (Node.mk l cs).preorder ↔ m = .mk l cs ∨ ∃ c ∈ cs, m ∈ c.preorder := by
  simp [preorder]

/-- What holds of all nodes of a tree. -/
theorem Node.forall_mem_preorder {P : Node → Prop} :
    (∀ m ∈ (Node.mk l cs).preorder, P m) ↔ P (.mk l cs) ∧ ∀ c ∈ cs, ∀ m ∈ c.preorder, P m := by
  simp only [mem_preorder_mk, or_imp, forall_and, forall_eq, forall_exists_index, and_imp]
  exact and_congr_right fun _ => ⟨fun h c hc m => h m c hc, fun h m c hc => h c hc m⟩

theorem IsValue.isOperand (hn : IsValue n) : ∀ m ∈ n.preorder, m.kind.form.isOperand = true := by
  have top : ∀ {n : Node}, IsValue n → n.kind.form.isOperand = true := fun {n} hn => by
    have := hn.form_isValue
    revert this
    cases n.kind.form <;> simp [Form.isValue, Form.isOperand]
  induction hn with
  | atom h => exact forall_mem_preorder.2 ⟨top (.atom h), by simp⟩
  | series h hlen hloose hcs ih =>
    exact forall_mem_preorder.2 ⟨top (.series h hlen hloose hcs), ih⟩
  | pair h ha hb iha ihb =>
    exact forall_mem_preorder.2 ⟨top (.pair h ha hb), forall_mem_cons.2
      ⟨iha, forall_mem_singleton.2 ihb⟩⟩
  | unary h ha iha => exact forall_mem_preorder.2 ⟨top (.unary h ha), forall_mem_singleton.2 iha⟩
  | assign h hr ha iha =>
    exact forall_mem_preorder.2 ⟨top (.assign h hr ha), forall_mem_singleton.2 iha⟩
  | application h hk hr hloose hcs ih =>
    exact forall_mem_preorder.2 ⟨top (.application h hk hr hloose hcs), forall_mem_singleton.2
      (forall_mem_preorder.2 ⟨by simp [hk, Form.isOperand], ih⟩)⟩

theorem Form.isPart_of_isOperand {form : Form} (h : form.isOperand = true) : form.isPart = true := by
  revert h
  cases form <;> simp [Form.isOperand, Form.isValue, Form.isPart]

theorem IsValue.isPart (hn : IsValue n) : ∀ m ∈ n.preorder, m.kind.form.isPart = true :=
  fun m hm => Form.isPart_of_isOperand (hn.isOperand m hm)

theorem IsInitializer.isPart (h : IsInitializer cs) :
    ∀ c ∈ cs, ∀ m ∈ c.preorder, m.kind.form.isPart = true :=
  fun c hc => (h.isValue c hc).isPart

theorem IsParameter.isPart (hn : IsParameter n) : ∀ m ∈ n.preorder, m.kind.form.isPart = true := by
  obtain ⟨h, hcs⟩ := hn
  exact forall_mem_preorder.2 ⟨by simp [h, Form.isPart], hcs.isPart⟩

theorem isPart_params (hk : lp.kind.form = .params) (h : ∀ c ∈ cs, IsParameter c) :
    ∀ m ∈ (Node.mk lp cs).preorder, m.kind.form.isPart = true :=
  forall_mem_preorder.2 ⟨by simp [hk, Form.isPart], fun c hc => (h c hc).isPart⟩

theorem IsArguments.isPart (h : IsArguments lp cs) :
    ∀ m ∈ (Node.mk lp cs).preorder, m.kind.form.isPart = true :=
  forall_mem_preorder.2 ⟨by simp [h.kind, Form.isPart], fun c hc => (h.isValue c hc).isPart⟩

theorem Node.self_mem_preorder (n : Node) : n ∈ n.preorder := by
  cases n
  exact mem_preorder_mk.2 (.inl rfl)

theorem Node.mem_preorder_of_mem (hc : c ∈ cs) (hm : m ∈ c.preorder) :
    m ∈ (Node.mk l cs).preorder :=
  mem_preorder_mk.2 (.inr ⟨c, hc, hm⟩)

/-- **The nodes of a statement** are parts, statements, and the blocks of animations. -/
theorem IsStatement.forall_mem {P : Node → Prop} (hn : IsStatement sharing n)
    (part : ∀ m : Node, m.kind.form.isPart = true → P m)
    (statement : ∀ m, IsStatement sharing m → P m)
    (frames : ∀ l cs, l.kind.form = .block → P (.mk l cs)) : ∀ m ∈ n.preorder, P m := by
  have top := statement
  have parts {c : Node} (h : ∀ m ∈ c.preorder, m.kind.form.isPart = true) :
      ∀ m ∈ c.preorder, P m := fun m hm => part m (h m hm)
  induction hn with
  | marker h => exact forall_mem_preorder.2 ⟨top _ (.marker h), by simp⟩
  | property h hr hv =>
    exact forall_mem_preorder.2 ⟨top _ (.property h hr hv), forall_mem_singleton.2 (parts hv.isPart)⟩
  | declaration h hcs =>
    exact forall_mem_preorder.2 ⟨top _ (.declaration h hcs), fun c hc => parts (hcs.isPart c hc)⟩
  | assign h hr hv =>
    exact forall_mem_preorder.2 ⟨top _ (.assign h hr hv), forall_mem_singleton.2 (parts hv.isPart)⟩
  | directive h hargs =>
    exact forall_mem_preorder.2 ⟨top _ (.directive h hargs), forall_mem_singleton.2
      (parts hargs.isPart)⟩
  | rule h hk hr hb ih =>
    exact forall_mem_preorder.2 ⟨top _ (.rule h hk hr hb), forall_mem_singleton.2 ih⟩
  | keyframes h hk hr hframe hcs ih =>
    exact forall_mem_preorder.2 ⟨top _ (.keyframes h hk hr hframe hcs), forall_mem_singleton.2
      (forall_mem_preorder.2 ⟨frames _ _ hk, ih⟩)⟩
  | mixin h hk hr hps hbk hbr hb ih =>
    exact forall_mem_preorder.2 ⟨top _ (.mixin h hk hr hps hbk hbr hb), forall_mem_cons.2
      ⟨parts (isPart_params hk hps), forall_mem_singleton.2 ih⟩⟩
  | call h hargs hlen hbs hb ih =>
    exact forall_mem_preorder.2 ⟨top _ (.call h hargs hlen hbs hb), forall_mem_cons.2
      ⟨parts hargs.isPart, ih⟩⟩
  | conditional h hc hcr htk htr hlen hes ht he iht ihe =>
    exact forall_mem_preorder.2 ⟨top _ (.conditional h hc hcr htk htr hlen hes ht he),
      forall_mem_cons.2 ⟨parts hc.isPart, forall_mem_cons.2 ⟨iht, ihe⟩⟩⟩
  | block h hm hcs ih => exact forall_mem_preorder.2 ⟨top _ (.block h hm hcs), ih⟩

/-- Whatever is in a block or a stylesheet is a statement, and loose statements are nowhere else. -/
def Orderly (sharing : Prop) (n : Node) : Prop :=
  ∀ p ∈ n.preorder,
    (p.kind.form.isBlockLike = true → ∀ c ∈ p.children, IsStatement sharing c) ∧
    ∀ c ∈ p.children, c.kind.form.isLoose = true →
      p.kind.form.isBlockLike = true ∧ IsMember c

/-- A child with which a node of the given label is orderly. -/
structure Fits (sharing : Prop) (l : Label) (c : Node) : Prop where
  orderly : Orderly sharing c
  statement : l.kind.form.isBlockLike = true → IsStatement sharing c
  loose : c.kind.form.isLoose = true → l.kind.form.isBlockLike = true ∧ IsMember c

theorem Orderly.mk (hcs : ∀ c ∈ cs, Fits sharing l c) : Orderly sharing (.mk l cs) := by
  intro p hp
  obtain rfl | ⟨d, hd, hp⟩ := mem_preorder_mk.1 hp
  · exact ⟨fun hb c hc => (hcs c hc).statement hb, fun c hc => (hcs c hc).loose⟩
  · exact (hcs d hd).orderly p hp

theorem Orderly.child (h : Orderly sharing (.mk l cs)) : ∀ c ∈ cs, Orderly sharing c :=
  fun c hc p hp => h p (mem_preorder_mk.2 (.inr ⟨c, hc, hp⟩))

/-- A child of something else than a block that is not loose itself. -/
theorem Fits.firm (hc : Orderly sharing c) (hl : l.kind.form.isBlockLike = false)
    (h : c.kind.form.isLoose = false) : Fits sharing l c where
  orderly := hc
  statement hb := by rw [hl] at hb; cases hb
  loose hl := by rw [h] at hl; cases hl

theorem Form.not_loose_of_isPart {form : Form} (h : form.isPart = true) : form.isLoose = false := by
  revert h
  cases form <;> simp [Form.isPart, Form.isValue, Form.isLoose]

theorem Form.not_blockLike_of_isPart {form : Form} (h : form.isPart = true) :
    form.isBlockLike = false := by
  revert h
  cases form <;> simp [Form.isPart, Form.isValue, Form.isBlockLike]

/-- A child that is a value or a list of arguments or parameters. -/
theorem Fits.part (hl : l.kind.form.isBlockLike = false)
    (h : ∀ m ∈ c.preorder, m.kind.form.isPart = true) : Fits sharing l c := by
  induction c using ind generalizing l with
  | mk lc cs ih =>
    have hc : lc.kind.form.isPart = true := h _ (mem_preorder_mk.2 (.inl rfl))
    refine .firm (.mk fun c hcs => ?_) hl (Form.not_loose_of_isPart hc)
    exact ih c hcs (Form.not_blockLike_of_isPart hc) fun m hm =>
      h m (mem_preorder_mk.2 (.inr ⟨c, hcs, hm⟩))

theorem IsStatement.orderly (hn : IsStatement sharing n) : Orderly sharing n := by
  induction hn with
  | marker h => exact .mk (by simp)
  | property h hr hv => exact .mk (forall_mem_singleton.2 (.part (h ▸ rfl) hv.isPart))
  | declaration h hcs => exact .mk fun c hc => .part (h ▸ rfl) (hcs.isPart c hc)
  | assign h hr hv => exact .mk (forall_mem_singleton.2 (.part (h ▸ rfl) hv.isPart))
  | directive h hargs => exact .mk (forall_mem_singleton.2 (.part (h ▸ rfl) hargs.isPart))
  | rule h hk hr _ ih =>
    refine .mk (forall_mem_singleton.2 (.firm ih ?_ (hk ▸ rfl)))
    rcases h with h | h <;> exact h ▸ rfl
  | keyframes h hk hr hframe hcs ih =>
    refine .mk (forall_mem_singleton.2
      (.firm (.mk fun c hc => ⟨ih c hc, fun _ => hcs c hc, fun hl => ?_⟩) (h ▸ rfl)
        (by simp [hk, Form.isLoose])))
    rw [(hframe c hc).2] at hl
    cases hl
  | @mixin l lp ps b h hk hr hps hbk hbr _ ih =>
    have hl : l.kind.form.isBlockLike = false := by
      rcases h with h | ⟨-, h, -⟩ <;> exact h ▸ rfl
    exact .mk (forall_mem_cons.2
      ⟨.part hl (isPart_params hk hps), forall_mem_singleton.2 (.firm ih hl (hbk ▸ rfl))⟩)
  | call h hargs hlen hbs _ ih =>
    exact .mk (forall_mem_cons.2
      ⟨.part (h ▸ rfl) hargs.isPart, fun b hb => .firm (ih b hb) (h ▸ rfl) ((hbs b hb).1 ▸ rfl)⟩)
  | conditional h hc hcr htk htr hlen hes _ _ iht ihe =>
    refine .mk (forall_mem_cons.2 ⟨.part (h ▸ rfl) hc.isPart, forall_mem_cons.2
      ⟨.firm iht (h ▸ rfl) (htk ▸ rfl), fun e he => .firm (ihe e he) (h ▸ rfl) ?_⟩⟩)
    rcases (hes e he).2 with h | h <;> exact h ▸ rfl
  | block h hm hcs ih =>
    exact .mk fun c hc => ⟨ih c hc, fun _ => hcs c hc, fun _ => ⟨h ▸ rfl, hm c hc⟩⟩

theorem IsSheet.orderly (hn : IsSheet sharing n) : Orderly sharing n := by
  obtain ⟨l, cs⟩ := n
  have hk : l.kind.form = .sheet := hn.kind
  exact .mk fun c hc => ⟨(hn.item c hc).isStatement.orderly,
    fun _ => (hn.item c hc).isStatement, fun _ => ⟨hk ▸ rfl, (hn.item c hc).isMember⟩⟩

/-! ## Edited trees -/

section Edited

variable {Fresh : Node → Prop}

/-- What may take the place of a child: in a block or a stylesheet, new statements for a statement;
in a list of parameters or arguments, nothing at all.  `Fresh` says which statements may be new. -/
def Form.Permits (Fresh : Node → Prop) (form : Form) (c : Node) (new : List Node) : Prop :=
  (form.isBlockLike = true ∧ c.kind.form ≠ .frame ∧ ∀ n ∈ new, Fresh n) ∨
    (form = .params ∧ new = [])

mutual

/-- The second tree is the first with other labels, in which the grammar sees no difference, with
statements, parameters or arguments replaced as it permits, and with literals in the place of
commands. -/
def Edited (Fresh : Node → Prop) : Node → Node → Prop
  | .mk l cs, .mk l' cs' =>
    l'.relation = l.relation ∧
      (l'.kind.form = l.kind.form ∧ EditedAll Fresh l.kind.form cs cs' ∨
        l.kind.form = .application ∧ l'.kind.form = .atom ∧ cs' = [])

/-- The second list is the first with each child edited or replaced. -/
def EditedAll (Fresh : Node → Prop) (form : Form) : List Node → List Node → Prop
  | [], ds => ds = []
  | c :: cs, ds =>
    (∃ d rest, ds = d :: rest ∧ Edited Fresh c d ∧ EditedAll Fresh form cs rest) ∨
      ∃ new rest, ds = new ++ rest ∧ form.Permits Fresh c new ∧ EditedAll Fresh form cs rest

end

/-- What is no command keeps its form. -/
theorem Edited.kept {l' : Label} (h : Edited Fresh (.mk l cs) (.mk l' cs'))
    (hl : l.kind.form ≠ .application) :
    l'.kind.form = l.kind.form ∧ EditedAll Fresh l.kind.form cs cs' :=
  h.2.resolve_right fun ha => hl ha.1

theorem Edited.form (h : Edited Fresh n m) (hn : n.kind.form ≠ .application) :
    m.kind.form = n.kind.form := by
  cases n; cases m
  exact (h.kept hn).1

theorem Edited.relation (h : Edited Fresh n m) : m.relation = n.relation := by
  cases n; cases m
  exact h.1

/-- A command and a literal bind equally tight. -/
theorem Edited.looseness (h : Edited Fresh n m) :
    m.kind.form.looseness = n.kind.form.looseness := by
  obtain ⟨l, cs⟩ := n
  obtain ⟨l', cs'⟩ := m
  obtain ⟨-, ⟨hf, -⟩ | ⟨hf, hf', -⟩⟩ := h
  · exact congrArg Form.looseness hf
  · rw [kind_mk, kind_mk, hf, hf']
    rfl

theorem EditedAll.of_forall₂ {form : Form} (h : List.Forall₂ (Edited Fresh) cs cs') :
    EditedAll Fresh form cs cs' := by
  induction h with
  | nil => rfl
  | cons hd _ ih => exact .inl ⟨_, _, rfl, hd, ih⟩

/-- Where nothing may be replaced, the children are edited one by one. -/
theorem EditedAll.forall₂ {form : Form} (h : EditedAll Fresh form cs cs')
    (hb : form.isBlockLike = false) (hp : form ≠ .params) : List.Forall₂ (Edited Fresh) cs cs' := by
  induction cs generalizing cs' with
  | nil =>
    cases h
    exact .nil
  | cons c cs ih =>
    obtain ⟨d, rest, rfl, hd, h⟩ | ⟨new, rest, rfl, ⟨hb', -⟩ | ⟨hp', -⟩, -⟩ := h
    · exact .cons hd (ih h)
    · rw [hb] at hb'; cases hb'
    · exact absurd hp' hp

/-- Forms with parts in fixed places. -/
def Form.isRigid (form : Form) : Bool :=
  !form.isBlockLike && form != .params && form != .application

/-- Editing keeps what has its parts in fixed places. -/
theorem Edited.rigid {l' : Label} (h : Edited Fresh (.mk l cs) (.mk l' cs'))
    (hl : l.kind.form.isRigid = true) :
    l'.kind.form = l.kind.form ∧ List.Forall₂ (Edited Fresh) cs cs' := by
  simp only [Form.isRigid, Bool.and_eq_true, Bool.not_eq_true', bne_iff_ne] at hl
  obtain ⟨hf, hcs⟩ := h.kept hl.2
  exact ⟨hf, hcs.forall₂ hl.1.1 hl.1.2⟩

/-- A child after editing is an edited child, or a statement in the place of another one. -/
theorem EditedAll.exists_mem {form : Form} (h : EditedAll Fresh form cs cs') {c' : Node}
    (hc' : c' ∈ cs') :
    (∃ c ∈ cs, Edited Fresh c c') ∨
      (form.isBlockLike = true ∧ (∃ c ∈ cs, c.kind.form ≠ .frame) ∧ Fresh c') := by
  induction cs generalizing cs' with
  | nil =>
    cases h
    simp at hc'
  | cons c cs ih =>
    have inner : ∀ {rest : List Node}, EditedAll Fresh form cs rest → c' ∈ rest →
        (∃ b ∈ c :: cs, Edited Fresh b c') ∨
          (form.isBlockLike = true ∧ (∃ b ∈ c :: cs, b.kind.form ≠ .frame) ∧ Fresh c') := by
      intro rest h hc'
      obtain ⟨b, hb, he⟩ | ⟨hl, ⟨b, hb, hf⟩, hi⟩ := ih h hc'
      · exact .inl ⟨b, mem_cons_of_mem _ hb, he⟩
      · exact .inr ⟨hl, ⟨b, mem_cons_of_mem _ hb, hf⟩, hi⟩
    obtain ⟨d, rest, rfl, hd, h⟩ | ⟨new, rest, rfl, hnew, h⟩ := h
    · rcases mem_cons.1 hc' with rfl | hc'
      · exact .inl ⟨c, mem_cons_self, hd⟩
      · exact inner h hc'
    · rcases mem_append.1 hc' with hc' | hc'
      · obtain ⟨hl, hf, hi⟩ | ⟨-, rfl⟩ := hnew
        · exact .inr ⟨hl, ⟨c, mem_cons_self, hf⟩, hi c' hc'⟩
        · simp at hc'
      · exact inner h hc'

/-- In a list of arguments nothing new appears. -/
theorem EditedAll.exists_mem_params (h : EditedAll Fresh .params cs cs') {c' : Node}
    (hc' : c' ∈ cs') : ∃ c ∈ cs, Edited Fresh c c' := by
  obtain h | ⟨h, -⟩ := h.exists_mem hc'
  · exact h
  · cases h

/-- A function that changes labels only, and nothing in them that the grammar sees, edits. -/
theorem Edited.of_relabel {f : Node → Node} {relabel : Label → Label}
    (hf : ∀ l cs, f (.mk l cs) = .mk (relabel l) (cs.map f))
    (hform : ∀ l, (relabel l).kind.form = l.kind.form)
    (hrel : ∀ l, (relabel l).relation = l.relation) (n : Node) : Edited Fresh n (f n) := by
  induction n using ind with
  | mk l cs ih =>
    rw [hf]
    refine ⟨hrel l, .inl ⟨hform l, .of_forall₂ ?_⟩⟩
    rw [forall₂_map_right_iff]
    exact forall₂_same.2 ih

theorem Edited.refl (n : Node) : Edited Fresh n n := by
  induction n using ind with
  | mk l cs ih => exact ⟨rfl, .inl ⟨rfl, .of_forall₂ (forall₂_same.2 ih)⟩⟩

theorem EditedAll.refl (form : Form) (cs : List Node) : EditedAll Fresh form cs cs :=
  .of_forall₂ (forall₂_same.2 fun c _ => .refl c)

/-- One child edited, the others as they were. -/
theorem EditedAll.modify {form : Form} {i : Nat} {f : Node → Node}
    (h : ∀ c, cs[i]? = some c → Edited Fresh c (f c)) :
    EditedAll Fresh form cs (cs.modify i f) := by
  induction cs generalizing i with
  | nil => simp [EditedAll]
  | cons c cs ih =>
    cases i with
    | zero => exact .inl ⟨f c, cs, by simp, h c (by simp), .refl form cs⟩
    | succ i => exact .inl ⟨c, cs.modify i f, by simp, .refl c, ih fun d hd => h d (by simpa using hd)⟩

/-- One child replaced, the others as they were. -/
theorem EditedAll.splice {form : Form} {i : Nat} {new : List Node} (hc : cs[i]? = some c)
    (h : form.Permits Fresh c new) :
    EditedAll Fresh form cs (cs.take i ++ new ++ cs.drop (i + 1)) := by
  induction cs generalizing i with
  | nil => simp at hc
  | cons d cs ih =>
    cases i with
    | zero =>
      obtain rfl : d = c := by simpa using hc
      exact .inr ⟨new, cs, by simp, h, .refl form cs⟩
    | succ i =>
      exact .inl ⟨d, cs.take i ++ new ++ cs.drop (i + 1), by simp, .refl d, ih (by simpa using hc)⟩

/-- **An edited value is a value.** -/
theorem IsValue.edited (hn : IsValue n) : ∀ {m : Node}, Edited Fresh n m → IsValue m := by
  induction hn with
  | atom h =>
    rintro ⟨l', cs'⟩ he
    obtain ⟨hf, _ | _⟩ := he.rigid (h ▸ rfl)
    exact .atom (hf.trans h)
  | @series l cs h hlen hloose _ ih =>
    rintro ⟨l', cs'⟩ he
    have hrigid : l.kind.form.isRigid = true := by
      revert h
      cases l.kind.form <;> simp [Form.looseness, Form.isRigid, Form.isBlockLike]
    obtain ⟨hf, hcs⟩ := he.rigid hrigid
    refine .series (hf ▸ h) (hcs.length_eq ▸ hlen) ?_ ?_
    · refine forall_mem_of_forall₂ hcs hloose fun c _ c' hc' hlt => ?_
      rw [hc'.looseness, hf]
      exact hlt
    · exact forall_mem_of_forall₂ hcs ih fun c _ c' hc' hc => hc hc'
  | pair h _ _ iha ihb =>
    rintro ⟨l', cs'⟩ he
    obtain ⟨hf, _ | ⟨ha, _ | ⟨hb, _ | _⟩⟩⟩ := he.rigid (by rcases h with h | h <;> exact h ▸ rfl)
    exact .pair (hf ▸ h) (iha ha) (ihb hb)
  | unary h _ iha =>
    rintro ⟨l', cs'⟩ he
    obtain ⟨hf, _ | ⟨ha, _ | _⟩⟩ := he.rigid (h ▸ rfl)
    exact .unary (hf.trans h) (iha ha)
  | assign h hr _ iha =>
    rintro ⟨l', cs'⟩ he
    obtain ⟨hf, _ | ⟨ha, _ | _⟩⟩ := he.rigid (h ▸ rfl)
    exact .assign (hf.trans h) (ha.relation.trans hr) (iha ha)
  | application h hk hr hloose _ ih =>
    rintro ⟨l', cs'⟩ ⟨-, ⟨hf, hcs⟩ | ⟨-, hf, rfl⟩⟩
    · obtain ⟨⟨lp', as'⟩, rest, hp, hrest, rfl⟩ :=
        forall₂_cons_left_iff.1 (hcs.forall₂ (h ▸ rfl) (by simp [h]))
      cases hrest
      obtain ⟨hfp, has⟩ := hp.kept (by simp [hk])
      rw [hk] at has
      refine .application (hf.trans h) (hfp.trans hk) (hp.relation.trans hr) (fun c' hc' => ?_)
        (fun c' hc' => ?_)
      · obtain ⟨c, hc, he⟩ := has.exists_mem_params hc'
        rw [he.looseness]
        exact hloose c hc
      · obtain ⟨c, hc, he⟩ := has.exists_mem_params hc'
        exact ih c hc he
    · exact .atom hf

theorem IsInitializer.edited (h : IsInitializer cs) (hcs : List.Forall₂ (Edited Fresh) cs cs') :
    IsInitializer cs' where
  length_le := hcs.length_eq ▸ h.length_le
  relation := forall_mem_of_forall₂ hcs h.relation fun _ _ _ he hr => he.relation.trans hr
  isValue := forall_mem_of_forall₂ hcs h.isValue fun _ _ _ he hv => hv.edited he

theorem IsParameter.edited (hn : IsParameter n) (he : Edited Fresh n m) : IsParameter m := by
  cases hn with
  | mk h hcs =>
    obtain ⟨l', cs'⟩ := m
    obtain ⟨hf, hss⟩ := he.rigid (h ▸ rfl)
    exact .mk (hf.trans h) (hcs.edited hss)

theorem IsArguments.edited {lp' : Label} (h : IsArguments lp cs)
    (he : Edited Fresh (.mk lp cs) (.mk lp' cs')) : IsArguments lp' cs' where
  kind := (he.form (by simp [h.kind])).trans h.kind
  relation := he.relation.trans h.relation
  isValue c' hc' := by
    have hcs := (he.kept (by simp [h.kind])).2
    rw [h.kind] at hcs
    obtain ⟨c, hc, hcc⟩ := hcs.exists_mem_params hc'
    exact (h.isValue c hc).edited hcc

theorem IsMember.edited (hn : IsMember n) (hs : IsStatement sharing n) (he : Edited Fresh n m) :
    IsMember m :=
  ⟨he.relation.trans hn.1, he.form hs.form_ne_application ▸ hn.2⟩

end Edited

/-- **An edited statement is a statement.** -/
theorem IsStatement.edited (hn : IsStatement sharing n) :
    ∀ {m : Node}, Edited (IsItem sharing) n m → IsStatement sharing m := by
  induction hn with
  | marker h =>
    rintro ⟨l', cs'⟩ he
    obtain ⟨hf, _ | _⟩ := he.rigid (h ▸ rfl)
    exact .marker (hf.trans h)
  | property h hr hv =>
    rintro ⟨l', cs'⟩ he
    obtain ⟨hf, _ | ⟨hv', _ | _⟩⟩ := he.rigid (h ▸ rfl)
    exact .property (hf.trans h) (hv'.relation.trans hr) (hv.edited hv')
  | declaration h hcs =>
    rintro ⟨l', cs'⟩ he
    obtain ⟨hf, hss⟩ := he.rigid (h ▸ rfl)
    exact .declaration (hf.trans h) (hcs.edited hss)
  | assign h hr hv =>
    rintro ⟨l', cs'⟩ he
    obtain ⟨hf, _ | ⟨hv', _ | _⟩⟩ := he.rigid (h ▸ rfl)
    exact .assign (hf.trans h) (hv'.relation.trans hr) (hv.edited hv')
  | directive h hargs =>
    rintro ⟨l', cs'⟩ he
    obtain ⟨hf, hcs⟩ := he.rigid (h ▸ rfl)
    obtain ⟨⟨lp', as'⟩, _, hp, ⟨⟩, rfl⟩ := forall₂_cons_left_iff.1 hcs
    exact .directive (hf.trans h) (hargs.edited hp)
  | rule h hk hr _ ih =>
    rintro ⟨l', cs'⟩ he
    obtain ⟨hf, _ | ⟨hb, _ | _⟩⟩ := he.rigid (by rcases h with h | h <;> exact h ▸ rfl)
    exact .rule (hf ▸ h) ((hb.form (by simp [hk])).trans hk) (hb.relation.trans hr) (ih hb)
  | @keyframes l lb cs h hk hr hframe _ ih =>
    rintro ⟨l', cs'⟩ he
    obtain ⟨hf, hcs⟩ := he.rigid (h ▸ rfl)
    obtain ⟨⟨lb', fs'⟩, _, hb, ⟨⟩, rfl⟩ := forall₂_cons_left_iff.1 hcs
    obtain ⟨hfb, hfs⟩ := hb.kept (by simp [hk])
    -- Nothing replaces a step of an animation, so all children are edited ones.
    have old : ∀ c' ∈ fs', ∃ c ∈ cs, Edited (IsItem sharing) c c' := fun c' hc' => by
      obtain hold | ⟨-, ⟨c, hc, hne⟩, -⟩ := hfs.exists_mem hc'
      · exact hold
      · exact absurd (hframe c hc).2 hne
    refine .keyframes (hf.trans h) (hfb.trans hk) (hb.relation.trans hr) (fun c' hc' => ?_)
      (fun c' hc' => ?_)
    · obtain ⟨c, hc, he⟩ := old c' hc'
      exact ⟨he.relation.trans (hframe c hc).1, (he.form (by simp [(hframe c hc).2])).trans (hframe c hc).2⟩
    · obtain ⟨c, hc, he⟩ := old c' hc'
      exact ih c hc he
  | @mixin l lp ps b h hk hr hps hbk hbr _ ih =>
    rintro ⟨l', cs'⟩ he
    obtain ⟨hf, hcs⟩ := he.rigid (by rcases h with h | ⟨-, h, -⟩ <;> exact h ▸ rfl)
    obtain ⟨⟨lp', ps'⟩, _, hp, _ | ⟨hb, _ | _⟩, rfl⟩ := forall₂_cons_left_iff.1 hcs
    obtain ⟨hfp, hpp⟩ := hp.kept (by simp [hk])
    rw [hk] at hpp
    have h' : l'.kind.form = .template ∨ sharing ∧ l'.kind.form = .extended ∧ ps' = [] := by
      rcases h with h | ⟨hshare, h, rfl⟩
      · exact .inl (hf.trans h)
      · exact .inr ⟨hshare, hf.trans h, hpp⟩
    refine .mixin h' (hfp.trans hk) (hp.relation.trans hr) (fun p' hp' => ?_) ((hb.form (by simp [hbk])).trans hbk)
      (hb.relation.trans hbr) (ih hb)
    obtain ⟨p, hp, he⟩ := hpp.exists_mem_params hp'
    exact (hps p hp).edited he
  | call h hargs hlen hbs _ ih =>
    rintro ⟨l', cs'⟩ he
    obtain ⟨hf, hcs⟩ := he.rigid (h ▸ rfl)
    obtain ⟨⟨lp', as'⟩, bs', hp, hbb, rfl⟩ := forall₂_cons_left_iff.1 hcs
    refine .call (hf.trans h) (hargs.edited hp) (hbb.length_eq ▸ hlen) ?_ ?_
    · exact forall_mem_of_forall₂ hbb hbs fun b _ b' hb' hb =>
        ⟨(hb'.form (by simp [hb.1])).trans hb.1, hb'.relation.trans hb.2⟩
    · exact forall_mem_of_forall₂ hbb ih fun b _ b' hb' hb => hb hb'
  | conditional h hc hcr htk htr hlen hes _ _ iht ihe =>
    rintro ⟨l', cs'⟩ he
    obtain ⟨hf, _ | ⟨hc', _ | ⟨ht', hee⟩⟩⟩ := he.rigid (h ▸ rfl)
    refine .conditional (hf.trans h) (hc.edited hc') (hc'.relation.trans hcr)
      ((ht'.form (by simp [htk])).trans htk) (ht'.relation.trans htr) (hee.length_eq ▸ hlen) ?_ (iht ht') ?_
    · refine forall_mem_of_forall₂ hee hes fun e _ e' he' he => ?_
      rw [he'.relation, he'.form (by rcases he.2 with h | h <;> simp [h])]
      exact he
    · exact forall_mem_of_forall₂ hee ihe fun e _ e' he' he => he he'
  | block h hm hcs' ih =>
    rintro ⟨l', cs'⟩ he
    obtain ⟨hf, hcs⟩ := he.kept (by simp [h])
    refine .block (hf.trans h) (fun c' hc' => ?_) (fun c' hc' => ?_)
    · obtain ⟨c, hc, he⟩ | ⟨-, -, hi⟩ := hcs.exists_mem hc'
      · exact (hm c hc).edited (hcs' c hc) he
      · exact hi.isMember
    · obtain ⟨c, hc, he⟩ | ⟨-, -, hi⟩ := hcs.exists_mem hc'
      · exact ih c hc he
      · exact hi.isStatement

theorem IsItem.edited (hn : IsItem sharing n) (he : Edited (IsItem sharing) n m) :
    IsItem sharing m :=
  ⟨hn.isMember.edited hn.isStatement he, hn.isStatement.edited he⟩

/-- **An edited stylesheet is a stylesheet.** -/
theorem IsSheet.edited (hn : IsSheet sharing n) (he : Edited (IsItem sharing) n m) :
    IsSheet sharing m := by
  obtain ⟨l, cs⟩ := n
  obtain ⟨l', cs'⟩ := m
  have hk : l.kind.form = .sheet := hn.kind
  obtain ⟨hf, hcs⟩ := he.kept (by simp [hk])
  refine ⟨hf.trans hk, fun c' hc' => ?_⟩
  obtain ⟨c, hc, hcc⟩ | ⟨-, -, hi⟩ := hcs.exists_mem hc'
  · exact (hn.item c hc).edited hcc
  · exact hi

end Cascade
