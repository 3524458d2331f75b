import Cascade.Proofs.Inert
import Cascade.Proofs.PlainStatements
import Cascade.Proofs.Reflatten

/-!
# Plain rules

The rules of plain style sheets: a list of selectors and a list of properties, with values made of
names, hashes, strings and numbers.  Such rules need no evaluation.  Flattening leaves out those
without properties and joins neighbours with the same selectors, and nothing else happens to them.
-/

set_option autoImplicit false

namespace Cascade

open Node List

/-! ## Rules -/

/-- A word of letters, digits, `_` and `-` that begins with a letter or `_` and is no keyword. -/
structure PlainName where
  text : List Char
  starts : text.head?.any Lexeme.isNameStart = true := by decide
  isName : text.all Lexeme.isNameChar = true := by decide
  identifier : Lexeme.wordKind (String.ofList text) = .identifier := by decide

/-- A part of a selector: a name, alone or after a dot or a hash. -/
inductive SelectorPart where
  | element (name : PlainName)
  | ofClass (name : PlainName)
  | id (name : PlainName)

/-- A selector: parts with a blank between each two. -/
structure PlainSelector where
  parts : List SelectorPart
  nonempty : parts ≠ [] := by decide

/-- What a value is made of: words that are no keywords, with a hash before them or not, strings and
numbers. -/
inductive Atom where
  | word (word : Word)
  | quoted (text : QuotedText)
  | number (numeral : Numeral)

/-- A value: rows of atoms with commas between them. -/
structure PlainValue where
  rows : List (List Atom)
  nonempty : rows ≠ []
  filled : ∀ row ∈ rows, row ≠ []

structure PlainProperty where
  name : PlainName
  value : PlainValue

structure PlainRule where
  selectors : List PlainSelector
  nonempty : selectors ≠ []
  properties : List PlainProperty

/-! ## Texts -/

def PlainName.toString (name : PlainName) : String :=
  String.ofList name.text

def SelectorPart.toString : SelectorPart → String
  | element name => name.toString
  | ofClass name => "." ++ name.toString
  | id name => "#" ++ name.toString

def PlainSelector.toString (selector : PlainSelector) : String :=
  " ".intercalate (selector.parts.map SelectorPart.toString)

/-- The selectors of a rule. -/
def PlainRule.names (rule : PlainRule) : List String :=
  rule.selectors.map PlainSelector.toString

/-! ## Trees -/

def Atom.literal : Atom → Literal
  | word w => .word w
  | quoted q => .string q
  | number n => .number n

def Atom.node (atom : Atom) : Node :=
  .make atom.literal.kind 0

def PlainValue.node (value : PlainValue) : Node :=
  valueOf (value.rows.map (·.map Atom.node))

def PlainProperty.node (property : PlainProperty) : Node :=
  .make (.property property.name.toString [] false) 0 [property.value.node]

def PlainRule.node (rule : PlainRule) : Node :=
  ruleOf (.selector rule.names []) (rule.properties.map PlainProperty.node)

/-! ## Joining neighbours -/

section Join

variable {α : Type} (same : α → α → Bool) (join : α → α → α)

/-- Things after `previous`, each joined to the one before it if they are the same. -/
def joinAfter (previous : α) : List α → List α
  | [] => [previous]
  | a :: rest =>
    if same previous a then joinAfter (join previous a) rest else previous :: joinAfter a rest

/-- Things in which neighbours that are the same have been joined. -/
def joinRuns : List α → List α
  | [] => []
  | a :: rest => joinAfter same join a rest

variable {same join} {node : α → Node}

/-- **Rules are merged as the things that they stand for are joined.** -/
theorem mergeRuns_map (h : ∀ a b, (node a).merged? (node b) =
      if same a b then some (node (join a b)) else none) (as : List α) :
    mergeRuns (as.map node) = (joinRuns same join as).map node := by
  have hafter (previous : α) (as : List α) :
      mergeAfter (node previous) (as.map node) = (joinAfter same join previous as).map node := by
    induction as generalizing previous with
    | nil => rfl
    | cons a as ih =>
      rw [map_cons, mergeAfter, h, joinAfter]
      cases same previous a with
      | true => exact ih _
      | false => exact congrArg _ (ih a)
  cases as with
  | nil => rfl
  | cons a as => exact hafter a as

end Join

namespace PlainRule

/-- Whether two rules have the same selectors. -/
def sameSelectors (first second : PlainRule) : Bool :=
  first.names == second.names

/-- The properties of two rules under the selectors of the first. -/
def join (first second : PlainRule) : PlainRule :=
  { first with properties := first.properties ++ second.properties }

/-- Rules without those that have no properties, and with neighbours joined that have the same
selectors. -/
def tidied (rules : List PlainRule) : List PlainRule :=
  joinRuns sameSelectors join (rules.filter fun rule => !rule.properties.isEmpty)

end PlainRule

/-! ## Settled statements -/

theorem Atom.isPlain (atom : Atom) : IsPlain atom.node := by
  cases atom <;> exact .literal rfl

theorem PlainValue.isPlain (value : PlainValue) : IsPlain value.node :=
  isPlain_valueOf
    (forall_mem_map.2 fun _ _ => forall_mem_map.2 fun atom _ => atom.isPlain)

theorem PlainValue.relation (value : PlainValue) : value.node.relation = none :=
  relation_valueOf (forall_mem_map.2 fun _ _ => forall_mem_map.2 fun _ _ => rfl)

theorem PlainProperty.isSettled (property : PlainProperty) : IsSettled Finished property.node :=
  .property ⟨⟨⟨nofun, nofun⟩, rfl⟩, rfl⟩ rfl rfl property.value.relation property.value.isPlain

/-- Nothing is left to evaluate in a rule. -/
theorem PlainRule.isWritable (rule : PlainRule) : IsSettled Writable rule.node := by
  refine .rule ⟨⟨nofun, nofun⟩, rfl, rfl⟩ rfl rfl rfl rfl ?_ ?_
  · exact forall_mem_map.2 fun property _ => ⟨rfl, nofun, nofun⟩
  · exact forall_mem_map.2 fun property _ => property.isSettled.mono fun _ => Finished.writable

/-- A rule with properties is kept. -/
theorem PlainRule.isFinished {rule : PlainRule} (h : rule.properties ≠ []) :
    IsSettled Finished rule.node := by
  have hkept : rule.node.isKept = true := by
    cases hproperties : rule.properties with
    | nil => exact absurd hproperties h
    | cons property properties =>
      rw [PlainRule.node, hproperties]
      rfl
  refine .rule ⟨⟨⟨nofun, nofun⟩, hkept⟩, rfl⟩ rfl rfl rfl rfl ?_ ?_
  · exact forall_mem_map.2 fun property _ => ⟨rfl, nofun, nofun⟩
  · exact forall_mem_map.2 fun property _ => property.isSettled

/-! ## Selectors -/

/-- What holds of the parts of selectors, and of two texts with a blank between them if it holds of
these, holds of selectors. -/
theorem PlainSelector.text_ind {P : List Char → Prop} (selector : PlainSelector)
    (part : ∀ part : SelectorPart, P part.toString.toList)
    (blank : ∀ {text text'}, P text → P text' → P (text ++ ' ' :: text')) :
    P selector.toString.toList := by
  have hne := selector.nonempty
  rw [PlainSelector.toString, String.toList_intercalate, map_map]
  generalize selector.parts = parts at hne
  induction parts with
  | nil => exact absurd rfl hne
  | cons first parts ih =>
    cases parts with
    | nil =>
      rw [map_cons, map_nil, intercalate_singleton]
      exact part first
    | cons next parts =>
      rw [map_cons, map_cons, intercalate_cons_cons, append_assoc]
      exact blank (part first) (ih (cons_ne_nil _ _))

/-- The characters of a selector. -/
theorem PlainSelector.mem_toString {selector : PlainSelector} {c : Char}
    (h : c ∈ selector.toString.toList) :
    Lexeme.isNameChar c = true ∨ c = '.' ∨ c = '#' ∨ c = ' ' := by
  have hname (name : PlainName) (hc : c ∈ name.toString.toList) : Lexeme.isNameChar c = true := by
    rw [PlainName.toString, String.toList_ofList] at hc
    exact all_eq_true.1 name.isName c hc
  have hpart (part : SelectorPart) (hc : c ∈ part.toString.toList) :
      Lexeme.isNameChar c = true ∨ c = '.' ∨ c = '#' ∨ c = ' ' := by
    cases part with
    | element name => exact .inl (hname name hc)
    | ofClass name =>
      rw [SelectorPart.toString, String.toList_append, mem_append] at hc
      obtain hc | hc := hc
      · exact .inr (.inl (mem_singleton.1 hc))
      · exact .inl (hname name hc)
    | id name =>
      rw [SelectorPart.toString, String.toList_append, mem_append] at hc
      obtain hc | hc := hc
      · exact .inr (.inr (.inl (mem_singleton.1 hc)))
      · exact .inl (hname name hc)
  refine selector.text_ind (P := fun text => c ∈ text → Lexeme.isNameChar c = true ∨ c = '.' ∨
    c = '#' ∨ c = ' ') hpart (fun htext htext' hc => ?_) h
  obtain hc | hc := mem_append.1 hc
  · exact htext hc
  · obtain rfl | hc := mem_cons.1 hc
    · exact .inr (.inr (.inr rfl))
    · exact htext' hc

/-- No selector refers to one around it. -/
theorem PlainRule.standalone (rule : PlainRule) : Standalone rule.names := by
  refine forall_mem_map.2 fun selector _ => hasParentReference_eq_false.2 fun h => ?_
  obtain h | h | h | h := selector.mem_toString h <;> cases h

/-! ## Flattening -/

namespace PlainRule

variable {rule : PlainRule} {file : Option String}

/-- **A rule is lifted out as it is**, unless it has no properties. -/
theorem lift_node (rule : PlainRule) : ∃ ms, lift file rule.node = .ok ms ∧
    ms.map bare = (if rule.node.body.isEmpty then [] else [rule.node]).map bare := by
  have hnames : rule.names ≠ [] := fun hnil => rule.nonempty (map_eq_nil_iff.1 hnil)
  have hrule : RuleOf StyleHeading (fun c => c.kind.isContainer = false) rule.node :=
    .mk ⟨_, rfl, hnames, rule.standalone⟩ rfl rfl rfl (forall_mem_map.2 fun _ _ => rfl)
  exact lift_of_yields rfl rfl (hrule.yields_declarations (fun _ h => h) rfl)

/-- Rules with the same selectors are merged. -/
theorem merged?_node (first second : PlainRule) : first.node.merged? second.node =
    if first.sameSelectors second then some (first.join second).node else none := by
  have hsame : first.node.kind.sameRule second.node.kind = first.sameSelectors second := rfl
  rw [merged?, hsame]
  cases first.sameSelectors second with
  | false => rfl
  | true =>
    show some _ = some _
    rw [join, node, node, map_append]
    rfl

end PlainRule

/-- Where there are no queries, merging goes no deeper. -/
theorem mergeWithin_eq_mergeRuns {ns : List Node} (h : ∀ n ∈ mergeRuns ns, n.kind.isQuery = false) :
    ∀ depth, mergeWithin depth ns = mergeRuns ns
  | 0 => rfl
  | depth + 1 => by
    rw [mergeWithin]
    refine (map_congr_left fun n hn => ?_).trans (map_id' _)
    rw [h n hn]
    rfl

namespace PlainRule

/-- Flattening leaves the rules that have properties, with neighbours joined. -/
theorem flatten_sheet (rules : List PlainRule) (file : Option String) :
    ∃ flat, Sheet.flatten { root := .make .sheet 1 (rules.map node), file } = .ok flat ∧
      flat.file = file ∧ flat.root.children.map bare = ((tidied rules).map node).map bare := by
  have hout : (rules.map node).flatMap (fun n => if n.body.isEmpty then [] else [n]) =
      (rules.filter fun rule => !rule.properties.isEmpty).map node := by
    induction rules with
    | nil => rfl
    | cons rule rules ih =>
      have hbody : rule.node.body = rule.properties.map PlainProperty.node := body_rule rfl
      rw [map_cons, flatMap_cons, ih, filter_cons, hbody, isEmpty_map]
      cases rule.properties.isEmpty <;> rfl
  obtain ⟨flat, depth, hflat, hfile, -, hbare⟩ := Sheet.flatten_of_lift
    { root := .make .sheet 1 (rules.map node), file } _
    (forall_mem_map.2 fun rule _ => rule.isWritable) (fun m hm => ⟨hm.1, hm.2.1⟩)
    (forall_mem_map.2 fun rule _ => rule.lift_node) (by
      rw [make, children_mk, hout]
      refine forall_mem_map.2 fun rule hrule => ?_
      exact (isFinished (by simpa using (mem_filter.1 hrule).2)).mono fun _ h => h.1)
  refine ⟨flat, hflat, hfile, hbare.trans (congrArg _ ?_)⟩
  have hruns := mergeRuns_map merged?_node (rules.filter fun rule => !rule.properties.isEmpty)
  rw [make, children_mk, hout, mergeWithin_eq_mergeRuns _ depth, hruns, tidied]
  rw [hruns]
  exact forall_mem_map.2 fun _ _ => rfl

/-- **A style sheet of plain rules** is reduced to the rules that have properties, with neighbours
joined. -/
theorem reduce_sheet (profile : Profile) (rules : List PlainRule) (file : Option String) :
    ∃ reduced, Sheet.reduce { root := .make .sheet 1 (rules.map node), file } profile =
        .ok reduced ∧ reduced.file = file ∧
      ((tidied rules).map node).map bare = reduced.root.children.map bare := by
  obtain ⟨flat, hflat, hfile, hbare⟩ := flatten_sheet rules file
  obtain ⟨reduced, hreduced, hreducedFile, hchildren⟩ := Sheet.reduce_writable profile rfl
    (forall_mem_map.2 fun rule _ => rule.isWritable) hflat
  exact ⟨reduced, hreduced, hreducedFile.trans hfile, hbare.symm.trans hchildren⟩

end PlainRule

end Cascade
