import Cascade.Proofs.PlainRules
import Cascade.Proofs.Typesetting

/-!
# Plain style sheets pass through

Plain rules have a source text, in the layout that is usual for style sheets, and a compact text.
Compiling the source text of some rules gives the compact text of those with properties, after
neighbours with the same selectors have been joined.
-/

set_option autoImplicit false

namespace Cascade

open Lexeme Node List

variable (selector : PlainSelector) (name : PlainName) (rule : PlainRule) (property : PlainProperty)

/-! ## Texts -/

/-- An atom as it is written. -/
def Atom.source : Atom → String
  | word w => String.ofList w.text
  | quoted q => String.ofList (q.quote.char :: q.body ++ [q.quote.char])
  | number n => String.ofList (n.digits ++ n.unit)

/-- An atom in compiled text: a number has four decimals at most. -/
def Atom.css : Atom → String
  | number n => Number.styled (Number.ofDigits n.whole n.fraction) 4 ++ String.ofList n.unit
  | atom => atom.source

def PlainValue.source (value : PlainValue) : String :=
  ", ".intercalate (value.rows.map fun row => " ".intercalate (row.map Atom.source))

def PlainValue.css (value : PlainValue) : String :=
  ",".intercalate (value.rows.map fun row => " ".intercalate (row.map Atom.css))

def PlainProperty.source (property : PlainProperty) : String :=
  property.name.toString ++ ": " ++ property.value.source ++ ";"

def PlainProperty.css (property : PlainProperty) : String :=
  property.name.toString ++ ":" ++ property.value.css ++ ";"

namespace PlainRule

/-- A rule in one line. -/
def source (rule : PlainRule) : String :=
  ", ".intercalate rule.names ++ " \x7b" ++
    String.join (rule.properties.map fun property => " " ++ property.source) ++ " \x7d\n"

/-- A rule without blanks and line breaks. -/
def css (rule : PlainRule) : String :=
  ",".intercalate rule.names ++ "\x7b" ++ String.join (rule.properties.map PlainProperty.css) ++
    "\x7d"

/-- The source text of a style sheet, one rule per line. -/
def sheetSource (rules : List PlainRule) : String :=
  String.join (rules.map source)

/-- The compact text of a style sheet. -/
def sheetCss (rules : List PlainRule) : String :=
  String.join (rules.map css)

end PlainRule

/-! ## Values -/

theorem Atom.composed (atom : Atom) : Composed .item atom.source.toList [[atom.node]] := by
  have hleads := atom.literal.leads
  have hliteral : atom.literal.lexeme.literal? = some atom.literal.kind := by cases atom <;> rfl
  have htext : atom.literal.lexeme.text = atom.source.toList := by
    cases atom <;> exact String.toList_ofList.symm
  rw [← htext]
  exact (Composed.literal hleads hliteral).imp fun _ => .alone

theorem PlainValue.composed (value : PlainValue) :
    Composed .rows value.source.toList (value.rows.map (·.map Atom.node)) := by
  have hrow (row : List Atom) (hrow : row ∈ value.rows) :
      Composed .row (" ".intercalate (row.map Atom.source)).toList [row.map Atom.node] := by
    rw [String.toList_intercalate, map_map]
    exact Composed.row (fun atom _ => atom.composed) (value.filled row hrow)
  rw [PlainValue.source, String.toList_intercalate, map_map]
  exact Composed.list hrow value.nonempty (forall_mem_singleton.2 rfl)

/-! ## Names -/

theorem isName_of_all {cs : List Char} (h : cs.all isNameChar = true) : isName cs = true := by
  induction cs with
  | nil => rfl
  | cons c cs ih =>
    rw [all_cons, Bool.and_eq_true] at h
    rw [isName, h.1, ih h.2]
    rfl

theorem PlainName.exists_cons : ∃ c cs, name.text = c :: cs ∧ isNameStart c = true := by
  have hstarts := name.starts
  cases htext : name.text with
  | nil => rw [htext] at hstarts; cases hstarts
  | cons c cs => rw [htext] at hstarts; exact ⟨c, cs, rfl, hstarts⟩

/-- A name as a word. -/
def PlainName.word (name : PlainName) : Word where
  text := name.text
  isWord := by
    obtain ⟨c, cs, htext, hc⟩ := name.exists_cons
    have hname := isName_of_all name.isName
    have hkind := name.identifier
    rw [htext] at hname hkind ⊢
    rw [isWord.eq_3 c cs (ne_of_class hc rfl) fun _ hzero => absurd hzero (ne_of_class hc rfl),
      hc, hname, hkind]
    rfl

/-- A name after a hash as a word. -/
def PlainName.hash (name : PlainName) : Word where
  text := '#' :: name.text
  isWord := by
    obtain ⟨c, cs, htext, hc⟩ := name.exists_cons
    rw [isWord, isName_of_all name.isName, htext]
    exact Bool.and_eq_true_iff.2 ⟨isNameChar_of_isNameStart hc, rfl⟩

theorem Word.leads (word : Word) : word.lexeme.Leads [] :=
  (Literal.word word).leads

theorem PlainName.isLabel : IsLabel name.text := by
  refine ⟨⟨[], name.word.lexeme⟩, [], ?_, rfl, forall_mem_singleton.2 ⟨rfl, rfl⟩,
    .lexeme name.word.leads rfl AllBlank.nil⟩
  rw [textOf_cons, textOf_nil, append_nil]
  rfl

/-! ## Selectors -/

/-- A text that a rule may begin with. -/
def Opens (text : List Char) : Prop :=
  ∃ p ps, Reads (p :: ps) text text ∧ OpensFirst (p :: ps) ∧ p.kind.isSelectorPart = true

theorem Word.opens (word : Word) : Opens word.text := by
  refine ⟨⟨[], word.lexeme⟩, [], ⟨⟨_, _, rfl, rfl, nofun⟩, ?_, ⟨AllBlank.nil, word.leads, trivial⟩,
    ⟨nofun, nofun, fun _ => rfl, rfl⟩, ?_, ?_⟩, rfl, rfl⟩
  · rw [textOf_cons, textOf_nil, append_nil]
    rfl
  · exact String.empty_append
  · intro p hp
    cases hp
    nofun

theorem PlainName.leads_dot : Lexeme.Leads { kind := .dot, text := ['.'] } name.text := by
  obtain ⟨c, cs, htext, hc⟩ := name.exists_cons
  rw [htext]
  have hdigit := not_isDigit_of_isNameStart hc
  refine .mark ?_ (.inr rfl) rfl rfl rfl
  rw [Lexeme.read]
  simp [hdigit, show isNameStart '.' = false from rfl]

/-- A dot before a name. -/
theorem PlainName.opens_dot : Opens ('.' :: name.text) := by
  refine ⟨.mark [] '.' .dot, [⟨[], name.word.lexeme⟩], ⟨⟨_, _, rfl, rfl, nofun⟩, ?_, ?_,
    ⟨nofun, nofun, fun _ => rfl, nofun, nofun, fun _ => rfl, rfl⟩, ?_, ?_⟩, rfl, rfl⟩
  · rw [textOf_mark, textOf_cons, textOf_nil, append_nil]
    rfl
  · refine ⟨AllBlank.nil, ?_, AllBlank.nil, name.word.leads, trivial⟩
    rw [textOf_cons, textOf_nil, append_nil, append_nil]
    exact name.leads_dot
  · rw [headingFrom, headingFrom, headingFrom, if_neg fun h => h.1 rfl, if_neg fun h => h.1 rfl,
      String.empty_append, ← String.ofList_append]
    rfl
  · intro p hp
    cases hp
    exact TokenKind.noConfusion

theorem SelectorPart.opens (part : SelectorPart) : Opens part.toString.toList := by
  have htext (name : PlainName) : name.toString.toList = name.text := String.toList_ofList
  cases part with
  | element name =>
    rw [SelectorPart.toString, htext]
    exact name.word.opens
  | ofClass name =>
    rw [SelectorPart.toString, String.toList_append, htext]
    exact name.opens_dot
  | id name =>
    rw [SelectorPart.toString, String.toList_append, htext]
    exact name.hash.opens

/-- Two texts with a blank between them. -/
theorem Opens.blank {text text' : List Char} (h : Opens text) (h' : Opens text') :
    Opens (text ++ ' ' :: text') := by
  obtain ⟨p, ps, hreads, hopens, hp⟩ := h
  obtain ⟨q, qs, hreads', hopens', -⟩ := h'
  refine ⟨p, ps ++ regapped [' '] (q :: qs), ?_, hopens.append (hopens'.regapped [' ']), hp⟩
  exact hreads.append (hreads'.follows (forall_mem_singleton.2 rfl) (cons_ne_nil _ _))

theorem PlainSelector.opens : Opens selector.toString.toList :=
  selector.text_ind SelectorPart.opens .blank

/-- A text without combinators is as short as it gets. -/
theorem collapseFrom_of_not_isCombinator {cs : List Char} (h : ∀ c ∈ cs, isCombinator c = false)
    (nesting : Nesting) (done : List Char) :
    collapseFrom nesting false done cs = done.reverse ++ cs := by
  induction cs generalizing nesting done with
  | nil => exact (append_nil _).symm
  | cons c cs ih =>
    obtain ⟨hc, hcs⟩ := forall_mem_cons.1 h
    rw [collapseFrom, if_neg (by simp [hc]), if_neg (by simp), ih hcs, reverse_cons,
      append_assoc]
    rfl

/-- A text before a brace does not begin with a blank. -/
theorem Reads.exists_cons {ps : List TextPiece} {text kept : List Char} (h : Reads ps text kept) :
    ∃ c cs, text = c :: cs ∧ Text.isBlank c = false := by
  obtain ⟨p, qs, rfl, hgap, hkind⟩ := h.tight
  obtain ⟨c, cs, hcs⟩ := exists_cons_of_ne_nil (h.laid.2.1.text_ne_nil hkind)
  have hstarts := h.laid.2.1.starts
  rw [hcs, cons_append] at hstarts
  refine ⟨c, cs ++ textOf qs, ?_, isBlank_of_startsToken hstarts⟩
  rw [← h.text, textOf_cons, hgap, hcs]
  rfl

/-- A selector ends with a name. -/
theorem PlainSelector.exists_append :
    ∃ front, ∃ name : PlainName, selector.toString.toList = front ++ name.text := by
  refine selector.text_ind (P := fun text => ∃ front, ∃ name : PlainName, text = front ++ name.text)
    (fun part => ?_) fun {text _} _ ⟨front, name, hfront⟩ => ?_
  · have htext (name : PlainName) : name.toString.toList = name.text := String.toList_ofList
    cases part with
    | element name => exact ⟨[], name, htext name⟩
    | ofClass name =>
      exact ⟨['.'], name, by rw [SelectorPart.toString, String.toList_append, htext]; rfl⟩
    | id name =>
      exact ⟨['#'], name, by rw [SelectorPart.toString, String.toList_append, htext]; rfl⟩
  · exact ⟨text ++ ' ' :: front, name, by rw [hfront, append_assoc, cons_append]⟩

/-- The characters of a selector neither separate, enclose nor combine. -/
theorem PlainSelector.isPlain_of_mem {selector : PlainSelector} {c : Char}
    (h : c ∈ selector.toString.toList) :
    (c ≠ ',' ∧ Nesting.isMark c = false) ∧ isCombinator c = false := by
  have hc : (isNameChar c || c == '.' || c == '#' || c == ' ') = true := by
    simpa [or_assoc] using selector.mem_toString h
  have hne {d : Char} (hd : (isNameChar d || d == '.' || d == '#' || d == ' ') = false) :
      (c == d) = false := by
    rw [beq_eq_false_iff_ne]
    rintro rfl
    cases hd.symm.trans hc
  refine ⟨⟨beq_eq_false_iff_ne.1 (hne rfl), ?_⟩, ?_⟩
  · rw [Nesting.isMark, hne rfl, hne rfl, hne rfl, hne rfl, hne rfl, hne rfl]
    rfl
  · rw [isCombinator, hne rfl, hne rfl, hne rfl]
    rfl

theorem PlainSelector.isSelector : IsSelector selector.toString := by
  obtain ⟨p, ps, hreads, hopens, -⟩ := selector.opens
  have hchars (c : Char) (hc : c ∈ selector.toString.toList) := selector.isPlain_of_mem hc
  obtain ⟨hwhole, hclosed⟩ := topLevelPieces_of_not_mem fun c hc => (hchars c hc).1
  obtain ⟨c, cs, htext, hblank⟩ := hreads.exists_cons
  refine ⟨⟨?_, ?_, hwhole, hclosed⟩, ?_, p :: ps, hreads, hopens⟩
  · rw [htext]
    exact cons_ne_nil _ _
  · obtain ⟨front, name, hname⟩ := selector.exists_append
    obtain ⟨ds, d, hds⟩ : ∃ ds d, name.text = ds ++ [d] := by
      obtain ⟨e, es, hes, -⟩ := name.exists_cons
      exact ⟨_, _, (dropLast_append_getLast (hes ▸ cons_ne_nil e es)).symm⟩
    have hd : isNameChar d = true :=
      all_eq_true.1 name.isName d (hds ▸ mem_append_right _ (mem_singleton_self d))
    rw [hds, ← append_assoc, htext] at hname
    rw [htext]
    exact trim_eq_self hblank (isBlank_of_isNameChar hd) hname
  · rw [collapseCombinators, collapseFrom_of_not_isCombinator fun c hc => (hchars c hc).2]
    exact String.ofList_toList

/-! ## Layouts -/

theorem PlainRule.headed :
    Headed (", ".intercalate rule.names).toList (.selector rule.names []) := by
  rw [String.toList_intercalate]
  refine Headed.selector (forall_mem_singleton.2 rfl)
    (forall_mem_map.2 fun selector _ => selector.isSelector) ?_
  obtain ⟨selector, selectors, hselectors⟩ := exists_cons_of_ne_nil rule.nonempty
  obtain ⟨p, ps, hreads, -, hp⟩ := selector.opens
  rw [names, hselectors]
  exact hreads.opensRule_eq.trans hp

/-- A property after a blank. -/
theorem PlainProperty.typeset {gap : List Char} (hgap : AllBlank gap) :
    Typeset .statement gap (" " ++ property.source).toList [property.node] := by
  have htext : (" " ++ property.source).toList = [' '] ++ (property.name.text ++ ':' ::
      ([' '] ++ (property.value.source.toList ++ ((if false then "!important" else "").toList ++
        ';' :: [])))) := by
    simp [PlainProperty.source, PlainName.toString]
  have hblank : AllBlank [' '] := forall_mem_singleton.2 rfl
  rw [htext]
  exact Typeset.indent (fun gap hgap => Typeset.property property.name.isLabel
    property.value.composed false hgap hblank AllBlank.nil) hblank hgap

/-- **The source text of a rule** is a layout of it. -/
theorem PlainRule.typeset {gap : List Char} (hgap : AllBlank gap) :
    Typeset .statement gap rule.source.toList [rule.node] := by
  have htext : rule.source.toList = (", ".intercalate rule.names).toList ++ ([' '] ++ '\x7b' ::
      ([] ++ (rule.properties.flatMap (fun property => (" " ++ property.source).toList) ++
        ([' '] ++ '\x7d' :: ['\n'])))) := by
    simp [PlainRule.source, flatMap_map]
  rw [htext]
  exact Typeset.rule hgap (forall_mem_singleton.2 rfl) AllBlank.nil (forall_mem_singleton.2 rfl)
    (forall_mem_singleton.2 rfl) rule.headed fun gap hgap =>
      Typeset.all (fun property _ gap hgap => property.typeset hgap) hgap

/-! ## Compact texts -/

variable {file : Option String}

theorem Atom.cssValue (atom : Atom) : atom.node.cssValue file {} = .ok atom.css := by
  rw [Atom.node, Node.make, Node.cssValue]
  cases atom with
  | word w => rfl
  | quoted q =>
    have htext : q.quote.wrap (String.ofList q.body) =
        String.ofList (q.quote.char :: q.body ++ [q.quote.char]) := by
      rw [← String.toList_inj]
      simp [Quote.wrap]
    exact congrArg Except.ok htext
  | number n =>
    have hunit : (if n.unit = [] then none else some (String.ofList n.unit)).getD "" =
        String.ofList n.unit := by
      cases n.unit <;> rfl
    exact congrArg (fun unit => Except.ok (Number.styled _ 4 ++ unit)) hunit

theorem PlainProperty.css_node (depth : Nat) :
    property.node.css file {} depth = .ok property.css := by
  have hvalue : property.value.node.cssValue file {} = .ok property.value.css :=
    cssValue_valueOf fun _ _ atom _ => atom.cssValue
  rw [PlainProperty.node, Node.make, css_property (cssValues_singleton hvalue) rfl]
  simp [Layout.property, Layout.indentation, Layout.space, Layout.statementBreak, Layout.has,
    PlainProperty.css]

theorem PlainRule.css_node : rule.node.css file {} 0 = .ok rule.css := by
  have hbody : cssAll file {} 1 (rule.properties.map PlainProperty.node) =
      .ok (String.join (rule.properties.map PlainProperty.css)) :=
    cssAll_map fun property _ => property.css_node 1
  have hrule : rule.node.css file {} 0 = .ok (Layout.rule {} 0 (",".intercalate rule.names) _) :=
    css_ruleOf rfl hbody
  rw [hrule]
  simp [Layout.rule, Layout.indentation, Layout.space, Layout.statementBreak, Layout.blockBreak,
    Layout.has, PlainRule.css]

/-- **Plain style sheets pass through**: the source text of rules compiles to the compact text of
those that have properties, with neighbours joined that have the same selectors. -/
theorem compile_plain_rules (rules : List PlainRule) (file : Option String) (profile : Profile) :
    compile { text := PlainRule.sheetSource rules, file } profile {} =
      .ok (PlainRule.sheetCss (PlainRule.tidied rules)) := by
  have htypeset : Typeset .statements []
      ({ text := PlainRule.sheetSource rules, file } : Source).text.toList
      (rules.map PlainRule.node) := by
    rw [PlainRule.sheetSource, String.toList_join, List.flatMap_map]
    exact Typeset.all (fun rule _ gap hgap => rule.typeset hgap) AllBlank.nil
  obtain ⟨reduced, hreduced, hfile, hbare⟩ := PlainRule.reduce_sheet profile rules file
  refine htypeset.compile ?_
  rw [hreduced]
  exact Node.cssAll_of_bare_eq hbare (Node.cssAll_map fun rule _ => rule.css_node)

end Cascade
