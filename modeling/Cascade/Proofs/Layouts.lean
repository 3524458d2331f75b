import Cascade.Proofs.StableOutput

/-!
# Layouts and printers

A stylesheet is written in many layouts.  What they have in common is the text without any blanks
between statements: a row of parts, which are texts of the stylesheet and marks between them.  A
layout adds blanks next to the marks and nothing else, and whether a stylesheet can be written does
not hang on it.

Values have a second printer, whose texts are used in computations.  It agrees with the one that
writes stylesheets.
-/

set_option autoImplicit false

namespace Cascade

open Node List

variable {file : Option String} {layout : Layout}

/-! ## The two printers of values -/

section Values

variable {n : Node} {cs : List Node}

theorem Node.valueTexts_eq_map (cs : List Node) : valueTexts cs = cs.map valueText := by
  induction cs with
  | nil => rfl
  | cons c cs ih => rw [valueTexts, ih, map_cons]

theorem Kind.cssLiteral?_getD (kind : Kind) : (kind.cssLiteral? {}).getD "" = kind.literalText := by
  cases kind <;> rfl

theorem Node.valueText_literal {l : Label} (h : l.kind.isLiteral = true) :
    (mk l cs).valueText = l.kind.literalText := by
  rw [valueText]
  revert h
  cases l.kind <;> simp [Kind.isLiteral]

theorem Node.cssValues_eq_valueTexts (h : ∀ c ∈ cs, c.cssValue file {} = .ok c.valueText) :
    cssValues file {} cs = .ok (valueTexts cs) := by
  have hmap : cssValues file {} (cs.map id) = .ok (cs.map valueText) := cssValues_map h
  rwa [map_id, ← valueTexts_eq_map] at hmap

/-- **A plain value is written as the text that computations use.** -/
theorem IsPlain.cssValue_eq_valueText (h : IsPlain n) : n.cssValue file {} = .ok n.valueText := by
  induction h with
  | literal h => rw [cssValue_literal h, Kind.cssLiteral?_getD, valueText_literal h]
  | @group l cs h _ ih =>
    have htexts := cssValues_eq_valueTexts ih
    rw [valueText]
    obtain h | h | h := h <;> rw [h]
    · exact cssValue_list htexts h
    · exact cssValue_comma htexts h
    · exact cssValue_slash htexts h
  | function h _ hr _ ih =>
    rw [valueText, h, argumentTexts, if_pos hr]
    exact cssValue_function (cssValues_eq_valueTexts ih) h hr

/-- Text that has become a literal is written as it is. -/
theorem Value.cssValue_text (text : String) (line : Nat) :
    ((Value.text text).toNode line).cssValue file {} = .ok text := by
  rw [toNode, make, cssValue_literal rfl]
  rfl

/-- The trees for several values that were read off trees. -/
theorem Value.cssValues_reread {line : Nat}
    (h : ∀ c ∈ cs, ((ofNode c).toNode line).cssValue file {} = .ok c.valueText) :
    cssValues file {} (toNodes line (ofNodes cs)) = .ok (valueTexts cs) := by
  rw [ofNodes_eq_map, toNodes_eq_map, map_map, valueTexts_eq_map]
  exact cssValues_map h

/-- A value that is read off a tree and put into a new one is written as before. -/
theorem IsPlain.cssValue_reread (h : IsPlain n) (line : Nat) :
    ((Value.ofNode n).toNode line).cssValue file {} = .ok n.valueText := by
  induction h with
  | @literal l h =>
    have htext : ∀ kind : Kind, l.kind = kind →
        (make kind line).cssValue file {} = .ok (mk l []).valueText := by
      rintro kind rfl
      rw [valueText_literal h, ← Kind.cssLiteral?_getD]
      exact cssValue_literal h
    rw [Value.ofNode]
    cases hkind : l.kind with
    | number | string | identifier | boolean | null => exact htext _ hkind
    | raw => exact Value.cssValue_text _ line
    | _ => simp [hkind, Kind.isLiteral] at h
  | @group l cs h _ ih =>
    have htexts := Value.cssValues_reread ih
    rw [Value.ofNode, valueText]
    obtain h | h | h := h <;> rw [h]
    · exact cssValue_list htexts rfl
    · exact cssValue_comma htexts rfl
    · exact Value.cssValue_text _ line
  | @function l lp cs name h =>
    rw [Value.ofNode, h]
    exact Value.cssValue_text _ line

/-- **The printer of values for computations agrees with the one for stylesheets**, and a value that
an operator passes on is written as before. -/
theorem value_printers_agree (h : IsPlain n) (file : Option String) (line : Nat) :
    n.cssValue file {} = .ok n.valueText ∧
      ((Value.ofNode n).toNode line).cssValue file {} = n.cssValue file {} :=
  ⟨h.cssValue_eq_valueText, (h.cssValue_reread line).trans h.cssValue_eq_valueText.symm⟩

/-- Two printers on `"a" ,f(b/c)`, a list in which nothing stands behind the first item. -/
theorem value_printers_agree_nested :
    let call := (make .params 1 [make .slash 1 [make (.identifier "b") 1, make (.raw "c") 1]]).placed
      .params
    let n := make .comma 1 [make .list 1 [make (.string "a" .double) 1, make .null 1],
      make (.function "f") 1 [call]]
    n.valueText = "\"a\" ,f(b/c)" ∧ n.cssValue none {} = .ok n.valueText ∧
      ((Value.ofNode n).toNode 2).cssValue none {} = n.cssValue none {} := by
  intro call n
  have hlist : IsPlain (make .list 1 [make (.string "a" .double) 1, make .null 1]) :=
    .group (.inl rfl) (by simpa using ⟨.literal rfl, .literal rfl⟩)
  have hslash : IsPlain (make .slash 1 [make (.identifier "b") 1, make (.raw "c") 1]) :=
    .group (.inr (.inr rfl)) (by simpa using ⟨.literal rfl, .literal rfl⟩)
  have hcall : IsPlain (make (.function "f") 1 [call]) :=
    .function rfl rfl rfl (forall_mem_singleton.2 hslash)
  exact ⟨by decide +kernel,
    value_printers_agree (.group (.inr (.inl rfl)) (by simpa using ⟨hlist, hcall⟩)) none 2⟩

end Values

/-! ## Parts -/

/-- A mark between texts. -/
inductive Punctuation where
  | comma
  | colon
  | semicolon
  | opening
  | closing
  deriving DecidableEq

/-- How a mark is written. -/
def Punctuation.text : Punctuation → String
  | comma => ","
  | colon => ":"
  | semicolon => ";"
  | opening => "\x7b"
  | closing => "\x7d"

/-- A part of a written stylesheet: a text that belongs to it, or a mark that is set between texts. -/
inductive Segment where
  | text (value : String)
  | mark (sign : Punctuation)
  deriving DecidableEq

/-- How a part is written. -/
def Segment.written : Segment → String
  | text value => value
  | mark sign => sign.text

/-- Items with commas between them. -/
def Segment.list (items : List (List Segment)) : List Segment :=
  [.mark .comma].intercalate items

/-- The parts before the brace of a rule. -/
def Kind.headingSegments? : Kind → Option (List Segment)
  | .selector names _ | .frame names => some (Segment.list (names.map fun name => [.text name]))
  | .media queries _ => some (.text "@media " :: Segment.list (queries.map fun query => [.text query]))
  | kind => (kind.heading? {} 0).map fun heading => [.text heading]

namespace Node

variable (file : Option String) (precision : Option Nat)

mutual

/-- The parts of a value. -/
def valueSegments : Node → Except Error (List Segment)
  | mk label children =>
    match label.kind with
    | .function name => do
      let arguments ← argumentSegments children
      pure (.text (name ++ "(") :: Segment.list arguments ++ [.text ")"])
    | .list => do pure ([.text " "].intercalate (← valueSegmentsAll children))
    | .comma => do pure (Segment.list (← valueSegmentsAll children))
    | .slash => do pure ([.text "/"].intercalate (← valueSegmentsAll children))
    | kind =>
      match kind.cssLiteral? { precision } with
      | some text => .ok [.text text]
      | none => .error (label.unwritable file)

/-- The parts of several values. -/
def valueSegmentsAll : List Node → Except Error (List (List Segment))
  | [] => .ok []
  | node :: rest => do
    let segments ← valueSegments node
    let rest ← valueSegmentsAll rest
    pure (segments :: rest)

/-- The parts of the arguments among the children of a function. -/
def argumentSegments : List Node → Except Error (List (List Segment))
  | [] => .ok []
  | mk label children :: rest =>
    if label.relation = some .params then valueSegmentsAll children else argumentSegments rest

end

mutual

/-- **The parts of a statement.** -/
def segments : Node → Except Error (List Segment)
  | mk label children =>
    match label.kind with
    | .property name _ important => do
      let values ← valueSegmentsAll file precision children
      pure (.text name :: .mark .colon :: [.text " "].intercalate values
        ++ [.text (if important then "!important" else ""), .mark .semicolon])
    | .block => segmentsAll children
    | kind =>
      match kind.headingSegments? with
      | none => .error (label.unwritable file)
      | some heading => do
        pure (heading ++ .mark .opening :: (← ruleSegments children) ++ [.mark .closing])

/-- The parts of several statements. -/
def segmentsAll : List Node → Except Error (List Segment)
  | [] => .ok []
  | node :: rest => do
    let segments ← segments node
    let rest ← segmentsAll rest
    pure (segments ++ rest)

/-- The parts of the block among the children of a rule. -/
def ruleSegments : List Node → Except Error (List Segment)
  | [] => .ok []
  | mk label children :: rest =>
    if label.relation = some .rules then segmentsAll children else ruleSegments rest

end

end Node

/-- **The parts of a stylesheet**, with numbers of a precision. -/
def Sheet.segments (sheet : Sheet) (precision : Option Nat) : Except Error (List Segment) :=
  Node.segmentsAll sheet.file precision sheet.root.children

/-! ## Blanks next to marks -/

section Spaced

variable {blank : String → Prop} {ps qs : List Segment} {out rest : String}

/-- **Parts with blanks next to the marks** and nowhere else. -/
inductive Spaced (blank : String → Prop) : List Segment → String → Prop
  | nil : Spaced blank [] ""
  | text {ps : List Segment} {out : String} (value : String) (h : Spaced blank ps out) :
      Spaced blank (.text value :: ps) (value ++ out)
  | mark {ps : List Segment} {out before after : String} (mark : Punctuation) (hbefore : blank before)
      (hafter : blank after) (h : Spaced blank ps out) :
      Spaced blank (.mark mark :: ps) (before ++ mark.text ++ after ++ out)

theorem Spaced.append (h : Spaced blank ps out) (h' : Spaced blank qs rest) :
    Spaced blank (ps ++ qs) (out ++ rest) := by
  induction h with
  | nil => rwa [nil_append, String.empty_append]
  | text value _ ih =>
    rw [String.append_assoc]
    exact .text value ih
  | mark mark hbefore hafter _ ih =>
    rw [String.append_assoc]
    exact .mark mark hbefore hafter ih

/-- A single text. -/
theorem Spaced.single (value : String) : Spaced blank [.text value] value := by
  have h := Spaced.text value (@Spaced.nil blank)
  rwa [String.append_empty] at h

/-- Items with a part between them. -/
theorem Spaced.intercalate {between : Segment} {separator : String}
    (h : Spaced blank [between] separator) {items : List (List Segment)} {texts : List String}
    (hitems : Forall₂ (Spaced blank) items texts) :
    Spaced blank ([between].intercalate items) (separator.intercalate texts) := by
  induction hitems with
  | nil => exact .nil
  | cons hitem hrest ih =>
    cases hrest with
    | nil => rwa [intercalate_singleton, String.intercalate_singleton]
    | cons =>
      rw [intercalate_cons_cons, String.intercalate_cons_cons]
      exact (hitem.append h).append ih

theorem Spaced.texts (names : List String) :
    Forall₂ (Spaced blank) (names.map fun name => [Segment.text name]) names := by
  induction names with
  | nil => exact .nil
  | cons name names ih => exact .cons (.single name) ih

theorem Spaced.eq_join (h : Spaced (· = "") ps out) : out = String.join (ps.map Segment.written) := by
  induction h with
  | nil => rfl
  | text value _ ih => rw [ih, map_cons, String.join_cons, Segment.written]
  | mark mark hbefore hafter _ ih =>
    rw [ih, hbefore, hafter, map_cons, String.join_cons, Segment.written, String.empty_append,
      String.append_empty]

/-- Parts with blanks next to the marks, and at the start of the first line. -/
def Indented (blank : String → Prop) (ps : List Segment) (out : String) : Prop :=
  ∃ before text, blank before ∧ out = before ++ text ∧ Spaced blank ps text

/-- Without blanks the parts are what is written. -/
theorem Indented.eq_join (h : Indented (· = "") ps out) :
    out = String.join (ps.map Segment.written) := by
  obtain ⟨before, text, rfl, rfl, h⟩ := h
  rw [String.empty_append, h.eq_join]

/-- Blanks that may stand before something may stand behind a mark before it. -/
theorem Indented.mark {before after : String} (sign : Punctuation) (h : Indented blank ps out)
    (happend : ∀ a b, blank a → blank b → blank (a ++ b)) (hbefore : blank before)
    (hafter : blank after) :
    Spaced blank (.mark sign :: ps) (before ++ sign.text ++ after ++ out) := by
  obtain ⟨more, text, hmore, rfl, h⟩ := h
  have hmark := Spaced.mark sign hbefore (happend _ _ hafter hmore) h
  simpa only [String.append_assoc] using hmark

/-- **The blanks that a layout uses**: before and after marks, and at the start of lines. -/
structure Layout.Leaves (layout : Layout) (blank : String → Prop) : Prop where
  empty : blank ""
  append : ∀ a b, blank a → blank b → blank (a ++ b)
  space : blank layout.space
  indentation : ∀ depth, blank (layout.indentation depth)
  statementBreak : blank layout.statementBreak
  blockBreak : blank layout.blockBreak
  comma : ∃ after, blank after ∧ layout.listSeparator = "," ++ after
  selectorComma : ∀ depth, ∃ after, blank after ∧ layout.selectorSeparator depth = "," ++ after

end Spaced

/-! ## Printing in a layout -/

/-- Two computations that fail alike or give results that belong together. -/
def Matches {α β : Type} (R : α → β → Prop) : Except Error α → Except Error β → Prop
  | .ok a, .ok b => R a b
  | .error e, .error e' => e = e'
  | _, _ => False

theorem Matches.bind {α β α' β' : Type} {R : α → β → Prop} {S : α' → β' → Prop}
    {x : Except Error α} {y : Except Error β} {f : α → Except Error α'} {g : β → Except Error β'}
    (h : Matches R x y) (hf : ∀ a b, R a b → Matches S (f a) (g b)) :
    Matches S (x >>= f) (y >>= g) :=
  match x, y, h with
  | .ok a, .ok b, h => hf a b h
  | .error _, .error _, h => h

theorem Matches.mono {α β : Type} {R S : α → β → Prop} {x : Except Error α} {y : Except Error β}
    (h : Matches R x y) (hRS : ∀ a b, R a b → S a b) : Matches S x y :=
  match x, y, h with
  | .ok a, .ok b, h => hRS a b h
  | .error _, .error _, h => h

theorem Matches.cases {α β : Type} {R : α → β → Prop} {x : Except Error α} {y : Except Error β}
    (h : Matches R x y) :
    (∃ e, x = .error e ∧ y = .error e) ∨ ∃ a b, x = .ok a ∧ y = .ok b ∧ R a b :=
  match x, y, h with
  | .ok a, .ok b, h => .inr ⟨a, b, rfl, rfl, h⟩
  | .error e, .error _, rfl => .inl ⟨e, rfl, rfl⟩

section Printing

variable {blank : String → Prop} {depth : Nat}

theorem Kind.literal_spaced (blank : String → Prop) (layout : Layout) (kind : Kind) (error : Error) :
    Matches (Spaced blank)
      (match kind.cssLiteral? { precision := layout.precision } with
        | some text => .ok [.text text]
        | none => .error error)
      (match kind.cssLiteral? layout with
        | some text => .ok text
        | none => .error error) := by
  have heq : kind.cssLiteral? { precision := layout.precision } = kind.cssLiteral? layout := by
    cases kind <;> rfl
  rw [heq]
  cases kind.cssLiteral? layout with
  | none => exact rfl
  | some text => exact Spaced.single text

section Leaves

variable (hl : layout.Leaves blank)

include hl

/-- Names with commas between them. -/
theorem Layout.Leaves.names {separator after : String} (hafter : blank after)
    (heq : separator = "," ++ after) {items : List (List Segment)} {texts : List String}
    (h : Forall₂ (Spaced blank) items texts) :
    Spaced blank (Segment.list items) (separator.intercalate texts) := by
  have hmark := Spaced.mark .comma hl.empty hafter (@Spaced.nil blank)
  rw [String.append_empty, String.empty_append] at hmark
  rw [heq]
  exact hmark.intercalate h

theorem Layout.Leaves.list {items : List (List Segment)} {texts : List String}
    (h : Forall₂ (Spaced blank) items texts) :
    Spaced blank (Segment.list items) (layout.listSeparator.intercalate texts) := by
  obtain ⟨after, hafter, heq⟩ := hl.comma
  exact hl.names hafter heq h

/-- What stands before a brace. -/
theorem Kind.heading_spaced (kind : Kind) (depth : Nat) :
    kind.headingSegments? = none ∧ kind.heading? layout depth = none ∨
      ∃ segments heading, kind.headingSegments? = some segments ∧
        kind.heading? layout depth = some heading ∧ Spaced blank segments heading := by
  cases kind with
  | selector names =>
    obtain ⟨after, hafter, heq⟩ := hl.selectorComma depth
    exact .inr ⟨_, _, rfl, rfl, hl.names hafter heq (Spaced.texts names)⟩
  | media queries =>
    exact .inr ⟨_, _, rfl, rfl, (Spaced.single _).append (hl.list (Spaced.texts queries))⟩
  | frame names => exact .inr ⟨_, _, rfl, rfl, hl.list (Spaced.texts names)⟩
  | keyframes name vendor => cases vendor <;> exact .inr ⟨_, _, rfl, rfl, .single _⟩
  | supports | fontFace => exact .inr ⟨_, _, rfl, rfl, .single _⟩
  | _ => exact .inl ⟨rfl, rfl⟩

/-- Statements with something behind them: their text begins with blanks, and all other blanks are
next to marks. -/
def Stretches (blank : String → Prop) (ps : List Segment) (out : String) : Prop :=
  ∀ qs rest, Indented blank qs rest → Indented blank (ps ++ qs) (out ++ rest)

theorem Layout.property_stretches (name : String) (important : Bool) {items : List (List Segment)}
    {texts : List String} (h : Forall₂ (Spaced blank) items texts) :
    Stretches blank (.text name :: .mark .colon :: [.text " "].intercalate items ++
        [.text (if important then "!important" else ""), .mark .semicolon])
      (layout.property depth name important texts) := by
  intro qs rest hqs
  have hend := hqs.mark .semicolon hl.append hl.empty hl.statementBreak
  have hvalues := (Spaced.intercalate (.single " ") h).append
    (.text (if important then "!important" else "") hend)
  simp only [append_assoc, cons_append, nil_append]
  refine ⟨_, _, hl.indentation depth, ?_, .text name (.mark .colon hl.empty hl.space hvalues)⟩
  simp only [Layout.property, Punctuation.text, String.append_assoc, String.empty_append]

/-- A rule, if there is something to stand before its brace. -/
theorem Layout.rule_stretches (depth : Nat) (kind : Kind) (error : Error)
    {x : Except Error (List Segment)} {y : Except Error String} (h : Matches (Stretches blank) x y) :
    Matches (Stretches blank)
      (match kind.headingSegments? with
        | none => .error error
        | some heading => do pure (heading ++ .mark .opening :: (← x) ++ [.mark .closing]))
      (match kind.heading? layout depth with
        | none => .error error
        | some heading => do pure (layout.rule depth heading (← y))) := by
  obtain ⟨hs, ht⟩ | ⟨segments, heading, hs, ht, hheading⟩ := kind.heading_spaced hl depth
  · rw [hs, ht]
    exact rfl
  · rw [hs, ht]
    refine h.bind fun bs body hbody qs rest hqs => ?_
    have hend := hqs.mark .closing hl.append hl.empty hl.blockBreak
    have hinner := (hbody _ _ ⟨_, _, hl.indentation depth, rfl, hend⟩).mark .opening hl.append
      hl.space hl.statementBreak
    simp only [append_assoc, cons_append, nil_append]
    refine ⟨_, _, hl.indentation depth, ?_, hheading.append hinner⟩
    simp only [Layout.rule, Punctuation.text, String.append_assoc, String.empty_append]

end Leaves

mutual

theorem Node.cssValue_spaced (hl : layout.Leaves blank) : ∀ n : Node,
    Matches (Spaced blank) (n.valueSegments file layout.precision) (n.cssValue file layout)
  | mk l cs => by
    have htexts := Node.cssValues_spaced hl cs
    have hliteral := Kind.literal_spaced blank layout l.kind (l.unwritable file)
    rw [valueSegments, cssValue]
    generalize l.kind = kind at hliteral ⊢
    cases kind with
    | function name =>
      refine (Node.cssArguments_spaced hl cs).bind fun items texts h => ?_
      exact ((Spaced.single _).append (hl.list h)).append (.single _)
    | list | slash => exact htexts.bind fun _ _ h => Spaced.intercalate (.single _) h
    | comma => exact htexts.bind fun _ _ h => hl.list h
    | _ => exact hliteral

theorem Node.cssValues_spaced (hl : layout.Leaves blank) : ∀ cs : List Node,
    Matches (Forall₂ (Spaced blank)) (valueSegmentsAll file layout.precision cs)
      (cssValues file layout cs)
  | [] => .nil
  | c :: cs => by
    rw [valueSegmentsAll, cssValues]
    refine (Node.cssValue_spaced hl c).bind fun item text h => ?_
    exact (Node.cssValues_spaced hl cs).bind fun items texts hs => .cons h hs

theorem Node.cssArguments_spaced (hl : layout.Leaves blank) : ∀ cs : List Node,
    Matches (Forall₂ (Spaced blank)) (argumentSegments file layout.precision cs)
      (cssArguments file layout cs)
  | [] => .nil
  | mk l ks :: cs => by
    rw [argumentSegments, cssArguments]
    split
    · exact Node.cssValues_spaced hl ks
    · exact Node.cssArguments_spaced hl cs

end

mutual

theorem Node.css_stretches (hl : layout.Leaves blank) (depth : Nat) : ∀ n : Node,
    Matches (Stretches blank) (n.segments file layout.precision)
      (n.css file layout depth)
  | mk l cs => by
    have hrules := Node.cssRules_stretches hl (depth + 1) cs
    have hrule := layout.rule_stretches hl depth l.kind (l.unwritable file) hrules
    rw [segments, css]
    generalize l.kind = kind at hrule ⊢
    cases kind with
    | property name _ important =>
      exact (Node.cssValues_spaced hl cs).bind fun items texts h =>
        layout.property_stretches hl name important h
    | block => exact Node.cssAll_stretches hl depth cs
    | _ => exact hrule

/-- Several statements. -/
theorem Node.cssAll_stretches (hl : layout.Leaves blank) (depth : Nat) : ∀ cs : List Node,
    Matches (Stretches blank) (segmentsAll file layout.precision cs)
      (cssAll file layout depth cs)
  | [] => fun _ _ h => String.empty_append.symm ▸ h
  | c :: cs => by
    rw [segmentsAll, cssAll]
    refine (Node.css_stretches hl depth c).bind fun ps out h => ?_
    refine (Node.cssAll_stretches hl depth cs).bind fun qs more hmore rs rest hrest => ?_
    rw [append_assoc, String.append_assoc]
    exact h _ _ (hmore _ _ hrest)

theorem Node.cssRules_stretches (hl : layout.Leaves blank) (depth : Nat) : ∀ cs : List Node,
    Matches (Stretches blank) (ruleSegments file layout.precision cs)
      (cssRules file layout depth cs)
  | [] => fun _ _ h => String.empty_append.symm ▸ h
  | mk l ks :: cs => by
    rw [ruleSegments, cssRules]
    split
    · exact Node.cssAll_stretches hl depth ks
    · exact Node.cssRules_stretches hl depth cs

end

/-- A whole stylesheet. -/
theorem Sheet.css_indented (sheet : Sheet) (hl : layout.Leaves blank) :
    Matches (Indented blank) (sheet.segments layout.precision) (sheet.css layout) := by
  refine (Node.cssAll_stretches hl 0 sheet.root.children).mono fun segments text h => ?_
  have htext := h [] "" ⟨"", "", hl.empty, rfl, .nil⟩
  rwa [append_nil, String.append_empty] at htext

end Printing

/-! ## Layouts -/

/-- Blanks behind a comma. -/
theorem exists_comma_append {separator : String} {gap : List Char} (hgap : AllBlank gap)
    (h : separator.toList = ',' :: gap) :
    ∃ after, AllBlank after.toList ∧ separator = "," ++ after := by
  refine ⟨String.ofList gap, by rwa [String.toList_ofList], String.toList_inj.1 ?_⟩
  simp [h]

theorem Layout.leaves_allBlank (layout : Layout) : layout.Leaves fun text => AllBlank text.toList where
  empty := AllBlank.nil
  append a b ha hb := by
    rw [String.toList_append]
    exact ha.append hb
  space := layout.allBlank_space
  indentation := layout.allBlank_indentation
  statementBreak := layout.allBlank_statementBreak
  blockBreak := layout.allBlank_blockBreak
  comma := by
    obtain ⟨gap, hgap, h⟩ := layout.toList_listSeparator
    exact exists_comma_append hgap h
  selectorComma depth := by
    obtain ⟨gap, hgap, h⟩ := layout.toList_selectorSeparator depth
    exact exists_comma_append hgap h

theorem Layout.leaves_empty (precision : Option Nat) :
    ({ precision } : Layout).Leaves (· = "") where
  empty := rfl
  append := by rintro _ _ rfl rfl; rfl
  space := rfl
  indentation _ := rfl
  statementBreak := rfl
  blockBreak := rfl
  comma := ⟨"", rfl, rfl⟩
  selectorComma _ := ⟨"", rfl, rfl⟩

/-- **A layout adds blanks next to the marks of a stylesheet and nothing else.**  If the stylesheet
cannot be written, then for a reason that is the same in all layouts. -/
theorem layout_adds_blanks (sheet : Sheet) (layout : Layout) :
    (∃ e, sheet.segments layout.precision = .error e ∧ sheet.css layout = .error e ∧
      sheet.css { precision := layout.precision } = .error e) ∨
    ∃ segments text, sheet.segments layout.precision = .ok segments ∧
      sheet.css layout = .ok text ∧ Indented (fun blank => AllBlank blank.toList) segments text ∧
      sheet.css { precision := layout.precision } =
        .ok (String.join (segments.map Segment.written)) := by
  have hplain := (sheet.css_indented (Layout.leaves_empty layout.precision)).cases
  obtain ⟨e, hs, h⟩ | ⟨segments, text, hs, h, hspaced⟩ :=
    (sheet.css_indented layout.leaves_allBlank).cases
  · obtain ⟨e', hs', h'⟩ | ⟨_, _, hs', -⟩ := hplain
    · cases hs.symm.trans hs'
      exact .inl ⟨e, hs, h, h'⟩
    · cases hs.symm.trans hs'
  · obtain ⟨e', hs', h'⟩ | ⟨_, plain, hs', h', hjoin⟩ := hplain
    · cases hs.symm.trans hs'
    · cases hs.symm.trans hs'
      exact .inr ⟨segments, text, hs, h, hspaced, hjoin.eq_join ▸ h'⟩

end Cascade
