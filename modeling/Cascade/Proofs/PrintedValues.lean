import Cascade.Proofs.Cutting
import Cascade.Proofs.Emission

/-!
# Printed values are read again

A value is printed as rows of items, however its lists are nested: a list in a list takes part in
the row around it, and a comma in a list begins a new row there.  If every literal in a value is
read as a literal with the same text, then the text of the value is read as rows of items, and the
value that is read has the same text in every layout.

Layouts with a precision are left out: a number that has lost decimals is another number.
-/

set_option autoImplicit false

namespace Cascade

open Parse Node List

variable {ps : List TextPiece} {cs row : List Node} {text name : String} {v : Node}
  {flags : List LayoutFlag} {rows : List (List Node)}

/-! ## The text of a value -/

/-- The text of a plain value in the layout with some flags. -/
def Node.cssText (n : Node) (flags : List LayoutFlag) : String :=
  (n.cssValue none { flags }).toOption.getD ""

/-- The text between two values of a comma list. -/
def separatorOf (flags : List LayoutFlag) : String :=
  ({ flags } : Layout).listSeparator

theorem Node.cssText_eq {n : Node} (h : n.cssValue none { flags } = .ok text) :
    n.cssText flags = text := by
  rw [cssText, h]
  rfl

theorem IsPlain.cssValue_eq (hv : IsPlain v) (file : Option String) :
    v.cssValue file { flags } = .ok (v.cssText flags) := by
  obtain ⟨text, h⟩ := hv.cssValue
  rw [cssText_eq (h none), h file]

section Plain

variable {l lp : Label} {cs : List Node}

theorem Node.cssText_literal (h : l.kind.isLiteral = true) :
    (Node.mk l cs).cssText flags = (l.kind.cssLiteral? {}).getD "" := by
  rw [cssText_eq (cssValue_literal h)]
  cases l.kind <;> rfl

variable (hcs : ∀ c ∈ cs, IsPlain c)

include hcs

theorem IsPlain.cssValues_eq :
    cssValues none { flags } cs = .ok (cs.map (·.cssText flags)) := by
  have hmap := cssValues_map fun c hc => @IsPlain.cssValue_eq c flags (hcs c hc) none
  rwa [map_id'] at hmap

theorem Node.cssText_list (h : l.kind = .list) :
    (Node.mk l cs).cssText flags = " ".intercalate (cs.map (·.cssText flags)) :=
  cssText_eq (cssValue_list (IsPlain.cssValues_eq hcs) h)

theorem Node.cssText_comma (h : l.kind = .comma) :
    (Node.mk l cs).cssText flags = (separatorOf flags).intercalate (cs.map (·.cssText flags)) :=
  cssText_eq (cssValue_comma (IsPlain.cssValues_eq hcs) h)

theorem Node.cssText_slash (h : l.kind = .slash) :
    (Node.mk l cs).cssText flags = "/".intercalate (cs.map (·.cssText flags)) :=
  cssText_eq (cssValue_slash (IsPlain.cssValues_eq hcs) h)

theorem Node.cssText_function (h : l.kind = .function name) (hr : lp.relation = some .params) :
    (Node.mk l [.mk lp cs]).cssText flags =
      name ++ "(" ++ (separatorOf flags).intercalate (cs.map (·.cssText flags)) ++ ")" :=
  cssText_eq (cssValue_function (IsPlain.cssValues_eq hcs) h hr)

end Plain

/-! ## Literals that are read again -/

/-- An item that is read from its own text. -/
structure ReadItem (item : Node) : Prop where
  plain : IsPlain item
  relation : item.relation = none
  composed : ∀ flags, Composed .item (item.cssText flags).toList [[item]]

/-- The literal that pieces are. -/
def operandOf : List TextPiece → Option Kind
  | [p] => p.lexeme.literal?
  | [sign, p] => if sign.kind = .minus ∧ p.gap = [] then p.lexeme.negative? else none
  | _ => none

/-- Two numbers with a slash between them. -/
def ratioOf (ps : List TextPiece) (slash second : TextPiece) : Option Node :=
  match operandOf ps with
  | some (.number value unit) =>
    if slash.kind = .slash ∧ second.kind = .number then
      some (.make .slash 0 [.make (.number value unit) 0,
        .make (.number second.lexeme.number second.lexeme.unit) 0])
    else none
  | _ => none

/-- The item that pieces are, if it is no function. -/
def itemOf : List TextPiece → Option Node
  | [p, slash, second] => ratioOf [p] slash second
  | [sign, p, slash, second] => ratioOf [sign, p] slash second
  | ps => (operandOf ps).map (.make · 0)

def isTight (ps : List TextPiece) : Bool :=
  ps.head?.any (·.gap.isEmpty)

/-- A text that is read as an item with the same text. -/
def isItemText (text : String) : Bool :=
  (cut text.toList).any fun ps => isTight ps && (itemOf ps).any (·.cssText [] == text)

/-- A text that is read as a word. -/
def isNameText (name : String) : Bool :=
  (cut name.toList).any fun ps => isTight ps &&
    match operandOf ps with
    | some (.identifier value) => value == name
    | _ => false

theorem exists_cons_of_isTight (h : isTight ps = true) : ∃ p qs, ps = p :: qs ∧ p.gap = [] := by
  obtain ⟨p, hp, hgap⟩ := (Option.any_eq_true _ _).1 h
  obtain ⟨qs, rfl⟩ := head?_eq_some_iff.1 hp
  exact ⟨p, qs, rfl, isEmpty_iff.1 hgap⟩

theorem operand_of_operandOf {kind : Kind} (h : operandOf ps = some kind) : Operand ps kind := by
  rcases ps with _ | ⟨p, _ | ⟨q, _ | ⟨_, _⟩⟩⟩
  · cases h
  · exact .plain h
  · rw [operandOf, Option.ite_none_right_eq_some] at h
    obtain ⟨⟨hsign, hgap⟩, h⟩ := h
    exact .negative hsign hgap h
  · cases h

theorem Lexeme.kind_of_negative? {l : Lexeme} (h : l.negative?.isSome = true) :
    l.kind = .number ∨ l.kind = .identifier := by
  unfold Lexeme.negative? at h
  split at h <;> simp_all

namespace Operand

variable {ps : List TextPiece} {kind : Kind}

theorem isSteady_getLast? (h : Operand ps kind) {p : TextPiece} (hp : ps.getLast? = some p) :
    p.kind.isSteady = true := by
  cases h with
  | @plain q _ h =>
    obtain rfl : q = p := Option.some.inj hp
    exact Lexeme.isSteady_of_literal? _ (by rw [h]; rfl)
  | @negative sign q _ hsign hgap h =>
    obtain rfl : q = p := Option.some.inj hp
    obtain hkind | hkind := Lexeme.kind_of_negative? (l := q.lexeme) (by rw [h]; rfl) <;>
      rw [TextPiece.kind, hkind] <;> rfl

theorem isLiteral (h : Operand ps kind) : kind.isLiteral = true := by
  cases h with
  | plain h =>
    unfold Lexeme.literal? at h
    split at h <;> cases h <;> rfl
  | negative hsign hgap h =>
    unfold Lexeme.negative? at h
    split at h <;> cases h <;> rfl

end Operand

/-- A value whose text is the same in every layout. -/
structure Simple (v : Node) : Prop where
  plain : IsPlain v
  cssText_eq : ∀ flags, v.cssText flags = v.cssText []

theorem Simple.literal {l : Label} (h : l.kind.isLiteral = true) : Simple (.mk l []) :=
  ⟨.literal h, fun _ => by rw [cssText_literal h, cssText_literal h]⟩

theorem Simple.slash {l : Label} (h : l.kind = .slash) (hcs : ∀ c ∈ cs, Simple c) :
    Simple (.mk l cs) := by
  have hplain : ∀ c ∈ cs, IsPlain c := fun c hc => (hcs c hc).plain
  refine ⟨.group (.inr (.inr h)) hplain, fun flags => ?_⟩
  rw [cssText_slash hplain h, cssText_slash hplain h]
  exact congrArg _ (map_congr_left fun c hc => (hcs c hc).cssText_eq flags)

/-- Pieces that are a literal, or two numbers with a slash between them. -/
inductive Itemizes : List TextPiece → Node → Prop where
  | literal {ps : List TextPiece} {kind : Kind} (h : Operand ps kind) : Itemizes ps (.make kind 0)
  | ratio {ps : List TextPiece} {value : Float} {unit : Option String} {slash second : TextPiece}
      (h : Operand ps (.number value unit)) (hslash : slash.kind = .slash)
      (hsecond : second.kind = .number) :
      Itemizes (ps ++ [slash, second]) (.make .slash 0 [.make (.number value unit) 0,
        .make (.number second.lexeme.number second.lexeme.unit) 0])

theorem itemizes_of_ratioOf {slash second : TextPiece} {item : Node}
    (h : ratioOf ps slash second = some item) : Itemizes (ps ++ [slash, second]) item := by
  unfold ratioOf at h
  split at h
  · rename_i value unit hoperand
    obtain ⟨⟨hslash, hsecond⟩, h⟩ := Option.ite_none_right_eq_some.1 h
    cases h
    exact .ratio (operand_of_operandOf hoperand) hslash hsecond
  · cases h

theorem itemizes_of_itemOf {item : Node} (h : itemOf ps = some item) : Itemizes ps item := by
  fun_cases itemOf ps with
  | case1 p slash second => exact itemizes_of_ratioOf h
  | case2 sign p slash second => exact itemizes_of_ratioOf h
  | case3 ps hratio hnegative =>
    rw [itemOf.eq_3 ps hratio hnegative] at h
    obtain ⟨kind, hkind, rfl⟩ := Option.map_eq_some_iff.1 h
    exact .literal (operand_of_operandOf hkind)

namespace Itemizes

variable {ps : List TextPiece} {item : Node}

variable (h : Itemizes ps item)

include h

theorem writes : Writes .item ps [[item]] := by
  cases h with
  | literal h => exact .alone (.literal h)
  | ratio h hslash hsecond => exact .ratio h hslash hsecond

theorem isSteady_getLast? {p : TextPiece} (hp : ps.getLast? = some p) : p.kind.isSteady = true := by
  cases h with
  | literal h => exact h.isSteady_getLast? hp
  | @ratio ps _ _ slash second h hslash hsecond =>
    rw [getLast?_append_of_ne_nil _ (cons_ne_nil _ _)] at hp
    obtain rfl : second = p := Option.some.inj hp
    rw [hsecond]
    rfl

theorem simple : Simple item := by
  cases h with
  | literal h => exact .literal h.isLiteral
  | ratio h hslash hsecond =>
    exact .slash rfl (forall_mem_cons.2 ⟨.literal rfl, forall_mem_singleton.2 (.literal rfl)⟩)

theorem relation_eq_none : item.relation = none := by
  cases h <;> rfl

end Itemizes

/-- **A text that is read as an item with the same text.** -/
theorem exists_readItem (h : isItemText text = true) :
    ∃ item, ReadItem item ∧ ∀ flags, item.cssText flags = text := by
  obtain ⟨ps, hcut, hps⟩ := (Option.any_eq_true _ _).1 h
  rw [Bool.and_eq_true] at hps
  obtain ⟨item, hitem, htext⟩ := (Option.any_eq_true _ _).1 hps.2
  have hitemizes := itemizes_of_itemOf hitem
  have htexts (flags : List LayoutFlag) : item.cssText flags = text :=
    (hitemizes.simple.cssText_eq flags).trans (beq_iff_eq.1 htext)
  obtain ⟨p, qs, rfl, hgap⟩ := exists_cons_of_isTight hps.1
  have hcuts := cuts_of_cut hcut
  refine ⟨item, ⟨hitemizes.simple.plain, hitemizes.relation_eq_none, fun flags => ?_⟩, htexts⟩
  rw [htexts flags]
  exact ⟨p, qs, hcuts.text, hgap, hitemizes.writes,
    hcuts.steady fun _ => hitemizes.isSteady_getLast?⟩

/-! ## Functions -/

/-- A text that is the name of a function if a parenthesis stands behind it. -/
def IsName (name : String) : Prop :=
  ∃ p ps, textOf (p :: ps) = name.toList ∧ p.gap = [] ∧ Operand (p :: ps) (.identifier name) ∧
    Steady (p :: ps)

theorem isName_of_isNameText (h : isNameText name = true) : IsName name := by
  obtain ⟨ps, hcut, hps⟩ := (Option.any_eq_true _ _).1 h
  rw [Bool.and_eq_true] at hps
  obtain ⟨htight, hname⟩ := hps
  obtain ⟨p, qs, rfl, hgap⟩ := exists_cons_of_isTight htight
  have hcuts := cuts_of_cut hcut
  split at hname
  · rename_i value hvalue
    rw [beq_iff_eq.1 hname] at hvalue
    have hoperand := operand_of_operandOf hvalue
    exact ⟨p, qs, hcuts.text, hgap, hoperand, hcuts.steady fun _ => hoperand.isSteady_getLast?⟩
  · cases hname

namespace Composed

variable {name : String} {text : List Char}

/-- A function with some pieces between its parentheses. -/
theorem parenthesized (h : IsName name) (inner : List TextPiece)
    (hlaid : ∀ tail, Laid inner (')' :: tail))
    (hwrites : ∀ ps, Operand ps (.identifier name) → Writes .operand
      (ps ++ TextPiece.mark [] '(' .openParen :: (inner ++ [.mark [] ')' .closeParen])) rows) :
    Composed .operand (name.toList ++ '(' :: (textOf inner ++ [')'])) rows := by
  obtain ⟨p, ps, htext, hgap, hoperand, hsteady⟩ := h
  refine ⟨p, ps ++ TextPiece.mark [] '(' .openParen :: (inner ++ [TextPiece.mark [] ')' .closeParen]),
    ?_, hgap, hwrites _ hoperand, ?_⟩
  · rw [← cons_append, textOf_append, htext, textOf_mark, textOf_append, textOf_mark]
    rfl
  · rw [← cons_append]
    refine hsteady.append ⟨'(', _, textOf_mark .., rfl⟩ fun c tail hc => ?_
    exact ⟨AllBlank.nil, .separator (by decide), laid_append.2
      ⟨hlaid _, AllBlank.nil, .separator (by decide), trivial⟩⟩

/-- A function with arguments. -/
theorem call (h : IsName name) (hname : lowercase name ∉ rawFunctions)
    (hurl : lowercase name = "url" → text.head?.any opensArgument = true)
    (hargs : Composed .rows text rows) :
    Composed .operand (name.toList ++ '(' :: (text ++ [')'])) [[callOf name (rows.map entry)]] := by
  obtain ⟨c, cs, hcs, -⟩ := hargs.head?
  obtain ⟨p, ps, rfl, hgap, hwrites, hsteady⟩ := hargs
  refine parenthesized h (p :: ps) (fun tail => hsteady ')' tail rfl) fun _ hoperand =>
    .call hoperand rfl rfl rfl hname (fun heq => ⟨hgap, ?_⟩) hwrites
  have hkind : p.kind ≠ .eof := (find_inside (hwrites.isInside p mem_cons_self)).1
  have hne := (hsteady ';' [] rfl).2.1.text_ne_nil hkind
  have hopens := hurl heq
  rw [textOf_cons, hgap, nil_append] at hopens
  rwa [head?_append_of_ne_nil _ hne] at hopens

/-- A function without arguments. -/
theorem emptyCall (h : IsName name) (hname : lowercase name ∉ rawNames) :
    Composed .operand (name.toList ++ ['(', ')']) [[callOf name []]] :=
  parenthesized h [] (fun _ => trivial) fun _ hoperand => .emptyCall hoperand rfl rfl rfl hname

/-- A function whose argument is kept as text. -/
theorem rawCall (h : IsName name) (hname : lowercase name ∈ rawNames)
    (hurl : lowercase name = "url" → text.head?.any opensArgument = false)
    (htext : isRawText text = true) : Composed .operand (name.toList ++ '(' :: (text ++ [')']))
      [[callOf name [.make (.raw (String.ofList text)) 0]]] := by
  have hkept := rawBody_of_isRawText htext
  simp only [isRawText, Bool.and_eq_true, beq_iff_eq] at htext
  obtain ⟨⟨-, htrim⟩, hcut⟩ := htext
  obtain ⟨ps, hps, hinside⟩ := (Option.any_eq_true _ _).1 hcut
  rw [Bool.and_eq_true, all_eq_true] at hinside
  have hcuts := cuts_of_cut hps
  -- No token goes on with a parenthesis.
  have hlaid (tail : List Char) : Laid ps (')' :: tail) :=
    hcuts.laid.extend hcuts.kind_ne_eof rfl fun _ _ => ⟨rfl, by simp, by simp, by simp⟩
  have hcall : Composed .operand (name.toList ++ '(' :: (textOf ps ++ [')']))
      [[callOf name [.make (.raw (String.ofList (Text.trim (textOf ps)))) 0]]] := by
    rw [← hcuts.text] at hkept hurl
    exact parenthesized h ps hlaid fun _ hoperand => .rawCall hoperand rfl rfl rfl rfl rfl hname
      hinside.1 hurl hkept hinside.2
  rwa [hcuts.text, htrim] at hcall

end Composed

/-! ## Rows of items -/

/-- The blanks behind a comma. -/
theorem Layout.toList_listSeparator (layout : Layout) :
    ∃ gap, AllBlank gap ∧ layout.listSeparator.toList = ',' :: gap := by
  unfold listSeparator
  split
  · exact ⟨[' '], forall_mem_singleton.2 rfl, rfl⟩
  · exact ⟨[], AllBlank.nil, rfl⟩

/-- The text of a row of items. -/
def rowText (row : List Node) (flags : List LayoutFlag) : String :=
  " ".intercalate (row.map (·.cssText flags))

theorem rowText_cons (hrow : row ≠ []) (b : Node) :
    rowText (b :: row) flags = b.cssText flags ++ " " ++ rowText row flags :=
  String.intercalate_cons_of_ne_nil fun hnil => hrow (map_eq_nil_iff.1 hnil)

/-- **Texts, one for each layout, that are the texts of rows of items.** -/
inductive Printed : (List LayoutFlag → String) → List (List Node) → Prop where
  | item {b : Node} (h : ReadItem b) : Printed b.cssText [[b]]
  | blank {b : Node} {text : List LayoutFlag → String} {row : List Node} {rows : List (List Node)}
      (h : ReadItem b) (hmore : Printed text (row :: rows)) :
      Printed (fun flags => b.cssText flags ++ " " ++ text flags) ((b :: row) :: rows)
  | comma {b : Node} {text : List LayoutFlag → String} {rows : List (List Node)} (h : ReadItem b)
      (hmore : Printed text rows) :
      Printed (fun flags => b.cssText flags ++ separatorOf flags ++ text flags) ([b] :: rows)

namespace Printed

variable {text : List LayoutFlag → String} {rows : List (List Node)}

variable (h : Printed text rows)

include h

theorem congr {text' : List LayoutFlag → String} (heq : ∀ flags, text' flags = text flags) :
    Printed text' rows := by
  rwa [funext heq]

theorem exists_cons : ∃ row rows', rows = row :: rows' ∧ row ≠ [] := by
  cases h with
  | item h => exact ⟨_, _, rfl, cons_ne_nil _ _⟩
  | blank h hmore => exact ⟨_, _, rfl, cons_ne_nil _ _⟩
  | comma h hmore => exact ⟨_, _, rfl, cons_ne_nil _ _⟩

theorem readItem : ∀ row ∈ rows, ∀ b ∈ row, ReadItem b := by
  induction h with
  | item h => exact forall_mem_singleton.2 (forall_mem_singleton.2 h)
  | blank h hmore ih =>
    obtain ⟨hrow, hrows⟩ := forall_mem_cons.1 ih
    exact forall_mem_cons.2 ⟨forall_mem_cons.2 ⟨h, hrow⟩, hrows⟩
  | comma h hmore ih => exact forall_mem_cons.2 ⟨forall_mem_singleton.2 h, ih⟩

/-- The texts are what the rows are written as. -/
theorem text_eq (flags : List LayoutFlag) :
    text flags = (separatorOf flags).intercalate (rows.map (rowText · flags)) := by
  induction h with
  | item h => simp only [rowText, map_cons, map_nil, String.intercalate_singleton]
  | @blank b text row rows h hmore ih =>
    obtain ⟨_, _, hrows, hrow⟩ := hmore.exists_cons
    cases hrows
    simp only [ih, map_cons, rowText_cons hrow]
    cases rows with
    | nil => simp only [map_nil, String.intercalate_singleton]
    | cons next rows => simp only [map_cons, String.intercalate_cons_cons, String.append_assoc]
  | comma h hmore ih =>
    obtain ⟨_, _, rfl, -⟩ := hmore.exists_cons
    simp only [ih, rowText, map_cons, map_nil, String.intercalate_cons_cons,
      String.intercalate_singleton]

theorem isPlain_item : ∀ row ∈ rows, ∀ b ∈ row, IsPlain b :=
  fun row hrow b hb => (h.readItem row hrow b hb).plain

/-- **The value that is read has the same text.** -/
theorem cssText_valueOf (flags : List LayoutFlag) : (valueOf rows).cssText flags = text flags := by
  have hitems (row : List Node) (hrow : row ∈ rows) (b : Node) (hb : b ∈ row) :
      (id b).cssValue none { flags } = .ok (b.cssText flags) :=
    (h.isPlain_item row hrow b hb).cssValue_eq none
  have hvalue := cssValue_valueOf hitems
  simp only [map_id_fun, id_eq, map_id_fun'] at hvalue
  rw [h.text_eq flags]
  exact cssText_eq hvalue

end Printed

/-- An item in front of the first row. -/
theorem Writes.cons_item {qs : List TextPiece} {q : TextPiece} {b : Node}
    (h : Writes .item ps [[b]]) (hgap : q.gap ≠ []) (hmore : Writes .rows (q :: qs) (row :: rows)) :
    Writes .rows (ps ++ q :: qs) ((b :: row) :: rows) := by
  generalize hpieces : q :: qs = pieces at hmore ⊢
  cases hmore with
  | lastRow hrow =>
    subst hpieces
    exact .lastRow (.more h hgap hrow)
  | @moreRows rs _ _ _ _ hrow hcomma hmore =>
    obtain ⟨r, rs, rfl⟩ := hrow.leading.exists_cons
    obtain ⟨rfl, -⟩ := cons_eq_cons.1 hpieces
    rw [← append_assoc]
    exact .moreRows (.more h hgap hrow) hcomma hmore

namespace Printed

variable {text text' : List LayoutFlag → String} {rows rows' : List (List Node)}

/-- **The texts are layouts of the rows.** -/
theorem composed (h : Printed text rows) (flags : List LayoutFlag) :
    Composed .rows (text flags).toList rows := by
  induction h with
  | item h => exact (h.composed flags).imp fun _ hitem => .lastRow (.last hitem)
  | blank h hmore ih =>
    rw [String.toList_append, String.toList_append, append_assoc]
    exact (h.composed flags).spaced ih fun _ _ _ => .cons_item
  | comma h hmore ih =>
    obtain ⟨gap, hgap, hseparator⟩ := ({ flags } : Layout).toList_listSeparator
    rw [String.toList_append, String.toList_append, append_assoc, separatorOf, hseparator]
    exact ((h.composed flags).imp fun _ => .last).moreRows hgap ih

/-- A text between an item and what stands behind it. -/
def Joins (between : List LayoutFlag → String) : Prop :=
  ∀ b text rows, ReadItem b → Printed text rows →
    ∃ rows', Printed (fun flags => b.cssText flags ++ between flags ++ text flags) rows'

theorem joins_blank : Joins fun _ => " " := by
  intro b text rows hb h
  obtain ⟨row, rows', rfl, -⟩ := h.exists_cons
  exact ⟨_, .blank hb h⟩

theorem joins_separatorOf : Joins separatorOf :=
  fun _ _ _ hb h => ⟨_, .comma hb h⟩

variable {between : List LayoutFlag → String}

theorem append (hjoins : Joins between) (h : Printed text rows) (h' : Printed text' rows') :
    ∃ rows'', Printed (fun flags => text flags ++ between flags ++ text' flags) rows'' := by
  induction h with
  | item h => exact hjoins _ _ _ h h'
  | blank h hmore ih =>
    obtain ⟨rows'', ih⟩ := ih
    have hblank := joins_blank _ _ _ h ih
    simp only [String.append_assoc] at hblank ⊢
    exact hblank
  | comma h hmore ih =>
    obtain ⟨rows'', ih⟩ := ih
    have hcomma := joins_separatorOf _ _ _ h ih
    simp only [String.append_assoc] at hcomma ⊢
    exact hcomma

/-- **Values with a text between each two.** -/
theorem intercalate (hjoins : Joins between) (hne : cs ≠ [])
    (h : ∀ c ∈ cs, ∃ rows, Printed c.cssText rows) :
    ∃ rows, Printed (fun flags => (between flags).intercalate (cs.map (·.cssText flags))) rows := by
  induction cs with
  | nil => exact absurd rfl hne
  | cons c cs ih =>
    obtain ⟨⟨rows, hc⟩, hcs⟩ := forall_mem_cons.1 h
    cases cs with
    | nil =>
      simp only [map_cons, map_nil, String.intercalate_singleton]
      exact ⟨rows, hc⟩
    | cons d cs =>
      obtain ⟨rows', hmore⟩ := ih (cons_ne_nil _ _) hcs
      simp only [map_cons, String.intercalate_cons_cons] at hmore ⊢
      exact hc.append hjoins hmore

end Printed

/-! ## Functions that are read again -/

section Calls

variable {name : String}

theorem cssText_entry (h : ∀ b ∈ row, IsPlain b) :
    (entry row).cssText flags = rowText row flags := by
  have hitems (b : Node) (hb : b ∈ row) : (id b).cssValue none { flags } = .ok (b.cssText flags) :=
    (h b hb).cssValue_eq none
  have hentry := cssValue_entry hitems
  rw [map_id_fun, id_eq] at hentry
  exact cssText_eq hentry

theorem toList_call (name text : String) :
    (name ++ "(" ++ text ++ ")").toList = name.toList ++ '(' :: (text.toList ++ [')']) := by
  rw [String.toList_append, String.toList_append, String.toList_append, append_assoc,
    append_assoc]
  rfl

/-- A function that is read from its own text. -/
theorem printed_callOf {arguments : List Node} {text : List LayoutFlag → String}
    (hplain : ∀ a ∈ arguments, IsPlain a)
    (htext : ∀ flags, text flags =
      (separatorOf flags).intercalate (arguments.map (·.cssText flags)))
    (h : ∀ flags, Composed .operand (name.toList ++ '(' :: ((text flags).toList ++ [')']))
      [[callOf name arguments]]) :
    Printed (fun flags => name ++ "(" ++ text flags ++ ")") [[callOf name arguments]] := by
  have hcall (flags : List LayoutFlag) :
      name ++ "(" ++ text flags ++ ")" = (callOf name arguments).cssText flags := by
    rw [htext flags]
    exact (cssText_function hplain rfl rfl).symm
  have hitem : ReadItem (callOf name arguments) := by
    refine ⟨.function rfl rfl rfl hplain, rfl, fun flags => ?_⟩
    rw [← hcall flags, toList_call]
    exact (h flags).imp fun _ => .alone
  exact (Printed.item hitem).congr hcall

theorem Printed.call {text : List LayoutFlag → String} (h : Printed text rows) (hname : IsName name)
    (hraw : lowercase name ∉ rawFunctions)
    (hurl : lowercase name = "url" → ∀ flags, (text flags).toList.head?.any opensArgument = true) :
    Printed (fun flags => name ++ "(" ++ text flags ++ ")") [[callOf name (rows.map entry)]] := by
  refine printed_callOf (forall_mem_map.2 fun row hrow => isPlain_entry (h.isPlain_item row hrow))
    (fun flags => ?_) fun flags => .call hname hraw (fun heq => hurl heq flags) (h.composed flags)
  rw [h.text_eq flags, map_map]
  refine congrArg _ (map_congr_left fun row hrow => ?_)
  exact (cssText_entry (h.isPlain_item row hrow)).symm

theorem printed_rawCall (hname : IsName name) (hraw : lowercase name ∈ rawNames)
    (hurl : lowercase name = "url" → text.toList.head?.any opensArgument = false)
    (htext : isRawText text.toList = true) :
    Printed (fun _ => name ++ "(" ++ text ++ ")") [[callOf name [.make (.raw text) 0]]] := by
  refine printed_callOf (forall_mem_singleton.2 (.literal rfl)) (fun flags => ?_) fun flags =>
    ?_
  · rw [map_singleton, String.intercalate_singleton]
    exact (cssText_literal (l := { kind := .raw text, line := 0 }) rfl).symm
  · have hcall := Composed.rawCall hname hraw hurl htext
    rwa [String.ofList_toList] at hcall

end Calls

/-! ## Values that are read again -/

/-- Whether the one argument of a function that keeps its argument as text is read again. -/
def Node.isReadableRaw (name : String) : List Node → Bool
  | [argument] =>
    argument.kind.isLiteral &&
      if lowercase name = "url" ∧ (argument.cssText []).toList.head?.any opensArgument = true then
        isItemText (argument.cssText [])
      else isRawText (argument.cssText []).toList
  | _ => false

namespace Node

mutual

/-- **Whether the texts in a value are read again as they are.** -/
def isReadable : Node → Bool
  | mk label children =>
    match label.kind with
    | .function name => isNameText name && isReadableCall name children
    | .list | .comma => !children.isEmpty && areReadable children
    | .slash => children.all (·.kind.isLiteral) && isItemText ((mk label children).cssText [])
    | kind => isItemText ((kind.cssLiteral? {}).getD "")

def areReadable : List Node → Bool
  | [] => true
  | node :: rest => node.isReadable && areReadable rest

/-- Whether the arguments among the children of a function are read again. -/
def isReadableCall (name : String) : List Node → Bool
  | [mk _ arguments] =>
    if lowercase name ∈ rawNames then isReadableRaw name arguments else areReadable arguments
  | _ => false

end

end Node

theorem Node.isReadable_of_mem (h : areReadable cs = true) :
    ∀ c ∈ cs, c.isReadable = true := by
  induction cs with
  | nil => exact forall_mem_nil _
  | cons c cs ih =>
    rw [areReadable, Bool.and_eq_true] at h
    exact forall_mem_cons.2 ⟨h.1, ih h.2⟩

/-- A value whose text is read as an item. -/
theorem Simple.printed (h : Simple v) (htext : isItemText (v.cssText []) = true) :
    ∃ item, Printed v.cssText [[item]] := by
  obtain ⟨item, hitem, htexts⟩ := exists_readItem htext
  exact ⟨item, (Printed.item hitem).congr fun flags => by rw [htexts, h.cssText_eq]⟩

theorem IsPlain.simple (hv : IsPlain v) (h : v.kind.isLiteral = true) : Simple v := by
  cases hv with
  | literal hl => exact .literal hl
  | group hl hcs => obtain hl | hl | hl := hl <;> rw [kind, label, hl] at h <;> cases h
  | function hl hk hr hcs => rw [kind, label, hl] at h; cases h

/-- The one argument of a function that keeps its argument as text. -/
theorem printed_raw {a : Node} (hname : IsName name) (hraw : lowercase name ∈ rawNames)
    (ha : IsPlain a) (h : isReadableRaw name [a] = true) :
    ∃ item, Printed (fun flags => name ++ "(" ++ a.cssText flags ++ ")") [[item]] := by
  rw [isReadableRaw, Bool.and_eq_true] at h
  obtain ⟨hliteral, h⟩ := h
  have hsimple := ha.simple hliteral
  split_ifs at h with hopens
  · obtain ⟨item, hitem⟩ := hsimple.printed h
    refine ⟨_, hitem.call hname ?_ fun _ flags => ?_⟩
    · rw [hopens.1]
      decide
    · rw [hsimple.cssText_eq flags]
      exact hopens.2
  · have hcall := printed_rawCall hname hraw
      (fun hurl => Bool.eq_false_iff.2 fun hany => hopens ⟨hurl, hany⟩) h
    exact ⟨_, hcall.congr fun flags => by rw [hsimple.cssText_eq flags]⟩

/-- A function. -/
theorem printed_function {lp : Label} (hname : IsName name) (hcs : ∀ c ∈ cs, IsPlain c)
    (h : isReadableCall name [.mk lp cs] = true)
    (hprinted : ∀ c ∈ cs, c.isReadable = true → ∃ rows, Printed c.cssText rows) :
    ∃ item, Printed (fun flags => name ++ "(" ++
      (separatorOf flags).intercalate (cs.map (·.cssText flags)) ++ ")") [[item]] := by
  rw [isReadableCall] at h
  split_ifs at h with hraw
  · rcases cs with _ | ⟨a, _ | ⟨_, _⟩⟩
    · cases h
    · simp only [map_cons, map_nil, String.intercalate_singleton]
      exact printed_raw hname hraw (hcs a mem_cons_self) h
    · cases h
  · have hraw' : lowercase name ∉ rawFunctions := fun hmem => hraw (mem_cons_of_mem _ hmem)
    have hreadable := isReadable_of_mem h
    by_cases hne : cs = []
    · subst hne
      exact ⟨_, printed_callOf (forall_mem_nil _) (fun _ => String.intercalate_nil.symm) fun _ =>
        .emptyCall hname hraw⟩
    · obtain ⟨rows, hrows⟩ := Printed.intercalate Printed.joins_separatorOf hne fun c hc =>
        hprinted c hc (hreadable c hc)
      refine ⟨_, hrows.call hname hraw' fun hurl => absurd ?_ hraw⟩
      rw [hurl]
      exact mem_cons_self

/-- **The text of a readable value is the text of rows of items.** -/
theorem IsPlain.printed (hv : IsPlain v) (h : v.isReadable = true) :
    ∃ rows, Printed v.cssText rows := by
  induction hv with
  | @literal l hl =>
    have hsimple : Simple (.mk l []) := .literal hl
    obtain ⟨item, hitem⟩ := hsimple.printed (by
      rw [cssText_literal hl]
      rw [isReadable] at h
      revert h hl
      cases l.kind <;> simp [Kind.isLiteral])
    exact ⟨_, hitem⟩
  | @group l cs hl hcs ih =>
    rw [isReadable] at h
    obtain hl | hl | hl := hl
    · simp only [hl, Bool.and_eq_true, Bool.not_eq_true', isEmpty_eq_false_iff] at h
      have hreadable := isReadable_of_mem h.2
      obtain ⟨rows, hrows⟩ := Printed.intercalate Printed.joins_blank h.1 fun c hc =>
        ih c hc (hreadable c hc)
      exact ⟨rows, hrows.congr fun _ => cssText_list hcs hl⟩
    · simp only [hl, Bool.and_eq_true, Bool.not_eq_true', isEmpty_eq_false_iff] at h
      have hreadable := isReadable_of_mem h.2
      obtain ⟨rows, hrows⟩ := Printed.intercalate Printed.joins_separatorOf h.1 fun c hc =>
        ih c hc (hreadable c hc)
      exact ⟨rows, hrows.congr fun _ => cssText_comma hcs hl⟩
    · simp only [hl, Bool.and_eq_true, all_eq_true] at h
      have hsimple : Simple (.mk l cs) := .slash hl fun c hc => (hcs c hc).simple (h.1 c hc)
      obtain ⟨item, hitem⟩ := hsimple.printed h.2
      exact ⟨_, hitem⟩
  | @function l lp cs name hl hk hr hcs ih =>
    rw [isReadable] at h
    simp only [hl, Bool.and_eq_true] at h
    obtain ⟨item, hitem⟩ := printed_function (isName_of_isNameText h.1) hcs h.2 ih
    exact ⟨_, hitem.congr fun _ => cssText_function hcs hl hr⟩

end Cascade
