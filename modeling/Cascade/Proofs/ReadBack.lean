import Cascade.Proofs.PlainSheets
import Cascade.Proofs.PrintedValues

/-!
# Literal values read back

A value that holds nothing to evaluate is written as the text it could have been read from.  If its
parts are nested as the parser nests them, reading that text gives the value again, up to lines: no
item runs into the next one, a sign stays with what it touches, and a comma never ends up inside
a row.

A number is written with four decimals, so it has to be asked of a number that its digits stand for
it.
-/

set_option autoImplicit false

namespace Cascade

open Lexeme Parse Node List

/-! ## Literals -/

/-- The number that digits stand for. -/
def Numeral.value (n : Numeral) : Float :=
  Number.ofDigits n.whole n.fraction

/-- Digits, with or without a sign before them, that are the text of a number. -/
def Number.IsWritten (value : Float) (digits : List Char) : Prop :=
  (styled value defaultPrecision).toList = digits

/-- **The literals that are read from their own text**: numbers with the digits that they are
written with, words that are no keywords, each of them with one minus before it or without, strings
and truth values. -/
inductive IsOwnLiteral : Kind → Prop where
  | number (n : Numeral) (h : Number.IsWritten n.value n.digits) :
      IsOwnLiteral (Literal.number n).kind
  | negative (n : Numeral) (h : Number.IsWritten (-n.value) ('-' :: n.digits)) :
      IsOwnLiteral (.number (-n.value) (Literal.number n).lexeme.unit)
  | word (w : Word) : IsOwnLiteral (.identifier (String.ofList w.text))
  | dashed (w : Word) : IsOwnLiteral (.identifier ("-" ++ String.ofList w.text))
  | string (q : QuotedText) : IsOwnLiteral (.string (String.ofList q.body) q.quote)
  | boolean (value : Bool) : IsOwnLiteral (.boolean value)

/-- A text of pieces that are a literal. -/
def IsTextOf (text : List Char) (kind : Kind) : Prop :=
  ∃ p ps, textOf (p :: ps) = text ∧ p.gap = [] ∧ Operand (p :: ps) kind ∧ Steady (p :: ps)

/-- A mark is neither a number nor a word. -/
theorem Lexeme.kind_of_readMark {c : Char} {next : Option Char} {l : Lexeme}
    (h : readMark c next = .ok l) : l.kind ∉ [.number, .identifier] := by
  unfold readMark at h
  split at h
  · cases h
    simp
  · rename_i d kind hdouble _
    cases h
    rw [Option.bind_some] at hdouble
    unfold doubleMark? at hdouble
    split at hdouble <;> cases hdouble <;> decide
  · split at h
    · rename_i kind hsingle
      cases h
      unfold singleMark? at hsingle
      split at hsingle <;> cases hsingle <;> decide
    · cases h

/-- A number or a word does not begin with a mark. -/
theorem Lexeme.Leads.head?_ne {l : Lexeme} {tail : List Char} (h : l.Leads tail)
    (hkind : l.kind ∈ [.number, .identifier]) {c : Char} (hc : c ∈ ['=', '/', '*']) :
    l.text.head? ≠ some c := by
  intro hhead
  obtain ⟨cs, hcs⟩ := head?_eq_some_iff.1 hhead
  have hread := h.read
  rw [hcs, cons_append] at hread
  have hmark : Lexeme.read (c :: (cs ++ tail)) = readMark c (cs ++ tail).head? := by
    simp only [mem_cons, not_mem_nil, or_false] at hc
    obtain rfl | rfl | rfl := hc <;> rfl
  exact kind_of_readMark (hmark.symm.trans hread) hkind

/-- A minus or a slash right before a number or a word. -/
theorem Lexeme.Leads.sign {c : Char} {kind : TokenKind} {l : Lexeme}
    (hc : (c, kind) ∈ [('-', TokenKind.minus), ('/', .slash)]) (h : l.Leads [])
    (hkind : l.kind ∈ [.number, .identifier]) (tail : List Char) :
    Leads { kind, text := [c] } (l.text ++ tail) := by
  have hne := h.text_ne_nil fun heof => by rw [heof] at hkind; simp at hkind
  obtain ⟨d, ds, hds⟩ := exists_cons_of_ne_nil hne
  have hd (e : Char) (he : e ∈ ['=', '/', '*']) : d ≠ e := by
    rintro rfl
    exact h.head?_ne hkind he (by rw [hds]; rfl)
  rw [hds, cons_append]
  simp only [mem_cons, Prod.mk.injEq, not_mem_nil, or_false] at hc
  obtain ⟨rfl, rfl⟩ | ⟨rfl, rfl⟩ := hc
  · exact .mark rfl (.inl fun heq => hd '=' (by decide) (Option.some.inj heq)) rfl rfl rfl
  · exact .mark rfl (.inl fun heq => hd '=' (by decide) (Option.some.inj heq)) rfl rfl
      (startsToken_slash.2 ⟨hd '/' (by decide), hd '*' (by decide)⟩)

namespace IsTextOf

variable {l : Lexeme} {kind : Kind}

theorem plain (h : l.Leads []) (hkind : l.literal? = some kind) : IsTextOf l.text kind := by
  have hsteady : l.kind.isSteady = true := l.isSteady_of_literal? (by rw [hkind]; rfl)
  refine ⟨⟨[], l⟩, [], ?_, rfl, .plain hkind, .lexeme h hsteady AllBlank.nil⟩
  rw [textOf_cons, textOf_nil, append_nil]
  rfl

/-- A literal behind a minus. -/
theorem negative (h : l.Leads []) (hkind : l.negative? = some kind) :
    IsTextOf ('-' :: l.text) kind := by
  have hl : l.kind ∈ [.number, .identifier] := by
    simpa using Lexeme.kind_of_negative? (l := l) (by rw [hkind]; rfl)
  have hoperand : Operand [.mark [] '-' .minus, ⟨[], l⟩] kind := .negative rfl rfl hkind
  have htext : textOf [⟨[], l⟩] = l.text := by
    rw [textOf_cons, textOf_nil, append_nil]
    rfl
  refine ⟨.mark [] '-' .minus, [⟨[], l⟩], ?_, rfl, hoperand, ?_⟩
  · rw [textOf_mark, htext]
    rfl
  · have hlaid : Laid [.mark [] '-' .minus, ⟨[], l⟩] [] := by
      refine ⟨AllBlank.nil, ?_, AllBlank.nil, h, trivial⟩
      rw [htext]
      exact .sign (by decide) h hl []
    refine hlaid.steady ?_ fun _ => hoperand.isSteady_getLast?
    refine forall_mem_cons.2 ⟨nofun, forall_mem_singleton.2 fun heof => ?_⟩
    rw [show l.kind = .eof from heof] at hl
    simp at hl

end IsTextOf

/-- The text of a number: its digits and its unit. -/
theorem Number.IsWritten.toList_cssLiteral {value : Float} {digits : List Char}
    (h : IsWritten value digits) (n : Numeral) :
    (((Kind.number value (Literal.number n).lexeme.unit).cssLiteral? {}).getD "").toList =
      digits ++ n.unit := by
  -- A unit that is left out is written as one without letters.
  have hunit : (Literal.number n).lexeme.unit.getD "" = String.ofList n.unit := by
    simp only [Literal.lexeme]
    cases n.unit <;> rfl
  simp only [Kind.cssLiteral?, Option.getD_some, Value.numberText, hunit, String.toList_append,
    String.toList_ofList]
  exact congrArg (· ++ n.unit) h

/-- **A literal is spelled by its text.** -/
theorem IsOwnLiteral.isTextOf {kind : Kind} (h : IsOwnLiteral kind) :
    IsTextOf ((kind.cssLiteral? {}).getD "").toList kind := by
  have hplain (literal : Literal) (hliteral : literal.lexeme.literal? = some kind)
      (htext : ((kind.cssLiteral? {}).getD "").toList = literal.lexeme.text) :
      IsTextOf ((kind.cssLiteral? {}).getD "").toList kind :=
    htext ▸ .plain literal.leads hliteral
  have hdashed (literal : Literal) (hliteral : literal.lexeme.negative? = some kind)
      (htext : ((kind.cssLiteral? {}).getD "").toList = '-' :: literal.lexeme.text) :
      IsTextOf ((kind.cssLiteral? {}).getD "").toList kind :=
    htext ▸ .negative literal.leads hliteral
  cases h with
  | number n h => exact hplain (.number n) rfl (h.toList_cssLiteral n)
  | negative n h => exact hdashed (.number n) rfl (h.toList_cssLiteral n)
  | word w => exact hplain (.word w) rfl String.toList_ofList
  | dashed w =>
    refine hdashed (.word w) rfl ?_
    exact String.toList_append.trans (congrArg _ String.toList_ofList)
  | string q =>
    refine hplain (.string q) rfl ?_
    simp [Kind.cssLiteral?, Quote.wrap, Literal.lexeme]
  | boolean value =>
    refine hplain (.boolean value) ?_ ?_ <;> cases value <;> rfl

/-! ## Values -/

/-- **Values of literals, nested as the parser nests them.**  Rows hold no rows, and a value with
commas is not part of another one. -/
inductive LiteralValue : Part → Node → Prop where
  | literal {kind : Kind} {line : Nat} (h : IsOwnLiteral kind) :
      LiteralValue .item (.make kind line)
  /-- Two numbers with a slash between them, the second one without a sign. -/
  | ratio {value : Float} {unit : Option String} {n : Numeral} {line line' line'' : Nat}
      (h : IsOwnLiteral (.number value unit)) (hn : Number.IsWritten n.value n.digits) :
      LiteralValue .item (.make .slash line
        [.make (.number value unit) line', .make (Literal.number n).kind line''])
  | function {name : String} {arguments : List Node} {line line' : Nat}
      (hname : IsOwnLiteral (.identifier name)) (hraw : lowercase name ∉ rawNames)
      (h : ∀ a ∈ arguments, LiteralValue .row a) :
      LiteralValue .item (.make (.function name) line
        [(make .params line' arguments).placed .params])
  | single {item : Node} (h : LiteralValue .item item) : LiteralValue .row item
  | list {items : List Node} {line : Nat} (hlength : 2 ≤ items.length)
      (h : ∀ c ∈ items, LiteralValue .item c) : LiteralValue .row (.make .list line items)
  | row {v : Node} (h : LiteralValue .row v) : LiteralValue .rows v
  | comma {entries : List Node} {line : Nat} (hlength : 2 ≤ entries.length)
      (h : ∀ c ∈ entries, LiteralValue .row c) : LiteralValue .rows (.make .comma line entries)

theorem IsOwnLiteral.isLiteral {kind : Kind} (h : IsOwnLiteral kind) : kind.isLiteral = true := by
  cases h <;> rfl

theorem LiteralValue.isPlain {part : Part} {v : Node} (h : LiteralValue part v) : IsPlain v := by
  induction h with
  | literal h => exact .literal h.isLiteral
  | ratio h hn =>
    exact .group (.inr (.inr rfl)) (forall_mem_cons.2
      ⟨.literal rfl, forall_mem_singleton.2 (.literal rfl)⟩)
  | function hname hraw h ih => exact .function rfl rfl rfl ih
  | single h ih => exact ih
  | list hlength h ih => exact .group (.inl rfl) ih
  | row h ih => exact ih
  | comma hlength h ih => exact .group (.inr (.inl rfl)) ih

/-- Two numbers with a slash between them. -/
theorem Composed.ratio {text : List Char} {value : Float} {unit : Option String}
    (h : IsTextOf text (.number value unit)) (n : Numeral) :
    Composed .item (text ++ '/' :: (Literal.number n).lexeme.text)
      [[.make .slash 0 [.make (.number value unit) 0, .make (Literal.number n).kind 0]]] := by
  obtain ⟨p, ps, rfl, hgap, hoperand, hsteady⟩ := h
  have htext : textOf [⟨[], (Literal.number n).lexeme⟩] = (Literal.number n).lexeme.text := by
    rw [textOf_cons, textOf_nil, append_nil]
    rfl
  have hlaid : Laid [.mark [] '/' .slash, ⟨[], (Literal.number n).lexeme⟩] [] := by
    refine ⟨AllBlank.nil, ?_, AllBlank.nil, (Literal.number n).leads, trivial⟩
    rw [htext]
    exact .sign (by decide) (Literal.number n).leads mem_cons_self []
  refine ⟨p, ps ++ [TextPiece.mark [] '/' .slash, ⟨[], (Literal.number n).lexeme⟩], ?_, hgap,
    Writes.ratio hoperand rfl rfl, ?_⟩
  · rw [← cons_append, textOf_append, textOf_mark, htext]
    rfl
  · rw [← cons_append]
    refine hsteady.append ⟨'/', _, textOf_mark .., rfl⟩ ?_
    refine hlaid.steady (forall_mem_cons.2 ⟨nofun, forall_mem_singleton.2 nofun⟩) ?_
    intro q hq
    cases hq
    rfl

/-- What has to be shown of the text of a value: it is a layout of the value. -/
def ReadsAs (v : Node) : Part → Prop
  | .operand | .item => Composed .item (v.cssText []).toList [[v.stripped]]
  | .row => ∃ row, Composed .row (v.cssText []).toList [row] ∧ entry row = v.stripped
  | .rows => ∃ rows, Composed .rows (v.cssText []).toList rows ∧ valueOf rows = v.stripped

/-- **The text of a value of literals is a layout of the value.** -/
theorem LiteralValue.readsAs {part : Part} {v : Node} (h : LiteralValue part v) :
    ReadsAs v part := by
  induction h with
  | @literal kind line h =>
    show Composed _ _ _
    rw [make, cssText_literal h.isLiteral]
    obtain ⟨p, ps, htext, hgap, hoperand, hsteady⟩ := h.isTextOf
    exact ⟨p, ps, htext, hgap, .alone (.literal hoperand), hsteady⟩
  | @ratio value unit n line line' line'' h hn =>
    have hplain : ∀ c ∈ [make (.number value unit) line',
        .make (Literal.number n).kind line''], IsPlain c :=
      forall_mem_cons.2 ⟨.literal rfl, forall_mem_singleton.2 (.literal rfl)⟩
    have htext : (make .slash line [.make (.number value unit) line',
        .make (Literal.number n).kind line'']).cssText [] =
          ((Kind.number value unit).cssLiteral? {}).getD "" ++ "/" ++
            ((Literal.number n).kind.cssLiteral? {}).getD "" := by
      rw [make, cssText_slash hplain rfl, map_cons, map_singleton,
        String.intercalate_cons_cons, String.intercalate_singleton, make,
        cssText_literal rfl, make, cssText_literal rfl]
    have hsecond : (((Literal.number n).kind.cssLiteral? {}).getD "").toList =
      (Literal.number n).lexeme.text := hn.toList_cssLiteral n
    show Composed _ _ _
    rw [htext, String.toList_append, String.toList_append, append_assoc, hsecond,
      stripped_make, map_cons, map_singleton, stripped_make, stripped_make]
    exact Composed.ratio h.isTextOf n
  | @function name arguments line line' hname hraw h ih =>
    have hplain : ∀ a ∈ arguments, IsPlain a := fun a ha => (h a ha).isPlain
    choose! row hrow using ih
    have htext : (make (.function name) line
        [(make .params line' arguments).placed .params]).cssText [] = _ :=
      cssText_function hplain rfl rfl
    have hentries : (arguments.map row).map entry = arguments.map stripped := by
      rw [map_map]
      exact map_congr_left fun c hc => (hrow c hc).2
    have hcall : (make (.function name) line
        [(make .params line' arguments).placed .params]).stripped =
          callOf name ((arguments.map row).map entry) := by
      rw [hentries, callOf, stripped_make, map_singleton, stripped_placed,
        stripped_make]
    show Composed _ _ _
    rw [htext, toList_call, hcall]
    by_cases hne : arguments = []
    · subst hne
      exact (Composed.emptyCall hname.isTextOf hraw).imp fun _ => .alone
    · refine (Composed.call hname.isTextOf (fun hmem => hraw (mem_cons_of_mem _ hmem))
        (fun hurl => absurd (hurl ▸ mem_cons_self) hraw) ?_).imp fun _ => .alone
      rw [String.toList_intercalate, map_map]
      exact Composed.list (fun c hc => (hrow c hc).1) hne AllBlank.nil
  | @single item h ih =>
    exact ⟨[item.stripped], ih.imp fun _ => .last, rfl⟩
  | @list items line hlength h ih =>
    have htext : (make .list line items).cssText [] = _ :=
      cssText_list (fun c hc => (h c hc).isPlain) rfl
    refine ⟨items.map stripped, ?_, ?_⟩
    · rw [htext, String.toList_intercalate, map_map]
      refine Composed.row ih ?_
      rintro rfl
      simp at hlength
    · rw [stripped_make]
      rcases items with _ | ⟨_, _ | _⟩
      · simp at hlength
      · simp at hlength
      · rfl
  | @row v h ih =>
    obtain ⟨row, hrow, hentry⟩ := ih
    exact ⟨[row], hrow.imp fun _ => .lastRow, hentry⟩
  | @comma entries line hlength h ih =>
    choose! row hrow using ih
    have htext : (make .comma line entries).cssText [] = _ :=
      cssText_comma (fun c hc => (h c hc).isPlain) rfl
    refine ⟨entries.map row, ?_, ?_⟩
    · rw [htext, String.toList_intercalate, map_map]
      refine Composed.list (fun c hc => (hrow c hc).1) ?_ AllBlank.nil
      rintro rfl
      simp at hlength
    · have hentries : (entries.map row).map entry = entries.map stripped := by
        rw [map_map]
        exact map_congr_left fun c hc => (hrow c hc).2
      rw [stripped_make, ← hentries]
      rcases entries with _ | ⟨_, _ | _⟩
      · simp at hlength
      · simp at hlength
      · rfl

/-- The name of the property that values are read back in. -/
def readBackProperty : PlainName where
  text := ['x']

/-- A rule to read values back in. -/
def readBackRule : PlainRule where
  selectors := [{ parts := [.element { text := ['p'] }] }]
  nonempty := cons_ne_nil _ _
  properties := []

/-- **The text of a literal value is read as the same value**: in a rule with one property it is the
value of that property again, up to lines. -/
theorem literal_value_reads_back {v : Node} (h : LiteralValue .rows v) (file : Option String) :
    ∃ text root, v.cssValue file {} = .ok text ∧
      parse { text := "p \x7b x: " ++ text ++ "; \x7d", file } = .ok root ∧
      (make .sheet 1 [ruleOf (.selector ["p"] [])
        [.make (.property "x" [] false) 0 [v]]]).Same root := by
  obtain ⟨rows, hrows, hvalue⟩ := h.readsAs
  have hblank : AllBlank [' '] := List.forall_mem_singleton.2 rfl
  have hrule : Typeset .statement [] _ [ruleOf (.selector ["p"] [])
      [.make (.property "x" [] false) 0 [valueOf rows]]] :=
    Typeset.rule AllBlank.nil hblank hblank hblank AllBlank.nil readBackRule.headed fun gap hgap =>
      (Typeset.property readBackProperty.isLabel hrows false hgap hblank AllBlank.nil).cons
        fun gap hgap => .nil hgap
  have htext : ({ text := "p \x7b x: " ++ v.cssText [] ++ "; \x7d", file } : Source).text.toList =
      'p' :: ([' '] ++ '\x7b' :: ([' '] ++ (['x'] ++ ':' :: ([' '] ++ ((v.cssText []).toList ++
        [';'])) ++ [] ++ ([' '] ++ ['\x7d'])))) ++ [] := by
    simp
  obtain ⟨root, hparse, hsame⟩ :=
    (htext ▸ hrule.cons fun gap hgap => .nil hgap : Typeset .statements [] _ _).parse
  refine ⟨v.cssText [], root, h.isPlain.cssValue_eq file, hparse, ?_⟩
  refine Eq.trans ?_ hsame
  simp only [ruleOf, hvalue, stripped_make, stripped_placed, List.map_cons, List.map_nil,
    stripped_stripped]

/-- The value `a "\", b", F(-c d, true)`. -/
def sampleValue : Node :=
  .make .comma 3 [
    .make .list 3 [.make (.identifier "a") 3, .make (.string "\\\", b" .double) 4],
    .make (.function "F") 5 [(make .params 5
      [.make .list 5 [.make (.identifier "-c") 5, .make (.identifier "d") 5],
        .make (.boolean true) 6]).placed .params]]

theorem sampleValue_isLiteralValue : LiteralValue .rows sampleValue := by
  have hfirst : LiteralValue .row (.make .list 3
      [.make (.identifier "a") 3, .make (.string "\\\", b" .double) 4]) := by
    refine .list le_rfl (forall_mem_cons.2 ⟨.literal (.word { text := ['a'] }), ?_⟩)
    exact forall_mem_singleton.2
      (.literal (.string { quote := .double, body := ['\\', '"', ',', ' ', 'b'] }))
  have hpair : LiteralValue .row (.make .list 5
      [.make (.identifier "-c") 5, .make (.identifier "d") 5]) := by
    refine .list le_rfl (forall_mem_cons.2 ⟨.literal (.dashed { text := ['c'] }), ?_⟩)
    exact forall_mem_singleton.2 (.literal (.word { text := ['d'] }))
  have htruth : LiteralValue .row (.make (.boolean true) 6) := .single (.literal (.boolean true))
  refine .comma le_rfl (forall_mem_cons.2 ⟨hfirst, forall_mem_singleton.2 (.single ?_)⟩)
  exact .function (.word { text := ['F'] }) (by decide +kernel)
    (forall_mem_cons.2 ⟨hpair, forall_mem_singleton.2 htruth⟩)

/-- A string that holds an escaped quotation mark and a comma, and a call with two arguments. -/
theorem sampleValue_reads_back :
    LiteralValue .rows sampleValue ∧
      ∃ text root, sampleValue.cssValue none {} = .ok text ∧
        parse { text := "p \x7b x: " ++ text ++ "; \x7d", file := none } = .ok root ∧
        (make .sheet 1 [ruleOf (.selector ["p"] [])
          [.make (.property "x" [] false) 0 [sampleValue]]]).Same root :=
  ⟨sampleValue_isLiteralValue, literal_value_reads_back sampleValue_isLiteralValue none⟩

end Cascade
