import Cascade.Proofs.Headings
import Cascade.Proofs.StrippedReduction

/-!
# Typeset statements

A text that is put together from statements of the grammar, with blanks between them, is parsed to
these statements.  The blanks behind a statement belong to the first piece of the next one, so what
is put together is always a text behind some blanks, which ends in some blanks.
-/

set_option autoImplicit false

namespace Cascade

open Lexeme Node List

variable {ps hs : List TextPiece} {text tail kept : List Char} {depth : Nat} {nodes : List Node}
  {rows : List (List Node)} {kind : Kind} {part : Part} {l : Lexeme}

/-! ## Values behind other blanks -/

theorem regapped_append (hps : ps ≠ []) (gap : List Char) (qs : List TextPiece) :
    regapped gap (ps ++ qs) = regapped gap ps ++ qs := by
  cases ps with
  | nil => exact absurd rfl hps
  | cons p ps => rfl

theorem Leading.ne_nil (h : Leading ps) : ps ≠ [] := by
  obtain ⟨p, qs, rfl⟩ := h.exists_cons
  exact cons_ne_nil _ _

theorem Operand.regapped (h : Operand ps kind) (gap : List Char) :
    Operand (regapped gap ps) kind := by
  cases h with
  | plain h => exact .plain h
  | negative hsign hgap h => exact .negative hsign hgap h

/-- The blanks before a value do not matter. -/
theorem Writes.regapped (h : Writes part ps rows) (gap : List Char) :
    Writes part (regapped gap ps) rows := by
  induction h with
  | literal h => exact .literal (h.regapped gap)
  | call h hopen htouch hclose hname hurl hargs _ =>
    rw [regapped_append h.leading.ne_nil]
    exact .call (h.regapped gap) hopen htouch hclose hname hurl hargs
  | emptyCall h hopen htouch hclose hname =>
    rw [regapped_append h.leading.ne_nil]
    exact .emptyCall (h.regapped gap) hopen htouch hclose hname
  | rawCall h hopen htouch hclose htight htext hname hgap hurl hraw hinside =>
    rw [regapped_append h.leading.ne_nil]
    exact .rawCall (h.regapped gap) hopen htouch hclose htight htext hname hgap hurl hraw hinside
  | alone h ih => exact .alone ih
  | ratio h hslash hsecond =>
    rw [regapped_append h.leading.ne_nil]
    exact .ratio (h.regapped gap) hslash hsecond
  | last h ih => exact .last ih
  | more h hgap hmore ih _ =>
    rw [regapped_append h.leading.ne_nil]
    exact .more ih hgap hmore
  | lastRow h ih => exact .lastRow ih
  | moreRows h hcomma hmore ih _ =>
    rw [regapped_append h.leading.ne_nil]
    exact .moreRows ih hcomma hmore

/-- A text of blanks. -/
def AllBlank (cs : List Char) : Prop :=
  ∀ c ∈ cs, Text.isBlank c = true

theorem AllBlank.nil : AllBlank [] :=
  forall_mem_nil _

theorem AllBlank.append {as bs : List Char} (ha : AllBlank as) (hb : AllBlank bs) :
    AllBlank (as ++ bs) :=
  forall_mem_append.2 ⟨ha, hb⟩

/-! ## Values -/

theorem Lexeme.isSteady_of_literal? (l : Lexeme) (h : l.literal?.isSome = true) :
    l.kind.isSteady = true := by
  have hkinds := Lexeme.kind_of_literal? h
  simp only [mem_cons, not_mem_nil, or_false] at hkinds
  obtain hkind | hkind | hkind | hkind | hkind := hkinds <;> rw [hkind] <;> rfl

/-- **A text that is a layout of a part of a value.** -/
def Composed (part : Part) (text : List Char) (rows : List (List Node)) : Prop :=
  ∃ p ps, textOf (p :: ps) = text ∧ p.gap = [] ∧ Writes part (p :: ps) rows ∧ Steady (p :: ps)

namespace Composed

variable {text text' gap : List Char} {rows : List (List Node)}

/-- A token that is a literal. -/
theorem literal (h : l.Leads []) (hliteral : l.literal? = some kind) :
    Composed .operand l.text [[.make kind 0]] := by
  have hkind : l.kind.isSteady = true := l.isSteady_of_literal? (by rw [hliteral]; rfl)
  refine ⟨⟨[], l⟩, [], ?_, rfl, .literal (.plain hliteral), .lexeme h hkind AllBlank.nil⟩
  rw [textOf_cons, textOf_nil, append_nil]
  rfl

theorem imp {part' : Part} (h : Composed part text rows)
    (himp : ∀ ps, Writes part ps rows → Writes part' ps rows) : Composed part' text rows := by
  obtain ⟨p, ps, htext, hgap, hwrites, hsteady⟩ := h
  exact ⟨p, ps, htext, hgap, himp _ hwrites, hsteady⟩

/-- Two texts with a blank between them. -/
theorem spaced {part' whole : Part} {rows' rows'' : List (List Node)} (h : Composed part text rows)
    (h' : Composed part' text' rows')
    (hjoin : ∀ ps q qs, Writes part ps rows → q.gap ≠ [] → Writes part' (q :: qs) rows' →
      Writes whole (ps ++ q :: qs) rows'') :
    Composed whole (text ++ ' ' :: text') rows'' := by
  obtain ⟨p, ps, rfl, hgap, hwrites, hsteady⟩ := h
  obtain ⟨q, qs, rfl, hgap', hwrites', hsteady'⟩ := h'
  refine ⟨p, ps ++ { q with gap := [' '] } :: qs, ?_, hgap,
    hjoin _ _ _ hwrites (cons_ne_nil _ _) (hwrites'.regapped [' ']), ?_⟩
  · rw [← cons_append, textOf_append]
    exact congrArg _ (textOf_regapped ⟨q, qs, rfl, hgap'⟩ [' '])
  · refine hsteady.append ⟨' ', _, textOf_cons _ _, rfl⟩ fun c tail hc => ?_
    exact (hsteady' c tail hc).regapped (forall_mem_singleton.2 rfl)

/-- An item and the ones behind it. -/
theorem more {item : Node} {items : List Node} (h : Composed .item text [[item]])
    (hmore : Composed .row text' [items]) :
    Composed .row (text ++ ' ' :: text') [item :: items] :=
  h.spaced hmore fun _ _ _ => .more

/-- A row and the ones behind it. -/
theorem moreRows {row : List Node} (h : Composed .row text [row]) (hgap : AllBlank gap)
    (hmore : Composed .rows text' rows) :
    Composed .rows (text ++ ',' :: (gap ++ text')) (row :: rows) := by
  obtain ⟨p, ps, rfl, htight, hwrites, hsteady⟩ := h
  obtain ⟨q, qs, rfl, htight', hwrites', hsteady'⟩ := hmore
  refine ⟨p, ps ++ .mark [] ',' .comma :: { q with gap } :: qs, ?_, htight,
    .moreRows hwrites rfl (hwrites'.regapped gap), ?_⟩
  · rw [← cons_append, textOf_append, textOf_mark, nil_append]
    exact congrArg (_ ++ ',' :: ·) (textOf_regapped ⟨q, qs, rfl, htight'⟩ gap)
  · refine hsteady.append ⟨',', _, textOf_cons _ _, rfl⟩ fun c tail hc => ?_
    exact ⟨AllBlank.nil, .separator (by decide), (hsteady' c tail hc).regapped hgap⟩

section Lists

variable {α : Type} {layout : α → List Char} {as : List α}

/-- **Items with a blank between each two.** -/
theorem row {item : α → Node} (h : ∀ a ∈ as, Composed .item (layout a) [[item a]]) (hne : as ≠ []) :
    Composed .row ([' '].intercalate (as.map layout)) [as.map item] := by
  induction as with
  | nil => exact absurd rfl hne
  | cons a as ih =>
    obtain ⟨ha, has⟩ := forall_mem_cons.1 h
    cases as with
    | nil =>
      rw [map_cons, map_nil, intercalate_singleton]
      exact ha.imp fun _ => .last
    | cons b as =>
      rw [map_cons, map_cons, intercalate_cons_cons, append_assoc]
      exact ha.more (ih has (cons_ne_nil _ _))

/-- **Rows with a comma between each two**, and blanks behind the commas. -/
theorem list {row : α → List Node} (h : ∀ a ∈ as, Composed .row (layout a) [row a])
    (hne : as ≠ []) (hgap : AllBlank gap) :
    Composed .rows ((',' :: gap).intercalate (as.map layout)) (as.map row) := by
  induction as with
  | nil => exact absurd rfl hne
  | cons a as ih =>
    obtain ⟨ha, has⟩ := forall_mem_cons.1 h
    cases as with
    | nil =>
      rw [map_cons, map_nil, intercalate_singleton]
      exact ha.imp fun _ => .lastRow
    | cons b as =>
      rw [map_cons, map_cons, intercalate_cons_cons, append_assoc]
      exact ha.moreRows hgap (ih has (cons_ne_nil _ _))

end Lists

end Composed

/-! ## Texts of values -/

section Css

variable {α : Type} {file : Option String} {layout : Layout} {as : List α} {node : α → Node}
  {text : α → String}

namespace Node

variable {l : Label} {cs : List Node} {texts : List String}

theorem cssValue_literal (h : l.kind.isLiteral = true) :
    (mk l cs).cssValue file layout = .ok ((l.kind.cssLiteral? layout).getD "") := by
  rw [cssValue]
  revert h
  cases l.kind <;> simp [Kind.isLiteral, Kind.cssLiteral?]

section

variable (h : cssValues file layout cs = .ok texts)

include h

theorem cssValue_list (hkind : l.kind = .list) :
    (mk l cs).cssValue file layout = .ok (" ".intercalate texts) := by
  rw [cssValue, hkind]
  simp only [h]
  rfl

theorem cssValue_comma (hkind : l.kind = .comma) :
    (mk l cs).cssValue file layout = .ok (layout.listSeparator.intercalate texts) := by
  rw [cssValue, hkind]
  simp only [h]
  rfl

theorem cssValue_slash (hkind : l.kind = .slash) :
    (mk l cs).cssValue file layout = .ok ("/".intercalate texts) := by
  rw [cssValue, hkind]
  simp only [h]
  rfl

theorem cssValue_function {lp : Label} {name : String} (hkind : l.kind = .function name)
    (hr : lp.relation = some .params) : (mk l [mk lp cs]).cssValue file layout =
      .ok (name ++ "(" ++ layout.listSeparator.intercalate texts ++ ")") := by
  have harguments : cssArguments file layout [mk lp cs] = .ok texts := by
    rw [cssArguments, if_pos hr, h]
  rw [cssValue, hkind]
  simp only [harguments]
  rfl

omit h in
theorem cssValues_singleton {v : Node} {text : String} (h : v.cssValue file layout = .ok text) :
    cssValues file layout [v] = .ok [text] := by
  rw [cssValues, h]
  rfl

theorem css_property {name : String} {dynamic : NameSet} {important : Bool}
    (hkind : l.kind = .property name dynamic important) :
    (mk l cs).css file layout depth = .ok (layout.property depth name important texts) := by
  rw [css, hkind]
  simp only [h]
  rfl

end

theorem css_rule {lb : Label} {heading body : String}
    (hheading : l.kind.heading? layout depth = some heading) (hr : lb.relation = some .rules)
    (h : cssAll file layout (depth + 1) cs = .ok body) :
    (mk l [mk lb cs]).css file layout depth = .ok (layout.rule depth heading body) := by
  have hrules : cssRules file layout (depth + 1) [mk lb cs] = .ok body := by
    rw [cssRules, if_pos hr, h]
  rw [css, hrules]
  cases hkind : l.kind with
  | property | block =>
    rw [hkind] at hheading
    cases hheading
  | _ =>
    rw [hkind] at hheading
    simp only [hheading]
    rfl

theorem css_ruleOf {heading body : String} (hheading : kind.heading? layout depth = some heading)
    (h : cssAll file layout (depth + 1) cs = .ok body) :
    (ruleOf kind cs).css file layout depth = .ok (layout.rule depth heading body) :=
  css_rule hheading rfl h

theorem cssAll_cons {n : Node} {text rest : String} (h : n.css file layout depth = .ok text)
    (hrest : cssAll file layout depth cs = .ok rest) :
    cssAll file layout depth (n :: cs) = .ok (text ++ rest) := by
  rw [cssAll, h, hrest]
  rfl

end Node

theorem Node.cssValues_map (h : ∀ a ∈ as, (node a).cssValue file layout = .ok (text a)) :
    cssValues file layout (as.map node) = .ok (as.map text) := by
  induction as with
  | nil => rfl
  | cons a as ih =>
    obtain ⟨ha, has⟩ := forall_mem_cons.1 h
    rw [map_cons, cssValues, ha, ih has]
    rfl

theorem Node.cssAll_map (h : ∀ a ∈ as, (node a).css file layout depth = .ok (text a)) :
    cssAll file layout depth (as.map node) = .ok (String.join (as.map text)) := by
  induction as with
  | nil => rfl
  | cons a as ih =>
    obtain ⟨ha, has⟩ := forall_mem_cons.1 h
    rw [map_cons, cssAll_cons ha (ih has), map_cons, String.join_cons]

/-- A row is written with blanks between its items. -/
theorem cssValue_entry (h : ∀ a ∈ as, (node a).cssValue file layout = .ok (text a)) :
    (entry (as.map node)).cssValue file layout = .ok (" ".intercalate (as.map text)) := by
  have hlist := cssValue_list (l := { kind := .list, line := 0 }) (cssValues_map h) rfl
  match as, h with
  | [], _ => exact hlist
  | [a], h =>
    rw [map_singleton, map_singleton, String.intercalate_singleton]
    exact h a mem_cons_self
  | _ :: _ :: _, _ => exact hlist

/-- Rows are written with commas between them. -/
theorem cssValue_valueOf {rows : List (List α)}
    (h : ∀ row ∈ rows, ∀ a ∈ row, (node a).cssValue file layout = .ok (text a)) :
    (valueOf (rows.map (·.map node))).cssValue file layout = .ok (layout.listSeparator.intercalate
      (rows.map fun row => " ".intercalate (row.map text))) := by
  have hcomma := cssValue_comma (l := { kind := .comma, line := 0 })
    (cssValues_map fun row hrow => cssValue_entry (h row hrow)) rfl
  match rows, h with
  | [], _ => exact hcomma
  | [row], h =>
    rw [map_singleton, map_singleton, String.intercalate_singleton]
    exact cssValue_entry (h row mem_cons_self)
  | first :: second :: rows, _ =>
    rw [valueOf, map_map]
    · exact hcomma
    · simp

end Css

/-! ## Pieces of values -/

/-- A colon begins no literal. -/
theorem Lexeme.Leads.head?_ne_colon (h : l.Leads tail)
    (hkind : l.kind ≠ .colon ∧ l.kind ≠ .doubleColon) : l.text.head? ≠ some ':' := by
  intro hhead
  obtain ⟨cs, hcs⟩ := head?_eq_some_iff.1 hhead
  have hread := h.read
  rw [hcs, cons_append] at hread
  by_cases hcolon : (cs ++ tail).head? = some ':'
  · obtain ⟨ds, hds⟩ := head?_eq_some_iff.1 hcolon
    rw [hds] at hread
    cases hread
    exact hkind.2 rfl
  · cases (Leads.colon hcolon).read.symm.trans hread
    exact hkind.1 rfl

theorem Leading.kind_ne_colon {p : TextPiece} (h : Leading (p :: ps)) :
    p.kind ≠ .colon ∧ p.kind ≠ .doubleColon := by
  cases h with
  | literal h =>
    have hkinds := Lexeme.kind_of_literal? h
    constructor <;> intro hkind <;> rw [show p.lexeme.kind = _ from hkind] at hkinds <;>
      simp at hkinds
  | command h | sign h => rw [h]; exact ⟨nofun, nofun⟩

/-- A value does not begin with a colon. -/
theorem Composed.head? (h : Composed part text rows) : ∃ c cs, text = c :: cs ∧ c ≠ ':' := by
  obtain ⟨p, ps, rfl, hgap, hwrites, hsteady⟩ := h
  have hleads := (hsteady ';' [] rfl).2.1
  have hkind : p.kind ≠ .eof := (find_inside (hwrites.isInside p mem_cons_self)).1
  obtain ⟨c, cs, hcs⟩ := exists_cons_of_ne_nil (hleads.text_ne_nil hkind)
  refine ⟨c, cs ++ textOf ps, by rw [textOf_cons, hgap, hcs]; rfl, ?_⟩
  rintro rfl
  exact hleads.head?_ne_colon hwrites.leading.kind_ne_colon (by rw [hcs]; rfl)

/-! ## Statements -/

/-- **A text that is a layout of statements**, behind some blanks. -/
def Typeset (stretch : Stretch) (gap text : List Char) (nodes : List Node) : Prop :=
  ∃ ps gap', gap ++ text = textOf ps ++ gap' ∧ AllBlank gap' ∧ Stands stretch ps nodes ∧
    ∀ tail, Laid ps tail

/-- Pieces that may stand before a brace. -/
structure Braced (hs : List TextPiece) : Prop where
  laid : ∀ c tail, isBreak c = true → Laid hs (c :: tail)
  tight : ∃ p qs, hs = p :: qs ∧ p.gap = []

theorem Reads.braced (h : Reads hs text kept) : Braced hs := by
  obtain ⟨p, qs, hps, hgap, -⟩ := h.tight
  exact ⟨fun _ _ hc => h.laid_cons hc, p, qs, hps, hgap⟩

/-- **A text that is a layout of what stands before the brace** of a rule. -/
def Headed (text : List Char) (kind : Kind) : Prop :=
  ∃ hs, textOf hs = text ∧ Braced hs ∧ ∀ gap, Heads (regapped gap hs) kind

/-! ## Selectors -/

theorem OpensFirst.append {qs : List TextPiece} (h : OpensFirst ps) (hq : OpensFirst qs) :
    OpensFirst (ps ++ qs) := by
  rw [OpensFirst, find?_append]
  cases hfind : ps.find? (!·.kind.isInside) with
  | none => exact hq
  | some p =>
    rw [OpensFirst, hfind] at h
    exact h

theorem OpensFirst.regapped (h : OpensFirst ps) (gap : List Char) :
    OpensFirst (regapped gap ps) := by
  have hkinds (qs : List TextPiece) : (qs.find? (!·.kind.isInside)).all (·.kind == .openBrace) =
      ((qs.map TextPiece.kind).find? (!·.isInside)).all (· == .openBrace) := by
    rw [find?_map, Option.all_map]
    rfl
  rw [OpensFirst, hkinds] at h ⊢
  cases ps with
  | nil => exact h
  | cons p ps => exact h

theorem OpensFirst.list {pss : List (List TextPiece)} (h : ∀ ps ∈ pss, OpensFirst ps)
    (gap : List Char) : OpensFirst (listPieces gap pss) := by
  induction pss with
  | nil => rfl
  | cons ps pss ih =>
    obtain ⟨hps, hpss⟩ := forall_mem_cons.1 h
    cases pss with
    | nil => exact hps
    | cons qs pss => exact hps.append ((ih hpss).regapped gap)

/-- A text that is a selector. -/
structure IsSelector (name : String) : Prop where
  entry : IsEntry name.toList
  collapsed : collapseCombinators name = name
  reads : ∃ ps, Reads ps name.toList name.toList ∧ OpensFirst ps

/-- Whether a rule may begin with the token that a text begins with. -/
def opensRule (text : List Char) : Bool :=
  (Lexeme.read text).toOption.any (·.kind.isSelectorPart)

theorem Reads.opensRule_eq {p : TextPiece} (h : Reads (p :: ps) text kept) :
    opensRule text = p.kind.isSelectorPart := by
  obtain ⟨q, qs, heq, hgap, -⟩ := h.tight
  cases heq
  have htext : p.lexeme.text ++ (textOf ps ++ []) = text := by
    rw [← h.text, textOf_cons, hgap, append_nil, nil_append]
  rw [opensRule, ← htext, h.laid.2.1.read]
  rfl

/-- Pieces for every text of a list. -/
theorem exists_pieces {P : List TextPiece → List Char → Prop} {Q : List TextPiece → Prop}
    {texts : List (List Char)} (h : ∀ text ∈ texts, ∃ ps, P ps text ∧ Q ps) :
    ∃ pss, List.Forall₂ P pss texts ∧ ∀ ps ∈ pss, Q ps := by
  induction texts with
  | nil => exact ⟨[], .nil, forall_mem_nil _⟩
  | cons text texts ih =>
    obtain ⟨⟨ps, hP, hQ⟩, htexts⟩ := forall_mem_cons.1 h
    obtain ⟨pss, hPs, hQs⟩ := ih htexts
    exact ⟨ps :: pss, .cons hP hPs, forall_mem_cons.2 ⟨hQ, hQs⟩⟩

/-- What is kept of the blanks behind a comma. -/
theorem AllBlank.collapsed (gap : List Char) : AllBlank (if gap = [] then [] else [' ']) := by
  split
  · exact AllBlank.nil
  · exact forall_mem_singleton.2 rfl

/-- **Selectors with a comma between each two**, and blanks behind the commas. -/
theorem Headed.selector {names : List String} {gap : List Char} (hgap : AllBlank gap)
    (h : ∀ name ∈ names, IsSelector name)
    (hfirst : names.head?.any (opensRule ·.toList) = true) :
    Headed ((',' :: gap).intercalate (names.map String.toList)) (.selector names []) := by
  have hne : names ≠ [] := by
    rintro rfl
    cases hfirst
  obtain ⟨pss, hpss, hopens⟩ := exists_pieces (P := fun ps text => Reads ps text text)
    (forall_mem_map.2 fun name hname => (h name hname).reads)
  have hreads := Reads.list hgap hpss fun hnil => hne (map_eq_nil_iff.1 hnil)
  have hsplit (gap' : List Char) :
      splitSelectors (headingFrom "" (regapped gap' (listPieces gap pss))) = names := by
    rw [headingFrom_empty_regapped, hreads.heading]
    exact splitSelectors_intercalate (AllBlank.collapsed gap) hne (fun n hn => (h n hn).entry)
      (fun n hn => (h n hn).collapsed) String.toList_ofList
  have hpart : ∃ p ps, listPieces gap pss = p :: ps ∧ p.kind.isSelectorPart = true := by
    cases names with
    | nil => exact absurd rfl hne
    | cons name names =>
      cases hpss with
      | @cons ps _ pss _ hps _ =>
        obtain ⟨p, qs, rfl, -⟩ := hps.tight
        cases pss with
        | nil => exact ⟨p, qs, rfl, hps.opensRule_eq.symm.trans hfirst⟩
        | cons rs pss => exact ⟨p, _, rfl, hps.opensRule_eq.symm.trans hfirst⟩
  refine ⟨listPieces gap pss, hreads.text, hreads.braced, fun gap' => ?_⟩
  have hsplit := hsplit gap'
  have hkept := hreads.inside.regapped gap'
  have hopens := (OpensFirst.list hopens gap).regapped gap'
  obtain ⟨p, ps, hps, hp⟩ := hpart
  rw [hps] at hsplit hkept hopens ⊢
  rw [← hsplit]
  exact .selector hp hkept hopens

/-! ## Commands -/

/-- The token of a command. -/
def commandLexeme (name : String) : Lexeme :=
  { kind := .command, text := '@' :: name.toList, value := name }

/-- A command before a text. -/
theorem Reads.command (h : Reads ps text kept) (hl : l.Leads []) (hkind : l.kind = .command) :
    textOf (⟨[], l⟩ :: regapped [' '] ps) = l.text ++ ' ' :: text ∧
      Braced (⟨[], l⟩ :: regapped [' '] ps) := by
  have hblank : AllBlank [' '] := forall_mem_singleton.2 rfl
  obtain ⟨p, qs, hps, hgap, -⟩ := h.tight
  have htext : textOf (regapped [' '] ps) = ' ' :: text := by
    rw [textOf_regapped ⟨p, qs, hps, hgap⟩, h.text]
    rfl
  have hsteady : Steady [⟨[], l⟩] := .lexeme hl (by rw [hkind]; rfl) AllBlank.nil
  refine ⟨?_, fun c tail hc => ?_, _, _, rfl, rfl⟩
  · rw [textOf_cons, htext]
    rfl
  · have hfirst : Laid [⟨[], l⟩] (textOf (regapped [' '] ps) ++ c :: tail) := by
      rw [htext]
      exact hsteady ' ' _ rfl
    exact ⟨hfirst.1, hfirst.2.1, (h.laid_cons hc).regapped hblank⟩

/-- **Names with a comma between each two**, and blanks behind the commas, are taken apart again. -/
theorem Reads.entries {names : List String} {gap : List Char} (hgap : AllBlank gap)
    (hne : names ≠ [])
    (h : ∀ name ∈ names, IsEntry name.toList ∧ ∃ ps, Reads ps name.toList name.toList) :
    ∃ ps kept, Reads ps ((',' :: gap).intercalate (names.map String.toList)) kept ∧
      splitTopLevel ',' (String.ofList kept) = names := by
  obtain ⟨pss, hpss, -⟩ := exists_pieces (P := fun ps text => Reads ps text text)
    (Q := fun _ => True) (forall_mem_map.2 fun name hname =>
      (h name hname).2.imp fun _ hps => ⟨hps, trivial⟩)
  exact ⟨_, _, Reads.list hgap hpss fun hnil => hne (map_eq_nil_iff.1 hnil),
    splitTopLevel_intercalate (AllBlank.collapsed gap) hne (fun n hn => (h n hn).1)
      String.toList_ofList⟩

theorem Headed.media {queries : List String} {gap : List Char} (hgap : AllBlank gap)
    (hne : queries ≠ [])
    (h : ∀ query ∈ queries, IsEntry query.toList ∧ ∃ ps, Reads ps query.toList query.toList) :
    Headed ("@media ".toList ++ (',' :: gap).intercalate (queries.map String.toList))
      (.media queries []) := by
  obtain ⟨ps, kept, hreads, hsplit⟩ := Reads.entries hgap hne h
  have hl : (commandLexeme "media").Leads [] := ⟨rfl, rfl⟩
  obtain ⟨htext, hbraced⟩ := hreads.command hl rfl
  refine ⟨_, htext, hbraced, fun gap' => ?_⟩
  rw [← hsplit, ← hreads.heading, ← headingFrom_empty_regapped [' ']]
  exact .media rfl rfl (hreads.inside.regapped [' '])

theorem Headed.supports {query : String} (h : Reads ps query.toList query.toList) :
    Headed ("@supports ".toList ++ query.toList) (.supports query) := by
  have hl : (commandLexeme "supports").Leads [] := ⟨rfl, rfl⟩
  obtain ⟨htext, hbraced⟩ := h.command hl rfl
  refine ⟨_, htext, hbraced, fun gap => ?_⟩
  have hquery : query = headingFrom "" (regapped [' '] ps) := by
    rw [headingFrom_empty_regapped, h.heading, String.ofList_toList]
  rw [hquery]
  exact .supports rfl rfl (h.inside.regapped [' '])

theorem Headed.fontFace : Headed "@font-face".toList .fontFace := by
  have hl : (commandLexeme "font-face").Leads [] := ⟨rfl, rfl⟩
  have hsteady : Steady [⟨[], commandLexeme "font-face"⟩] := .lexeme hl rfl AllBlank.nil
  refine ⟨[⟨[], commandLexeme "font-face"⟩], rfl, ⟨fun c tail hc => ?_, _, _, rfl, rfl⟩, fun gap => ?_⟩
  · exact hsteady c tail (isJoint_of_isBreak hc)
  · exact .fontFace rfl rfl

/-! ## Statements in layouts -/

/-- A text that is the name of a property. -/
def IsLabel (name : List Char) : Prop :=
  ∃ p ps, textOf (p :: ps) = name ∧ p.kind.isSelectorPart = true ∧
    (∀ q ∈ p :: ps, q.gap = [] ∧ q.kind.isNamePart = true) ∧ Steady (p :: ps)

theorem textOf_eq_of_tight (h : ∀ p ∈ ps, p.gap = []) : textOf ps = ps.flatMap (·.lexeme.text) := by
  induction ps with
  | nil => rfl
  | cons p ps ih =>
    obtain ⟨hp, hps⟩ := forall_mem_cons.1 h
    rw [textOf_cons, hp, ih hps]
    rfl

namespace Typeset

variable {gap : List Char} (important : Bool)

theorem nil (hgap : AllBlank gap) : Typeset .statements gap [] [] :=
  ⟨[], gap, append_nil gap, hgap, .nil, fun _ => trivial⟩

theorem noFrame (hgap : AllBlank gap) : Typeset .frames gap [] [] :=
  ⟨[], gap, append_nil gap, hgap, .noFrame, fun _ => trivial⟩

/-- A statement and the ones behind it. -/
theorem cons {text' : List Char} {node : Node} (h : Typeset .statement gap text [node])
    (hmore : ∀ gap, AllBlank gap → Typeset .statements gap text' nodes) :
    Typeset .statements gap (text ++ text') (node :: nodes) := by
  obtain ⟨ps, gap', htext, hgap', hstands, hlaid⟩ := h
  obtain ⟨qs, gap'', htext', hgap'', hstands', hlaid'⟩ := hmore gap' hgap'
  refine ⟨ps ++ qs, gap'', ?_, hgap'', .cons hstands hstands', fun tail =>
    laid_append.2 ⟨hlaid _, hlaid' tail⟩⟩
  rw [← append_assoc, htext, append_assoc, htext', textOf_append, append_assoc]

/-- Blanks in front. -/
theorem indent {stretch : Stretch} {space : List Char}
    (h : ∀ gap, AllBlank gap → Typeset stretch gap text nodes) (hspace : AllBlank space)
    (hgap : AllBlank gap) : Typeset stretch gap (space ++ text) nodes := by
  have htext := h (gap ++ space) (hgap.append hspace)
  rwa [Typeset, append_assoc] at htext

/-- **Statements one after the other.** -/
theorem all {α : Type} {layout : α → List Char} {node : α → Node} {as : List α}
    (h : ∀ a ∈ as, ∀ gap, AllBlank gap → Typeset .statement gap (layout a) [node a])
    (hgap : AllBlank gap) : Typeset .statements gap (as.flatMap layout) (as.map node) := by
  induction as generalizing gap with
  | nil => exact nil hgap
  | cons a as ih =>
    obtain ⟨ha, has⟩ := forall_mem_cons.1 h
    rw [flatMap_cons]
    exact (ha gap hgap).cons fun gap hgap => ih has hgap

section Braces

variable {stretch : Stretch} {space inner outer body : List Char}

/-- **Statements in braces**, behind what stands before the brace. -/
theorem braced (h : Braced hs) (hgap : AllBlank gap) (hspace : AllBlank space)
    (hinner : AllBlank inner) (houter : AllBlank outer)
    (hbody : ∀ gap, AllBlank gap → Typeset stretch gap body nodes) :
    ∃ ps gap', Stands stretch ps nodes ∧ ∀ qs,
      let pieces := regapped gap hs ++ TextPiece.mark space '\x7b' .openBrace ::
        (ps ++ .mark gap' '\x7d' .closeBrace :: qs)
      textOf pieces = gap ++ (textOf hs ++ (space ++ '\x7b' :: (inner ++ (body ++ (outer ++
        '\x7d' :: textOf qs))))) ∧ ∀ tail, Laid qs tail → Laid pieces tail := by
  obtain ⟨ps, gap', htext, hgap', hstands, hlaid⟩ := hbody inner hinner
  refine ⟨ps, gap' ++ outer, hstands, fun qs => ⟨?_, fun tail hqs => ?_⟩⟩
  · rw [textOf_append, textOf_regapped h.tight, textOf_mark, textOf_append, textOf_mark,
      ← append_assoc inner, htext]
    simp only [append_assoc]
  · refine laid_append.2 ⟨?_, hspace, .separator (by decide),
      laid_append.2 ⟨hlaid _, hgap'.append houter, .separator (by decide), hqs⟩⟩
    rw [textOf_mark]
    cases space with
    | nil => exact (h.laid _ _ rfl).regapped hgap
    | cons c space =>
      have hc : isBreak c = true := by rw [isBreak, hspace c mem_cons_self]; rfl
      exact (h.laid c _ hc).regapped hgap

variable {trailing : List Char} (hgap : AllBlank gap) (hspace : AllBlank space)
  (hinner : AllBlank inner) (houter : AllBlank outer) (htrailing : AllBlank trailing)

include hgap hspace hinner houter htrailing

/-- A rule, with blanks before its braces and behind them. -/
theorem rule {heading : List Char} (h : Headed heading kind)
    (hbody : ∀ gap, AllBlank gap → Typeset kind.inner gap body nodes) :
    Typeset .statement gap (heading ++ (space ++ '\x7b' :: (inner ++ (body ++ (outer ++
      '\x7d' :: trailing))))) [ruleOf kind nodes] := by
  obtain ⟨hs, rfl, hbraced, hheads⟩ := h
  obtain ⟨ps, gap', hstands, hpieces⟩ := braced hbraced hgap hspace hinner houter hbody
  obtain ⟨htext, hlaid⟩ := hpieces []
  refine ⟨_, trailing, ?_, htrailing, .rule (hheads gap) rfl hstands rfl, fun tail => hlaid tail trivial⟩
  rw [htext, textOf_nil]
  simp only [append_assoc, cons_append, nil_append]

/-- A step of an animation and the ones behind it. -/
theorem frame {more : List Char} {statements : List Node} (h : Reads hs text kept)
    (hbody : ∀ gap, AllBlank gap → Typeset .statements gap body statements)
    (hmore : ∀ gap, AllBlank gap → Typeset .frames gap more nodes) :
    Typeset .frames gap (text ++ (space ++ '\x7b' :: (inner ++ (body ++ (outer ++
        '\x7d' :: (trailing ++ more))))))
      (ruleOf (.frame (splitTopLevel ',' (String.ofList kept))) statements :: nodes) := by
  obtain ⟨ps, gap', hstands, hpieces⟩ := braced h.braced hgap hspace hinner houter hbody
  obtain ⟨qs, gap'', htext', hgap'', hstands', hlaid'⟩ := hmore trailing htrailing
  obtain ⟨htext, hlaid⟩ := hpieces qs
  refine ⟨_, gap'', ?_, hgap'', ?_, fun tail => hlaid tail (hlaid' tail)⟩
  · rw [htext, htext', h.text]
    simp only [append_assoc, cons_append]
  · rw [← h.heading, ← headingFrom_empty_regapped gap]
    exact .frame (h.inside.regapped gap) rfl hstands rfl hstands'

end Braces

/-- `important` as a word. -/
def importantWord : Lexeme :=
  { kind := .identifier, text := "important".toList, value := "important" }

/-- `!important`, or nothing. -/
def marksOf (important : Bool) : List TextPiece :=
  if important then [.mark [] '!' .bang, ⟨[], importantWord⟩] else []

theorem marked_marksOf : Marked (marksOf important) important := by
  cases important with
  | false => exact .none
  | true => exact .important rfl rfl rfl

theorem textOf_marksOf :
    textOf (marksOf important) = (if important then "!important" else "").toList := by
  cases important <;> rfl

theorem laid_marksOf (ht : Clear tail) : Laid (marksOf important) tail := by
  cases important with
  | false => trivial
  | true =>
    have hword : Steady [⟨[], importantWord⟩] :=
      .lexeme ⟨rfl, rfl⟩ rfl (forall_mem_nil _)
    exact ⟨forall_mem_nil _, .bang (by simp [importantWord]), hword.laid ht⟩

/-- A property, with blanks behind its colon and its semicolon. -/
theorem property {name value : List Char} (hname : IsLabel name)
    (hvalue : Composed .rows value rows) (important : Bool) (hgap : AllBlank gap)
    {space trailing : List Char} (hspace : AllBlank space) (htrailing : AllBlank trailing) :
    Typeset .statement gap (name ++ ':' :: (space ++ (value ++
        ((if important then "!important" else "").toList ++ ';' :: trailing))))
      [.make (.property (String.ofList name) [] important) 0 [valueOf rows]] := by
  obtain ⟨c, cs, hcs, hc⟩ := hvalue.head?
  obtain ⟨n, ns, rfl, hfirst, hparts, hsteady⟩ := hname
  obtain ⟨v, vs, rfl, htight, hwrites, hsteady'⟩ := hvalue
  have hn : n.gap = [] := (hparts n mem_cons_self).1
  have hlabel : nameText ({ n with gap } :: ns) = String.ofList (textOf (n :: ns)) :=
    congrArg String.ofList (textOf_eq_of_tight fun p hp => (hparts p hp).1).symm
  have hne : nameText ({ n with gap } :: ns) ≠ "" := by
    intro hempty
    have htext : n.lexeme.text ++ textOf ns = [] := by
      have hlist := congrArg String.toList (hlabel.symm.trans hempty)
      rw [String.toList_ofList, textOf_cons, hn] at hlist
      exact hlist
    have hkind : n.kind ≠ .eof :=
      (find_inside (isInside_of_isNamePart (hparts n mem_cons_self).2)).1
    exact (hsteady ';' [] rfl).2.1.text_ne_nil hkind (append_eq_nil_iff.1 htext).1
  -- What stands behind the colon, and behind the value.
  have hafter (tail : List Char) : (space ++ (textOf (v :: vs) ++ tail)).head? ≠ some ':' := by
    cases space with
    | nil =>
      rw [nil_append, hcs]
      exact fun heq => hc (Option.some.inj heq)
    | cons d space =>
      intro heq
      have hblank := hspace d mem_cons_self
      rw [Option.some.inj heq] at hblank
      cases hblank
  have hend (tail : List Char) :
      Clear (textOf (marksOf important ++ [.mark [] ';' .semicolon]) ++ tail) := by
    cases important <;> exact ⟨_, _, rfl, rfl⟩
  have hparts' : ∀ p ∈ { n with gap } :: ns, p.kind.isNamePart = true :=
    forall_mem_cons.2 (forall_mem_cons.1 fun p hp => (hparts p hp).2)
  refine ⟨{ n with gap } :: ns ++ .mark [] ':' .colon :: (regapped space (v :: vs) ++
    (marksOf important ++ [.mark [] ';' .semicolon])), trailing, ?_, htrailing, ?_, fun tail => ?_⟩
  · have htext : textOf ({ n with gap } :: ns) = gap ++ textOf (n :: ns) :=
      textOf_regapped ⟨n, ns, rfl, hn⟩ gap
    rw [textOf_append, htext, textOf_mark, textOf_append, textOf_regapped ⟨v, vs, rfl, htight⟩,
      textOf_append, textOf_marksOf, textOf_mark, textOf_nil]
    simp only [append_assoc, cons_append, nil_append]
  · rw [← hlabel]
    exact .property hfirst hparts' hne rfl (hwrites.regapped space) (marked_marksOf important) rfl
  · have hname : Laid ({ n with gap } :: ns) (textOf (.mark [] ':' .colon ::
        (regapped space (v :: vs) ++ (marksOf important ++ [.mark [] ';' .semicolon]))) ++ tail) :=
      (hsteady.laid ⟨':', _, rfl, rfl⟩).regapped hgap
    refine laid_append.2
      ⟨hname, AllBlank.nil, .colon ?_, laid_append.2 ⟨?_, laid_append.2 ⟨?_, ?_⟩⟩⟩
    · rw [textOf_append, textOf_regapped ⟨v, vs, rfl, htight⟩, append_assoc, append_assoc]
      exact hafter _
    · exact (hsteady'.laid (hend tail)).regapped hspace
    · exact laid_marksOf important ⟨';', _, rfl, rfl⟩
    · exact ⟨AllBlank.nil, .separator (by decide), trivial⟩

/-- A layout is parsed to the statements. -/
theorem parse {source : Source} (h : Typeset .statements [] source.text.toList nodes) :
    ∃ root, Cascade.parse source = .ok root ∧ (Node.make .sheet 1 nodes).Same root := by
  obtain ⟨ps, gap', htext, hgap', hstands, hlaid⟩ := h
  have hend : Laid [⟨gap', { kind := .eof, text := [] }⟩] [] := ⟨hgap', ⟨rfl, rfl⟩, trivial⟩
  refine parse_of_stands hstands (laid_append.2 ⟨hlaid _, hend⟩) rfl ?_
  rw [textOf_append, textOf_cons, textOf_nil, append_nil, append_nil]
  exact htext

/-- **What the statements compile to is what their layout compiles to.** -/
theorem compile {source : Source} {profile : Profile} {layout : Layout} {text : String}
    (h : Typeset .statements [] source.text.toList nodes)
    (hok : (Sheet.reduce { root := .make .sheet 1 nodes, file := source.file } profile >>=
      fun sheet => sheet.css layout) = .ok text) :
    Cascade.compile source profile layout = .ok text := by
  obtain ⟨root, hroot, hsame⟩ := h.parse
  have hstripped : (⟨.make .sheet 1 nodes, source.file, 0⟩ : Sheet).stripped =
      (⟨root, source.file, 0⟩ : Sheet).stripped :=
    congrArg (fun root => ({ root } : Sheet)) hsame
  have houtcome := Sheet.outcome_eq_of_stripped_eq hstripped profile layout
  rw [hok] at houtcome
  obtain ⟨text', htext, htext'⟩ | ⟨e, -, he, -⟩ := of_unplaced_eq houtcome
  · cases htext
    rw [Cascade.compile, Sheet.parse, hroot]
    exact htext'
  · cases he

end Typeset

end Cascade
