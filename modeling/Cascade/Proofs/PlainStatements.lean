import Cascade.Proofs.LockstepStatements
import Cascade.Proofs.PlainValues

/-!
# Plain style sheets are read as they are written

A plain style sheet holds properties, rules, queries, animations and fonts, and no variable, mixin
or command.  `Stands` is the grammar of such sheets: a relation between the pieces of a text and
the statements.  The parser reads every text of the grammar as these statements, whatever blanks
there are, and with the steps that are allotted to the text.
-/

set_option autoImplicit false

namespace Cascade

open Node Parse List
open Succeeds (peekNth_zero advance peek expect token accept find takeComments)

variable {nodes : List Node} {semicolon opening colon p name : TextPiece} {important : Bool}
  {ps marks hs : List TextPiece} {node : Node}

/-! ## The grammar -/

/-- The text of a name that is written in several pieces. -/
def nameText (ps : List TextPiece) : String :=
  String.ofList (ps.flatMap (·.lexeme.text))

/-- The kinds of tokens that the name of a property is made of. -/
def TokenKind.isNamePart : TokenKind → Bool
  | identifier | minus | asterisk | number | notWord => true
  | _ => false

/-- What is kept of the text before a brace, after `before`: one blank wherever there are
blanks. -/
def headingFrom (before : String) : List TextPiece → String
  | [] => before
  | p :: ps =>
    headingFrom ((if p.gap ≠ [] ∧ before ≠ "" then before ++ " " else before) ++
      String.ofList p.lexeme.text) ps

/-- Pieces that are kept as text when `depth` parentheses and brackets are open before them, and
that leave none open. -/
def KeptFrom (depth : Nat) : List TextPiece → Prop
  | [] => depth = 0
  | p :: ps => p.kind ≠ .eof ∧ p.kind ≠ .variableName ∧ (depth = 0 → p.kind.isInside = true) ∧
      KeptFrom (depthAfter depth p.kind) ps

/-- No semicolon and no closing brace comes before the first brace that opens. -/
def OpensFirst (ps : List TextPiece) : Prop :=
  (ps.find? (!·.kind.isInside)).all (·.kind == .openBrace) = true

/-- The pieces that stand before a brace, with the kind of the rule. -/
inductive Heads : List TextPiece → Kind → Prop where
  | selector {first : TextPiece} {hs : List TextPiece} (hfirst : first.kind.isSelectorPart = true)
      (hkept : KeptFrom 0 (first :: hs)) (hopens : OpensFirst (first :: hs)) :
      Heads (first :: hs) (.selector (splitSelectors (headingFrom "" (first :: hs))) [])
  | media {command : TextPiece} {hs : List TextPiece} (hcommand : command.kind = .command)
      (hname : command.lexeme.value = "media") (hkept : KeptFrom 0 hs) :
      Heads (command :: hs) (.media (splitTopLevel ',' (headingFrom "" hs)) [])
  | supports {command : TextPiece} {hs : List TextPiece} (hcommand : command.kind = .command)
      (hname : command.lexeme.value = "supports") (hkept : KeptFrom 0 hs) :
      Heads (command :: hs) (.supports (headingFrom "" hs))
  | fontFace {command : TextPiece} (hcommand : command.kind = .command)
      (hname : command.lexeme.value = "font-face") : Heads [command] .fontFace
  | keyframes {command name : TextPiece} {vendor : Option String}
      (hcommand : command.kind = .command)
      (hvendor : command.lexeme.value = "keyframes" ∧ vendor = none ∨
        vendor.isSome = true ∧ vendor? command.lexeme.value = vendor)
      (hname : name.kind = .identifier ∨ name.kind = .string) :
      Heads [command, name] (.keyframes name.lexeme.value vendor)

/-- The stretches of a style sheet. -/
inductive Stretch where
  | statement
  | statements
  /-- The steps of an animation. -/
  | frames

/-- What stands in the braces of a rule. -/
def Kind.inner : Kind → Stretch
  | .keyframes .. => .frames
  | _ => .statements

/-- A rule with the statements in its braces. -/
def ruleOf (kind : Kind) (statements : List Node) : Node :=
  .make kind 0 [(make .block 0 statements).placed .rules]

/-- `!important`, if it is there. -/
inductive Marked : List TextPiece → Bool → Prop where
  | none : Marked [] false
  | important {bang word : TextPiece} (hbang : bang.kind = .bang) (hword : word.kind = .identifier)
      (hvalue : word.lexeme.value = "important") : Marked [bang, word] true

/-- **The grammar of plain statements**: the pieces stand for the statements. -/
inductive Stands : Stretch → List TextPiece → List Node → Prop where
  | property {name : TextPiece} {names value marks : List TextPiece} {colon semicolon : TextPiece}
      {rows : List (List Node)} {important : Bool} (hfirst : name.kind.isSelectorPart = true)
      (hnames : ∀ p ∈ name :: names, p.kind.isNamePart = true)
      (htext : nameText (name :: names) ≠ "") (hcolon : colon.kind = .colon)
      (hvalue : Writes .rows value rows) (hmarked : Marked marks important)
      (hsemicolon : semicolon.kind = .semicolon) :
      Stands .statement (name :: names ++ colon :: (value ++ (marks ++ [semicolon])))
        [.make (.property (nameText (name :: names)) [] important) 0 [valueOf rows]]
  | rule {hs body : List TextPiece} {kind : Kind} {nodes : List Node} {opening closing : TextPiece}
      (hheads : Heads hs kind) (hopen : opening.kind = .openBrace)
      (hbody : Stands kind.inner body nodes) (hclose : closing.kind = .closeBrace) :
      Stands .statement (hs ++ opening :: (body ++ [closing])) [ruleOf kind nodes]
  | nil : Stands .statements [] []
  | cons {ps qs : List TextPiece} {node : Node} {nodes : List Node}
      (h : Stands .statement ps [node]) (hmore : Stands .statements qs nodes) :
      Stands .statements (ps ++ qs) (node :: nodes)
  | noFrame : Stands .frames [] []
  | frame {hs body qs : List TextPiece} {inner nodes : List Node} {opening closing : TextPiece}
      (hkept : KeptFrom 0 hs) (hopen : opening.kind = .openBrace)
      (hbody : Stands .statements body inner) (hclose : closing.kind = .closeBrace)
      (hmore : Stands .frames qs nodes) :
      Stands .frames (hs ++ opening :: (body ++ closing :: qs))
        (ruleOf (.frame (splitTopLevel ',' (headingFrom "" hs))) inner :: nodes)

/-! ## What stands before a block or a value -/

section Preludes

variable {ps hs rest : List TextPiece} {tail : List Char} {n : Nat} {line : Option Nat}

theorem preludeFrom_kept (hopen : opening.kind = .openBrace) {depth : Nat} (h : KeptFrom depth hs)
    (before : Template) (hn : hs.length < n) :
    Succeeds (Facing tail (hs ++ opening :: rest)) (preludeFrom before depth n)
      (· = { before with text := headingFrom before.text hs }) (Facing tail (opening :: rest)) := by
  induction hs generalizing depth before n with
  | nil =>
    obtain ⟨n, rfl⟩ : ∃ m, n = m + 1 := ⟨n - 1, by simp only [length_nil] at hn; omega⟩
    rw [preludeFrom]
    refine peek.bind fun kind hkind => ?_
    rw [if_pos (.inl ⟨hkind.trans hopen, h⟩)]
    exact .pure rfl
  | cons p hs ih =>
    obtain ⟨heof, hvariable, hinside, h⟩ := h
    obtain _ | n := n
    · omega
    have hn : hs.length < n := Nat.lt_of_succ_lt_succ hn
    have houtside (kind : TokenKind) (hkind : kind.isInside = false) :
        ¬(p.kind = kind ∧ depth = 0) := fun hp => by
        have hin := hinside hp.2
        rw [hp.1, hkind] at hin
        cases hin
    rw [cons_append, preludeFrom]
    refine peek.bind fun kind hkind => ?_
    rw [hkind, if_neg fun hp => hp.elim (houtside _ rfl) heof]
    refine advance.bind fun kind hkind => token.bind fun t ht => ?_
    have hend : ¬((p.kind = .semicolon ∨ p.kind = .closeBrace) ∧ depth = 0) := fun hp =>
      hp.1.elim (fun hkind => houtside _ rfl ⟨hkind, hp.2⟩) fun hkind =>
        houtside _ rfl ⟨hkind, hp.2⟩
    have hspaced : (t.spaced = true ∧ before.text ≠ "") ↔ (p.gap ≠ [] ∧ before.text ≠ "") := by
      rw [ht.spaced, Bool.not_eq_true', isEmpty_eq_false_iff]
    simp only [hkind, if_neg hvariable, if_neg hend, hspaced]
    refine (ih h _ hn).past.weaken fun template htemplate => ?_
    rw [htemplate, headingFrom, ht.text]
    split <;> rfl

theorem prelude_kept (hopen : opening.kind = .openBrace) (h : KeptFrom 0 hs) (hn : hs.length < n) :
    Succeeds (Facing tail (hs ++ opening :: rest)) (prelude n) (· = ⟨headingFrom "" hs, []⟩)
      (Facing tail (opening :: rest)) :=
  preludeFrom_kept hopen h {} hn

theorem find_inside (h : p.kind.isInside = true) :
    p.kind ≠ .eof ∧ p.kind ∉ [.openBrace, .semicolon, .closeBrace] := by
  constructor
  · intro heof
    rw [heof] at h
    cases h
  · simp only [mem_cons, not_mem_nil, or_false]
    rintro (hkind | hkind | hkind) <;> rw [hkind] at h <;> cases h

theorem find_openBrace (hopen : opening.kind = .openBrace) (h : OpensFirst ps) :
    Succeeds (Facing tail (ps ++ opening :: rest))
      (Reading.find [.openBrace, .semicolon, .closeBrace]) (· = .openBrace)
      (Facing tail (ps ++ opening :: rest)) := by
  cases hfind : ps.find? (!·.kind.isInside) with
  | none =>
    have hall : ∀ q ∈ ps, q.kind.isInside = true := fun q hq => by
      simpa using find?_eq_none.1 hfind q hq
    exact (find (fun q hq => find_inside (hall q hq)) (by rw [hopen]; simp)).weaken
      fun _ hkind => hkind.trans hopen
  | some p =>
    obtain ⟨-, as, bs, rfl, has⟩ := find?_eq_some_iff_append.1 hfind
    have hp : p.kind = .openBrace := by simpa [OpensFirst, hfind] using h
    rw [append_assoc, cons_append]
    have hinside (q : TextPiece) (hq : q ∈ as) := find_inside (p := q) (by simpa using has q hq)
    exact (find hinside (by rw [hp]; simp)).weaken fun _ hkind => hkind.trans hp

theorem propertyNameFrom_parts (hcolon : colon.kind = .colon)
    (h : ∀ p ∈ ps, p.kind.isNamePart = true) (before : Template)
    (htext : before.text ++ nameText ps ≠ "") (hn : ps.length < n) :
    Succeeds (FacingOn line tail (ps ++ colon :: rest)) (propertyNameFrom before n)
      (· = { before with text := before.text ++ nameText ps }) (FacingOn line tail rest) := by
  induction ps generalizing before n with
  | nil =>
    have hname : before.text ++ nameText [] = before.text := String.append_empty
    rw [hname] at htext ⊢
    obtain ⟨n, rfl⟩ : ∃ m, n = m + 1 := ⟨n - 1, by simp only [length_nil] at hn; omega⟩
    rw [nil_append, propertyNameFrom]
    refine advance.bind fun kind hkind => ?_
    rw [hkind, hcolon]
    simp only [if_neg htext]
    refine Succeeds.past (.pure ?_)
    rfl
  | cons p ps ih =>
    obtain ⟨hp, h⟩ := forall_mem_cons.1 h
    obtain _ | n := n
    · omega
    have hname : before.text ++ nameText (p :: ps) =
        before.text ++ String.ofList p.lexeme.text ++ nameText ps := by
      rw [nameText, flatMap_cons, String.ofList_append, ← String.append_assoc]
      rfl
    rw [hname] at htext ⊢
    have hrest : Succeeds (PastOn line tail p (ps ++ colon :: rest))
        (Reading.token >>= fun t => propertyNameFrom (before.write t.text) n)
        (· = { before with text := before.text ++ String.ofList p.lexeme.text ++ nameText ps })
        (FacingOn line tail rest) := by
      refine token.bind fun t ht => ?_
      rw [ht.text]
      exact (ih h _ htext (Nat.lt_of_succ_lt_succ hn)).past
    rw [cons_append, propertyNameFrom]
    refine advance.bind fun kind hkind => ?_
    rw [hkind]
    cases hk : p.kind <;> rw [hk] at hp <;> first | exact hrest | cases hp

end Preludes

/-! ## Rules and properties -/

section Rules

variable {ps hs body rest names : List TextPiece} {tail tail' : List Char} {n : Nat}
  {line : Option Nat} {post : TokenStream → Prop}

variable (hsemicolon : semicolon.kind = .semicolon)

include hsemicolon

theorem Marked.closes (h : Marked marks important) : Closes (marks ++ semicolon :: rest) ∧
      (marks ++ semicolon :: rest).head?.all (·.kind != .comma) = true := by
  cases h with
  | none => exact ⟨.mark (by rw [hsemicolon]; simp), by simp [hsemicolon]⟩
  | important hbang hword hvalue => exact ⟨.important hbang hword hvalue, by simp [hbang]⟩

theorem Marked.reads (h : Marked marks important) :
    Succeeds (FacingOn line tail (marks ++ semicolon :: rest)) Parse.important (· = important)
      (FacingOn line tail (semicolon :: rest)) := by
  cases h with
  | none =>
    refine peek.bind fun kind hkind => ?_
    rw [if_neg (by rw [hkind, hsemicolon]; exact nofun)]
    exact .pure rfl
  | important hbang hword hvalue =>
    refine peek.bind fun kind hkind => ?_
    rw [if_pos (hkind.trans hbang)]
    refine (importantAhead_important hbang hword hvalue).bind_eq ?_
    exact advance.bind fun _ _ => advance.past.bind fun _ _ => .past (.pure rfl)

omit hsemicolon in
theorem endStatement_semicolon (h : semicolon.kind = .semicolon) :
    Succeeds (FacingOn line tail (semicolon :: rest)) endStatement (fun _ => True)
      (FacingOn line tail rest) := by
  refine (accept h).bind_eq ?_
  exact .past (.pure trivial)

omit hsemicolon in
theorem statement_of_ruleOrProperty (hfirst : p.kind.isSelectorPart = true) {P : Node → Prop}
    {Q : Node × List Comment → Prop} (hasPrevious : Bool)
    (h : Succeeds (FacingOn line tail (p :: ps)) (ruleOrProperty n) P post)
    (hdone : ∀ comments node, (line ≠ none → comments = []) → P node →
      Q (withComments hasPrevious comments node [])) :
    Succeeds (FacingOn line tail (p :: ps)) (statement hasPrevious (n + 1)) Q post := by
  have hne (kind : TokenKind) (hkind : kind.isSelectorPart = false) : p.kind ≠ kind := fun hp => by
    rw [hp, hkind] at hfirst
    cases hfirst
  rw [statement]
  refine takeComments.bind fun comments hcomments => peekNth_zero.bind fun t ht => ?_
  rw [ht.kind, if_neg (hne _ rfl), if_neg (hne _ rfl), if_pos hfirst]
  exact h.bind fun node hnode =>
    .pure (hdone comments node (fun hline => hcomments hline (hne _ rfl)) hnode)

omit hsemicolon in
theorem statement_of_command (hcommand : p.kind = .command) {hasPrevious : Bool}
    (h : Succeeds (Facing tail (p :: ps)) (commandStatement hasPrevious n) (fun r => node.Same r.1)
      post) :
    Succeeds (Facing tail (p :: ps)) (statement hasPrevious (n + 1)) (fun r => node.Same r.1) post := by
  rw [statement]
  refine takeComments.bind fun comments _ => peekNth_zero.bind fun t ht => ?_
  rw [ht.kind, if_pos hcommand]
  exact h.bind fun r hsame => .pure (hsame.trans (stripped_withComments ..).symm)

omit hsemicolon in
theorem isInside_of_isNamePart {kind : TokenKind} (h : kind.isNamePart = true) :
    kind.isInside = true := by
  cases kind <;> first | rfl | cases h

omit hsemicolon in
theorem Marked.isInside (h : Marked marks important) : ∀ p ∈ marks, p.kind.isInside = true := by
  cases h with
  | none => exact forall_mem_nil _
  | important hbang hword hvalue =>
    exact forall_mem_cons.2
      ⟨by rw [hbang]; rfl, forall_mem_singleton.2 (by rw [hword]; rfl)⟩

omit hsemicolon in
/-- A statement is read, and then those behind it. -/
theorem statementsFrom_of_statement (hfirst : p.kind.isInside = true) {closing : TokenKind}
    (hclose : closing = .closeBrace ∨ closing = .eof) {before before' : List Node}
    (hbefore : SameAll before before') {mid : TokenStream → Prop}
    (h : Succeeds (Facing tail (p :: ps)) (statement (!before'.isEmpty) n) (fun r => node.Same r.1) mid)
    {α : Type} {P : α → Prop} {k : List Node → Reading α}
    (hmore : ∀ before'', SameAll (node :: before) before'' →
      Succeeds mid (statementsFrom closing before'' n >>= k) P post) :
    Succeeds (Facing tail (p :: ps)) (statementsFrom closing before' (n + 1) >>= k) P post := by
  have hne := find_inside hfirst
  simp only [mem_cons, not_mem_nil, or_false, not_or] at hne
  have hkind : ¬(p.kind = closing ∨ p.kind = .eof) := by
    rintro (rfl | hkind)
    · exact hclose.elim hne.2.2.2 hne.1
    · exact hne.1 hkind
  rw [statementsFrom, bind_assoc]
  refine peek.bind fun kind hpeek => ?_
  rw [hpeek, if_neg hkind, if_neg hne.2.2.1, bind_assoc]
  refine h.bind fun (node', passed) hnode => hmore _ ?_
  exact .cons hnode (hbefore.trans (map_stripped_commentPrevious passed _).symm)

/-- The pieces of a property up to its semicolon. -/
theorem find_semicolon (h : ∀ p ∈ ps, p.kind.isInside = true) (rest : List TextPiece) :
    Succeeds (FacingOn line tail (ps ++ semicolon :: rest))
      (Reading.find [.openBrace, .semicolon, .closeBrace]) (· = .semicolon)
      (FacingOn line tail (ps ++ semicolon :: rest)) :=
  (find (fun p hp => find_inside (h p hp)) (by rw [hsemicolon]; simp)).weaken
    fun _ hkind => hkind.trans hsemicolon

/-- A property whose value is read, if nothing that looks like a rule is found ahead. -/
theorem property_of_value {P : Node → Prop} (hnames : ∀ p ∈ name :: names, p.kind.isNamePart = true)
    (htext : nameText (name :: names) ≠ "") (hcolon : colon.kind = .colon)
    (hfind : Succeeds (FacingOn line tail (name :: names ++ colon :: ps))
      (Reading.find [.openBrace, .semicolon, .closeBrace]) (· ≠ .openBrace)
      (FacingOn line tail (name :: names ++ colon :: ps)))
    (hvalue : Succeeds (FacingOn line tail ps) (valueList .value n) P
      (FacingOn line tail' (marks ++ semicolon :: rest)))
    (hmarked : Marked marks important) (hn : names.length + 1 < n) :
    Succeeds (FacingOn line tail (name :: names ++ colon :: ps)) (ruleOrProperty (n + 1))
      (fun node => ∃ t value, name.ShowsOn line t ∧ P value ∧
        node = make (.property (nameText (name :: names)) [] important) t.line [value])
      (FacingOn line tail' rest) := by
  rw [ruleOrProperty]
  refine hfind.bind fun kind hkind => ?_
  rw [if_neg hkind, property]
  have hname : Succeeds (FacingOn line tail (name :: names ++ colon :: ps)) (propertyName n)
      (· = ⟨nameText (name :: names), []⟩) (FacingOn line tail ps) := by
    have hempty : "" ++ nameText (name :: names) = nameText (name :: names) := String.empty_append
    rw [← hempty] at htext ⊢
    exact propertyNameFrom_parts hcolon hnames {} htext hn
  refine peekNth_zero.bind fun t ht => hname.bind fun template htemplate => ?_
  rw [htemplate, propertyValue]
  refine hvalue.bind fun value hvalue' => ?_
  refine (hmarked.reads hsemicolon).bind fun important' himportant => ?_
  refine (endStatement_semicolon hsemicolon).bind fun _ _ => .pure ⟨t, value, ht, hvalue', ?_⟩
  rw [himportant]

/-- A property is read. -/
theorem property_parses {value : List TextPiece} {rows : List (List Node)}
    (hnames : ∀ p ∈ name :: names, p.kind.isNamePart = true) (htext : nameText (name :: names) ≠ "")
    (hcolon : colon.kind = .colon) (hvalue : Writes .rows value rows)
    (hmarked : Marked marks important) (hn : names.length + 1 < n)
    (hn' : 32 * value.length + 12 ≤ n) :
    Succeeds (Facing [] (name :: names ++ colon :: (value ++ (marks ++ semicolon :: rest))))
      (ruleOrProperty (n + 1))
      (make (.property (nameText (name :: names)) [] important) 0 [valueOf rows]).Same
      (Facing [] rest) := by
  have hinside : ∀ p ∈ name :: names ++ colon :: (value ++ marks), p.kind.isInside = true :=
    forall_mem_append.2 ⟨fun p hp => isInside_of_isNamePart (hnames p hp),
      forall_mem_cons.2 ⟨by rw [hcolon]; rfl,
        forall_mem_append.2 ⟨hvalue.isInside, hmarked.isInside⟩⟩⟩
  have hlist : name :: names ++ colon :: (value ++ (marks ++ semicolon :: rest)) =
      name :: names ++ colon :: (value ++ marks) ++ semicolon :: rest := by
    simp
  obtain ⟨hcloses, hhead⟩ := hmarked.closes hsemicolon
  refine (property_of_value hsemicolon hnames htext hcolon ?_
    (hvalue.valueList hcloses hhead hn') hmarked hn).weaken fun node ⟨t, v, _, hv, hnode⟩ => ?_
  · rw [hlist]
    exact (find_semicolon hsemicolon hinside rest).weaken fun _ hkind => hkind ▸ nofun
  · rw [hnode]
    exact hv.parent ..

end Rules

/-! ## Statements -/

/-- **The pieces are read as the statements**, whatever stands behind them, if there are enough
steps. -/
def Stretch.Parses (ps : List TextPiece) (nodes : List Node) : Stretch → Prop
  | .statement => ∃ node, nodes = [node] ∧ ∀ hasPrevious rest n, 32 * ps.length ≤ n →
      Succeeds (Facing [] (ps ++ rest)) (Parse.statement hasPrevious n) (fun r => node.Same r.1)
        (Facing [] rest)
  | .statements => ∀ closing rest before before' n,
      closing.kind = .closeBrace ∨ closing.kind = .eof → SameAll before before' →
      32 * ps.length + 1 ≤ n →
      Succeeds (Facing [] (ps ++ closing :: rest)) (statementsFrom closing.kind before' n)
        (SameAll (before.reverse ++ nodes)) (Facing [] (closing :: rest))
  | .frames => ∀ closing rest n, closing.kind = .closeBrace → 32 * ps.length + 1 ≤ n →
      Succeeds (Facing [] (ps ++ closing :: rest)) (Parse.frames n) (SameAll nodes)
        (Facing [] (closing :: rest))

namespace Stretch.Parses

variable {ps qs hs body rest : List TextPiece} {nodes : List Node} {kind : Kind}
  {opening closing : TextPiece} {n : Nat}

/-- The name of a command with a vendor is none of the names that come before. -/
theorem ne_of_vendor? {name other vendor : String} (h : vendor? name = some vendor)
    (hother : vendor? other = none) : name ≠ other := by
  rintro rfl
  cases hother.symm.trans h

theorem nil : Parses [] [] .statements := by
  intro closing rest before before' n hclose hbefore hn
  obtain _ | n := n
  · omega
  rw [append_nil, nil_append, statementsFrom]
  refine peek.bind fun kind hkind => ?_
  rw [if_pos (.inl hkind)]
  exact .pure hbefore.reverse

theorem cons (hfirst : p.kind.isInside = true) (h : statement.Parses (p :: ps) [node])
    (hmore : statements.Parses qs nodes) : Parses (p :: ps ++ qs) (node :: nodes) .statements := by
  intro closing rest before before' n hclose hbefore hn
  obtain ⟨_, heq, h⟩ := h
  cases heq
  rw [length_append, length_cons] at hn
  obtain _ | n := n
  · omega
  rw [append_assoc, cons_append, ← bind_pure (statementsFrom _ _ _)]
  refine statementsFrom_of_statement hfirst hclose hbefore
    (h _ _ n (by rw [length_cons]; omega)) fun before'' hbefore'' => ?_
  have hrest := hmore closing rest (node :: before) before'' n hclose hbefore'' (by omega)
  rw [bind_pure]
  refine hrest.weaken fun nodes' hnodes => ?_
  simpa only [reverse_cons, append_assoc, singleton_append] using hnodes

theorem noFrame : Parses [] [] .frames := by
  intro closing rest n hclose hn
  obtain _ | n := n
  · omega
  rw [nil_append, Parse.frames]
  refine peek.bind fun kind hkind => ?_
  rw [hkind, hclose]
  exact .pure .nil

section Braces

variable (hopen : opening.kind = .openBrace) (hclose : closing.kind = .closeBrace)
include hopen hclose

/-- A rule is read if the statements in its braces are. -/
theorem withBlock (h : statements.Parses body nodes) (kind : Kind) (line : Nat)
    (hn : 32 * body.length + 3 ≤ n) :
    Succeeds (Facing [] (opening :: (body ++ closing :: rest))) (Parse.withBlock kind line n)
      (ruleOf kind nodes).Same (Facing [] rest) := by
  obtain ⟨n, rfl⟩ : ∃ m, n = m + 2 := ⟨n - 2, by omega⟩
  have hbody := h closing rest [] [] n (.inl hclose) .nil (by omega)
  have hblock : Succeeds (Facing [] (opening :: (body ++ closing :: rest))) (block (n + 1))
      (make .block 0 nodes).Same (Facing [] rest) := by
    rw [hclose] at hbody
    refine (expect hopen).bind fun t _ => hbody.past.bind fun nodes' hnodes => ?_
    exact (expect hclose).bind fun _ _ => .past (.pure (hnodes.make ..))
  exact hblock.bind fun rules hrules => .pure ((hrules.placed _).parent ..)

/-- An animation is read if its steps are. -/
theorem keyframes (h : frames.Parses body nodes)
    (hname : name.kind = .identifier ∨ name.kind = .string) (vendor : Option String) (line : Nat)
    (hn : 32 * body.length + 2 ≤ n) :
    Succeeds (Facing [] (name :: opening :: (body ++ closing :: rest))) (Parse.keyframes vendor line n)
      (ruleOf (.keyframes name.lexeme.value vendor) nodes).Same (Facing [] rest) := by
  obtain _ | n := n
  · omega
  have hframes := h closing rest n hclose (by omega)
  rw [Parse.keyframes]
  refine advance.bind fun kind hkind => ?_
  obtain hname | hname := hname
  all_goals
    rw [hkind, hname]
    refine token.bind fun t ht => (expect hopen).past.bind fun u _ => ?_
    refine hframes.past.bind fun nodes' hnodes => (expect hclose).bind fun _ _ => ?_
    rw [ht.value]
    exact .past (.pure (((hnodes.make ..).placed _).parent ..))

/-- **A rule is read** if what stands in its braces is. -/
theorem rule (hheads : Heads hs kind) (h : kind.inner.Parses body nodes) :
    Parses (hs ++ opening :: (body ++ [closing])) [ruleOf kind nodes] .statement := by
  refine ⟨_, rfl, fun hasPrevious rest n hn => ?_⟩
  simp only [length_append, length_cons, length_nil] at hn
  have hassoc : hs ++ opening :: (body ++ [closing]) ++ rest =
      hs ++ opening :: (body ++ closing :: rest) := by
    simp only [append_assoc, cons_append, nil_append]
  rw [hassoc]
  obtain ⟨n, rfl⟩ : ∃ m, n = m + 2 := ⟨n - 2, by omega⟩
  cases hheads with
  | @selector first hs hfirst hkept hopens =>
    rw [length_cons] at hn
    refine statement_of_ruleOrProperty (P := Same _) hfirst hasPrevious ?_ fun _ _ _ hsame =>
      hsame.trans (stripped_withComments ..).symm
    rw [ruleOrProperty]
    have hlength : (first :: hs).length < n := by rw [length_cons]; omega
    refine (find_openBrace hopen hopens).bind fun kind hkind => ?_
    rw [if_pos hkind]
    refine peekNth_zero.bind fun t _ =>
      (prelude_kept hopen hkept hlength).bind fun template htemplate => ?_
    rw [htemplate]
    exact h.withBlock hopen hclose _ _ (by omega)
  | @media command hs hcommand hname hkept | @supports command hs hcommand hname hkept =>
    rw [length_cons] at hn
    refine statement_of_command hcommand ?_
    rw [commandStatement]
    refine (expect hcommand).bind fun t ht => ?_
    simp only [ht.value, hname, String.reduceEq, or_self, if_false, if_true]
    refine (prelude_kept hopen hkept (by omega)).past.bind fun template htemplate => ?_
    rw [htemplate]
    exact (h.withBlock hopen hclose _ _ (by omega)).bind fun node hnode => .pure hnode
  | @fontFace command hcommand hname =>
    refine statement_of_command hcommand ?_
    rw [commandStatement]
    refine (expect hcommand).bind fun t ht => ?_
    simp only [ht.value, hname, String.reduceEq, or_self, if_false, if_true]
    exact (h.withBlock hopen hclose _ _ (by omega)).past.bind fun node hnode => .pure hnode
  | @keyframes command name vendor hcommand hvendor hname =>
    refine statement_of_command hcommand ?_
    rw [commandStatement]
    refine (expect hcommand).bind fun t ht => ?_
    obtain ⟨hvalue, rfl⟩ | ⟨hsome, hvalue⟩ := hvendor
    · simp only [ht.value, hvalue, String.reduceEq, or_self, if_false, if_true]
      exact (h.keyframes hopen hclose hname _ _ (by omega)).past.bind fun node hnode => .pure hnode
    · obtain ⟨vendor, rfl⟩ := Option.isSome_iff_exists.1 hsome
      have hne (other : String) (hother : vendor? other = none) : command.lexeme.value ≠ other :=
        ne_of_vendor? hvalue hother
      simp only [ht.value, hne "if" rfl, hne "content" rfl, hne "include" rfl, hne "require" rfl,
        hne "load" rfl, hne "break" rfl, hne "asset" rfl, hne "font-face" rfl, hne "media" rfl,
        hne "supports" rfl, hne "root" rfl, hne "keyframes" rfl, hvalue, or_self, if_false]
      exact (h.keyframes hopen hclose hname _ _ (by omega)).past.bind fun node hnode => .pure hnode

theorem frame {inner : List Node} (hkept : KeptFrom 0 hs) (h : statements.Parses body inner)
    (hmore : frames.Parses qs nodes) :
    Parses (hs ++ opening :: (body ++ closing :: qs))
      (ruleOf (.frame (splitTopLevel ',' (headingFrom "" hs))) inner :: nodes) .frames := by
  intro last rest n hlast hn
  simp only [length_append, length_cons] at hn
  obtain _ | n := n
  · omega
  have hassoc : hs ++ opening :: (body ++ closing :: qs) ++ last :: rest =
      hs ++ opening :: (body ++ closing :: (qs ++ last :: rest)) := by
    simp only [append_assoc, cons_append]
  rw [hassoc, Parse.frames]
  -- Either there is nothing before the brace, or the first piece is none that ends the animation.
  obtain ⟨p, ps, hps, hne⟩ : ∃ p ps, hs ++ opening :: (body ++ closing :: (qs ++ last :: rest)) =
      p :: ps ∧ p.kind ≠ .closeBrace ∧ p.kind ≠ .eof := by
    cases hs with
    | nil => exact ⟨_, _, rfl, by rw [hopen]; exact ⟨nofun, nofun⟩⟩
    | cons p hs =>
      have hne := find_inside (hkept.2.2.1 rfl)
      simp only [mem_cons, not_mem_nil, or_false, not_or] at hne
      exact ⟨p, _, rfl, hne.2.2.2, hne.1⟩
  rw [hps]
  refine peek.bind fun kind hkind => ?_
  rw [← hkind] at hne
  split
  · exact absurd rfl hne.1
  · exact absurd rfl hne.2
  · refine peekNth_zero.bind fun t _ => ?_
    rw [← hps]
    refine (prelude_kept hopen hkept (by omega)).bind fun template htemplate => ?_
    rw [htemplate]
    refine (h.withBlock hopen hclose _ _ (by omega)).bind fun node hnode => ?_
    refine (hmore last rest n hlast (by omega)).bind fun nodes' hnodes => ?_
    exact .pure (.cons hnode hnodes)

end Braces

end Stretch.Parses

theorem Heads.isInside {kind : Kind} (h : Heads hs kind) :
    ∃ p ps, hs = p :: ps ∧ p.kind.isInside = true := by
  cases h with
  | selector hfirst hkept hopens => exact ⟨_, _, rfl, hkept.2.2.1 rfl⟩
  | media hcommand | supports hcommand | fontFace hcommand | keyframes hcommand =>
    exact ⟨_, _, rfl, by rw [hcommand]; rfl⟩

/-- A statement begins with a piece that ends no block. -/
theorem Stands.isInside (h : Stands .statement ps nodes) :
    ∃ p qs, ps = p :: qs ∧ p.kind.isInside = true := by
  cases h with
  | property hfirst hnames htext hcolon hvalue hmarked hsemicolon =>
    exact ⟨_, _, rfl, isInside_of_isNamePart (hnames _ mem_cons_self)⟩
  | rule hheads hopen hbody hclose =>
    obtain ⟨p, ps, rfl, hp⟩ := hheads.isInside
    exact ⟨_, _, rfl, hp⟩

/-- **Every statement of the grammar is read as it is written.** -/
theorem Stands.parses {stretch : Stretch} (h : Stands stretch ps nodes) :
    stretch.Parses ps nodes := by
  induction h with
  | @property name names value marks colon semicolon rows important hfirst hnames htext hcolon
      hvalue hmarked hsemicolon =>
    refine ⟨_, rfl, fun hasPrevious rest n hn => ?_⟩
    simp only [length_append, length_cons, length_nil] at hn
    obtain ⟨n, rfl⟩ : ∃ m, n = m + 2 := ⟨n - 2, by omega⟩
    have hassoc : name :: names ++ colon :: (value ++ (marks ++ [semicolon])) ++ rest =
        name :: names ++ colon :: (value ++ (marks ++ semicolon :: rest)) := by
      simp only [append_assoc, cons_append, nil_append]
    rw [hassoc]
    exact statement_of_ruleOrProperty hfirst hasPrevious
      (property_parses hsemicolon hnames htext hcolon hvalue hmarked (by omega) (by omega))
      fun _ _ _ hsame => hsame.trans (stripped_withComments ..).symm
  | rule hheads hopen hbody hclose ih => exact .rule hopen hclose hheads ih
  | nil => exact .nil
  | cons h hmore ih ihmore =>
    obtain ⟨p, ps, rfl, hp⟩ := h.isInside
    exact .cons hp ih ihmore
  | noFrame => exact .noFrame
  | frame hkept hopen hbody hclose hmore ih ihmore => exact .frame hopen hclose hkept ih ihmore

theorem KeptFrom.kind_ne_eof {depth : Nat} (h : KeptFrom depth hs) : ∀ p ∈ hs, p.kind ≠ .eof := by
  induction hs generalizing depth with
  | nil => exact forall_mem_nil _
  | cons p hs ih => exact forall_mem_cons.2 ⟨h.1, ih h.2.2.2⟩

theorem Heads.kind_ne_eof {kind : Kind} (h : Heads hs kind) : ∀ p ∈ hs, p.kind ≠ .eof := by
  cases h with
  | selector hfirst hkept hopens => exact hkept.kind_ne_eof
  | media hcommand hname hkept | supports hcommand hname hkept =>
    exact forall_mem_cons.2 ⟨by rw [hcommand]; exact nofun, hkept.kind_ne_eof⟩
  | fontFace hcommand hname => exact forall_mem_singleton.2 (by rw [hcommand]; exact nofun)
  | keyframes hcommand hvendor hname =>
    refine forall_mem_cons.2 ⟨by rw [hcommand]; exact nofun, forall_mem_singleton.2 ?_⟩
    obtain hname | hname := hname <;> rw [hname] <;> exact nofun

/-- No piece of a plain style sheet is the end of a text. -/
theorem Stands.kind_ne_eof {stretch : Stretch} (h : Stands stretch ps nodes) :
    ∀ p ∈ ps, p.kind ≠ .eof := by
  induction h with
  | property hfirst hnames htext hcolon hvalue hmarked hsemicolon =>
    have hname := fun p hp => (find_inside (isInside_of_isNamePart (hnames p hp))).1
    have hinside := fun p hp => (find_inside (hvalue.isInside p hp)).1
    have hmark := fun p hp => (find_inside (hmarked.isInside p hp)).1
    simpa [or_imp, forall_and, and_assoc, hcolon, hsemicolon] using And.intro hname ⟨hinside, hmark⟩
  | rule hheads hopen hbody hclose ih =>
    simpa [or_imp, forall_and, hopen, hclose] using ⟨hheads.kind_ne_eof, ih⟩
  | nil | noFrame => exact forall_mem_nil _
  | cons h hmore ih ihmore => exact forall_mem_append.2 ⟨ih, ihmore⟩
  | frame hkept hopen hbody hclose hmore ih ihmore =>
    simpa [or_imp, forall_and, hopen, hclose] using ⟨hkept.kind_ne_eof, ih, ihmore⟩

/-- **A text that is laid out in pieces of the grammar is parsed** to the statements that the
pieces stand for. -/
theorem parse_of_stands {source : Source} {last : TextPiece} (h : Stands .statements ps nodes)
    (hlaid : Laid (ps ++ [last]) []) (hlast : last.kind = .eof)
    (htext : source.text.toList = textOf (ps ++ [last])) :
    ∃ root, parse source = .ok root ∧ (make .sheet 1 nodes).Same root := by
  have hlength : ps.length ≤ source.text.length := by
    have hle := ((laid_append.1 hlaid).1).length_le h.kind_ne_eof
    rw [← String.length_toList, htext, textOf_append, length_append]
    omega
  have hrun : Succeeds (Facing [] (ps ++ [last])) (sheet (stepsFor source))
      (make .sheet 1 nodes).Same (fun _ => True) := by
    rw [sheet]
    have hstatements := h.parses last [] [] [] (stepsFor source) (.inr hlast) .nil
      (by rw [stepsFor]; omega)
    rw [hlast] at hstatements
    refine hstatements.bind fun nodes' hnodes => (expect hlast).bind fun _ _ => ?_
    intro s _
    exact ⟨_, s, rfl, hnodes.make .., trivial⟩
  obtain ⟨root, s, hok, hroot, -⟩ := hrun _ (.ofSource hlaid (htext.trans (append_nil _).symm) (by simp))
  exact ⟨root, by rw [parse, StateT.run', hok]; rfl, hroot⟩

end Cascade
