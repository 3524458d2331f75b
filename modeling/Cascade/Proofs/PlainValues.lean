import Cascade.Proofs.Pieces

/-!
# Plain values are read as they are written

A value of plain style sheets is made of literals and functions, in rows with blanks between the
items, and of rows with commas between them.  `Writes` is the grammar of such values: a relation
between the pieces of a text and the items, row by row.  Blanks may be of any size and stand
everywhere but in a few places: a sign touches its number, a function its parenthesis, and an item
does not touch the one before it.

The parser goes through all levels of operators for every item.  That none of them takes hold is
seen at the piece behind the item.
-/

set_option autoImplicit false

namespace Cascade

open Node Parse List
open Succeeds (peekNth_zero advance peek expect token not_accept accept peekNth_one expect_openParen nextIsRaw rawArgument putBack)

variable {ps qs : List TextPiece} {post : TokenStream → Prop} {rows : List (List Node)}
  {name : String} {items row : List Node} {l : Lexeme} {p opening q : TextPiece} {n line : Nat}
  {kind : Kind} {tail' : List Char} {P : Node → Prop}

/-! ## Literals -/

/-- The literal that a token stands for on its own. -/
def Lexeme.literal? (l : Lexeme) : Option Kind :=
  match l.kind with
  | .number => some (.number l.number l.unit)
  | .string => some (.string l.value (l.quote.getD .double))
  | .identifier => some (.identifier l.value)
  | .trueWord => some (.boolean true)
  | .falseWord => some (.boolean false)
  | _ => none

/-- The literal that a token stands for after a minus that touches it. -/
def Lexeme.negative? (l : Lexeme) : Option Kind :=
  match l.kind with
  | .number => some (.number (-l.number) l.unit)
  | .identifier => some (.identifier ("-" ++ l.value))
  | _ => none

/-- Pieces that are a literal. -/
inductive Operand : List TextPiece → Kind → Prop where
  | plain {p : TextPiece} {kind : Kind} (h : p.lexeme.literal? = some kind) : Operand [p] kind
  | negative {sign p : TextPiece} {kind : Kind} (hsign : sign.kind = .minus) (hgap : p.gap = [])
      (h : p.lexeme.negative? = some kind) : Operand [sign, p] kind

/-! ## The grammar -/

/-- The parts of a value, from small to large. -/
inductive Part where
  /-- A literal or a function. -/
  | operand
  /-- An operand, or two numbers with a slash between them. -/
  | item
  /-- Items with blanks between them. -/
  | row
  /-- Rows with commas between them. -/
  | rows

/-- A row of items as one value. -/
def entry : List Node → Node
  | [item] => item
  | items => .make .list 0 items

/-- Rows of items as one value. -/
def valueOf : List (List Node) → Node
  | [row] => entry row
  | rows => .make .comma 0 (rows.map entry)

/-- A function with its arguments. -/
def callOf (name : String) (arguments : List Node) : Node :=
  .make (.function name) 0 [(make .params 0 arguments).placed .params]

/-- The kinds of tokens that are not looked for when a statement is told apart. -/
def TokenKind.isInside : TokenKind → Bool
  | openBrace | closeBrace | semicolon | eof => false
  | _ => true

/-- **The grammar of plain values**: the pieces write the items, row by row. -/
inductive Writes : Part → List TextPiece → List (List Node) → Prop where
  | literal {ps : List TextPiece} {kind : Kind} (h : Operand ps kind) :
      Writes .operand ps [[.make kind 0]]
  | call {ps qs : List TextPiece} {name : String} {opening closing first : TextPiece}
      {rows : List (List Node)} (h : Operand ps (.identifier name))
      (hopen : opening.kind = .openParen) (htouch : opening.gap = [])
      (hclose : closing.kind = .closeParen) (hname : lowercase name ∉ rawFunctions)
      (hurl : lowercase name = "url" →
        first.gap = [] ∧ first.lexeme.text.head?.any opensArgument = true)
      (hargs : Writes .rows (first :: qs) rows) :
      Writes .operand (ps ++ opening :: (first :: qs ++ [closing])) [[callOf name (rows.map entry)]]
  | emptyCall {ps : List TextPiece} {name : String} {opening closing : TextPiece}
      (h : Operand ps (.identifier name)) (hopen : opening.kind = .openParen)
      (htouch : opening.gap = []) (hclose : closing.kind = .closeParen)
      (hname : lowercase name ∉ rawNames) :
      Writes .operand (ps ++ [opening, closing]) [[callOf name []]]
  /-- A function whose argument is kept as text. -/
  | rawCall {ps qs : List TextPiece} {name : String} {opening closing : TextPiece}
      (h : Operand ps (.identifier name)) (hopen : opening.kind = .openParen)
      (htouch : opening.gap = []) (hclose : closing.kind = .closeParen)
      (htight : closing.gap = []) (htext : closing.lexeme.text = [')'])
      (hname : lowercase name ∈ rawNames) (hgap : qs.head?.all (·.gap.isEmpty) = true)
      (hurl : lowercase name = "url" → (textOf qs).head?.any opensArgument = false)
      (hraw : RawBody (textOf qs)) (hinside : ∀ q ∈ qs, q.kind.isInside = true) :
      Writes .operand (ps ++ opening :: (qs ++ [closing]))
        [[callOf name [.make (.raw (String.ofList (Text.trim (textOf qs)))) 0]]]
  | alone {ps : List TextPiece} {rows : List (List Node)} (h : Writes .operand ps rows) :
      Writes .item ps rows
  | ratio {ps : List TextPiece} {value : Float} {unit : Option String} {slash second : TextPiece}
      (h : Operand ps (.number value unit)) (hslash : slash.kind = .slash)
      (hsecond : second.kind = .number) :
      Writes .item (ps ++ [slash, second]) [[.make .slash 0 [.make (.number value unit) 0,
        .make (.number second.lexeme.number second.lexeme.unit) 0]]]
  | last {ps : List TextPiece} {item : Node} (h : Writes .item ps [[item]]) :
      Writes .row ps [[item]]
  | more {ps qs : List TextPiece} {q : TextPiece} {item : Node} {items : List Node}
      (h : Writes .item ps [[item]]) (hgap : q.gap ≠ []) (hmore : Writes .row (q :: qs) [items]) :
      Writes .row (ps ++ q :: qs) [item :: items]
  | lastRow {ps : List TextPiece} {row : List Node} (h : Writes .row ps [row]) :
      Writes .rows ps [row]
  | moreRows {ps qs : List TextPiece} {comma : TextPiece} {row : List Node}
      {rows : List (List Node)} (h : Writes .row ps [row]) (hcomma : comma.kind = .comma)
      (hmore : Writes .rows qs rows) : Writes .rows (ps ++ comma :: qs) (row :: rows)

/-! ## What stands behind an item -/

/-- What may stand behind an item: the end of its row, or an item that does not touch it. -/
inductive Bound : List TextPiece → Prop where
  | mark {p : TextPiece} {ps : List TextPiece}
      (h : p.kind ∈ [.semicolon, .comma, .closeParen, .bang, .command]) : Bound (p :: ps)
  | literal {p : TextPiece} {ps : List TextPiece} (h : p.lexeme.literal?.isSome = true)
      (hgap : p.gap ≠ []) : Bound (p :: ps)
  | sign {p q : TextPiece} {ps : List TextPiece} (h : p.kind = .minus) (hgap : p.gap ≠ [])
      (htouch : q.gap = []) : Bound (p :: q :: ps)

/-- The kinds of literals. -/
theorem Lexeme.kind_of_literal? (h : l.literal?.isSome = true) :
    l.kind ∈ [.number, .string, .identifier, .trueWord, .falseWord] := by
  unfold Lexeme.literal? at h
  split at h <;> simp_all

theorem Lexeme.identifier_of_literal? (h : l.literal? = some (.identifier name)) :
    l.kind = .identifier ∧ l.value = name := by
  unfold Lexeme.literal? at h
  split at h <;> simp_all

theorem Lexeme.identifier_of_negative? (h : l.negative? = some (.identifier name)) :
    l.kind = .identifier ∧ "-" ++ l.value = name := by
  unfold Lexeme.negative? at h
  split at h <;> simp_all

theorem unaryAt_of_literal? (h : l.literal?.isSome = true) : unaryAt l.kind = none := by
  have hkind := Lexeme.kind_of_literal? h
  unfold unaryAt
  split <;> simp_all

/-- Neither the marks at the end of a row nor commands and literals are operators. -/
theorem operatorAt_eq_none {kind : TokenKind}
    (h : kind ∈ [.semicolon, .comma, .closeParen, .bang, .command] ∨
      kind ∈ [.number, .string, .identifier, .trueWord, .falseWord]) (mode : Mode) (level : Nat) :
    operatorAt mode level kind = none := by
  unfold operatorAt
  split <;> simp_all

/-- What stands behind a word: nothing that makes a function of it. -/
def Unopened (ps : List TextPiece) : Prop :=
  ∃ p qs, ps = p :: qs ∧ (p.kind ≠ .openParen ∨ p.gap ≠ [])

theorem Bound.unopened (h : Bound ps) : Unopened ps := by
  cases h with
  | @mark p ps h =>
    refine ⟨p, ps, rfl, .inl fun hkind => ?_⟩
    rw [hkind] at h
    simp at h
  | literal h hgap | sign h hgap => exact ⟨_, _, rfl, .inr hgap⟩

/-- A gap can be seen at the token behind it. -/
theorem TextPiece.Shows.spaced_of_gap {t : Token} (h : p.Shows t) (hgap : p.gap ≠ []) :
    t.spaced = true := by
  rw [h.spaced, isEmpty_eq_false_iff.2 hgap]
  rfl

theorem TextPiece.Shows.not_spaced {t : Token} (h : p.Shows t) (hgap : p.gap = []) :
    t.spaced = false := by
  rw [h.spaced, hgap]
  rfl

section Levels

variable {ps rest : List TextPiece} {tail : List Char} {pre : TokenStream → Prop} {P : Node → Prop}
  {n : Nat} {line : Option Nat}

theorem signStartsPart_of_touching {sign : Token} (hp : p.kind = .minus)
    (hspaced : sign.spaced = true) (htouch : q.gap = []) :
    Succeeds (FacingOn line tail (p :: q :: ps)) (signStartsPart .value .subtract sign) (· = true)
      (FacingOn line tail (p :: q :: ps)) := by
  rw [signStartsPart, if_pos ⟨rfl, .inr rfl, hspaced⟩]
  refine (peekNth_one (by rw [hp]; exact nofun)).bind fun u hu => .pure ?_
  rw [hu.not_spaced htouch]
  rfl

/-- **No operator takes hold of what stands behind an item.** -/
theorem Bound.moreOperands (h : Bound rest) (level : Nat) (left : Node) (n : Nat) :
    Succeeds (FacingOn line tail rest) (moreOperands .value level left (n + 1)) (· = left)
      (FacingOn line tail rest) := by
  rw [Parse.moreOperands]
  cases h with
  | mark h =>
    refine peekNth_zero.bind fun t ht => ?_
    rw [operatorAt_eq_none (.inl (ht.kind ▸ h))]
    exact .pure rfl
  | literal h hgap =>
    refine peekNth_zero.bind fun t ht => ?_
    rw [operatorAt_eq_none (.inr (ht.kind ▸ Lexeme.kind_of_literal? h))]
    exact .pure rfl
  | sign h hgap htouch =>
    refine peekNth_zero.bind fun t ht => ?_
    rw [ht.kind, h]
    by_cases hlevel : level = 1
    · -- The sign is set off from what is before it and touches what is behind it.
      rw [hlevel]
      refine (signStartsPart_of_touching h (ht.spaced_of_gap hgap) htouch).bind_eq ?_
      exact .pure rfl
    · have hnone : operatorAt .value level .minus = none := by
        unfold operatorAt
        split <;> simp_all
      rw [hnone]
      exact .pure rfl

/-- What is read at one level is all that the looser levels read. -/
theorem binary_raise (hrest : Bound rest) {k c : Nat} (hc : 0 < c)
    (h : ∀ n, c ≤ n → Succeeds pre (binary .value k n) P (FacingOn line tail rest)) :
    ∀ j n, c + j ≤ n → Succeeds pre (binary .value (k + j) n) P (FacingOn line tail rest)
  | 0, n, hn => h n hn
  | j + 1, n, hn => by
    obtain ⟨m, rfl⟩ : ∃ m, n = m + 1 + 1 := ⟨n - 2, by omega⟩
    rw [← Nat.add_assoc, binary]
    refine (binary_raise hrest hc h j (m + 1) (by omega)).bind fun a ha => ?_
    exact (hrest.moreOperands _ a m).weaken fun b hb => hb ▸ ha

theorem expression_of_binary (hrest : Bound rest) {k c : Nat} (hc : 0 < c)
    (hk : k ≤ operatorLevels)
    (h : ∀ n, c ≤ n → Succeeds pre (binary .value k n) P (FacingOn line tail rest))
    (hn : c + operatorLevels < n) : Succeeds pre (expression .value n) P (FacingOn line tail rest) := by
  obtain ⟨m, rfl⟩ : ∃ m, n = m + 1 := ⟨n - 1, by omega⟩
  rw [expression]
  have hraise := binary_raise hrest hc h (operatorLevels - k) m (by omega)
  rw [Nat.add_sub_cancel' hk] at hraise
  refine hraise.bind fun a ha => ?_
  rw [if_pos rfl]
  exact .pure ha

end Levels

/-! ## Literals and functions -/

section Operands

variable {ps rest : List TextPiece} {tail : List Char} {n : Nat} {closing : TextPiece}

theorem word_alone {on : Option Nat} (h : Unopened rest) (mode : Mode) (name : String)
    (line n : Nat) :
    Succeeds (FacingOn on tail rest) (word mode name line (n + 1)) (· = make (.identifier name) line)
      (FacingOn on tail rest) := by
  obtain ⟨p, qs, rfl, hp⟩ := h
  rw [word]
  refine peekNth_zero.bind fun t ht => ?_
  rw [if_pos (hp.imp (fun hkind => ht.kind ▸ hkind) ht.spaced_of_gap)]
  exact .pure rfl

/-- A word leads to what may follow a word. -/
theorem Operand.word (h : Operand ps (.identifier name))
    (hword : ∀ line m, n ≤ m → Succeeds (Facing tail rest) (Parse.word .value name line m) P post) :
    Succeeds (Facing tail (ps ++ rest)) (unary .value (n + 2)) P post := by
  generalize hkind : Kind.identifier name = kind at h
  cases h with
  | @plain p _ h =>
    have hsome : p.lexeme.literal?.isSome = true := by rw [h]; rfl
    obtain ⟨hident, hvalue⟩ := Lexeme.identifier_of_literal? (h.trans (congrArg some hkind.symm))
    rw [singleton_append, unary]
    refine peekNth_zero.bind fun t ht => ?_
    rw [ht.kind, TextPiece.kind, unaryAt_of_literal? hsome]
    show Succeeds _ (primary .value (n + 1)) _ _
    rw [primary]
    refine advance.bind fun kind hk => token.bind fun t ht => ?_
    rw [hk, TextPiece.kind, hident]
    show Succeeds _ (Parse.word .value t.value t.line n) _ _
    rw [ht.value, hvalue]
    exact (hword _ n (Nat.le_refl n)).past
  | @negative sign p _ hsign hgap h =>
    obtain ⟨hident, hvalue⟩ := Lexeme.identifier_of_negative? (h.trans (congrArg some hkind.symm))
    rw [cons_append, singleton_append, unary]
    refine peekNth_zero.bind fun t ht => ?_
    rw [ht.kind, hsign]
    show Succeeds _ (Reading.advance >>= _) _ _
    refine advance.bind fun _ _ => peekNth_zero.past.bind fun u hu => ?_
    have hword' : u.kind = .identifier := hu.kind.trans hident
    have htouch : (!u.spaced) = true := by rw [hu.not_spaced hgap]; rfl
    rw [if_neg (by simp [hword']), if_pos ⟨htouch, rfl, hword'⟩, hu.value, hvalue]
    exact advance.bind fun _ _ => (hword _ (n + 1) (Nat.le_succ n)).past

/-- A literal is read. -/
theorem Operand.unary (h : Operand ps kind) (hrest : Unopened rest) (n : Nat) :
    Succeeds (Facing tail (ps ++ rest)) (unary .value (n + 3)) (make kind 0).Same
      (Facing tail rest) := by
  by_cases hname : ∃ name, kind = .identifier name
  · obtain ⟨name, rfl⟩ := hname
    refine h.word fun line m hm => ?_
    obtain _ | m := m
    · omega
    exact (word_alone hrest .value name line m).weaken fun _ h => h ▸ .leaf ..
  cases h with
  | @plain p _ h =>
    have hsome : p.lexeme.literal?.isSome = true := by rw [h]; rfl
    rw [singleton_append, Parse.unary]
    refine peekNth_zero.bind fun t ht => ?_
    rw [ht.kind, TextPiece.kind, unaryAt_of_literal? hsome]
    show Succeeds _ (primary .value (n + 2)) _ _
    rw [primary]
    refine advance.bind fun k hk => token.bind fun t ht => ?_
    rw [hk, TextPiece.kind, ht.number, ht.unit, ht.value, ht.quote]
    unfold Lexeme.literal? at h
    split at h
    case h_3 =>
      cases h
      exact absurd ⟨_, rfl⟩ hname
    case h_6 => cases h
    all_goals
      rename_i hkind
      cases h
      rw [hkind]
      exact (Succeeds.pure (.leaf ..)).past
  | @negative sign p _ hsign hgap h =>
    obtain ⟨hnumber, hvalue⟩ : p.kind = .number ∧
        kind = .number (-p.lexeme.number) p.lexeme.unit := by
      unfold Lexeme.negative? at h
      split at h
      · rename_i hkind
        exact ⟨hkind, (Option.some.inj h).symm⟩
      · exact absurd ⟨_, (Option.some.inj h).symm⟩ hname
      · cases h
    rw [cons_append, singleton_append, Parse.unary]
    refine peekNth_zero.bind fun t ht => ?_
    rw [ht.kind, hsign]
    show Succeeds _ (Reading.advance >>= _) _ _
    refine advance.bind fun _ _ => peekNth_zero.past.bind fun u hu => ?_
    have htouch : (!u.spaced) = true := by rw [hu.not_spaced hgap]; rfl
    rw [if_pos ⟨htouch, nofun, hu.kind.trans hnumber⟩, hu.number, hu.unit, hvalue]
    exact advance.bind fun _ _ => (Succeeds.pure (.leaf ..)).past

/-! ## Functions -/

/-- The opening parenthesis makes a function of a word. -/
theorem word_call (hopen : opening.kind = .openParen) (htouch : opening.gap = [])
    {arguments : List Node}
    (h : Succeeds (Facing tail (opening :: ps)) (functionArguments .value (lowercase name) line n)
      (make .params 0 arguments).Same post) :
    Succeeds (Facing tail (opening :: ps)) (word .value name line (n + 1)) (callOf name arguments).Same
      post := by
  rw [word]
  refine peekNth_zero.bind fun t ht => ?_
  have hfunction : ¬(t.kind ≠ .openParen ∨ t.spaced = true) := by
    rw [ht.kind, ht.not_spaced htouch, hopen]
    simp
  rw [if_neg hfunction]
  refine h.bind fun params hparams => .pure ?_
  exact (hparams.placed _).parent ..

section

variable (hclose : closing.kind = .closeParen) (htight : closing.gap = [])
  (htext : closing.lexeme.text = [')'])

include hclose htight htext

/-- An argument that is kept as text, and its closing parenthesis. -/
theorem finishRaw_kept {o : TextPiece} {body : List Char}
    (hbody : textOf ps ++ tail = body ++ (textOf (closing :: rest) ++ tail'))
    (hlaid : Laid (closing :: rest) tail') (hraw : RawBody body) (line : Nat) :
    Succeeds (fun s => Past tail o ps s ∧ s.pushedBack = 0) (finishRaw line)
      (make .params 0 [.make (.raw (String.ofList (Text.trim body))) 0]).Same
      (Facing tail' rest) := by
  have hparen : textOf (closing :: rest) ++ tail' = ')' :: (textOf rest ++ tail') := by
    rw [textOf_cons, htight, htext]
    rfl
  rw [hparen] at hbody
  rw [finishRaw]
  refine (rawArgument hraw hbody hparen.symm hlaid).bind fun text htext => ?_
  refine (expect hclose).bind fun _ _ => ?_
  rw [htext]
  exact .past (.pure ((Same.leaf ..).parent ..))

/-- **The arguments of a function that keeps them as text**, whatever they would be as tokens. -/
theorem functionArguments_kept {body : List Char} (hopen : opening.kind = .openParen)
    (hbody : textOf ps ++ tail = body ++ (textOf (closing :: rest) ++ tail'))
    (hlaid : Laid (closing :: rest) tail') (hraw : RawBody body) (hname : name ∈ rawNames)
    (hurl : name = "url" → ((textOf ps ++ tail).dropWhile Text.isBlank).head?.any opensArgument = false)
    (line n : Nat) :
    Succeeds (Facing tail (opening :: ps)) (functionArguments .value name line (n + 1))
      (make .params 0 [.make (.raw (String.ofList (Text.trim body))) 0]).Same
      (Facing tail' rest) := by
  have hfinish (o : TextPiece) := finishRaw_kept (o := o) hclose htight htext hbody hlaid hraw line
  rw [functionArguments]
  by_cases hraw' : name ∈ rawFunctions
  · rw [if_pos (contains_iff_mem.2 hraw')]
    exact (expect_openParen hopen).bind fun _ _ => hfinish _
  · have hcontains : ¬rawFunctions.contains name = true := fun h =>
      hraw' (contains_iff_mem.1 h)
    have hname : name = "url" := (mem_cons.1 hname).resolve_right hraw'
    rw [if_neg hcontains, if_pos hname]
    refine (expect_openParen hopen).bind fun _ _ => nextIsRaw.bind fun b hb => ?_
    rw [hb, hurl hname, Bool.not_false, if_pos rfl]
    exact hfinish _

/-- Pieces that are kept as text. -/
theorem functionArguments_pieces (hopen : opening.kind = .openParen)
    (hgap : qs.head?.all (·.gap.isEmpty) = true) (hraw : RawBody (textOf qs))
    (hname : name ∈ rawNames) (hurl : name = "url" → (textOf qs).head?.any opensArgument = false)
    (line n : Nat) : Succeeds (Facing tail (opening :: (qs ++ closing :: rest)))
      (functionArguments .value name line (n + 1))
      (make .params 0 [.make (.raw (String.ofList (Text.trim (textOf qs)))) 0]).Same
      (Facing tail rest) := by
  intro s hs
  have hlaid : Laid (qs ++ closing :: rest) tail := hs.laid.2.2
  refine functionArguments_kept hclose htight htext hopen
    (by rw [textOf_append, append_assoc]) (laid_append.1 hlaid).2 hraw hname (fun h => ?_)
    line n s hs
  have hdrop : (textOf (qs ++ closing :: rest) ++ tail).dropWhile Text.isBlank =
      textOf (qs ++ closing :: rest) ++ tail := by
    cases qs with
    | nil => exact hlaid.dropWhile_isBlank htight
    | cons q qs => exact hlaid.dropWhile_isBlank (isEmpty_iff.1 hgap)
  have hhead := hurl h
  rw [hdrop, textOf_append, textOf_cons, htight, htext]
  cases hqs : textOf qs with
  | nil => rfl
  | cons c cs => rwa [hqs] at hhead

end

/-- The arguments of other functions. -/
theorem functionArguments_cut {first : TextPiece}
    (hopen : opening.kind = .openParen) (hname : name ∉ rawFunctions)
    (hurl : name = "url" → first.gap = [] ∧ first.lexeme.text.head?.any opensArgument = true)
    {P : Node → Prop}
    (h : Succeeds (Facing tail (opening :: first :: qs)) (arguments .value line n) P post) :
    Succeeds (Facing tail (opening :: first :: qs)) (functionArguments .value name line (n + 1)) P
      post := by
  have hcontains : ¬rawFunctions.contains name = true := fun h => hname (contains_iff_mem.1 h)
  rw [functionArguments, if_neg hcontains]
  by_cases hname : name = "url"
  · obtain ⟨hgap, hfirst⟩ := hurl hname
    intro s hs
    have hdrop := hs.laid.2.2.dropWhile_isBlank hgap
    have hhead : (textOf (first :: qs) ++ tail).head?.any opensArgument = true := by
      obtain ⟨c, hhead, hc⟩ := (Option.any_eq_true _ _).1 hfirst
      obtain ⟨cs, hcs⟩ := head?_eq_some_iff.1 hhead
      rw [textOf_cons, hgap, hcs]
      exact hc
    rw [if_pos hname]
    refine ((expect_openParen hopen).bind fun _ _ =>
      nextIsRaw.bind fun b hb => ?_) s hs
    rw [hb, hdrop, hhead, Bool.not_true, if_neg Bool.false_ne_true]
    exact putBack.bind fun _ _ => h
  · rw [if_neg hname]
    exact h

theorem arguments_of_more (hopen : opening.kind = .openParen)
    {args : List Node}
    (h : Succeeds (Facing tail qs) (moreArguments .value n) (SameAll args) post) :
    Succeeds (Facing tail (opening :: qs)) (arguments .value line (n + 1))
      (make .params 0 args).Same post := by
  rw [Parse.arguments]
  refine (expect hopen).bind fun _ _ => h.past.bind fun args hargs => .pure ?_
  exact hargs.make ..

end Operands

/-! ## Rows -/

/-- What stands behind a row of items: a mark that ends it, or `!important`. -/
inductive Closes : List TextPiece → Prop where
  | mark {p : TextPiece} {ps : List TextPiece} (h : p.kind ∈ [.semicolon, .comma, .closeParen]) :
      Closes (p :: ps)
  | important {p q : TextPiece} {ps : List TextPiece} (h : p.kind = .bang)
      (hq : q.kind = .identifier) (hvalue : q.lexeme.value = "important") : Closes (p :: q :: ps)

theorem Closes.bound (h : Closes ps) : Bound ps := by
  cases h with
  | mark h => exact .mark (by simp only [mem_cons, not_mem_nil] at h ⊢; tauto)
  | important h => exact .mark (by rw [h]; simp)

/-- What an item begins with: a literal, a command, or a sign that touches what is behind it. -/
inductive Leading : List TextPiece → Prop where
  | literal {p : TextPiece} {ps : List TextPiece} (h : p.lexeme.literal?.isSome = true) :
      Leading (p :: ps)
  | command {p : TextPiece} {ps : List TextPiece} (h : p.kind = .command) : Leading (p :: ps)
  | sign {p q : TextPiece} {ps : List TextPiece} (h : p.kind = .minus) (htouch : q.gap = []) :
      Leading (p :: q :: ps)

theorem Leading.exists_cons (h : Leading ps) : ∃ p qs, ps = p :: qs := by
  cases h with
  | literal | command | sign => exact ⟨_, _, rfl⟩

theorem Leading.append (h : Leading ps) (qs : List TextPiece) : Leading (ps ++ qs) := by
  cases h with
  | literal h => exact .literal h
  | command h => exact .command h
  | sign h htouch => exact .sign h htouch

theorem Operand.leading (h : Operand ps kind) : Leading ps := by
  cases h with
  | plain h => exact .literal (by rw [h]; rfl)
  | negative hsign hgap h => exact .sign hsign hgap

theorem Writes.leading {part : Part} (h : Writes part ps rows) : Leading ps := by
  induction h with
  | literal h => exact h.leading
  | call h | emptyCall h | rawCall h | ratio h => exact h.leading.append _
  | alone h ih | last h ih | lastRow h ih => exact ih
  | more _ _ _ ih | moreRows _ _ _ ih => exact ih.append _

/-- An item that does not touch the one before it. -/
theorem Leading.bound (h : Leading (p :: ps)) (hgap : p.gap ≠ []) : Bound (p :: ps) := by
  cases h with
  | literal h => exact .literal h hgap
  | command h => exact .mark (by rw [h]; simp)
  | sign h htouch => exact .sign h hgap htouch

section Rows

variable {ps qs rest : List TextPiece} {tail : List Char} {n : Nat} {line : Option Nat}

theorem importantAhead_important (hp : p.kind = .bang) (hq : q.kind = .identifier)
    (hvalue : q.lexeme.value = "important") :
    Succeeds (FacingOn line tail (p :: q :: ps)) importantAhead (· = true)
      (FacingOn line tail (p :: q :: ps)) := by
  refine (peekNth_one (by rw [hp]; exact nofun)).bind fun t ht => .pure ?_
  exact decide_eq_true ⟨ht.kind.trans hq, ht.value.trans hvalue⟩

theorem Closes.atValueEnd (h : Closes rest) :
    Succeeds (FacingOn line tail rest) atValueEnd (· = true) (FacingOn line tail rest) := by
  cases h with
  | mark h =>
    refine peek.bind fun kind hkind => ?_
    simp only [mem_cons, not_mem_nil, or_false] at h
    rw [hkind]
    obtain h | h | h := h <;> rw [h] <;> exact .pure rfl
  | important h hq hvalue =>
    refine peek.bind fun kind hkind => ?_
    rw [hkind, h]
    exact importantAhead_important h hq hvalue

theorem Leading.atValueEnd (h : Leading ps) :
    Succeeds (FacingOn line tail ps) atValueEnd (· = false) (FacingOn line tail ps) := by
  cases h with
  | literal h =>
    refine peek.bind fun kind hkind => ?_
    have hmem := Lexeme.kind_of_literal? h
    simp only [mem_cons, not_mem_nil, or_false] at hmem
    rw [hkind, TextPiece.kind]
    obtain h | h | h | h | h := hmem <;> rw [h] <;> exact .pure rfl
  | command h | sign h =>
    refine peek.bind fun kind hkind => ?_
    rw [hkind, h]
    exact .pure rfl

theorem Leading.valueEntry (h : Leading ps) (hitems : items ≠ [])
    (hvalues : Succeeds (FacingOn line tail ps) (entryValues .value n) (SameAll items) post) :
    Succeeds (FacingOn line tail ps) (valueEntry .value (n + 1)) (entry items).Same post := by
  obtain ⟨p, qs, rfl⟩ := h.exists_cons
  rw [Parse.valueEntry]
  refine peekNth_zero.bind fun t _ => hvalues.bind fun values hvalues => ?_
  obtain _ | ⟨a, _ | ⟨b, items⟩⟩ := items
  · exact absurd rfl hitems
  · obtain ⟨a', _, rfl, ha, hnil⟩ := hvalues.inv_cons
    rw [hnil.inv_nil]
    exact .pure ha
  · obtain ⟨a', _, rfl, ha, hmore⟩ := hvalues.inv_cons
    obtain ⟨b', bs', rfl, hb, hmore⟩ := hmore.inv_cons
    exact .pure ((SameAll.cons ha (.cons hb hmore)).make ..)

theorem Closes.entryValues (h : Closes rest) (n : Nat) :
    Succeeds (FacingOn line tail rest) (entryValues .value (n + 1)) (· = [])
      (FacingOn line tail rest) := by
  rw [Parse.entryValues]
  refine h.atValueEnd.bind_eq ?_
  exact .pure rfl

theorem Leading.entryValues (h : Leading ps) {Q R : List Node → Prop} {mid : TokenStream → Prop}
    (hfirst : Succeeds (FacingOn line tail ps) (expression .value n) P mid)
    (hmore : Succeeds mid (entryValues .value n) Q post) (hcons : ∀ a as, P a → Q as → R (a :: as)) :
    Succeeds (FacingOn line tail ps) (entryValues .value (n + 1)) R post := by
  rw [Parse.entryValues]
  refine h.atValueEnd.bind_eq ?_
  exact hfirst.bind fun a ha => hmore.bind fun as has => .pure (hcons a as ha has)

/-- After the last part of a value no more of them are read. -/
theorem moreEntries_nil (h : Closes rest) (hhead : rest.head?.all (·.kind != .comma) = true)
    (n : Nat) :
    Succeeds (FacingOn line tail rest) (moreEntries .value (n + 1)) (· = [])
      (FacingOn line tail rest) := by
  obtain ⟨p, ps, rfl⟩ : ∃ p ps, rest = p :: ps := by
    cases h with
    | mark | important => exact ⟨_, _, rfl⟩
  rw [moreEntries]
  refine (not_accept (by simpa using hhead)).bind_eq ?_
  exact .pure rfl

/-- A value of one part. -/
theorem Leading.valueList (h : Leading ps)
    (hentry : Succeeds (FacingOn line tail ps) (Parse.valueEntry .value (n + 1)) P
      (FacingOn line tail' rest))
    (hrest : Closes rest) (hhead : rest.head?.all (·.kind != .comma) = true) :
    Succeeds (FacingOn line tail ps) (Parse.valueList .value (n + 1)) P
      (FacingOn line tail' rest) := by
  obtain ⟨p, qs, rfl⟩ := h.exists_cons
  rw [Parse.valueList]
  refine peekNth_zero.bind fun t _ => hentry.bind fun a ha => ?_
  refine (moreEntries_nil hrest hhead n).bind fun as has => ?_
  rw [has]
  exact .pure ha

end Rows

/-! ## Values -/

/-- **The pieces are read as the rows**, by the parsers of the part, whatever may stand behind
them, if there are enough steps. -/
def Part.Parses (ps : List TextPiece) (rows : List (List Node)) : Part → Prop
  | .operand => ∃ item, rows = [[item]] ∧ ∀ rest n, Unopened rest → 32 * ps.length ≤ n →
      Succeeds (Facing [] (ps ++ rest)) (unary .value n) item.Same (Facing [] rest)
  | .item => ∃ item, rows = [[item]] ∧ ∀ rest n, Bound rest → 32 * ps.length + 9 ≤ n →
      Succeeds (Facing [] (ps ++ rest)) (expression .value n) item.Same (Facing [] rest)
  | .row => ∃ items, rows = [items] ∧ items ≠ [] ∧ ∀ rest n, Closes rest →
      32 * ps.length + 10 ≤ n →
      Succeeds (Facing [] (ps ++ rest)) (entryValues .value n) (SameAll items) (Facing [] rest)
  | .rows => (∀ closing rest n, closing.kind = .closeParen → 32 * ps.length + 12 ≤ n →
      Succeeds (Facing [] (ps ++ closing :: rest)) (moreArguments .value n) (SameAll (rows.map entry))
        (Facing [] rest)) ∧
    ∀ comma rest n, comma.kind = .comma → Closes rest → rest.head?.all (·.kind != .comma) = true →
      32 * ps.length + 12 ≤ n →
      Succeeds (Facing [] (comma :: (ps ++ rest))) (moreEntries .value n) (SameAll (rows.map entry))
        (Facing [] rest)

namespace Part.Parses

variable {ps qs rest : List TextPiece} {rows : List (List Node)} {name : String}
  {opening closing : TextPiece}

/-- A word with its arguments. -/
theorem function (h : Operand ps (.identifier name)) (hopen : opening.kind = .openParen)
    (htouch : opening.gap = []) {arguments : List Node} {k : Nat}
    (hargs : ∀ rest line n, k ≤ n → Succeeds (Facing [] (opening :: (qs ++ rest)))
      (functionArguments .value (lowercase name) line n) (make .params 0 arguments).Same
      (Facing [] rest))
    (hk : k + 3 ≤ 32 * (ps ++ opening :: qs).length) :
    Parses (ps ++ opening :: qs) [[callOf name arguments]] .operand := by
  refine ⟨_, rfl, fun rest n _ hn => ?_⟩
  obtain ⟨n, rfl⟩ : ∃ m, n = m + k + 3 := ⟨n - k - 3, by omega⟩
  rw [append_assoc, cons_append]
  refine h.word fun line m hm => ?_
  obtain _ | m := m
  · omega
  exact word_call hopen htouch (hargs rest line m (by omega))

theorem alone (h : Parses ps rows .operand) : Parses ps rows .item := by
  obtain ⟨item, rfl, h⟩ := h
  refine ⟨item, rfl, fun rest n hrest hn => ?_⟩
  have hbinary (n : Nat) (hn : 32 * ps.length + 1 ≤ n) :
      Succeeds (Facing [] (ps ++ rest)) (binary .value 0 n) item.Same (Facing [] rest) := by
    obtain _ | n := n
    · omega
    rw [binary]
    exact h rest n hrest.unopened (by omega)
  exact expression_of_binary hrest (Nat.succ_pos _) (Nat.zero_le _) hbinary
    (show 32 * ps.length + 1 + 7 < n by omega)

/-- The slash between two numbers is kept. -/
theorem slashIsKept_numbers {slash second : TextPiece} {left : Node} {value : Float}
    {unit : Option String} (hleft : left.kind = .number value unit)
    (hslash : slash.kind = .slash) (hsecond : second.kind = .number) :
    Succeeds (Facing [] (slash :: second :: rest)) (slashIsKept .value .divide left) (· = true)
      (Facing [] (slash :: second :: rest)) := by
  rw [slashIsKept, hleft]
  refine (peekNth_one (by rw [hslash]; exact nofun)).bind fun t ht => .pure ?_
  exact decide_eq_true (ht.kind.trans hsecond)

theorem ratio {value : Float} {unit : Option String} {slash second : TextPiece}
    (h : Operand ps (.number value unit)) (hslash : slash.kind = .slash)
    (hsecond : second.kind = .number) :
    Parses (ps ++ [slash, second]) [[.make .slash 0 [.make (.number value unit) 0,
      .make (.number second.lexeme.number second.lexeme.unit) 0]]] .item := by
  refine ⟨_, rfl, fun rest n hrest hn => ?_⟩
  have hlength : (ps ++ [slash, second]).length = ps.length + 2 := length_append
  rw [append_assoc]
  have hunopened : Unopened (slash :: second :: rest) :=
    ⟨_, _, rfl, .inl (by rw [hslash]; exact nofun)⟩
  have hnumber : Operand [second] (.number second.lexeme.number second.lexeme.unit) :=
    .plain (by rw [Lexeme.literal?, show second.lexeme.kind = _ from hsecond])
  refine expression_of_binary hrest (Nat.succ_pos 5) (show 1 ≤ operatorLevels by decide)
    (fun n hn => ?_) (show 6 + 7 < n by omega)
  obtain ⟨n, rfl⟩ : ∃ m, n = m + 6 := ⟨n - 6, by omega⟩
  rw [binary, binary]
  refine (h.unary hunopened (n + 1)).bind fun left hleft => ?_
  rw [moreOperands]
  refine peekNth_zero.bind fun sign hsign => ?_
  rw [hsign.kind, hslash]
  show Succeeds _ (signStartsPart .value .divide sign >>= _) _ _
  rw [signStartsPart, if_neg (by simp)]
  refine (Succeeds.pure rfl).bind fun b hb => ?_
  rw [← hb, if_neg Bool.false_ne_true]
  refine (slashIsKept_numbers hleft.kind_eq hslash hsecond).bind fun kept hkept => ?_
  refine advance.bind fun _ _ => ?_
  rw [binary]
  refine (hnumber.unary hrest.unopened n).past.bind fun right hright => ?_
  refine (hrest.moreOperands 0 _ (n + 3)).weaken fun a ha => ?_
  rw [ha, hkept]
  exact (SameAll.cons hleft (.singleton hright)).make ..

variable (hlead : Leading ps)

include hlead

theorem last (h : Parses ps rows .item) : Parses ps rows .row := by
  obtain ⟨item, rfl, h⟩ := h
  refine ⟨[item], rfl, cons_ne_nil _ _, fun rest n hrest hn => ?_⟩
  obtain ⟨n, rfl⟩ : ∃ m, n = m + 2 := ⟨n - 2, by omega⟩
  exact (hlead.append rest).entryValues (h rest (n + 1) hrest.bound (by omega))
    (hrest.entryValues n) fun _ _ ha has => has ▸ .singleton ha

theorem more {item : Node} (h : Parses ps [[item]] .item) (hgap : q.gap ≠ [])
    (hmorelead : Leading (q :: qs)) (hmore : Parses (q :: qs) [items] .row) :
    Parses (ps ++ q :: qs) [item :: items] .row := by
  obtain ⟨_, heq, h⟩ := h
  obtain ⟨_, heq', hitems, hmore⟩ := hmore
  cases heq
  cases heq'
  refine ⟨_, rfl, cons_ne_nil _ _, fun rest n hrest hn => ?_⟩
  have hlength : 0 < ps.length := by
    obtain ⟨p, ps, rfl⟩ := hlead.exists_cons
    exact Nat.succ_pos _
  rw [length_append] at hn
  obtain _ | n := n
  · omega
  rw [append_assoc]
  have hbound : Bound (q :: qs ++ rest) := (hmorelead.append rest).bound hgap
  exact (hlead.append _).entryValues (h _ n hbound (by omega)) (hmore rest n hrest (by omega))
    fun _ _ => .cons

/-- A row as one part of a value. -/
theorem valueEntry (h : Parses ps [row] .row) (hrest : Closes rest) (hn : 32 * ps.length + 11 ≤ n) :
    Succeeds (Facing [] (ps ++ rest)) (Parse.valueEntry .value n) (entry row).Same (Facing [] rest) := by
  obtain ⟨_, heq, hitems, h⟩ := h
  cases heq
  obtain _ | n := n
  · omega
  exact (hlead.append rest).valueEntry hitems (h rest n hrest (by omega))

theorem moreEntries_cons {comma : TextPiece} (hcomma : comma.kind = .comma)
    (h : Parses ps [row] .row) (hrest : Closes rest) (hn : 32 * ps.length + 11 ≤ n)
    {entries : List Node}
    (hmore : Succeeds (Facing [] rest) (moreEntries .value n) (SameAll entries) post) :
    Succeeds (Facing [] (comma :: (ps ++ rest))) (moreEntries .value (n + 1))
      (SameAll (entry row :: entries)) post := by
  rw [moreEntries]
  refine (accept hcomma).bind_eq ?_
  refine (h.valueEntry hlead hrest hn).past.bind fun a ha => ?_
  exact hmore.bind fun as has => .pure (.cons ha has)

/-- What begins an item is no closing parenthesis. -/
theorem not_accept_closeParen :
    Succeeds (Facing [] ps) (Reading.accept .closeParen) (· = false) (Facing [] ps) := by
  cases hlead with
  | @literal p ps h =>
    refine not_accept fun hkind => ?_
    have hmem := Lexeme.kind_of_literal? h
    rw [show p.lexeme.kind = _ from hkind] at hmem
    simp at hmem
  | command h | sign h => exact not_accept (by rw [h]; exact nofun)

theorem lastRow (h : Parses ps [row] .row) : Parses ps [row] .rows := by
  constructor
  · intro closing rest n hclose hn
    obtain _ | n := n
    · omega
    rw [moreArguments]
    refine (not_accept_closeParen (hlead.append _)).bind_eq ?_
    have hcloses : Closes (closing :: rest) := .mark (by rw [hclose]; simp)
    refine (h.valueEntry hlead hcloses (by omega)).bind fun a ha => ?_
    refine (not_accept (by rw [hclose]; exact nofun)).bind_eq ?_
    exact (expect hclose).bind fun _ _ => (Succeeds.pure (.singleton ha)).past
  · intro comma rest n hcomma hrest hhead hn
    obtain ⟨n, rfl⟩ : ∃ m, n = m + 2 := ⟨n - 2, by omega⟩
    refine moreEntries_cons hlead hcomma h hrest (by omega) ?_
    exact (moreEntries_nil hrest hhead n).weaken fun _ hnil => hnil ▸ .nil

theorem moreRows {comma : TextPiece} (h : Parses ps [row] .row) (hcomma : comma.kind = .comma)
    (hmore : Parses qs rows .rows) : Parses (ps ++ comma :: qs) (row :: rows) .rows := by
  obtain ⟨harguments, hentries⟩ := hmore
  have hcloses (rest : List TextPiece) : Closes (comma :: rest) := .mark (by rw [hcomma]; simp)
  constructor
  · intro closing rest n hclose hn
    rw [length_append, length_cons] at hn
    obtain _ | n := n
    · omega
    rw [moreArguments, append_assoc]
    refine (not_accept_closeParen (hlead.append _)).bind_eq ?_
    refine (h.valueEntry hlead (hcloses _) (by omega)).bind fun a ha => ?_
    refine (accept hcomma).bind_eq ?_
    refine (harguments closing rest n hclose (by omega)).past.bind fun as has => ?_
    exact .pure (.cons ha has)
  · intro first rest n hfirst hrest hhead hn
    rw [length_append, length_cons] at hn
    obtain _ | n := n
    · omega
    rw [append_assoc]
    exact moreEntries_cons hlead hfirst h (hcloses _) (by omega)
      (hentries comma rest n hcomma hrest hhead (by omega))

end Part.Parses

/-- **Every value of the grammar is read as it is written.** -/
theorem Writes.parses {part : Part} (h : Writes part ps rows) : part.Parses ps rows := by
  induction h with
  | @literal ps kind h =>
    refine ⟨_, rfl, fun rest n hrest hn => ?_⟩
    have hlength : 0 < ps.length := by
      obtain ⟨p, qs, rfl⟩ := h.leading.exists_cons
      exact Nat.succ_pos _
    obtain ⟨n, rfl⟩ : ∃ m, n = m + 3 := ⟨n - 3, by omega⟩
    exact h.unary hrest n
  | @call ps qs name opening closing first rows h hopen htouch hclose hname hurl hargs ih =>
    refine .function h hopen htouch (k := 32 * (first :: qs).length + 14) ?_ ?_
    · intro rest line n hn
      obtain ⟨n, rfl⟩ : ∃ m, n = m + 2 := ⟨n - 2, by omega⟩
      rw [append_assoc]
      refine functionArguments_cut hopen hname hurl ?_
      exact arguments_of_more hopen (ih.1 closing rest n hclose (by omega))
    · simp only [length_append, length_cons, length_nil]
      omega
  | @emptyCall ps name opening closing h hopen htouch hclose hname =>
    refine .function h hopen htouch (k := 3) ?_ ?_
    · intro rest line n hn
      obtain ⟨n, rfl⟩ : ∃ m, n = m + 3 := ⟨n - 3, by omega⟩
      refine functionArguments_cut hopen (fun hraw => hname (mem_cons_of_mem _ hraw))
        (fun hurl => absurd (by rw [hurl]; exact mem_cons_self) hname) ?_
      refine arguments_of_more hopen ?_
      rw [moreArguments]
      refine (accept hclose).bind_eq ?_
      exact (Succeeds.pure .nil).past
    · simp only [length_append, length_cons, length_nil]
      omega
  | @rawCall ps qs name opening closing h hopen htouch hclose htight htext hname hgap hurl hraw =>
    refine .function h hopen htouch (k := 1) ?_ ?_
    · intro rest line n hn
      obtain _ | n := n
      · omega
      rw [append_assoc]
      exact functionArguments_pieces hclose htight htext hopen hgap hraw hname hurl line n
    · simp only [length_append, length_cons, length_nil]
      omega
  | alone h ih => exact ih.alone
  | ratio h hslash hsecond => exact .ratio h hslash hsecond
  | last h ih => exact ih.last h.leading
  | more h hgap hmore ih ihmore => exact .more h.leading ih hgap hmore.leading ihmore
  | lastRow h ih => exact .lastRow h.leading ih
  | moreRows h hcomma hmore ih ihmore => exact .moreRows h.leading ih hcomma ihmore

theorem Operand.isInside (h : Operand ps kind) :
    ∀ p ∈ ps, p.kind.isInside = true := by
  cases h with
  | @plain p kind h =>
    have hmem := Lexeme.kind_of_literal? (l := p.lexeme) (by rw [h]; rfl)
    simp only [mem_cons, not_mem_nil, or_false] at hmem
    simp only [forall_mem_singleton, TextPiece.kind]
    obtain h | h | h | h | h := hmem <;> rw [h] <;> rfl
  | @negative sign p kind hsign hgap h =>
    have hkind : p.kind = .number ∨ p.kind = .identifier := by
      unfold Lexeme.negative? at h
      split at h
      · exact .inl ‹_›
      · exact .inr ‹_›
      · cases h
    refine forall_mem_cons.2 ⟨by rw [hsign]; rfl, forall_mem_singleton.2 ?_⟩
    obtain h | h := hkind <;> rw [h] <;> rfl

/-- No piece of a value is a brace or a semicolon. -/
theorem Writes.isInside {part : Part} (h : Writes part ps rows) :
    ∀ p ∈ ps, p.kind.isInside = true := by
  induction h with
  | literal h => exact h.isInside
  | call h hopen htouch hclose hname hurl hargs ih =>
    simpa [or_imp, forall_and, TokenKind.isInside, hopen, hclose] using And.intro h.isInside ih
  | emptyCall h hopen htouch hclose hname =>
    simpa [or_imp, forall_and, TokenKind.isInside, hopen, hclose] using h.isInside
  | rawCall h hopen htouch hclose htight htext hname hgap hurl hraw hinside =>
    simpa [or_imp, forall_and, TokenKind.isInside, hopen, hclose] using ⟨h.isInside, hinside⟩
  | alone h ih | last h ih | lastRow h ih => exact ih
  | ratio h hslash hsecond =>
    simpa [or_imp, forall_and, TokenKind.isInside, hslash, hsecond] using h.isInside
  | more h hgap hmore ih ihmore => exact forall_mem_append.2 ⟨ih, ihmore⟩
  | moreRows h hcomma hmore ih ihmore =>
    exact forall_mem_append.2 ⟨ih, forall_mem_cons.2 ⟨by rw [hcomma]; rfl, ihmore⟩⟩

/-- **A whole value** is read up to what ends it. -/
theorem Writes.valueList {rest : List TextPiece} (h : Writes .rows ps rows) (hrest : Closes rest)
    (hhead : rest.head?.all (·.kind != .comma) = true) (hn : 32 * ps.length + 12 ≤ n) :
    Succeeds (Facing [] (ps ++ rest)) (valueList .value n) (valueOf rows).Same (Facing [] rest) := by
  have hlead := h.leading
  cases h with
  | lastRow h =>
    obtain _ | n := n
    · omega
    exact (hlead.append rest).valueList (h.parses.valueEntry hlead hrest (by omega)) hrest hhead
  | @moreRows ps qs comma row rows h hcomma hmore =>
    obtain ⟨p, ps', hps⟩ := (hlead.append rest).exists_cons
    rw [Parse.valueList, hps]
    refine peekNth_zero.bind fun t _ => ?_
    have hcloses : Closes (comma :: (qs ++ rest)) := .mark (by rw [hcomma]; simp)
    rw [length_append, length_cons] at hn
    rw [← hps, append_assoc]
    refine (h.parses.valueEntry h.leading hcloses (by omega)).bind fun a ha => ?_
    refine (hmore.parses.2 comma rest n hcomma hrest hhead (by omega)).bind fun as has => ?_
    obtain _ | ⟨second, rows⟩ := rows
    · cases hmore
    · obtain ⟨b, bs, rfl, hb, hbs⟩ := has.inv_cons
      exact .pure ((SameAll.cons ha (.cons hb hbs)).make ..)

/-! ## Trees of values -/

theorem isPlain_entry (h : ∀ n ∈ items, IsPlain n) : IsPlain (entry items) := by
  unfold entry
  split
  · exact h _ mem_cons_self
  · exact .group (.inl rfl) h

theorem isPlain_valueOf (h : ∀ row ∈ rows, ∀ n ∈ row, IsPlain n) : IsPlain (valueOf rows) := by
  unfold valueOf
  split
  · exact isPlain_entry (h _ mem_cons_self)
  · exact .group (.inr (.inl rfl))
      (forall_mem_map.2 fun row hrow => isPlain_entry (h row hrow))

theorem relation_valueOf (h : ∀ row ∈ rows, ∀ n ∈ row, n.relation = none) :
    (valueOf rows).relation = none := by
  obtain _ | ⟨row, _ | ⟨second, rows⟩⟩ := rows
  · rfl
  · obtain _ | ⟨item, _ | ⟨next, items⟩⟩ := row
    · rfl
    · exact h _ mem_cons_self item mem_cons_self
    · rfl
  · rfl

end Cascade
