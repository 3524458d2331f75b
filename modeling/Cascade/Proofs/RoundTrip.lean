import Cascade.Proofs.PlainStatements

/-!
# Printed expressions are parsed back

An expression is printed with a blank around every binary operator and after every unary one, and
with parentheses only where its levels demand them: around what binds more loosely than its place
allows.  The printed text, put into `@expr(...)` as the value of a property, is parsed as the
expression it was printed from.

The parser reads a chain of operators in a loop, while the grammar nests it to the left.  What is
shown of a level of operators is therefore not that its parser returns the expression, but that it
comes to the point where the expression is read and the loop looks for the next operator.
-/

set_option autoImplicit false

namespace Cascade

open List

variable (op : BinaryOp) (l : Literal)
open Succeeds (peekNth_zero advance peek expect token)

/-! ## The printer -/

/-- The sign of an assignment. -/
def assignSign : Option AssignOp → String
  | none => "="
  | some op => op.binary.symbol ++ "="

/-- The token of an assignment. -/
def assignLexeme (op : Option AssignOp) : Lexeme :=
  { kind := assignToken op, text := (assignSign op).toList, assign := op }

/-- The token of a binary operator. -/
def BinaryOp.lexeme : BinaryOp → Lexeme
  | .and => keywordLexeme .andWord
  | .or => keywordLexeme .orWord
  | op => markLexeme op.token

theorem BinaryOp.kind_lexeme : op.lexeme.kind = op.token := by
  cases op <;> rfl

theorem BinaryOp.text_lexeme : op.lexeme.text = op.symbol.toList := by
  cases op <;> rfl

theorem UnaryOp.text_lexeme (op : UnaryOp) : (markLexeme op.token).text = op.symbol.toList := by
  cases op <;> rfl

/-- A text in parentheses, if they are needed. -/
def inParens (needed : Bool) (text : List Char) : List Char :=
  if needed then '(' :: text ++ [')'] else text

/-- The printed form of an expression in a place where everything up to level `k` may stand.  The
operands of a binary operator are on its own level on the left and on the one below on the right,
the value of an assignment is again on the level of assignments. -/
def Expression.written : Expression → Nat → List Char
  | .literal l, _ => l.lexeme.text
  | .dashed w, _ => '-' :: w.text
  | .unary op e, _ => op.symbol.toList ++ ' ' :: e.written 0
  | .binary op l r, k =>
    inParens (k < op.level + 1)
      (l.written (op.level + 1) ++ ' ' :: op.symbol.toList ++ ' ' :: r.written op.level)
  | .assign x op e, k =>
    inParens (k < assignLevel)
      (x.written ++ ' ' :: (assignSign op).toList ++ ' ' :: e.written assignLevel)

/-- The printed form of an expression on its own. -/
def Expression.text (e : Expression) : String :=
  String.ofList (e.written assignLevel)

/-! ## What the parsers do -/

open Parse

/-- A stream with pieces ahead of it, which are the rest of a text of one line. -/
abbrev Ahead (line : Nat) : List TextPiece → TokenStream → Prop :=
  FacingOn (some line) []

/-- The piece of a mark that touches what stands before it. -/
def markPiece (kind : TokenKind) : TextPiece where
  lexeme := markLexeme kind

/-- The piece does not go on with an expression of level `k`. -/
structure Follows (k : Nat) (p : TextPiece) : Prop where
  kind_ne : p.kind ≠ .openParen
  operatorAt : ∀ j < k, operatorAt .expression j p.kind = none

theorem Follows.mono {j k : Nat} {p : TextPiece} (h : Follows k p) (hjk : j ≤ k) : Follows j p :=
  ⟨h.kind_ne, fun i hi => h.operatorAt i (hi.trans_le hjk)⟩

theorem Follows.unopened {k : Nat} {p : TextPiece} (h : Follows k p) (rest : List TextPiece) :
    Unopened (p :: rest) :=
  ⟨p, rest, rfl, .inl h.kind_ne⟩

/-- What the parsers do with pieces that are `e` at level `k`, whatever stands behind them.  Level
zero holds operands, level `k + 1` the binary operators of level `k`, and the last one
assignments. -/
structure Accepts (line k : Nat) (e : Expression) (ps : List TextPiece) : Prop where
  /-- An operand is read. -/
  operand : k = 0 → ∀ {n : Nat} {p : TextPiece} {rest : List TextPiece}, Follows 0 p →
    12 * ps.length ≤ n →
    Succeeds (Ahead line (ps ++ p :: rest)) (unary .expression n) (· = e.node line)
      (Ahead line (p :: rest))
  /-- A chain of operators is read up to the point where the loop looks for the next one. -/
  chain : ∀ {j : Nat}, k = j + 1 → j < operatorLevels → ∀ {n c : Nat} {p : TextPiece}
    {rest : List TextPiece} {P : Node → Prop} {post : TokenStream → Prop}, Follows j p →
    12 * ps.length + k + 1 ≤ n → c + ps.length < n →
    (∀ m, c ≤ m → Succeeds (Ahead line (p :: rest)) (moreOperands .expression j (e.node line) m) P
      post) →
    Succeeds (Ahead line (ps ++ p :: rest)) (binary .expression k n) P post
  /-- A whole expression is read. -/
  whole : k = assignLevel → ∀ {n : Nat} {p : TextPiece} {rest : List TextPiece},
    Follows operatorLevels p → p.kind ≠ .equals → p.kind ≠ .assign →
    12 * ps.length + operatorLevels + 2 ≤ n →
    Succeeds (Ahead line (ps ++ p :: rest)) (expression .expression n) (· = e.node line)
      (Ahead line (p :: rest))

section Levels

variable {line k j n : Nat} {e : Expression} {p sign opening closing : TextPiece}
  {ps rest : List TextPiece}

theorem Accepts.ofOperand (h : ∀ {n : Nat} {p : TextPiece} {rest : List TextPiece}, Follows 0 p →
    12 * ps.length ≤ n → Succeeds (Ahead line (ps ++ p :: rest)) (unary .expression n)
      (· = e.node line) (Ahead line (p :: rest))) : Accepts line 0 e ps :=
  ⟨fun _ => h, nofun, nofun⟩

/-- The loop over the operators of a level ends where none of them follows. -/
theorem moreOperands_end (h : operatorAt .expression j p.kind = none) (left : Node) (hn : 0 < n) :
    Succeeds (Ahead line (p :: rest)) (moreOperands .expression j left n) (· = left)
      (Ahead line (p :: rest)) := by
  obtain _ | n := n
  · omega
  rw [moreOperands]
  refine peekNth_zero.bind fun t ht => ?_
  rw [ht.kind, h]
  exact .pure rfl

/-- Up to the last level of operators, the parser of a level reads what the level allows. -/
theorem Accepts.yields (h : Accepts line k e ps) (hk : k ≤ operatorLevels) (hp : Follows k p)
    (hn : 12 * ps.length + k + 1 ≤ n) :
    Succeeds (Ahead line (ps ++ p :: rest)) (binary .expression k n) (· = e.node line)
      (Ahead line (p :: rest)) := by
  cases k with
  | zero =>
    obtain _ | n := n
    · omega
    rw [binary]
    exact h.operand rfl hp (by omega)
  | succ j =>
    exact h.chain (c := 1) rfl hk (hp.mono (Nat.le_succ j)) hn (by omega) fun m hm =>
      moreOperands_end (hp.operatorAt j (Nat.lt_succ_self j)) _ hm

/-! ### Operands -/

theorem unaryAt_lexeme : unaryAt l.lexeme.kind = none := by
  match l with
  | .boolean true | .boolean false | .number _ | .string _ | .word _ | .null | .reference _ => rfl

theorem accepts_literal (gap : List Char) : Accepts line 0 (.literal l) [⟨gap, l.lexeme⟩] := by
  refine .ofOperand fun {n p rest} hp hn => ?_
  rw [length_singleton] at hn
  obtain ⟨n, rfl⟩ : ∃ m, n = m + 3 := ⟨n - 3, by omega⟩
  rw [singleton_append, unary]
  refine peekNth_zero.bind fun t ht => ?_
  rw [ht.kind, TextPiece.kind, unaryAt_lexeme]
  show Succeeds _ (primary .expression (n + 2)) _ _
  rw [primary]
  refine advance.bind fun kind hkind => token.bind fun t ht => ?_
  have hline : t.line = line := ht.line line rfl (ht.kind ▸ l.kind_ne_eof)
  rw [hkind, hline, ht.number, ht.unit, ht.value, ht.quote, TextPiece.kind]
  cases l with
  | word w => exact (word_alone (hp.unopened rest) _ _ _ _).past
  | boolean b => cases b <;> exact .past (.pure rfl)
  | _ => exact .past (.pure rfl)

theorem accepts_dashed (w : Word) (gap : List Char) :
    Accepts line 0 (.dashed w) [⟨gap, markLexeme .minus⟩, ⟨[], w.lexeme⟩] := by
  refine .ofOperand fun {n p rest} hp hn => ?_
  rw [length_cons] at hn
  obtain ⟨n, rfl⟩ : ∃ m, n = m + 2 := ⟨n - 2, by omega⟩
  rw [cons_append, singleton_append, unary]
  refine peekNth_zero.bind fun sign hsign => ?_
  have hline : sign.line = line := hsign.line line rfl fun h => TokenKind.noConfusion (hsign.kind.symm.trans h)
  rw [hsign.kind, hline]
  refine advance.bind fun _ _ => peekNth_zero.past.bind fun t ht => ?_
  rw [ht.kind, ht.value, ht.not_spaced rfl]
  exact advance.bind fun _ _ => (word_alone (hp.unopened rest) _ _ _ _).past

/-- A whole expression and the parenthesis that closes it. -/
theorem Accepts.closed (h : Accepts line assignLevel e ps) (hclose : closing.kind = .closeParen)
    (hn : 12 * ps.length + operatorLevels + 2 ≤ n) :
    Succeeds (Ahead line (ps ++ closing :: rest))
      (do
        let inner ← expression .expression n
        let _ ← Reading.expect .closeParen
        pure inner)
      (· = e.node line) (Ahead line rest) := by
  have hfollows : Follows operatorLevels closing := ⟨by simp [hclose], by rw [hclose]; decide⟩
  refine (h.whole rfl hfollows (by simp [hclose]) (by simp [hclose]) hn).bind fun inner hinner => ?_
  exact (expect hclose).bind fun _ _ => .past (.pure hinner)

theorem accepts_group (hopen : opening.kind = .openParen) (h : Accepts line assignLevel e ps)
    (hclose : closing.kind = .closeParen) : Accepts line 0 e (opening :: (ps ++ [closing])) := by
  refine .ofOperand fun {n p rest} _ hn => ?_
  simp only [length_cons, length_append, length_nil] at hn
  obtain ⟨n, rfl⟩ : ∃ m, n = m + 2 := ⟨n - 2, by omega⟩
  rw [cons_append, append_assoc, unary]
  refine peekNth_zero.bind fun t ht => ?_
  rw [ht.kind, hopen]
  show Succeeds _ (primary .expression (n + 1)) _ _
  rw [primary]
  refine advance.bind fun kind hkind => token.bind fun t ht => ?_
  rw [hkind, hopen]
  exact (h.closed hclose (by rw [operatorLevels]; omega)).past

theorem accepts_unary {op : UnaryOp} (hsign : sign.kind = op.token) (hgap : p.gap ≠ [])
    (h : Accepts line 0 e (p :: ps)) : Accepts line 0 (.unary op e) (sign :: p :: ps) := by
  refine .ofOperand fun {n q rest} hq hn => ?_
  rw [length_cons] at hn
  obtain _ | n := n
  · omega
  rw [cons_append, unary]
  refine peekNth_zero.bind fun t ht => ?_
  have hline : t.line = line := ht.line line rfl (by rw [ht.kind, hsign]; cases op <;> decide)
  rw [ht.kind, hsign, unaryAt_token, hline]
  refine advance.bind fun _ _ => peekNth_zero.past.bind fun u hu => ?_
  rw [hu.spaced_of_gap hgap]
  refine (h.operand rfl hq (by omega)).bind fun inner hinner => ?_
  rw [hinner]
  exact .pure rfl

/-! ### Chains of operators -/

theorem accepts_binary {op : BinaryOp} {l r : Expression} {ls rs : List TextPiece}
    (hl : Accepts line (op.level + 1) l ls) (hsign : sign.kind = op.token)
    (hr : Accepts line op.level r rs) :
    Accepts line (op.level + 1) (.binary op l r) (ls ++ sign :: rs) := by
  refine ⟨nofun, fun {j} hj _ {n c p rest P post} hp hn hc hmore => ?_, fun hk => ?_⟩
  · obtain rfl : op.level = j := Nat.succ.inj hj
    rw [length_append, length_cons] at hn hc
    rw [append_assoc, cons_append]
    have hfollows : Follows op.level sign :=
      ⟨by rw [hsign]; cases op <;> decide, by rw [hsign]; cases op <;> decide⟩
    -- The loop has read the left operand, and its next turn reads the operator and the right one.
    refine hl.chain (c := n - ls.length - 1) rfl op.level_lt hfollows (by omega) (by omega) fun m hm => ?_
    obtain _ | m := m
    · omega
    rw [moreOperands]
    refine peekNth_zero.bind fun t ht => ?_
    rw [ht.kind, hsign, op.operatorAt_token]
    have hkept : slashIsKept .expression op (Expression.node line l) = pure false := by
      rw [slashIsKept]
      split <;> simp
    simp only [signStartsPart, hkept, reduceCtorEq, false_and, pure_bind, if_false]
    refine advance.bind fun _ _ => ?_
    refine (hr.yields op.level_lt.le hp (by omega)).past.bind fun right hright => ?_
    rw [hright, joined, Expression.line_node]
    exact hmore m (by omega)
  · exact absurd (Nat.succ.inj hk) op.level_lt.ne

/-- What a level allows, the next one reads as the first operand of a chain. -/
theorem Accepts.loosen (h : Accepts line k e ps) : Accepts line (k + 1) e ps := by
  refine ⟨nofun, fun {j} hj hlevel {n c p rest P post} hp hn hc hmore => ?_,
    fun hwhole {n p rest} hp hequals hassign hn => ?_⟩
  · obtain rfl : k = j := Nat.succ.inj hj
    obtain _ | n := n
    · omega
    rw [binary]
    refine (h.yields hlevel.le hp (by omega)).bind fun left hleft => ?_
    rw [hleft]
    exact hmore n (by omega)
  · obtain rfl : k = operatorLevels := Nat.succ.inj hwhole
    obtain _ | n := n
    · omega
    rw [expression]
    refine (h.yields le_rfl hp (by omega)).bind fun left hleft => ?_
    rw [if_neg (fun h : Mode.expression = .value => Mode.noConfusion h)]
    refine peek.bind fun kind hkind => ?_
    rw [hkind]
    split
    · contradiction
    · contradiction
    · exact .pure hleft

theorem Accepts.lift (h : Accepts line j e ps) (hjk : j ≤ k) : Accepts line k e ps := by
  induction hjk with
  | refl => exact h
  | step _ ih => exact ih.loosen

/-! ### Assignments -/

theorem accepts_assign (x : VariableName) (op : Option AssignOp) (gap gap' : List Char)
    (h : Accepts line assignLevel e ps) :
    Accepts line assignLevel (.assign x op e)
      (⟨gap, x.lexeme⟩ :: ⟨gap', assignLexeme op⟩ :: ps) := by
  refine ⟨nofun, fun hj hlevel => ?_, fun _ {n p rest} hp hequals hassign hn => ?_⟩
  · exact absurd (Nat.succ.inj hj) hlevel.ne'
  · simp only [operatorLevels, length_cons] at hn
    obtain _ | n := n
    · omega
    have hfollows : Follows operatorLevels ⟨gap', assignLexeme op⟩ := by
      constructor <;> cases op <;> simp only [TextPiece.kind, assignLexeme, assignToken] <;> decide
    have htarget : Accepts line operatorLevels (.literal (.reference x)) [⟨gap, x.lexeme⟩] :=
      (accepts_literal (.reference x) gap).lift (Nat.zero_le _)
    rw [expression]
    refine (htarget.yields le_rfl hfollows
      (by simp only [operatorLevels, length_singleton]; omega)).bind fun left hleft => ?_
    rw [if_neg (fun h : Mode.expression = .value => Mode.noConfusion h), hleft]
    refine peek.bind fun kind hkind => ?_
    have hvalue : Succeeds (PastOn (some line) [] ⟨gap', assignLexeme op⟩ (ps ++ p :: rest))
        (do
          let operator := (← Reading.token).assign
          let right ← expression .expression n
          pure (.make (.assign (String.ofList x.text) operator) line [right.placed .initializer]))
        (· = (Expression.assign x op e).node line) (Ahead line (p :: rest)) := by
      refine token.bind fun t ht => ?_
      refine (h.whole rfl hp hequals hassign (by rw [operatorLevels]; omega)).past.bind
        fun right hright => ?_
      rw [ht.assign, hright]
      exact .pure rfl
    rw [hkind]
    cases op <;> exact advance.bind fun _ _ => hvalue

end Levels

/-! ## Printed expressions -/

/-- Pieces that are the text of an expression after a gap, and are read as the expression in a place
where everything up to level `k` may stand. -/
structure Prints (line k : Nat) (e : Expression) (gap text : List Char) (ps : List TextPiece) : Prop
    where
  first : ∃ l qs, ps = ⟨gap, l⟩ :: qs
  text : textOf ps = gap ++ text
  laid : ∀ {tail : List Char}, Clear tail → Laid ps tail
  isInside : ∀ p ∈ ps, p.kind.isInside = true
  accepts : Accepts line k e ps

theorem BinaryOp.leads (cs : List Char) : op.lexeme.Leads (' ' :: cs) := by
  cases op <;> exact ⟨rfl, rfl⟩

theorem UnaryOp.leads (op : UnaryOp) (cs : List Char) :
    (markLexeme op.token).Leads (' ' :: cs) := by
  cases op <;> exact ⟨rfl, rfl⟩

theorem leads_assign (op : Option AssignOp) (cs : List Char) :
    (assignLexeme op).Leads (' ' :: cs) := by
  rcases op with _ | op
  · exact ⟨rfl, rfl⟩
  · cases op <;> exact ⟨rfl, rfl⟩

/-- The minus in front of a word is read apart from it. -/
theorem Word.leads_minus (w : Word) (cs : List Char) :
    (markLexeme .minus).Leads (w.text ++ cs) := by
  have hnext : (w.text ++ cs).head? ≠ some '=' := by
    have hw := w.isWord
    cases hc : w.text with
    | nil => simp [hc, Cascade.isWord] at hw
    | cons c text =>
      rintro ⟨⟩
      simp [hc, Cascade.isWord, Lexeme.isNameStart] at hw
  exact .mark rfl (.inl hnext) (by cases (w.text ++ cs).head? <;> rfl) rfl rfl

theorem Literal.isInside_lexeme : l.lexeme.kind.isInside = true := by
  match l with
  | .boolean true | .boolean false | .number _ | .string _ | .word _ | .null | .reference _ => rfl

section Prints

variable {line k rank : Nat} {e : Expression} {gap text : List Char}

/-- Parentheses are put where the place of an expression is tighter than the expression. -/
theorem Prints.inParens (hgap : ∀ c ∈ gap, Text.isBlank c = true) (hrank : rank ≤ assignLevel)
    (h : ∀ gap, (∀ c ∈ gap, Text.isBlank c = true) → ∃ ps, Prints line rank e gap text ps) :
    ∃ ps, Prints line k e gap (inParens (k < rank) text) ps := by
  by_cases hk : k < rank
  · obtain ⟨ps, hps⟩ := h [] (forall_mem_nil _)
    refine ⟨⟨gap, markLexeme .openParen⟩ :: (ps ++ [markPiece .closeParen]), ⟨_, _, rfl⟩, ?_,
      fun {tail} _ => ⟨hgap, .separator (by decide), laid_append.2 ⟨?_, forall_mem_nil _,
        .separator (by decide), trivial⟩⟩, ?_,
      (accepts_group rfl (hps.accepts.lift hrank) rfl).lift (Nat.zero_le k)⟩
    · simp [Cascade.inParens, hk, hps.text, markPiece, markLexeme, TokenKind.spelling]
    · exact hps.laid (.close tail)
    · refine forall_mem_cons.2 ⟨rfl, forall_mem_append.2 ⟨hps.isInside, ?_⟩⟩
      exact forall_mem_singleton.2 rfl
  · obtain ⟨ps, hps⟩ := h gap hgap
    refine ⟨ps, { hps with text := ?_, accepts := hps.accepts.lift (Nat.le_of_not_lt hk) }⟩
    rw [hps.text, Cascade.inParens, if_neg (by simpa using hk)]

end Prints

/-- **The parsers read the pieces of a printed expression.** -/
theorem Expression.prints (line : Nat) (e : Expression) (k : Nat) {gap : List Char}
    (hgap : ∀ c ∈ gap, Text.isBlank c = true) :
    ∃ ps, Prints line k e gap (e.written k) ps := by
  have hblank : ∀ c ∈ [' '], Text.isBlank c = true := forall_mem_singleton.2 rfl
  induction e generalizing k gap with
  | literal l =>
    refine ⟨[⟨gap, l.lexeme⟩], ⟨_, _, rfl⟩, by simp [written], fun ht => ?_,
      forall_mem_singleton.2 l.isInside_lexeme, (accepts_literal l gap).lift (Nat.zero_le k)⟩
    exact ⟨hgap, l.leads_clear ht, trivial⟩
  | dashed w =>
    refine ⟨[⟨gap, markLexeme .minus⟩, ⟨[], w.lexeme⟩], ⟨_, _, rfl⟩,
      by simp [written, markLexeme, TokenKind.spelling, Word.lexeme], fun ht => ?_,
      by simp [TextPiece.kind, markLexeme, Word.lexeme, TokenKind.isInside],
      (accepts_dashed w gap).lift (Nat.zero_le k)⟩
    refine ⟨hgap, ?_, forall_mem_nil _, (Literal.word w).leads_clear ht, trivial⟩
    simpa [Word.lexeme] using w.leads_minus _
  | unary op e ih =>
    obtain ⟨_, ⟨l, ps, rfl⟩, htext, hlaid, hinside, haccepts⟩ := ih 0 hblank
    refine ⟨⟨gap, markLexeme op.token⟩ :: _, ⟨_, _, rfl⟩, ?_, fun ht => ⟨hgap, ?_, hlaid ht⟩, ?_,
      (accepts_unary rfl (cons_ne_nil _ _) haccepts).lift (Nat.zero_le k)⟩
    · rw [textOf_cons, htext, op.text_lexeme]
      rfl
    · rw [htext]
      exact op.leads _
    · exact forall_mem_cons.2 ⟨by cases op <;> rfl, hinside⟩
  | binary op l r ihl ihr =>
    have hlevel : op.level + 1 ≤ assignLevel := Nat.le_succ_of_le op.level_lt
    refine Prints.inParens hgap hlevel fun gap hgap => ?_
    obtain ⟨ls, ⟨a, ls', rfl⟩, hltext, hllaid, hlinside, hlaccepts⟩ := ihl (op.level + 1) hgap
    obtain ⟨rs, -, hrtext, hrlaid, hrinside, hraccepts⟩ := ihr op.level hblank
    refine ⟨_ ++ ⟨[' '], op.lexeme⟩ :: rs, ⟨a, _, rfl⟩, ?_, fun ht => ?_, ?_,
      accepts_binary hlaccepts op.kind_lexeme hraccepts⟩
    · rw [textOf_append, hltext, textOf_cons, hrtext, op.text_lexeme]
      simp
    · refine laid_append.2 ⟨hllaid (.blank _), hblank, ?_, hrlaid ht⟩
      rw [hrtext]
      exact op.leads _
    · exact forall_mem_append.2 ⟨hlinside, forall_mem_cons.2 ⟨by cases op <;> rfl, hrinside⟩⟩
  | assign x op e ih =>
    refine Prints.inParens hgap le_rfl fun gap hgap => ?_
    obtain ⟨ps, -, htext, hlaid, hinside, haccepts⟩ := ih assignLevel hblank
    refine ⟨⟨gap, x.lexeme⟩ :: ⟨[' '], assignLexeme op⟩ :: ps, ⟨_, _, rfl⟩, ?_,
      fun ht => ⟨hgap, (Literal.reference x).leads_clear (.blank _), hblank, ?_, hlaid ht⟩, ?_,
      accepts_assign x op gap [' '] haccepts⟩
    · rw [textOf_cons, textOf_cons, htext]
      simp [VariableName.lexeme, assignLexeme]
    · rw [htext]
      exact leads_assign op _
    · exact forall_mem_cons.2 ⟨rfl, forall_mem_cons.2 ⟨by cases op <;> rfl, hinside⟩⟩

/-- A printed expression is on one line. -/
theorem Expression.oneLine (e : Expression) (k : Nat) : '\n' ∉ e.written k := by
  have hparens {needed : Bool} {text : List Char} (h : '\n' ∉ text) : '\n' ∉ inParens needed text := by
    cases needed <;> simpa [inParens] using h
  induction e generalizing k with
  | literal l => exact Lexeme.oneLine l.read_text
  | dashed w => simpa [written] using Lexeme.oneLine (read_of_isWord w.isWord)
  | unary op e ih => cases op <;> simpa [written, UnaryOp.symbol] using ih 0
  | binary op l r ihl ihr =>
    refine hparens ?_
    have hop : '\n' ∉ op.symbol.toList := by cases op <;> decide
    simpa using ⟨ihl _, hop, ihr _⟩
  | assign x op e ih =>
    refine hparens ?_
    have hx : '\n' ∉ x.written := Lexeme.oneLine x.read_written
    have hop : '\n' ∉ (assignSign op).toList := by
      rcases op with _ | op
      · decide
      · cases op <;> decide
    simpa using ⟨hx, hop, ih _⟩

/-! ## The property -/

/-- The name of the property. -/
def namePiece : TextPiece where
  lexeme := { kind := .identifier, text := ['a'], value := "a" }

/-- The command around the expression. -/
def exprPiece : TextPiece where
  lexeme := { kind := .command, text := "@expr".toList, value := "expr" }

/-- The pieces of `@expr(...)` around others, and what stands behind it. -/
abbrev wrapped (ps rest : List TextPiece) : List TextPiece :=
  exprPiece :: markPiece .openParen :: (ps ++ markPiece .closeParen :: rest)

section Property

variable {line n : Nat} {e : Expression} {ps rest : List TextPiece}

variable (h : Accepts line assignLevel e ps)

include h

/-- An expression in `@expr(...)` is an operand. -/
theorem Accepts.command (hn : 12 * ps.length + 12 ≤ n) :
    Succeeds (Ahead line (wrapped ps rest)) (unary .value n) (· = e.node line) (Ahead line rest) := by
  obtain ⟨n, rfl⟩ : ∃ m, n = m + 3 := ⟨n - 3, by omega⟩
  rw [unary]
  refine peekNth_zero.bind fun t ht => ?_
  rw [ht.kind]
  show Succeeds _ (primary .value (n + 2)) _ _
  rw [primary]
  refine advance.bind fun kind hkind => token.bind fun t ht => ?_
  rw [hkind, ht.value]
  show Succeeds _ (Parse.command .value "expr" t.line (n + 1)) _ _
  rw [Parse.command, if_pos rfl]
  refine (expect rfl).past.bind fun _ _ => ?_
  exact (h.closed rfl (by rw [operatorLevels]; omega)).past

/-- A value that is nothing but `@expr(...)`, in front of a semicolon. -/
theorem Accepts.valueList (hn : 12 * ps.length + 32 ≤ n) :
    Succeeds (Ahead line (wrapped ps (markPiece .semicolon :: rest))) (valueList .value n)
      (· = e.node line) (Ahead line (markPiece .semicolon :: rest)) := by
  have hcloses : Closes (markPiece .semicolon :: rest) := .mark mem_cons_self
  have hlead : Leading (wrapped ps (markPiece .semicolon :: rest)) := .command rfl
  obtain ⟨n, rfl⟩ : ∃ m, n = m + 3 := ⟨n - 3, by omega⟩
  have hexpression : Succeeds (Ahead line (wrapped ps (markPiece .semicolon :: rest)))
      (expression .value (n + 1)) (· = e.node line) (Ahead line (markPiece .semicolon :: rest)) := by
    refine expression_of_binary (c := 12 * ps.length + 13) hcloses.bound (Nat.succ_pos _)
      (Nat.zero_le _) (fun m hm => ?_) (by rw [operatorLevels]; omega)
    obtain _ | m := m
    · omega
    rw [binary]
    exact h.command (by omega)
  refine hlead.valueList ?_ hcloses rfl
  rw [valueEntry]
  refine peekNth_zero.bind fun _ _ => ?_
  refine (hlead.entryValues (R := (· = [e.node line])) hexpression (hcloses.entryValues n)
    fun a as ha has => by rw [ha, has]).bind fun values hvalues => ?_
  rw [hvalues]
  exact .pure rfl

/-- A property alone in a stylesheet. -/
theorem Accepts.sheet (hps : ∀ p ∈ ps, p.kind.isInside = true) {last : TextPiece}
    (hlast : last.kind = .eof) (hn : 12 * ps.length + 64 ≤ n) : Succeeds
      (Ahead line (namePiece :: markPiece .colon :: wrapped ps [markPiece .semicolon, last]))
      (sheet n) (· = .make .sheet 1 [.make (.property "a" [] false) line [e.node line]])
      (Ahead line []) := by
  obtain ⟨n, rfl⟩ : ∃ m, n = m + 3 := ⟨n - 3, by omega⟩
  have hinside : ∀ p ∈ [namePiece] ++ markPiece .colon :: wrapped ps [], p.kind.isInside = true := by
    simpa [or_imp, forall_and] using ⟨rfl, rfl, rfl, rfl, hps, rfl⟩
  have hfind : Succeeds (Ahead line _) _ _ _ :=
    find_semicolon (rfl : (markPiece .semicolon).kind = _) hinside [last]
  simp only [cons_append, append_assoc, nil_append] at hfind
  have hvalue : Succeeds _ _ _ (Ahead line ([] ++ markPiece .semicolon :: [last])) :=
    h.valueList (n := n) (by omega)
  have hnames : ∀ p ∈ [namePiece], p.kind.isNamePart = true := by decide
  have hproperty := property_of_value rfl hnames (by decide) rfl
    (hfind.weaken fun _ hkind => hkind ▸ nofun) hvalue .none (by rw [length_nil]; omega)
  have hstatement := statement_of_ruleOrProperty
    (Q := (· = (.make (.property "a" [] false) line [e.node line], []))) rfl false hproperty
    fun comments _ hcomments => by
      rintro ⟨t, value, ht, rfl, rfl⟩
      rw [hcomments nofun, ht.line line rfl (ht.kind ▸ nofun)]
      rfl
  rw [sheet, statementsFrom, bind_assoc]
  refine peek.bind fun kind hkind => ?_
  rw [hkind, if_neg (by decide), if_neg (by decide), bind_assoc]
  refine hstatement.bind fun r hr => ?_
  rw [hr]
  show Succeeds _ (statementsFrom .eof [_] (n + 2) >>= _) _ _
  rw [statementsFrom, bind_assoc]
  refine peek.bind fun kind hkind => ?_
  rw [if_pos (.inl (hkind.trans hlast)), pure_bind]
  exact (expect hlast).bind fun _ _ => .past (.pure rfl)

end Property

/-! ## The whole text -/

/-- **The parser is a left inverse of the printer.**  The printed form of an expression, as the
value of a property, is parsed as the tree of that expression. -/
theorem parse_text (e : Expression) (file : Option String) :
    parse { text := "a:@expr(" ++ e.text ++ ");", file } =
      .ok (.make .sheet 1 [.make (.property "a" [] false) 1 [e.node 1]]) := by
  set source : Source := { text := "a:@expr(" ++ e.text ++ ");", file } with hsource
  obtain ⟨ps, -, htext, hlaid, hinside, haccepts⟩ := e.prints 1 assignLevel (forall_mem_nil _)
  set last : TextPiece := { lexeme := { kind := .eof, text := [] } }
  have htoList : source.text.toList = "a:@expr(".toList ++ (textOf ps ++ [')', ';']) := by
    simp [hsource, Expression.text, htext]
  have hpieces : Laid (namePiece :: markPiece .colon :: wrapped ps [markPiece .semicolon, last])
      [] := by
    refine ⟨forall_mem_nil _, ⟨rfl, rfl⟩, forall_mem_nil _, ⟨rfl, rfl⟩, forall_mem_nil _, ⟨rfl, rfl⟩,
      forall_mem_nil _, .separator (by decide), laid_append.2 ⟨hlaid (.close _), ?_⟩⟩
    exact ⟨forall_mem_nil _, ⟨rfl, rfl⟩, forall_mem_nil _, ⟨rfl, rfl⟩, forall_mem_nil _, ⟨rfl, rfl⟩,
      trivial⟩
  have hsteps : 12 * ps.length + 64 ≤ stepsFor source := by
    have hlength := (hlaid (.close [])).length_le fun p hp => (find_inside (hinside p hp)).1
    rw [stepsFor, ← String.length_toList, htoList]
    simp only [length_append, length_cons]
    omega
  have hline : '\n' ∉ source.text.toList := by
    rw [htoList, htext]
    simpa using e.oneLine assignLevel
  have htextOf : source.text.toList =
      textOf (namePiece :: markPiece .colon :: wrapped ps [markPiece .semicolon, last]) ++ [] := by
    rw [htoList]
    simp [namePiece, exprPiece, markPiece, markLexeme, TokenKind.spelling, last]
  obtain ⟨_, s, hrun, rfl, -⟩ := haccepts.sheet hinside rfl hsteps _
    (.ofSource hpieces htextOf fun n hn => ⟨Option.some.inj hn ▸ rfl, hline⟩)
  rw [parse, StateT.run', hrun]
  rfl

example : (Expression.binary .multiply
      (.binary .add (.literal (.number { whole := ['1'], unit := ['p', 'x'] }))
        (.unary .minus (.literal (.reference { text := ['w'] }))))
      (.literal (.number { whole := ['2'] }))).text = "(1px + - $w) * 2" := by
  decide

end Cascade
