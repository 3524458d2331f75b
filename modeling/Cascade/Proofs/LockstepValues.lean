import Cascade.Proofs.Lockstep
import Cascade.Proofs.ParsedShape
import Cascade.Proofs.Stripped

/-!
# Parsing values in lockstep

The parsers of values and expressions take the same decisions on texts that go on alike, and build
the same trees up to lines.  What they build has the shape of a value, which is shown on the way.
They call one another with fewer steps, so there is a lemma for one step of each of them, and one
induction on the number of steps for all of them together.

The two texts may have different lengths, and their parsers different numbers of steps; so it has to
be shown on the way that steps do not run out.  Between two tokens the parsers go down through no
more than thirty-two levels of the grammar, which is what `Enough` counts.
-/

set_option autoImplicit false

namespace Cascade

open List

/-! ## Trees that agree -/

namespace Node

/-- Two trees that agree up to lines and comments. -/
def Same (a b : Node) : Prop :=
  a.stripped = b.stripped

/-- Two lists of trees that agree up to lines and comments. -/
def SameAll (as bs : List Node) : Prop :=
  as.map stripped = bs.map stripped

variable {a b : Node} {as bs : List Node}

theorem Same.kind_eq (h : a.Same b) : b.kind = a.kind := by
  rw [← kind_stripped a, ← kind_stripped b, h]

theorem Same.withRelation (h : a.Same b) (r : Option Relation) :
    (a.withRelation r).Same (b.withRelation r) := by
  rw [Same, stripped_withRelation, stripped_withRelation, h]

theorem Same.placed (h : a.Same b) (r : Relation) : (a.placed r).Same (b.placed r) :=
  h.withRelation _

theorem SameAll.nil : SameAll [] [] := rfl

theorem SameAll.cons (h : a.Same b) (hs : SameAll as bs) : SameAll (a :: as) (b :: bs) :=
  congrArg₂ List.cons h hs

theorem SameAll.singleton (h : a.Same b) : SameAll [a] [b] :=
  .cons h .nil

theorem SameAll.reverse (h : SameAll as bs) : SameAll as.reverse bs.reverse := by
  rw [SameAll, map_reverse, map_reverse, h]

theorem SameAll.placed (h : SameAll as bs) (r : Relation) :
    SameAll (as.map fun a => a.placed r) (bs.map fun b => b.placed r) := by
  have hmap (cs : List Node) : (cs.map fun c => c.placed r).map stripped =
      (cs.map stripped).map fun c => c.placed r := by
    rw [map_map, map_map]
    simp only [Function.comp_def, stripped_placed]
  rw [SameAll, hmap, hmap, h]

theorem SameAll.make (h : SameAll as bs) (kind : Kind) (line line' : Nat) :
    (make kind line as).Same (make kind line' bs) := by
  rw [Same, stripped_make, stripped_make, h]

theorem Same.parent (h : a.Same b) (kind : Kind) (line line' : Nat) :
    (make kind line [a]).Same (make kind line' [b]) :=
  (SameAll.singleton h).make kind line line'

theorem Same.leaf (kind : Kind) (line line' : Nat) : (make kind line).Same (make kind line') :=
  SameAll.nil.make kind line line'

/-- A list that agrees with a list of one tree. -/
theorem SameAll.inv_cons (h : SameAll (a :: as) bs) :
    ∃ b bs', bs = b :: bs' ∧ a.Same b ∧ SameAll as bs' := by
  cases bs with
  | nil => cases h
  | cons b bs =>
    obtain ⟨hb, hbs⟩ := List.cons.inj h
    exact ⟨b, bs, rfl, hb, hbs⟩

theorem SameAll.inv_nil (h : SameAll [] bs) : bs = [] :=
  map_eq_nil_iff.1 h.symm

end Node

namespace Tandem

open Node Parse TokenStream

variable {w : Tandem} {p q : Points} {n n' k line line' level : Nat} {mode : Mode}
  {kind : TokenKind}

/-! ## Steps -/

/-- Both numbers of steps are enough at a place for a parser that goes down through `k` levels of the
grammar before it reads a token. -/
structure Enough (p : Points) (k n n' : Nat) : Prop where
  first : 32 * p.1.rest.length + k ≤ n
  second : 32 * p.2.rest.length + k ≤ n'

namespace Enough

theorem pos (h : Enough p (k + 1) n n') : ∃ m, n' = m + 1 :=
  ⟨n' - 1, by have := h.second; omega⟩

theorem not_zero (h : Enough p (k + 1) 0 n') : False :=
  absurd h.first (by omega)

/-- One level further down. -/
theorem down (h : Enough p (k + 1) (n + 1) (n' + 1)) : Enough p k n n' :=
  ⟨by have := h.first; omega, by have := h.second; omega⟩

/-- Steps for any parser are enough for one that reads a token at once. -/
theorem few (h : Enough p (k + 1) n n') : Enough p 1 n n' :=
  ⟨by have := h.first; omega, by have := h.second; omega⟩


/-- The same number of steps at a later place. -/
theorem on {k' : Nat} (h : Enough p k n n') (hpast : Past p q) (hk : k' < 32) :
    Enough q k' n n' :=
  ⟨by have := h.first; have := hpast.lt; omega, by have := h.second; have := hpast.lt'; omega⟩

/-- Steps that are enough at a place are enough at a later one. -/
theorem mono (h : Enough p k n n') (hlater : Later p q) : Enough q k n n' :=
  ⟨by have := h.first; have := hlater.le; omega, by have := h.second; have := hlater.le'; omega⟩

end Enough

/-- After a token has been read. -/
theorem Past.steps {k' : Nat} (hpast : Past p q) (h : Enough p k (n + 1) (n' + 1)) (hk : k' < 32) :
    Enough q k' n n' :=
  ⟨by have := h.first; have := hpast.lt; omega, by have := h.second; have := hpast.lt'; omega⟩

/-! ## What the parsers give -/

/-- The same tree, with a property, after something has been read. -/
def Read (w : Tandem) (P : Node → Prop) (p q : Points) (a b : Node) : Prop :=
  w.Moved p q ∧ a.Same b ∧ P a

/-- The same trees, each with a property, after something has been read. -/
def ReadAll (w : Tandem) (P : Node → Prop) (p q : Points) (as bs : List Node) : Prop :=
  w.Moved p q ∧ SameAll as bs ∧ ∀ a ∈ as, P a

/-- The same tree, with a property, after something may have been read. -/
def Got (w : Tandem) (P : Node → Prop) (p q : Points) (a b : Node) : Prop :=
  w.Kept p q ∧ a.Same b ∧ P a

/-- The same trees, each with a property, after something may have been read. -/
def GotAll (w : Tandem) (P : Node → Prop) (p q : Points) (as bs : List Node) : Prop :=
  w.Kept p q ∧ SameAll as bs ∧ ∀ a ∈ as, P a

section

variable {P : Node → Prop} {m m' : Reading Node}

theorem Lockstep.moved (h : w.Lockstep q m m' (w.Got P q)) (hmoved : w.Moved p q) :
    w.Lockstep q m m' (w.Read P p) :=
  h.weaken fun _ _ _ ⟨hkept, ha⟩ => ⟨hmoved.kept_trans hkept, ha⟩

theorem Lockstep.later (h : w.Lockstep q m m' (w.Read P q)) (hlater : Later p q) :
    w.Lockstep q m m' (w.Read P p) :=
  h.weaken fun _ _ _ ⟨hmoved, ha⟩ => ⟨hmoved.of_later hlater, ha⟩

end

/-- The name of a function whose arguments, if they follow at a place, are not text, unless texts are
the same. -/
def Unraw (w : Tandem) (p : Points) (name : String) : Prop :=
  lowercase name ∈ rawNames → p.1.next.token.kind = .openParen →
    p.1.next.token.spaced = true ∨ w.Raw

/-- **What the parsers of values do with `n` steps**, if these are enough: they stay together with
those that have `n'` steps, and give what belongs to values. -/
structure Values (w : Tandem) (n : Nat) : Prop where
  valueEntry : ∀ {p mode n'}, Enough p 13 n n' →
    w.Lockstep p (valueEntry mode n) (valueEntry mode n') (w.Read (ParsedValue 1) p)
  entryValues : ∀ {p mode n'}, Enough p 12 n n' →
    w.Lockstep p (entryValues mode n) (entryValues mode n') fun q as bs =>
      w.GotAll (ParsedValue 0) p q as bs ∧ (as ≠ [] → w.Moved p q)
  arguments : ∀ {p mode n' line line'}, Enough p 1 n n' →
    w.Lockstep p (arguments mode line n) (arguments mode line' n') (w.Read (ParsedArguments 1) p)
  moreArguments : ∀ {p mode n'}, Enough p 14 n n' →
    w.Lockstep p (moreArguments mode n) (moreArguments mode n') (w.ReadAll (ParsedValue 1) p)
  expression : ∀ {p mode n'}, Enough p 11 n n' →
    w.Lockstep p (expression mode n) (expression mode n') (w.Read (ParsedValue 0) p)
  binary : ∀ {p mode n' level}, level ≤ operatorLevels → Enough p (level + 3) n n' →
    w.Lockstep p (binary mode level n) (binary mode level n') (w.Read (ParsedValue 0) p)
  moreOperands : ∀ {p mode n' level left left'}, level < operatorLevels → w.Firm p →
    left.Same left' → ParsedValue 0 left → Enough p 1 n n' →
    w.Lockstep p (moreOperands mode level left n) (moreOperands mode level left' n')
      (w.Got (ParsedValue 0) p)
  unary : ∀ {p mode n'}, Enough p 2 n n' →
    w.Lockstep p (unary mode n) (unary mode n') (w.Read (ParsedValue 0) p)
  primary : ∀ {p mode n'}, Enough p 1 n n' →
    w.Lockstep p (primary mode n) (primary mode n') (w.Read (ParsedValue 0) p)
  word : ∀ {p mode n' name line line'}, w.Unraw p name → w.Firm p → Enough p 3 n n' →
    w.Lockstep p (word mode name line n) (word mode name line' n') (w.Got (ParsedValue 0) p)
  functionArguments : ∀ {p mode n' name line line'}, (name ∈ rawNames → w.Raw) → Enough p 2 n n' →
    w.Lockstep p (functionArguments mode name line n) (functionArguments mode name line' n')
      (w.Read (ParsedArguments 1) p)
  command : ∀ {p mode n' name line line'}, w.Firm p → Enough p 2 n n' →
    w.Lockstep p (command mode name line n) (command mode name line' n') (w.Got (ParsedValue 0) p)

/-! ## Looking ahead -/

/-- The same answer, with nothing read. -/
def Asked (p q : Points) (b b' : Bool) : Prop :=
  q = p ∧ b' = b

theorem Lockstep.bind_asked {α β : Type} {post : Points → α → β → Prop} {m m' : Reading Bool}
    {k : Bool → Reading α} {k' : Bool → Reading β} (hm : w.Lockstep p m m' (Asked p))
    (hk : ∀ b, w.Lockstep p (k b) (k' b) post) : w.Lockstep p (m >>= k) (m' >>= k') post :=
  hm.bind_staying fun b b' (hb : b' = b) => hb ▸ hk b

theorem importantAhead_lockstep (hbang : w.Next p .bang) :
    w.Lockstep p importantAhead importantAhead fun q b b' =>
      Asked p q b b' ∧ (b = true → w.Next p.next .identifier) := by
  refine .bind_peekNth_one hbang (by decide) fun t t' h => .pure ⟨⟨rfl, ?_⟩, fun hb => ?_⟩
  · by_cases hkind : t.kind = .identifier
    · rw [h.same_kind, h.value_eq (by rw [hkind]; decide)]
    · simp only [h.same_kind, hkind, false_and]
  · exact h.next_of_kind (of_decide_eq_true hb).1

theorem atValueEnd_lockstep : w.Lockstep p atValueEnd atValueEnd (Asked p) := by
  refine .bind_peek fun kind hkind => ?_
  cases kind
  case bang => exact (importantAhead_lockstep hkind).weaken fun _ _ _ h => h.1
  all_goals exact .pure ⟨rfl, rfl⟩

theorem signStartsPart_lockstep {sign sign' : Token} (mode : Mode) (op : BinaryOp)
    (hop : op = .add ∨ op = .subtract → sign.kind.isSign = true) (hp : w.Firm p)
    (h : w.Shows p sign sign') :
    w.Lockstep p (signStartsPart mode op sign) (signStartsPart mode op sign') (Asked p) := by
  by_cases hsign : op = .add ∨ op = .subtract
  · have hkind := hop hsign
    have hspaced : sign'.spaced = sign.spaced :=
      h.spaced_eq hp fun heof => by rw [heof] at hkind; cases hkind
    unfold signStartsPart
    rw [hspaced]
    by_cases hcond : mode = .value ∧ (op = .add ∨ op = .subtract) ∧ sign.spaced = true
    · rw [if_pos hcond]
      have hopen : sign.kind ≠ .openParen := fun hopen => by rw [hopen] at hkind; cases hkind
      refine .bind_peekNth_one h.toNext hopen fun t t' ht => .pure ⟨rfl, ?_⟩
      rw [ht.spaced_eq_of (w.spaced_after_sign h.firm (h.kind_eq ▸ hkind) ?_)]
      exact (congrArg Token.spaced h.essence :).symm.trans hcond.2.2
    · rw [if_neg hcond]
      exact .pure ⟨rfl, rfl⟩
  · unfold signStartsPart
    rw [if_neg fun hcond => hsign hcond.2.1, if_neg fun hcond => hsign hcond.2.1]
    exact .pure ⟨rfl, rfl⟩

/-- A slash is kept between two numbers, of which the second one comes after it. -/
theorem slashIsKept_lockstep {left left' : Node} (mode : Mode) (op : BinaryOp)
    (hnext : w.Next p kind) (hkind : kind ≠ .openParen) (h : left.Same left') :
    w.Lockstep p (slashIsKept mode op left) (slashIsKept mode op left') fun q b b' =>
      Asked p q b b' ∧ (b = true → (∃ value unit, left.kind = .number value unit) ∧ op = .divide ∧
        w.Next p.next .number) := by
  unfold slashIsKept
  rw [h.kind_eq]
  split
  · rename_i hleft
    split
    · rename_i hcond
      refine .bind_peekNth_one hnext hkind fun t t' ht => .pure ⟨⟨rfl, ?_⟩, fun hb => ?_⟩
      · rw [ht.same_kind]
      · exact ⟨⟨_, _, hleft⟩, hcond.2, ht.next_of_kind (of_decide_eq_true hb)⟩
    · exact .pure ⟨⟨rfl, rfl⟩, nofun⟩
  · exact .pure ⟨⟨rfl, rfl⟩, nofun⟩

/-! ## The parsers -/

/-- The operators that a sign can stand for. -/
theorem isSign_of_operatorAt {op : BinaryOp} (h : operatorAt mode level kind = some op)
    (hop : op = .add ∨ op = .subtract) : kind.isSign = true := by
  unfold operatorAt at h
  split at h
  all_goals first
    | rfl
    | (split at h <;> cases h <;> simp at hop)
    | (cases h <;> simp at hop)

theorem ne_of_operatorAt {op : BinaryOp} (h : operatorAt mode level kind = some op) :
    kind ≠ .eof ∧ kind ≠ .openParen := by
  constructor <;> rintro rfl <;> unfold operatorAt at h <;> split at h <;> simp_all

/-- No word with a dash in front names a function whose arguments are text. -/
theorem lowercase_dashed_not_mem (word : String) : lowercase ("-" ++ word) ∉ rawNames := by
  have hhead : (lowercase ("-" ++ word)).toList.head? = some '-' := by
    simp [lowercase]
  intro hmem
  have hnone : ∀ name ∈ rawNames, name.toList.head? ≠ some '-' := by decide
  exact hnone _ hmem hhead

/-- An operand that begins with a number is that number. -/
theorem binary_number (hnext : w.Next p .number) (h : Enough p 3 n n') :
    w.Lockstep p (binary mode 0 n) (binary mode 0 n')
      (w.Read (fun a => ParsedValue 0 a ∧ a.IsNumber) p) := by
  obtain ⟨n, rfl⟩ : ∃ m, n = m + 3 := ⟨n - 3, by have := h.first; omega⟩
  obtain ⟨n', rfl⟩ : ∃ m, n' = m + 3 := ⟨n' - 3, by have := h.second; omega⟩
  refine .bind_peekNth_zero fun sign sign' hsign => ?_
  have hkind : sign.kind = .number := hsign.kind_eq.symm.trans hnext.kind_eq
  rw [hsign.same_kind, hkind]
  refine .bind_advance fun kind hadvance => .bind_token hnext fun t t' ht => ?_
  obtain rfl : kind = .number := hadvance.kind_eq.symm.trans hnext.kind_eq
  have heof : t.kind ≠ .eof := by rw [← ht.kind_eq, hnext.kind_eq]; decide
  rw [ht.number_eq heof, ht.unit_eq heof]
  exact .pure ⟨hnext.moved rfl, .leaf .., .atom _ rfl, ⟨_, _, rfl⟩, rfl⟩

/-- Text that is kept as it is, and the parenthesis behind it. -/
theorem finishRaw_lockstep {s s' : TokenStream} (line line' : Nat) (hat : w.At p s s')
    (hraw : w.Raw) (hp : w.Firm p) (hnone : s.pushedBack = 0) :
    w.Agree (w.Read (ParsedArguments 1) p) (finishRaw line s) (finishRaw line' s') := by
  refine (hat.rawArgument hraw hp hnone).bind fun q text text' t t' hat' ⟨htext, hlater⟩ => ?_
  refine Lockstep.bind_expect (fun hclose _ _ _ => .pure ⟨?_, ?_, .raw _ _⟩) t t' hat'
  · exact (hclose.moved rfl).of_later hlater
  · rw [htext]
    exact (Same.leaf ..).parent ..

/-! ### One step -/

section Step

variable (ih : w.Values n) {name : String}
include ih

theorem valueEntry_lockstep (h : Enough p 13 (n + 1) n') :
    w.Lockstep p (valueEntry mode (n + 1)) (valueEntry mode n') (w.Read (ParsedValue 1) p) := by
  obtain ⟨n', rfl⟩ := h.pos
  refine .bind_peekNth_zero fun t t' _ => ?_
  refine (ih.entryValues h.down).bind fun q as bs ⟨⟨_, hsame, has⟩, hmoved⟩ => ?_
  match as, hmoved, has with
  | [], _, _ =>
    cases hsame.inv_nil
    exact .bind_advance fun _ hnext => .unexpected hnext
  | [a], hmoved, has =>
    obtain ⟨b, bs, rfl, hab, hsame⟩ := hsame.inv_cons
    cases hsame.inv_nil
    exact .pure ⟨hmoved nofun, hab, (forall_mem_singleton.1 has).mono (Nat.zero_le 1)⟩
  | a :: a₂ :: as, hmoved, has =>
    obtain ⟨b, bs, rfl, hab, hsame⟩ := hsame.inv_cons
    obtain ⟨b₂, bs, rfl, hab₂, hsame⟩ := hsame.inv_cons
    exact .pure ⟨hmoved nofun, ((hsame.cons hab₂).cons hab).make ..,
      .make ⟨by simp [make], fun c hc => (has c hc).isValue⟩ (fun c hc => (has c hc).shaped) rfl
        (Nat.le_refl 1)⟩

theorem entryValues_lockstep (h : Enough p 12 (n + 1) n') :
    w.Lockstep p (entryValues mode (n + 1)) (entryValues mode n') fun q as bs =>
      w.GotAll (ParsedValue 0) p q as bs ∧ (as ≠ [] → w.Moved p q) := by
  obtain ⟨n', rfl⟩ := h.pos
  refine atValueEnd_lockstep.bind_asked fun atEnd => ?_
  cases atEnd with
  | true => exact .pure ⟨⟨.refl p, .nil, nofun⟩, fun hne => absurd rfl hne⟩
  | false =>
    refine (ih.expression h.down).bind fun q a b ⟨hmoved, hsame, ha⟩ => ?_
    refine (ih.entryValues (hmoved.steps h (by omega))).bind
      fun r as bs ⟨⟨hkept, hsames, has⟩, _⟩ => ?_
    have hall := hmoved.kept_trans hkept
    exact .pure ⟨⟨hall.kept, .cons hsame hsames, forall_mem_cons.2 ⟨ha, has⟩⟩, fun _ => hall⟩

theorem arguments_lockstep (h : Enough p 1 (n + 1) n') :
    w.Lockstep p (arguments mode line (n + 1)) (arguments mode line' n')
      (w.Read (ParsedArguments 1) p) := by
  obtain ⟨n', rfl⟩ := h.pos
  refine .bind_expect fun hkind _ _ _ => ?_
  have hopen := hkind.moved rfl
  refine (ih.moreArguments (hopen.steps h (by omega))).bind
    fun q as bs ⟨hmoved, hsame, has⟩ => ?_
  exact .pure ⟨hopen.trans hmoved, hsame.make .., .make has⟩

theorem moreArguments_lockstep (h : Enough p 14 (n + 1) n') :
    w.Lockstep p (moreArguments mode (n + 1)) (moreArguments mode n')
      (w.ReadAll (ParsedValue 1) p) := by
  obtain ⟨n', rfl⟩ := h.pos
  refine .bind_accept (fun hkind => .pure ⟨hkind.moved rfl, .nil, nofun⟩) ?_
  refine (ih.valueEntry h.down).bind fun q a b ⟨hmoved, hsame, ha⟩ => ?_
  refine .bind_accept (fun hkind => ?_) (.bind_expect fun hkind _ _ _ => ?_)
  · have hcomma := hmoved.trans (hkind.moved rfl)
    refine (ih.moreArguments (hcomma.steps h (by omega))).bind
      fun r as bs ⟨hrest, hsames, has⟩ => ?_
    exact .pure ⟨hcomma.trans hrest, .cons hsame hsames, forall_mem_cons.2 ⟨ha, has⟩⟩
  · exact .pure ⟨hmoved.trans (hkind.moved rfl), .singleton hsame, forall_mem_singleton.2 ha⟩

theorem expression_lockstep (h : Enough p 11 (n + 1) n') :
    w.Lockstep p (expression mode (n + 1)) (expression mode n') (w.Read (ParsedValue 0) p) := by
  obtain ⟨n', rfl⟩ := h.pos
  refine (ih.binary le_rfl h.down).bind fun q left left' hleft =>
    .ite (fun _ => .pure hleft) fun _ => ?_
  obtain ⟨hmoved, hsame, -⟩ := id hleft
  refine .bind_peek fun kind hkind => ?_
  cases kind
  case equals | assign =>
    have hop := hmoved.trans (hkind.moved rfl)
    refine .bind_advance fun _ hnext => .bind_token hkind fun t t' ht => ?_
    rw [hsame.kind_eq, ht.assign_eq (ht.ne_eof hkind nofun)]
    split
    · refine (ih.expression (hop.steps h (by omega))).bind fun r a b ⟨hright, hab, ha⟩ =>
        .pure ⟨hop.trans hright, (hab.placed _).parent .., ?_⟩
      obtain ⟨hshaped, hvalue⟩ := ha.placed .initializer
      exact .make (hvalue.mono (Nat.zero_le 2)) (forall_mem_singleton.2 hshaped) rfl (Nat.le_refl 0)
    · exact .failAt nofun nofun
  all_goals exact .pure hleft

theorem binary_lockstep (hlevel : level ≤ operatorLevels) (h : Enough p (level + 3) (n + 1) n') :
    w.Lockstep p (binary mode level (n + 1)) (binary mode level n') (w.Read (ParsedValue 0) p) := by
  obtain ⟨n', rfl⟩ := h.pos
  cases level with
  | zero => exact ih.unary h.down
  | succ level =>
    refine (ih.binary (Nat.le_of_succ_le hlevel) h.down).bind
      fun q left left' ⟨hmoved, hsame, hleft⟩ => ?_
    exact (ih.moreOperands hlevel hmoved.firm hsame hleft (hmoved.steps h (by omega))).moved hmoved

theorem moreOperands_lockstep {left left' : Node} (hlevel : level < operatorLevels) (hp : w.Firm p)
    (hsame : left.Same left') (hleft : ParsedValue 0 left) (h : Enough p 1 (n + 1) n') :
    w.Lockstep p (moreOperands mode level left (n + 1)) (moreOperands mode level left' n')
      (w.Got (ParsedValue 0) p) := by
  obtain ⟨n', rfl⟩ := h.pos
  have hdone : w.Lockstep p (pure left) (pure left') (w.Got (ParsedValue 0) p) :=
    .pure ⟨.refl p, hsame, hleft⟩
  refine .bind_peekNth_zero fun sign sign' hshows => ?_
  rw [hshows.same_kind]
  split
  · exact hdone
  · rename_i op hop
    obtain ⟨heof, hopen⟩ := ne_of_operatorAt hop
    have hlevels : operatorLevels = 7 := rfl
    refine (signStartsPart_lockstep mode op (isSign_of_operatorAt hop) hp hshows).bind_asked
      fun starts => ?_
    cases starts with
    | true => exact hdone
    | false =>
      refine (slashIsKept_lockstep mode op hshows.toNext hopen hsame).bind
        fun q kept kept' ⟨⟨hq, hkept⟩, hnumbers⟩ => ?_
      rw [hq, hkept]
      have hpast := hshows.past heof
      -- Before a slash is kept, the parser has looked beyond it and seen a number.
      have hoperand : w.Lockstep p.next (binary mode level n) (binary mode level n')
          (w.Read (fun a => ParsedValue 0 a ∧ (kept = true → left.IsNumber ∧ a.IsNumber))
            p.next) := by
        cases kept with
        | false =>
          exact (ih.binary hlevel.le (hpast.steps h (by omega))).weaken
            fun q a b ⟨hmoved, hab, ha⟩ => ⟨hmoved, hab, ha, nofun⟩
        | true =>
          obtain ⟨hnumber, rfl, hnext⟩ := hnumbers rfl
          obtain rfl := level_of_divide hop
          exact (binary_number hnext (hpast.steps h (by omega))).weaken
            fun q a b ⟨hmoved, hab, ha, hright⟩ => ⟨hmoved, hab, ha, fun _ => ⟨⟨hnumber, hleft.isValue.2.1⟩, hright⟩⟩
      refine .bind_advance fun _ _ => hoperand.bind
        fun q right right' ⟨hright, hsame', hparsed, hslash⟩ => ?_
      have hmoved := hright.of_later hshows.later
      have hjoined : (joined kept op left right).Same (joined kept op left' right') :=
        (SameAll.cons hsame (.singleton hsame')).make ..
      exact (ih.moreOperands hlevel hmoved.firm hjoined (joined_parsed hleft hparsed hslash)
        (hmoved.steps h (by omega))).weaken
          fun r a b ⟨hkept, ha⟩ => ⟨hmoved.kept.trans hkept, ha⟩

theorem unary_lockstep (h : Enough p 2 (n + 1) n') :
    w.Lockstep p (unary mode (n + 1)) (unary mode n') (w.Read (ParsedValue 0) p) := by
  obtain ⟨n', rfl⟩ := h.pos
  refine .bind_peekNth_zero fun sign sign' hshows => ?_
  rw [hshows.same_kind]
  split
  · exact ih.primary h.down
  · rename_i op hop
    have hpast := hshows.past fun heof => by rw [heof] at hop; cases hop
    refine .bind_advance fun _ _ => .bind_peekNth_zero fun operand operand' hoperand => ?_
    have htouching {kind : TokenKind} (hkind : kind ≠ .eof) (c : Prop) :
        (!operand'.spaced) = true ∧ c ∧ operand'.kind = kind ↔
          (!operand.spaced) = true ∧ c ∧ operand.kind = kind := by
      rw [hoperand.same_kind]
      by_cases hk : operand.kind = kind
      · rw [hoperand.spaced_eq hshows.firm (hk ▸ hkind)]
      · simp only [hk, and_false]
    refine .ite_iff (htouching (by decide) _) (fun hcond => ?_)
      fun _ => .ite_iff (htouching (by decide) _) (fun hcond => ?_) fun _ => ?_
    · have hnext := hoperand.next_of_kind hcond.2.2
      refine .bind_advance fun kind hkind => ?_
      rw [hoperand.number_eq (by rw [hcond.2.2]; decide),
        hoperand.unit_eq (by rw [hcond.2.2]; decide)]
      exact .pure ⟨(hnext.moved rfl).of_later hshows.later, .leaf .., .atom _ rfl⟩
    · have hnext := hoperand.next_of_kind hcond.2.2
      refine .bind_advance fun kind hkind => ?_
      rw [hoperand.value_eq (by rw [hcond.2.2]; decide)]
      have hmoved := (hnext.moved rfl).of_later hshows.later
      exact (ih.word (fun hmem => absurd hmem (lowercase_dashed_not_mem _)) hmoved.firm
        (hmoved.steps h (by omega))).moved hmoved
    · refine (ih.unary (hpast.steps h (by omega))).bind fun q a b ⟨hinner, hab, ha⟩ => ?_
      exact .pure ⟨hinner.of_later hshows.later, hab.parent ..,
        .make ha.isValue (forall_mem_singleton.2 ha.shaped) rfl (Nat.le_refl 0)⟩

theorem primary_lockstep (h : Enough p 1 (n + 1) n') :
    w.Lockstep p (primary mode (n + 1)) (primary mode n') (w.Read (ParsedValue 0) p) := by
  obtain ⟨n', rfl⟩ := h.pos
  refine .bind_advance fun kind hkind => .bind_token hkind fun t t' ht => ?_
  have hk : t.kind = kind := ht.kind_eq.symm.trans hkind.kind_eq
  cases kind
  case number =>
    rw [ht.number_eq (by rw [hk]; decide), ht.unit_eq (by rw [hk]; decide)]
    exact .pure ⟨hkind.moved rfl, .leaf .., .atom _ rfl⟩
  case string =>
    rw [ht.value_eq (by rw [hk]; decide), ht.quote_eq (by rw [hk]; decide)]
    exact .pure ⟨hkind.moved rfl, .leaf .., .atom _ rfl⟩
  case trueWord | falseWord | nullWord =>
    exact .pure ⟨hkind.moved rfl, .leaf .., .atom _ rfl⟩
  case identifier =>
    have hmoved := hkind.moved rfl
    have hname : w.Unraw p.next t.value := by
      have hvalue : t.value = p.next.1.token.value := (congrArg Token.value ht.essence :)
      rw [Unraw, hvalue]
      exact w.unraw hkind.firm hkind.kind_eq
    rw [ht.value_eq (by rw [hk]; decide)]
    exact (ih.word hname hkind.firm (hmoved.steps h (by omega))).moved hmoved
  case variableName =>
    rw [ht.value_eq (by rw [hk]; decide)]
    exact .pure ⟨hkind.moved rfl, .leaf .., .atom _ rfl⟩
  case command =>
    have hmoved := hkind.moved rfl
    rw [ht.value_eq (by rw [hk]; decide)]
    exact (ih.command hkind.firm (hmoved.steps h (by omega))).moved hmoved
  case openParen =>
    have hmoved := hkind.moved rfl
    refine (ih.expression (hmoved.steps h (by omega))).bind fun q a b ⟨hinner, ha⟩ => ?_
    refine .bind_expect fun hclose _ _ _ => .pure ⟨?_, ha⟩
    exact (hmoved.trans hinner).trans (hclose.moved rfl)
  all_goals exact .unexpected hkind

theorem word_lockstep (hname : w.Unraw p name) (hp : w.Firm p) (h : Enough p 3 (n + 1) n') :
    w.Lockstep p (word mode name line (n + 1)) (word mode name line' n')
      (w.Got (ParsedValue 0) p) := by
  obtain ⟨n', rfl⟩ := h.pos
  refine .bind_peekNth_zero fun t t' ht => .ite_iff (ht.apart_iff hp)
    (fun _ => .pure ⟨.refl p, .leaf .., .atom _ rfl⟩) fun hcond => ?_
  obtain ⟨hkind, hglued⟩ := not_or.1 hcond
  have hraw (hmem : lowercase name ∈ rawNames) : w.Raw := by
    refine (hname hmem (ht.kind_eq.trans (not_not.1 hkind))).resolve_left fun hspaced => ?_
    exact hglued ((congrArg Token.spaced ht.essence :).trans hspaced)
  refine (ih.functionArguments hraw h.down).bind fun q a b ⟨hmoved, hab, ha⟩ => ?_
  exact .pure ⟨hmoved.kept, (hab.placed _).parent .., ha.application _ rfl⟩

theorem functionArguments_lockstep (hname : name ∈ rawNames → w.Raw) (h : Enough p 2 (n + 1) n') :
    w.Lockstep p (functionArguments mode name line (n + 1)) (functionArguments mode name line' n')
      (w.Read (ParsedArguments 1) p) := by
  obtain ⟨n', rfl⟩ := h.pos
  -- Behind the parenthesis no token has been looked at yet, so both texts are at hand.
  have hfinish (hraw : w.Raw) (hopen : w.Next p .openParen) {t t' : TokenStream}
      (hat : w.At p.next t t') (hnone : t.pushedBack = 0) :
      w.Agree (w.Read (ParsedArguments 1) p) (finishRaw line t) (finishRaw line' t') :=
    (finishRaw_lockstep line line' hat hraw hopen.firm hnone).weaken
      fun q a b ⟨hinner, ha⟩ => ⟨hinner.of_later hopen.later, ha⟩
  refine .ite (fun hlisted => ?_) fun _ => .ite (fun hurl => ?_) fun _ => ?_
  · have hraw := hname (.tail _ (contains_iff_mem.1 hlisted))
    refine .bind_expect_at fun hopen t t' hat _ hnone => ?_
    exact hfinish hraw hopen hat (hnone rfl)
  · have hraw := hname (hurl ▸ .head _)
    refine .bind_expect_at fun hopen t t' hat hback hnone => ?_
    obtain ⟨b, hrun, hrun'⟩ := hat.nextIsRaw hraw hopen.firm (hnone rfl)
    have hthen {α β : Type} {m : Reading α} {k : α → Reading β} {a : α} {t u : TokenStream}
        (h : m t = .ok (a, u)) : (m >>= k) t = k a u := by
      show m t >>= (fun r => k r.1 r.2) = _
      rw [h]
      rfl
    rw [hthen hrun, hthen hrun']
    cases b with
    | true => exact hfinish hraw hopen hat (hnone rfl)
    | false =>
      rw [if_neg nofun, if_neg nofun, hthen (guard_of_safe _ hback.first.few _),
        hthen (guard_of_safe _ hback.second.few _)]
      exact ih.arguments h.down t.previous t'.previous hback
  · exact ih.arguments h.down

theorem command_lockstep (hp : w.Firm p) (h : Enough p 2 (n + 1) n') :
    w.Lockstep p (command mode name line (n + 1)) (command mode name line' n')
      (w.Got (ParsedValue 0) p) := by
  obtain ⟨n', rfl⟩ := h.pos
  refine .ite (fun _ => ?_) fun _ => .ite (fun _ => ?_) fun _ => ?_
  · refine .bind_expect fun hopen _ _ _ => ?_
    have hmoved := hopen.moved rfl
    refine (ih.expression (hmoved.steps h (by omega))).bind fun q a b ⟨hinner, ha⟩ => ?_
    refine .bind_expect fun hclose _ _ _ => .pure ⟨?_, ha⟩
    exact ((hmoved.trans hinner).trans (hclose.moved rfl)).kept
  · refine .bind_expect fun hopen _ _ _ => .bind_expect fun hstring t t' ht => ?_
    have hvalue := ht.value_eq (ht.ne_eof hstring nofun)
    refine .bind_expect fun hclose _ _ _ => ?_
    rw [hvalue]
    refine .pure ⟨?_, .leaf .., .atom _ rfl⟩
    have hmoved := hopen.moved rfl
    exact ((hmoved.trans (hstring.moved rfl)).trans
      (hclose.moved rfl)).kept
  · refine .bind_peekNth_zero fun t t' ht => ?_
    have hresult (q : Points) (a b : Node) (hgot : w.Got (ParsedArguments 1) p q a b) :
        w.Lockstep q (pure (.make (.command name) line [a.placed .params]))
          (pure (.make (.command name) line' [b.placed .params])) (w.Got (ParsedValue 0) p) :=
      .pure ⟨hgot.1, (hgot.2.1.placed _).parent .., hgot.2.2.application _ rfl⟩
    refine .ite_iff (ht.touching_iff hp (by decide)) (fun _ => ?_) fun _ => ?_
    · refine (ih.arguments h.down).bind fun q a b ⟨hmoved, ha⟩ => ?_
      exact hresult q a b ⟨hmoved.kept, ha⟩
    · exact hresult p _ _ ⟨.refl p, .leaf .., .make nofun⟩

end Step

/-- **The parsers of values stay together**, with any number of steps that is enough. -/
theorem values (w : Tandem) (n : Nat) : w.Values n := by
  induction n with
  | zero => constructor <;> intros <;> exact (Enough.not_zero ‹_›).elim
  | succ n ih =>
    exact ⟨valueEntry_lockstep ih, entryValues_lockstep ih, arguments_lockstep ih,
      moreArguments_lockstep ih, expression_lockstep ih, binary_lockstep ih,
      moreOperands_lockstep ih, unary_lockstep ih, primary_lockstep ih, word_lockstep ih,
      functionArguments_lockstep ih, command_lockstep ih⟩

end Tandem

end Cascade
