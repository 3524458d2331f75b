import Cascade.Proofs.LockstepValues

/-!
# Parsing statements in lockstep

The parsers of statements take the same decisions on texts that go on alike, and so a whole
stylesheet is parsed in lockstep.  Comments may belong to different statements in the two texts, but
they do not count.  As with values, there is a lemma for one step of each parser, and what it builds
has the shape of a statement.

A text goes on like itself, so this says what every parsed tree looks like.
-/

set_option autoImplicit false

namespace Cascade

open List

/-! ## Comments -/

namespace Node

open Parse

@[simp] theorem stripped_withComments (hasPrevious : Bool) (comments passed : List Comment)
    (n : Node) : (withComments hasPrevious comments n passed).1.stripped = n.stripped := by
  cases hasPrevious <;> exact stripped_addComments _ _

@[simp] theorem map_stripped_commentPrevious (comments : List Comment) (ns : List Node) :
    (commentPrevious comments ns).map stripped = ns.map stripped := by
  cases ns with
  | nil => rfl
  | cons n ns => rw [commentPrevious, map_cons, stripped_addComments, map_cons]

end Node

namespace Tandem

open Node Parse

variable {w : Tandem} {p q : Points} {n n' k line line' : Nat}

/-! ## Values -/

theorem moreEntries_lockstep (mode : Mode) (n : Nat) : ∀ p n', Enough p 1 n n' →
    w.Lockstep p (moreEntries mode n) (moreEntries mode n')
      (w.GotAll (ParsedValue 1) p) := by
  induction n with
  | zero => exact fun p n' h => h.not_zero.elim
  | succ n ih =>
    intro p n' h
    obtain ⟨n', rfl⟩ := h.pos
    refine .bind_accept (fun hkind => ?_) (.pure ⟨.refl p, .nil, nofun⟩)
    have hcomma := hkind.moved rfl
    refine ((w.values n).valueEntry (hcomma.steps h (by omega))).bind
      fun q a b ⟨hentry, hab, ha⟩ => ?_
    have hmoved := hcomma.trans hentry
    refine (ih q n' (hmoved.steps h (by omega))).bind fun r as bs ⟨hrest, hall, has⟩ => ?_
    exact .pure ⟨(hmoved.kept_trans hrest).kept, .cons hab hall, forall_mem_cons.2 ⟨ha, has⟩⟩

theorem valueList_lockstep (mode : Mode) (h : Enough p 13 n n') :
    w.Lockstep p (valueList mode n) (valueList mode n') (w.Read (ParsedValue 2) p) := by
  refine .bind_peekNth_zero fun _ _ _ => ?_
  refine ((w.values n).valueEntry h).bind fun q a b ⟨hmoved, hab, ha⟩ => ?_
  refine (moreEntries_lockstep mode n q n' (h.on hmoved.toPast (by omega))).bind
    fun r as bs ⟨hkept, hall, has⟩ => ?_
  cases as with
  | nil =>
    cases hall.inv_nil
    exact .pure ⟨hmoved.kept_trans hkept, hab, ha.mono (by decide)⟩
  | cons a₂ as =>
    obtain ⟨b₂, bs, rfl, hab₂, hall⟩ := hall.inv_cons
    have hparts : ∀ c ∈ a :: a₂ :: as, ParsedValue 1 c := forall_mem_cons.2 ⟨ha, has⟩
    exact .pure ⟨hmoved.kept_trans hkept, ((hall.cons hab₂).cons hab).make ..,
      .make ⟨by simp [make], fun c hc => (hparts c hc).isValue⟩
        (fun c hc => (hparts c hc).shaped) rfl (Nat.le_refl 2)⟩

theorem important_lockstep : w.Lockstep p important important fun q b b' =>
    w.Kept p q ∧ b' = b := by
  refine .bind_peek fun kind hkind => .ite (fun hbang => ?_) fun _ => .pure ⟨.refl p, rfl⟩
  refine (importantAhead_lockstep (hbang ▸ hkind)).bind fun q b b' ⟨⟨hq, hb⟩, hword⟩ => ?_
  rw [hq, hb]
  refine .ite (fun hb => ?_) fun _ => .pure ⟨.refl p, rfl⟩
  refine .bind_advance fun _ _ => .bind_advance fun _ _ => .pure ⟨?_, rfl⟩
  exact ((((hword hb).moved rfl)).of_later hkind.later).kept

theorem endStatement_lockstep : w.Lockstep p endStatement endStatement fun q _ _ => w.Kept p q := by
  refine .bind_accept (fun hkind => ?_) (.bind_peek fun kind _ => ?_)
  · exact .pure (hkind.moved rfl).kept
  · cases kind
    case closeBrace | eof => exact .pure (.refl p)
    all_goals exact .bind_advance fun _ hnext => .unexpected hnext

/-- The end of a statement after something has been read. -/
theorem Lockstep.end_pure {a b : Node} (hmoved : w.Moved p q) (hab : a.Same b)
    (ha : ParsedStatement a) :
    w.Lockstep q (endStatement >>= fun _ => Pure.pure a) (endStatement >>= fun _ => Pure.pure b)
      (w.Read ParsedStatement p) :=
  endStatement_lockstep.bind fun _ _ _ hkept => .pure ⟨hmoved.kept_trans hkept, hab, ha⟩

theorem propertyValue_lockstep (name : Template) (line line' : Nat) (h : Enough p 13 n n') :
    w.Lockstep p (propertyValue name line n) (propertyValue name line' n')
      (w.Read ParsedStatement p) := by
  refine (valueList_lockstep .value h).bind fun q a b ⟨hmoved, hab, ha⟩ => ?_
  refine important_lockstep.bind fun r important important' ⟨hkept, himportant⟩ => ?_
  rw [himportant]
  exact .end_pure (hmoved.kept_trans hkept) (hab.parent ..)
    (.make ha.isValue (forall_mem_singleton.2 ha.shaped) rfl)

/-! ## Preludes and names -/

theorem preludeFrom_lockstep (before : Template) (depth n : Nat) : ∀ p n', Enough p 1 n n' →
    (before.text ≠ "" → w.Firm p) →
    w.Lockstep p (preludeFrom before depth n) (preludeFrom before depth n') fun q a b =>
      Later p q ∧ b = a := by
  induction n generalizing before depth with
  | zero => exact fun p n' h => h.not_zero.elim
  | succ n ih =>
    intro p n' h hfirm
    obtain ⟨n', rfl⟩ := h.pos
    refine .bind_peek fun next hnext => .ite (fun _ => .pure ⟨.refl p, rfl⟩) fun hgo => ?_
    have heof : next ≠ .eof := fun heq => hgo (.inr heq)
    refine .bind_advance fun kind hkind => .bind_token hnext fun t t' ht => ?_
    have hne : t.kind ≠ .eof := fun heq => heof (hnext.kind_eq.symm.trans (ht.kind_eq.trans heq))
    have hspaced : t'.spaced = true ∧ before.text ≠ "" ↔ t.spaced = true ∧ before.text ≠ "" :=
      and_congr_left fun htext => by rw [ht.spaced_eq (hfirm htext) hne]
    have hon (before : Template) (depth : Nat) : w.Lockstep p.next (preludeFrom before depth n)
        (preludeFrom before depth n') fun q a b => Later p q ∧ b = a :=
      (ih before depth _ n' ((hnext.past heof).steps h (by omega)) fun _ => hnext.firm).weaken
        fun q a b ⟨hq, hab⟩ => ⟨hnext.later.trans hq, hab⟩
    simp only [hspaced]
    rw [ht.value_eq hne, ht.text_eq hne]
    exact .ite (fun _ => hon _ _) fun _ => .ite (fun _ => .unexpected hnext) fun _ => hon _ _

theorem prelude_lockstep (h : Enough p 1 n n') :
    w.Lockstep p (prelude n) (prelude n') fun q a b => Later p q ∧ b = a :=
  preludeFrom_lockstep {} 0 n p n' h fun htext => absurd rfl htext

theorem propertyNameFrom_lockstep (before : Template) (n : Nat) : ∀ p n', Enough p 1 n n' →
    w.Lockstep p (propertyNameFrom before n) (propertyNameFrom before n') fun q a b =>
      w.Moved p q ∧ b = a := by
  induction n generalizing before with
  | zero => exact fun p n' h => h.not_zero.elim
  | succ n ih =>
    intro p n' h
    obtain ⟨n', rfl⟩ := h.pos
    refine .bind_advance fun kind hkind => ?_
    have hon (hk : kind ≠ .eof) (before : Template) :
        w.Lockstep p.next (propertyNameFrom before n) (propertyNameFrom before n') fun q a b =>
          w.Moved p q ∧ b = a :=
      (ih before _ n' ((hkind.past hk).steps h (by omega))).weaken fun q a b ⟨hmoved, hab⟩ =>
        ⟨hmoved.of_later hkind.later, hab⟩
    cases kind
    case colon =>
      exact .ite (fun _ => .unexpected hkind) fun _ => .pure ⟨hkind.moved rfl, rfl⟩
    case variableName =>
      refine .bind_token hkind fun t t' ht => ?_
      rw [ht.value_eq (ht.ne_eof hkind nofun)]
      exact hon (by decide) _
    case identifier | minus | asterisk | number | notWord =>
      refine .bind_token hkind fun t t' ht => ?_
      rw [ht.text_eq (ht.ne_eof hkind nofun)]
      exact hon (by decide) _
    all_goals exact .unexpected hkind

theorem property_lockstep (h : Enough p 1 n n') :
    w.Lockstep p (property n) (property n') (w.Read ParsedStatement p) := by
  refine .bind_peekNth_zero fun _ _ _ => ?_
  refine (propertyNameFrom_lockstep {} n p n' h).bind fun q name name' ⟨hmoved, hname⟩ => ?_
  rw [hname]
  exact (propertyValue_lockstep name _ _ (h.on hmoved.toPast (by omega))).later hmoved.later

theorem skipGroup_lockstep (depth n : Nat) : ∀ p n', Enough p 1 n n' →
    w.Lockstep p (skipGroup depth n) (skipGroup depth n') fun _ _ _ => True := by
  induction n generalizing depth with
  | zero => exact fun p n' h => h.not_zero.elim
  | succ n ih =>
    intro p n' h
    obtain ⟨n', rfl⟩ := h.pos
    refine .bind_advance fun kind hkind => ?_
    have hon (hk : kind ≠ .eof) (depth : Nat) : w.Lockstep p.next (skipGroup depth n)
        (skipGroup depth n') fun _ _ _ => True :=
      ih depth _ n' ((hkind.past hk).steps h (by omega))
    cases kind
    case openParen => exact hon (by decide) _
    case closeParen => exact .ite (fun _ => .pure trivial) fun _ => hon (by decide) _
    case eof => exact .pure trivial
    all_goals exact hon (by decide) _

theorem groupBeforeBlock_lockstep (h : Enough p 1 n n') :
    w.Lockstep p (groupBeforeBlock n) (groupBeforeBlock n') (Asked p) := by
  refine Lockstep.ahead (?_ : w.Lockstep p _ _ fun _ b b' => b' = b)
  refine (skipGroup_lockstep 0 n p n' h).bind fun q _ _ _ => .bind_peek fun kind _ => ?_
  exact .pure rfl

theorem startsName_lockstep {first first' : Token} (h : w.Shows p first first')
    (hkind : first.kind = .variableName) :
    w.Lockstep p (startsName first) (startsName first') (Asked p) := by
  unfold startsName
  rw [h.text_eq (by rw [hkind]; decide)]
  refine .ite (fun _ => ?_) fun _ => .pure ⟨rfl, rfl⟩
  refine .bind_peekNth_one (h.next_of_kind hkind) (by decide) fun t t' ht => .pure ⟨rfl, ?_⟩
  by_cases heof : t.kind = .eof
  · simp [ht.same_kind, heof]
  · rw [ht.same_kind, ht.spaced_eq h.firm heof]

/-! ## Arguments and parameters -/

theorem parameters_lockstep (n : Nat) : ∀ p n', Enough p 1 n n' →
    w.Lockstep p (parameters n) (parameters n')
      (w.ReadAll (fun a => a.WellShaped ∧ a.IsParam) p) := by
  induction n with
  | zero => exact fun p n' h => h.not_zero.elim
  | succ n ih =>
    intro p n' h
    obtain ⟨n', rfl⟩ := h.pos
    refine .bind_accept (fun hkind => ?_) (.bind_expect fun hkind t t' ht => ?_)
    · exact .pure ⟨hkind.moved rfl, .nil, nofun⟩
    have hname := hkind.moved rfl
    have hvalue := ht.value_eq (ht.ne_eof hkind nofun)
    have hrest (q : Points) (as bs : List Node) (hmoved : w.Moved p q) (hall : SameAll as bs)
        (has : (make (.param t.value) t.line as).WellShaped) : w.Lockstep q (do
          let param := make (.param t.value) t.line as
          if ← Reading.accept .comma then
            let rest ← parameters n
            pure (param :: rest)
          else
            let _ ← Reading.expect .closeParen
            pure [param])
        (do
          let param := make (.param t'.value) t'.line bs
          if ← Reading.accept .comma then
            let rest ← parameters n'
            pure (param :: rest)
          else
            let _ ← Reading.expect .closeParen
            pure [param]) (w.ReadAll (fun a => a.WellShaped ∧ a.IsParam) p) := by
      rw [hvalue]
      have hparam := hall.make (.param t.value) t.line t'.line
      refine .bind_accept (fun hkind => ?_) (.bind_expect fun hkind _ _ _ => ?_)
      · have hcomma := hmoved.trans (hkind.moved rfl)
        refine (ih _ n' (hcomma.steps h (by omega))).bind ?_
        rintro r cs ds ⟨hmore, hsame, hcs⟩
        exact .pure ⟨hcomma.trans hmore, .cons hparam hsame,
          forall_mem_cons.2 ⟨⟨has, rfl, rfl⟩, hcs⟩⟩
      · exact .pure ⟨hmoved.trans (hkind.moved rfl), .singleton hparam,
          forall_mem_singleton.2 ⟨has, rfl, rfl⟩⟩
    refine .bind_accept (fun hkind => ?_) ?_
    · have hequals := hname.trans (hkind.moved rfl)
      refine ((w.values n).valueEntry (hequals.steps h (by omega))).bind
        fun q a b ⟨hdefault, hab, ha⟩ => ?_
      obtain ⟨hshaped, hinitial⟩ := ha.placed .initializer
      exact hrest q _ _ (hequals.trans hdefault) (.singleton (hab.placed _))
        (.mk hinitial (forall_mem_singleton.2 hshaped))
    · exact hrest _ [] [] hname .nil (.mk trivial (forall_mem_nil _))

theorem directiveArguments_lockstep (line line' : Nat) (hp : w.Firm p) (h : Enough p 13 n n') :
    w.Lockstep p (directiveArguments line n) (directiveArguments line' n')
      (w.Got (ParsedArguments 2) p) := by
  refine .bind_peekNth_zero fun t t' ht => ?_
  refine .ite_iff (ht.touching_iff hp (by decide)) (fun _ => ?_) fun _ => ?_
  · exact ((w.values n).arguments h.few).weaken
      fun q a b ⟨hmoved, hab, ha⟩ => ⟨hmoved.kept, hab, ha.mono (by decide)⟩
  · rw [ht.same_kind]
    refine .ite (fun _ => .pure ⟨.refl p, .leaf .., .make nofun⟩) fun _ => ?_
    refine (valueList_lockstep .value h).bind fun q a b ⟨hmoved, hab, ha⟩ => ?_
    exact .pure ⟨hmoved.kept, hab.parent ..,
      .make (forall_mem_singleton.2 ha)⟩

/-! ## Statements -/

/-- The same statement with whatever comments, after something has been read. -/
def ReadStatement (w : Tandem) (p q : Points) (a b : Node × List Comment) : Prop :=
  w.Read ParsedStatement p q a.1 b.1

/-- **What the parsers of statements do with `n` steps**, if these are enough: they stay together with
those that have `n'` steps, and give what belongs to statements. -/
structure Statements (w : Tandem) (n : Nat) : Prop where
  statementsFrom : ∀ {p closing before before' n'}, SameAll before before' →
    (∀ a ∈ before, ParsedStatement a) → Enough p 5 n n' →
    w.Lockstep p (statementsFrom closing before n) (statementsFrom closing before' n')
      (w.GotAll ParsedStatement p)
  block : ∀ {p n'}, Enough p 1 n n' → w.Lockstep p (block n) (block n') (w.Read ParsedBlock p)
  statement : ∀ {p hasPrevious hasPrevious' n'}, Enough p 4 n n' →
    w.Lockstep p (statement hasPrevious n) (statement hasPrevious' n') (w.ReadStatement p)
  ruleOrProperty : ∀ {p n'}, Enough p 3 n n' →
    w.Lockstep p (ruleOrProperty n) (ruleOrProperty n') (w.Read ParsedStatement p)
  withBlock : ∀ {p P kind n' line line'},
    (∀ {b}, ParsedBlock b → P (make kind line [b.placed .rules])) → Enough p 2 n n' →
    w.Lockstep p (withBlock kind line n) (withBlock kind line' n') (w.Read P p)
  variableStatement : ∀ {p n'}, Enough p 3 n n' →
    w.Lockstep p (variableStatement n) (variableStatement n') (w.Read ParsedStatement p)
  mixin : ∀ {p name n' line line'}, Enough p 2 n n' →
    w.Lockstep p (mixin name line n) (mixin name line' n') (w.Read ParsedStatement p)
  call : ∀ {p name extend params params' n' line line'}, params.Same params' →
    ParsedArguments 1 params → Enough p 1 n n' →
    w.Lockstep p (call name extend line params n) (call name extend line' params' n')
      (w.Got ParsedStatement p)
  commandStatement : ∀ {p hasPrevious hasPrevious' n'}, Enough p 3 n n' →
    w.Lockstep p (commandStatement hasPrevious n) (commandStatement hasPrevious' n')
      (w.ReadStatement p)
  conditional : ∀ {p n' line line'}, Enough p 12 n n' →
    w.Lockstep p (conditional line n) (conditional line' n')
      (w.Read (fun a => ParsedStatement a ∧ a.kind = .conditional) p)
  otherwise : ∀ {p n'}, Enough p 1 n n' →
    w.Lockstep p (otherwise n) (otherwise n') fun q as bs =>
      w.GotAll ParsedElse p q as bs ∧ as.length ≤ 1
  keyframes : ∀ {p vendor n' line line'}, Enough p 1 n n' →
    w.Lockstep p (keyframes vendor line n) (keyframes vendor line' n') (w.Read ParsedStatement p)
  frames : ∀ {p n'}, Enough p 3 n n' →
    w.Lockstep p (frames n) (frames n') (w.GotAll (fun a => a.WellShaped ∧ a.IsStep) p)

/-! ### One step -/

section Step

variable (ih : w.Statements n) {hasPrevious' hasPrevious : Bool}
include ih

theorem statementsFrom_lockstep {closing : TokenKind}
    {before before' : List Node} (hbefore : SameAll before before')
    (hparsed : ∀ a ∈ before, ParsedStatement a) (h : Enough p 5 (n + 1) n') :
    w.Lockstep p (statementsFrom closing before (n + 1)) (statementsFrom closing before' n')
      (w.GotAll ParsedStatement p) := by
  obtain ⟨n', rfl⟩ := h.pos
  refine .bind_peek fun kind hkind => .ite (fun _ => .pure ⟨.refl p, hbefore.reverse, ?_⟩)
    fun _ => .ite (fun hsemi => .bind_advance fun _ _ => ?_) fun _ => ?_
  · exact fun a ha => hparsed a (mem_reverse.1 ha)
  · have hmoved := (hsemi ▸ hkind).moved rfl
    refine (ih.statementsFrom hbefore hparsed (hmoved.steps h (by omega))).weaken ?_
    rintro q as bs ⟨hkept, hall⟩
    exact ⟨hmoved.kept.trans hkept, hall⟩
  · refine (ih.statement h.down).bind ?_
    rintro q a b ⟨hmoved, hab, ha⟩
    have hall : SameAll (a.1 :: commentPrevious a.2 before)
        (b.1 :: commentPrevious b.2 before') := by
      refine .cons hab ?_
      rw [SameAll, map_stripped_commentPrevious, map_stripped_commentPrevious]
      exact hbefore
    refine (ih.statementsFrom hall (forall_mem_cons.2 ⟨ha, commentPrevious_parsed hparsed⟩)
      (hmoved.steps h (by omega))).weaken ?_
    rintro r as bs ⟨hkept, hsame⟩
    exact ⟨hmoved.kept.trans hkept, hsame⟩

theorem block_lockstep (h : Enough p 1 (n + 1) n') :
    w.Lockstep p (block (n + 1)) (block n') (w.Read ParsedBlock p) := by
  obtain ⟨n', rfl⟩ := h.pos
  refine .bind_expect fun hopen _ _ _ => ?_
  have hmoved := hopen.moved rfl
  refine (ih.statementsFrom .nil nofun (hmoved.steps h (by omega))).bind
    fun q as bs ⟨hkept, hall, has⟩ => .bind_expect fun hclose _ _ _ => ?_
  exact .pure ⟨(hmoved.kept_trans hkept).trans (hclose.moved rfl), hall.make .., .make has⟩

theorem statement_lockstep (h : Enough p 4 (n + 1) n') :
    w.Lockstep p (statement hasPrevious (n + 1)) (statement hasPrevious' n')
      (w.ReadStatement p) := by
  obtain ⟨n', rfl⟩ := h.pos
  refine .bind_takeComments fun comments comments' => ?_
  have hdone (q : Points) (a b : Node) (passed passed' : List Comment)
      (hread : w.Read ParsedStatement p q a b) :
      w.Lockstep q (pure (withComments hasPrevious comments a passed))
        (pure (withComments hasPrevious' comments' b passed')) (w.ReadStatement p) := by
    refine .pure ⟨hread.1, ?_, withComments_parsed hread.2.2⟩
    rw [Same, stripped_withComments, stripped_withComments]
    exact hread.2.1
  refine .bind_peekNth_zero fun first first' hfirst => ?_
  rw [hfirst.same_kind]
  refine .ite (fun _ => ?_) fun _ => .ite (fun hvariable => ?_) fun _ =>
    .ite (fun _ => ?_) fun _ => ?_
  · exact (ih.commandStatement h.down).bind fun q a b hread => hdone q _ _ _ _ hread
  · refine (startsName_lockstep hfirst hvariable).bind_asked fun starts => ?_
    cases starts with
    | true => exact (ih.ruleOrProperty h.down).bind fun q a b => hdone q a b _ _
    | false => exact (ih.variableStatement h.down).bind fun q a b => hdone q a b _ _
  · exact (ih.ruleOrProperty h.down).bind fun q a b => hdone q a b _ _
  · exact .bind_advance fun _ hnext => .unexpected_bind hnext

theorem ruleOrProperty_lockstep (h : Enough p 3 (n + 1) n') :
    w.Lockstep p (ruleOrProperty (n + 1)) (ruleOrProperty n') (w.Read ParsedStatement p) := by
  obtain ⟨n', rfl⟩ := h.pos
  refine .bind_find fun kind => .ite (fun _ => ?_) fun _ => property_lockstep h.down.few
  refine .bind_peekNth_zero fun _ _ _ => ?_
  refine (prelude_lockstep h.down.few).bind fun q text text' ⟨hq, htext⟩ => ?_
  rw [htext]
  exact (ih.withBlock (fun hb => hb.statement _ rfl) (h.down.mono hq)).later hq

theorem withBlock_lockstep {P : Node → Prop} {kind : Kind}
    (hP : ∀ {b}, ParsedBlock b → P (make kind line [b.placed .rules]))
    (h : Enough p 2 (n + 1) n') :
    w.Lockstep p (withBlock kind line (n + 1)) (withBlock kind line' n') (w.Read P p) := by
  obtain ⟨n', rfl⟩ := h.pos
  refine (ih.block h.down).bind fun q a b ⟨hmoved, hab, ha⟩ => ?_
  exact .pure ⟨hmoved, (hab.placed _).parent .., hP ha⟩

theorem variableStatement_lockstep (h : Enough p 3 (n + 1) n') :
    w.Lockstep p (variableStatement (n + 1)) (variableStatement n') (w.Read ParsedStatement p) := by
  obtain ⟨n', rfl⟩ := h.pos
  refine .bind_expect fun hkind first first' hfirst => ?_
  have hname := hkind.moved rfl
  rw [hfirst.value_eq (hfirst.ne_eof hkind nofun)]
  have hmixin : w.Lockstep _ (mixin first.value first.line n) (mixin first.value first'.line n')
      (w.Read ParsedStatement p) :=
    (ih.mixin (hname.steps h (by omega))).later hname.later
  have hvalue {q : Points} (hq : w.Moved p q) {kind : Kind}
      (hk : kind.form = .declaration ∨ kind.form = .assign) : w.Lockstep q (do
          let value ← valueList .value n
          endStatement
          pure (.make kind first.line [value.placed .initializer]))
        (do
          let value ← valueList .value n'
          endStatement
          pure (.make kind first'.line [value.placed .initializer])) (w.Read ParsedStatement p) :=
    (valueList_lockstep .value (hq.steps h (by omega))).bind fun r a b ⟨hmoved, hab, ha⟩ =>
      .end_pure (hq.trans hmoved) ((hab.placed _).parent ..)
        (ha.initialized hk)
  refine .bind_peek fun kind hkind => ?_
  cases kind
  case equals =>
    exact .bind_advance fun _ _ => hvalue (hname.trans (hkind.moved rfl)) (.inl rfl)
  case assign =>
    refine .bind_expect fun hkind op op' hop => ?_
    rw [hop.assign_eq (hop.ne_eof hkind nofun)]
    exact hvalue (hname.trans (hkind.moved rfl)) (.inr rfl)
  case openBrace => exact hmixin
  case openParen =>
    refine (groupBeforeBlock_lockstep (hname.steps h (by omega))).bind_asked fun before =>
      .ite (fun _ => hmixin) fun _ => ?_
    refine ((w.values n).arguments (hname.steps h (by omega))).bind
      fun q a b ⟨hparams, hab, ha⟩ => ?_
    have hmoved := hname.trans hparams
    exact (ih.call hab ha (hmoved.steps h (by omega))).moved hmoved
  case colon =>
    refine .bind_advance fun _ _ => ?_
    have hcolon := hname.trans (hkind.moved rfl)
    exact (propertyValue_lockstep _ _ _ (hcolon.steps h (by omega))).later hcolon.later
  case semicolon | closeBrace | eof | less =>
    exact (ih.call (.leaf ..) (.make nofun) (hname.steps h (by omega))).moved hname
  all_goals exact .bind_advance fun _ hnext => .unexpected hnext

theorem mixin_lockstep {name : String} (h : Enough p 2 (n + 1) n') :
    w.Lockstep p (mixin name line (n + 1)) (mixin name line' n') (w.Read ParsedStatement p) := by
  obtain ⟨n', rfl⟩ := h.pos
  have hbody (q : Points) (as bs : List Node) (hkept : w.Kept p q) (hall : SameAll as bs)
      (has : ∀ a ∈ as, a.WellShaped ∧ a.IsParam) : w.Lockstep q (do
        let rules ← block n
        pure (.make (.mixin name none 0) line
          [(make .params line as).placed .params, rules.placed .rules]))
      (do
        let rules ← block n'
        pure (.make (.mixin name none 0) line'
          [(make .params line' bs).placed .params, rules.placed .rules]))
      (w.Read ParsedStatement p) := by
    refine (ih.block (h.down.mono hkept.later)).bind fun r a b ⟨hmoved, hab, ha⟩ => ?_
    have hparams := (hall.make .params line line').placed .params
    exact .pure ⟨hmoved.of_later hkept.later,
      (SameAll.cons hparams (.singleton (hab.placed _))).make .., ha.mixin has⟩
  refine .bind_accept (fun hkind => ?_) (hbody p [] [] (.refl p) .nil nofun)
  have hopen := hkind.moved rfl
  refine (parameters_lockstep n _ _ (hopen.steps h (by omega))).bind
    fun q as bs ⟨hmoved, hall, has⟩ => ?_
  exact hbody q as bs (hopen.trans hmoved).kept hall has

theorem call_lockstep {name : String} {extend : Bool} {params params' : Node}
    (hsame : params.Same params') (hparams : ParsedArguments 1 params) (h : Enough p 1 (n + 1) n') :
    w.Lockstep p (call name extend line params (n + 1)) (call name extend line' params' n')
      (w.Got ParsedStatement p) := by
  obtain ⟨n', rfl⟩ := h.pos
  obtain ⟨hshaped, hargs⟩ := hparams.placed
  have hend (q : Points) (as bs : List Node) (hkept : w.Kept p q) (hall : SameAll as bs)
      (hcall : (make (.call name extend) line (params.placed .params :: as)).Shaped)
      (has : ∀ a ∈ as, a.WellShaped) : w.Lockstep q (do
        endStatement
        pure (.make (.call name extend) line (params.placed .params :: as)))
      (do
        endStatement
        pure (.make (.call name extend) line' (params'.placed .params :: bs)))
      (w.Got ParsedStatement p) :=
    endStatement_lockstep.bind fun r _ _ hrest => .pure ⟨hkept.trans hrest,
      (SameAll.cons (hsame.placed _) hall).make ..,
      .make hcall (forall_mem_cons.2 ⟨hshaped, has⟩) rfl⟩
  refine .bind_accept (fun hkind => ?_) (hend p [] [] (.refl p) .nil hargs (forall_mem_nil _))
  have hless := hkind.moved rfl
  refine (ih.block (hless.steps h (by omega))).bind ?_
  rintro q a b ⟨hmoved, hab, ha⟩
  obtain ⟨hcontent, hbody⟩ := ha.placed .rules
  exact hend q _ _ (hless.trans hmoved).kept (.singleton (hab.placed _)) ⟨hargs, hbody⟩
    (forall_mem_singleton.2 hcontent)

theorem commandStatement_lockstep (h : Enough p 3 (n + 1) n') :
    w.Lockstep p (commandStatement hasPrevious (n + 1)) (commandStatement hasPrevious' n')
      (w.ReadStatement p) := by
  obtain ⟨n', rfl⟩ := h.pos
  refine .bind_expect fun hkind first first' hfirst => ?_
  have hname := hkind.moved rfl
  rw [hfirst.value_eq (hfirst.ne_eof hkind nofun)]
  have hdone (q r : Points) (a b : Node) (hq : Later p.next q)
      (hread : w.Read ParsedStatement q r a b) :
      w.Lockstep r (pure (a, [])) (pure (b, [])) (w.ReadStatement p) :=
    .pure ⟨hread.1.of_later (hname.toPast.later.trans hq), hread.2⟩
  have hrule (kind : Kind) (hk : kind.form = .rule) (q : Points) (hq : Later p.next q) :
      w.Lockstep q (do pure (← withBlock kind first.line n, []))
        (do pure (← withBlock kind first'.line n', [])) (w.ReadStatement p) :=
    (ih.withBlock (fun hb => hb.statement _ hk) ((hname.steps h (by omega)).mono hq)).bind
      fun r a b hread => hdone q r a b hq hread
  have hend (q : Points) (a b : Node) (hmoved : w.Moved p q) (hab : a.Same b)
      (ha : ParsedStatement a) : w.Lockstep q (endStatement >>= fun _ => pure (a, []))
        (endStatement >>= fun _ => pure (b, [])) (w.ReadStatement p) :=
    endStatement_lockstep.bind fun r _ _ hkept => .pure ⟨hmoved.kept_trans hkept, hab, ha⟩
  refine .ite (fun _ => ?_) fun _ => .ite (fun _ => ?_) fun _ => .ite (fun _ => ?_) fun _ =>
    .ite (fun _ => ?_) fun _ => .ite (fun _ => hrule _ rfl _ (.refl _)) fun _ =>
    .ite (fun _ => ?_) fun _ => .ite (fun _ => ?_) fun _ => .ite (fun _ => ?_) fun _ =>
    .ite (fun _ => ?_) fun _ => ?_
  · exact (ih.conditional (hname.steps h (by omega))).bind fun q a b ⟨hmoved, hab, ha⟩ =>
      hdone _ q a b (.refl _) ⟨hmoved, hab, ha.1⟩
  · exact hend _ _ _ hname (.leaf ..) (.marker _ rfl)
  · refine .bind_advance fun kind hkind => ?_
    cases kind
    case string | identifier =>
      refine .bind_token hkind fun t t' ht => ?_
      rw [ht.value_eq (ht.ne_eof hkind nofun)]
      exact hend _ _ _ (hname.trans (hkind.moved rfl)) (.leaf ..) (.marker _ rfl)
    all_goals exact .unexpected hkind
  · refine (directiveArguments_lockstep _ _ hname.firm (hname.steps h (by omega))).bind
      fun q a b ⟨hkept, hab, ha⟩ => ?_
    obtain ⟨hshaped, hargs⟩ := ha.placed
    exact hend _ _ _ (hname.kept_trans hkept) ((hab.placed _).parent ..)
      (.make hargs (forall_mem_singleton.2 hshaped) rfl)
  · refine (prelude_lockstep (hname.steps h (by omega))).bind
      fun q text text' ⟨hq, htext⟩ => ?_
    rw [htext]
    exact hrule _ rfl q hq
  · refine (prelude_lockstep (hname.steps h (by omega))).bind
      fun q text text' ⟨hq, htext⟩ => ?_
    rw [htext]
    exact hrule _ rfl q hq
  · refine .bind_peek fun kind _ => .ite (fun _ => hrule _ rfl _ (.refl _)) fun _ => ?_
    refine (ih.statement (hname.steps h (by omega))).bind fun q a b ⟨hmoved, hab, ha⟩ => ?_
    exact .pure ⟨hname.trans hmoved, ((hab.parent ..).placed _).parent ..,
      (ParsedBlock.make (forall_mem_singleton.2 ha)).statement _ rfl⟩
  · exact (ih.keyframes (hname.steps h (by omega))).bind fun q a b hread =>
      hdone _ q a b (.refl _) hread
  · split
    · exact (ih.keyframes (hname.steps h (by omega))).bind fun q a b hread =>
        hdone _ q a b (.refl _) hread
    · exact .failAt ParseError.noConfusion ParseError.noConfusion

theorem conditional_lockstep (h : Enough p 12 (n + 1) n') :
    w.Lockstep p (conditional line (n + 1)) (conditional line' n')
      (w.Read (fun a => ParsedStatement a ∧ a.kind = .conditional) p) := by
  obtain ⟨n', rfl⟩ := h.pos
  refine ((w.values n).expression h.down).bind fun q a b ⟨hcondition, hab, ha⟩ => ?_
  refine (ih.block (hcondition.steps h (by omega))).bind fun r c d ⟨hthen, hcd, hc⟩ => ?_
  have hmoved := hcondition.trans hthen
  refine (ih.otherwise (hmoved.steps h (by omega))).bind
    fun t as bs ⟨⟨hkept, hall, has⟩, hone⟩ => ?_
  have hparts := ((hall.placed .elsePart).cons (hcd.placed .thenPart)).cons
    (hab.placed .condition)
  exact .pure ⟨hmoved.kept_trans hkept, hparts.make .., .conditional ha hc has hone, rfl⟩

theorem otherwise_lockstep (h : Enough p 1 (n + 1) n') :
    w.Lockstep p (otherwise (n + 1)) (otherwise n') fun q as bs =>
      w.GotAll ParsedElse p q as bs ∧ as.length ≤ 1 := by
  obtain ⟨n', rfl⟩ := h.pos
  refine .bind_peekNth_zero fun next next' hnext => ?_
  have hone {q r : Points} {a b : Node} (hmoved : w.Moved p q) (hread : w.Read ParsedElse q r a b) :
      w.GotAll ParsedElse p r [a] [b] ∧ [a].length ≤ 1 :=
    ⟨⟨(hmoved.trans hread.1).kept, .singleton hread.2.1, forall_mem_singleton.2 hread.2.2⟩,
      Nat.le_refl 1⟩
  have hnested (q : Points) (line line' : Nat) (hmoved : w.Moved p q) : w.Lockstep q
      (do pure [← conditional line n]) (do pure [← conditional line' n']) fun q as bs =>
        w.GotAll ParsedElse p q as bs ∧ as.length ≤ 1 :=
    (ih.conditional (hmoved.steps h (by omega))).bind fun r a b ⟨hinner, hab, ha⟩ =>
      .pure (hone hmoved ⟨hinner, hab, .inr ha⟩)
  have hcommand (hkind : next.kind = .command) : w.Moved p p.next :=
    ((hnext.next_of_kind hkind).moved rfl)
  refine .ite_iff (hnext.named_iff (by decide) _) (fun hcond => ?_) fun _ =>
    .ite_iff (hnext.named_iff (by decide) _) (fun hcond => ?_) fun _ =>
      .pure ⟨⟨.refl p, .nil, nofun⟩, Nat.zero_le 1⟩
  · exact .bind_advance fun _ _ => hnested _ _ _ (hcommand hcond.1)
  · have helse := hcommand hcond.1
    refine .bind_advance fun _ _ => .bind_peekNth_zero fun after after' hafter => ?_
    refine .ite_iff (hafter.named_iff (by decide) _) (fun hcond => ?_) fun _ => ?_
    · refine .bind_advance fun _ _ => hnested _ _ _ (helse.trans ?_)
      exact (hafter.next_of_kind hcond.1).moved rfl
    · exact (ih.block (helse.steps h (by omega))).bind fun q a b ⟨hmoved, hab, ha⟩ =>
        .pure (hone helse ⟨hmoved, hab, .inl ha⟩)

theorem keyframes_lockstep {vendor : Option String}
    (h : Enough p 1 (n + 1) n') :
    w.Lockstep p (keyframes vendor line (n + 1)) (keyframes vendor line' n')
      (w.Read ParsedStatement p) := by
  obtain ⟨n', rfl⟩ := h.pos
  refine .bind_advance fun kind hkind => ?_
  cases kind
  case identifier | string =>
    have hname := hkind.moved rfl
    refine .bind_token hkind fun t t' ht => .bind_expect fun hopen _ _ _ => ?_
    rw [ht.value_eq (ht.ne_eof hkind nofun)]
    have hbrace := hname.trans (hopen.moved rfl)
    refine (ih.frames (hbrace.steps h (by omega))).bind fun q as bs ⟨hkept, hall, has⟩ => ?_
    refine .bind_expect fun hclose _ _ _ => .pure ⟨?_, ?_, ?_⟩
    · exact (hbrace.kept_trans hkept).trans (hclose.moved rfl)
    · exact ((hall.make ..).placed _).parent ..
    · refine .make ⟨rfl, rfl, fun f hf => (has f hf).2⟩ (forall_mem_singleton.2 ?_) rfl
      exact .mk (.inr fun f hf => (has f hf).2) fun f hf => (has f hf).1
  all_goals exact .unexpected hkind

theorem frames_lockstep (h : Enough p 3 (n + 1) n') :
    w.Lockstep p (frames (n + 1)) (frames n')
      (w.GotAll (fun a => a.WellShaped ∧ a.IsStep) p) := by
  obtain ⟨n', rfl⟩ := h.pos
  refine .bind_peek fun kind _ => ?_
  cases kind
  case closeBrace | eof => exact .pure ⟨.refl p, .nil, nofun⟩
  all_goals
    refine .bind_peekNth_zero fun _ _ _ => ?_
    refine (prelude_lockstep h.down.few).bind fun q text text' ⟨hq, htext⟩ => ?_
    rw [htext]
    refine (ih.withBlock (P := fun a => a.WellShaped ∧ a.IsStep)
      (fun hb => ⟨hb.rule _ (.inr rfl), rfl, rfl⟩) (h.down.mono hq)).bind
      fun r a b ⟨hframe, hab, ha⟩ => ?_
    have hmoved := hframe.of_later hq
    refine (ih.frames (hmoved.steps h (by omega))).bind fun t as bs ⟨hkept, hall, has⟩ => ?_
    exact .pure ⟨(hmoved.kept_trans hkept).kept, .cons hab hall, forall_mem_cons.2 ⟨ha, has⟩⟩

end Step

/-- **The parsers of statements stay together**, with any number of steps that is enough. -/
theorem statements (w : Tandem) (n : Nat) : w.Statements n := by
  induction n with
  | zero => constructor <;> intros <;> exact (Enough.not_zero ‹_›).elim
  | succ n ih =>
    exact ⟨statementsFrom_lockstep ih, block_lockstep ih, statement_lockstep ih,
      ruleOrProperty_lockstep ih, withBlock_lockstep ih, variableStatement_lockstep ih,
      mixin_lockstep ih, call_lockstep ih, commandStatement_lockstep ih, conditional_lockstep ih,
      otherwise_lockstep ih, keyframes_lockstep ih, frames_lockstep ih⟩

/-! ## Stylesheets -/

theorem enough_stepsFor (source : Source) :
    32 * (Point.start source).rest.length + 5 ≤ stepsFor source := by
  rw [stepsFor, Point.start, String.length_toList]
  omega

/-- **Whole stylesheets are parsed in lockstep**, and the tree is well shaped.  After the last token
that is not the end, the end comes next. -/
theorem sheet_lockstep (h : Enough p 5 n n') :
    w.Lockstep p (sheet n) (sheet n') fun _ a b => a.Same b ∧
      (a.kind = .sheet ∧ a.relation = none ∧ a.WellShaped) ∧ ∃ q, w.Kept p q ∧ w.Next q .eof := by
  refine ((w.statements n).statementsFrom .nil nofun h).bind
    fun q as bs ⟨hkept, hall, has⟩ => .bind_expect fun hend _ _ _ => ?_
  exact .pure ⟨hall.make .., ⟨rfl, rfl, .mk (fun a ha => (has a ha).isListed)
    fun a ha => (has a ha).shaped⟩, q, hkept, hend⟩

/-- **Two texts that go on alike from their start** have the same tree, and it is well shaped, or fail
for the same reason. -/
theorem parse_agrees {source source' : Source} (h : w.Loose (.start source, .start source')) :
    (∃ e e', parse source = .error e ∧ parse source' = .error e' ∧ e.Alike e') ∨
      ∃ root root' q, parse source = .ok root ∧ parse source' = .ok root' ∧ root.Same root' ∧
        (root.kind = .sheet ∧ root.relation = none ∧ root.WellShaped) ∧
        w.Kept (.start source, .start source') q ∧ w.Next q .eof := by
  have hagree := sheet_lockstep ⟨enough_stepsFor source, enough_stepsFor source'⟩
    (.ofSource source) (.ofSource source')
    ⟨h, .of_bare rfl rfl, .of_bare rfl rfl, rfl, Nat.zero_le 2, nofun⟩
  have hparse (source : Source) :
      parse source = (sheet (stepsFor source) (.ofSource source)).map Prod.fst := rfl
  rw [hparse, hparse]
  obtain ⟨e, e', he, he', halike⟩ | ⟨_, root, root', s, s', hrun, hrun', hsame, hroot, q, hq⟩ :=
    hagree.outcomes
  · exact .inl ⟨e, e', by rw [he]; rfl, by rw [he']; rfl, halike⟩
  · exact .inr ⟨root, root', q, by rw [hrun]; rfl, by rw [hrun']; rfl, hsame, hroot, hq⟩

/-- A text goes on like itself. -/
def self : Tandem where
  Loose p := p.1 = p.2
  Firm p := p.1 = p.2
  Raw := True
  loose h := h
  error_iff h e := by rw [h]
  next h _ _ := congrArg Point.next h
  resembles h := h ▸ ⟨rfl, fun _ => rfl⟩
  spaced h _ _ := by rw [h]
  spaced_after_sign h _ _ := by rw [h]
  unraw _ _ _ _ := .inr trivial
  rest_eq _ h := congrArg Point.rest h
  firm_raw _ h cs := congrArg (fun p : Point => ({ p with rest := cs } : Point)) h

end Tandem

/-- **A parsed stylesheet** is well shaped. -/
theorem parse_shaped {source : Source} {root : Node} (h : parse source = .ok root) :
    root.kind = .sheet ∧ root.relation = none ∧ root.WellShaped := by
  obtain ⟨e, _, he, -⟩ | ⟨_, _, _, hroot, -, -, hshaped, -⟩ :=
    Tandem.parse_agrees (show Tandem.self.Loose (.start source, .start source) from rfl)
  · cases h.symm.trans he
  · cases h.symm.trans hroot
    exact hshaped

end Cascade
