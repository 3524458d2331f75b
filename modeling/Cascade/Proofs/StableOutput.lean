import Cascade.Proofs.Idempotence
import Cascade.Proofs.PrintedValues

/-!
# Compiled text is compiled to itself

The text of a compiled stylesheet is a stylesheet again.  If the names, selectors and literals in it
are read as they were written, then the statements that are read are those that were written, down to
the nesting of lists in values, and so they are compiled to the same text in every layout.
-/

set_option autoImplicit false

namespace Cascade

open Node List

variable (depth : Nat)

/-! ## Blanks in layouts -/

theorem AllBlank.ite {p : Prop} [Decidable p] {text : String} (h : AllBlank text.toList) :
    AllBlank (if p then text else "").toList := by
  split
  · exact h
  · exact AllBlank.nil

namespace Layout

variable (layout : Layout)

theorem allBlank_space : AllBlank layout.space.toList :=
  .ite (forall_mem_singleton.2 rfl)

theorem allBlank_statementBreak : AllBlank layout.statementBreak.toList :=
  .ite (forall_mem_singleton.2 rfl)

theorem allBlank_blockBreak : AllBlank layout.blockBreak.toList :=
  .ite (forall_mem_singleton.2 rfl)

theorem allBlank_indentation : AllBlank (layout.indentation depth).toList := by
  refine .ite fun c hc => ?_
  rw [Text.repeated, String.toList_join] at hc
  obtain ⟨text, htext, hc⟩ := mem_flatMap.1 hc
  rw [eq_of_mem_replicate htext] at hc
  have hblanks : AllBlank "  ".toList :=
    forall_mem_cons.2 ⟨rfl, forall_mem_singleton.2 rfl⟩
  exact hblanks c hc

theorem toList_selectorSeparator :
    ∃ gap, AllBlank gap ∧ (layout.selectorSeparator depth).toList = ',' :: gap := by
  unfold selectorSeparator
  split_ifs
  · refine ⟨'\n' :: (layout.indentation depth).toList, ?_, by rw [String.toList_append]; rfl⟩
    exact forall_mem_cons.2 ⟨rfl, layout.allBlank_indentation depth⟩
  · exact ⟨[' '], forall_mem_singleton.2 rfl, rfl⟩
  · exact ⟨[], AllBlank.nil, rfl⟩

theorem toList_property (name : String) (important : Bool) (value : String) :
    (layout.property depth name important [value]).toList = (layout.indentation depth).toList ++
      (name.toList ++ ':' :: (layout.space.toList ++ (value.toList ++
        ((if important then "!important" else "").toList ++
          ';' :: layout.statementBreak.toList)))) := by
  simp only [property, String.intercalate_singleton, String.toList_append, append_assoc]
  rfl

theorem toList_rule (heading body : String) :
    (layout.rule depth heading body).toList = (layout.indentation depth).toList ++
      (heading.toList ++ (layout.space.toList ++ '\x7b' :: (layout.statementBreak.toList ++
        (body.toList ++ ((layout.indentation depth).toList ++
          '\x7d' :: layout.blockBreak.toList))))) := by
  simp only [rule, String.toList_append, append_assoc]
  rfl

end Layout

/-! ## Texts that are read again -/

/-- Whether what stands before the brace of a rule is read again. -/
def Kind.isReadable : Kind → Bool
  | .selector names _ => names.all isSelectorText && names.head?.any (opensRule ·.toList)
  | .media queries _ => !queries.isEmpty && queries.all isEntryText
  | .supports query => isKeptText query.toList
  | .keyframes name vendor =>
    isAnimationText (((Kind.keyframes name vendor).heading? {} 0).getD "").toList name vendor
  | .frame names => !names.isEmpty && names.all isEntryText
  | _ => true

/-- Whether the texts of a node, apart from those of its statements, are read again. -/
def Node.isLegible (n : Node) : Bool :=
  match n.kind with
  | .property name _ _ => isLabelText name && n.children.all isReadable
  | kind => kind.isReadable

/-- **Whether all texts of a stylesheet are read again as they are.** -/
def Sheet.isReadable (sheet : Sheet) : Bool :=
  sheet.root.preorder.all isLegible

/-- What stands before the brace of a rule, or of a step of an animation. -/
inductive HeadedIn : Stretch → List Char → Kind → Prop where
  | rule {text : List Char} {kind : Kind} (h : Headed text kind) : HeadedIn .statements text kind
  | frame {hs : List TextPiece} {text kept : List Char} (h : Reads hs text kept) :
      HeadedIn .frames text (.frame (splitTopLevel ',' (String.ofList kept)))

/-- The headings of a kind, in every layout. -/
def Heralds (stretch : Stretch) (kind : Kind) : Prop :=
  ∀ flags depth, ∃ heading, kind.heading? { flags } depth = some heading ∧
    HeadedIn stretch heading.toList kind

/-- Where the rules of a kind stand. -/
def Kind.outer : Kind → Stretch
  | .frame _ => .frames
  | _ => .statements

/-- **The headings of a readable kind are read again.** -/
theorem Kind.heralds {kind : Kind} (hrule : kind.form.isRule = true) (hdynamic : kind.dynamic = [])
    (hstuck : kind.isStuck = false) (h : kind.isReadable = true) : Heralds kind.outer kind := by
  intro flags depth
  cases kind with
  | selector names dynamic =>
    obtain rfl : dynamic = [] := hdynamic
    rw [isReadable, Bool.and_eq_true, all_eq_true] at h
    obtain ⟨gap, hgap, hseparator⟩ := ({ flags } : Layout).toList_selectorSeparator depth
    refine ⟨_, rfl, .rule ?_⟩
    rw [String.toList_intercalate, hseparator]
    exact Headed.selector hgap (fun name hname => isSelector_of_isSelectorText (h.1 name hname)) h.2
  | media queries dynamic =>
    obtain rfl : dynamic = [] := hdynamic
    rw [isReadable, Bool.and_eq_true, Bool.not_eq_true', isEmpty_eq_false_iff,
      all_eq_true] at h
    obtain ⟨gap, hgap, hseparator⟩ := ({ flags } : Layout).toList_listSeparator
    refine ⟨_, rfl, .rule ?_⟩
    rw [String.toList_append, String.toList_intercalate, hseparator]
    exact Headed.media hgap h.1 fun query hquery => isEntry_of_isEntryText (h.2 query hquery)
  | supports query =>
    obtain ⟨ps, hps⟩ := reads_of_isKeptText h
    refine ⟨_, rfl, .rule ?_⟩
    rw [String.toList_append]
    exact Headed.supports hps
  | fontFace => exact ⟨_, rfl, .rule Headed.fontFace⟩
  | keyframes name vendor =>
    cases vendor <;> exact ⟨_, rfl, .rule (headed_of_isAnimationText h)⟩
  | frame names =>
    rw [isReadable, Bool.and_eq_true, Bool.not_eq_true', isEmpty_eq_false_iff,
      all_eq_true] at h
    obtain ⟨gap, hgap, hseparator⟩ := ({ flags } : Layout).toList_listSeparator
    obtain ⟨ps, kept, hreads, hsplit⟩ := Reads.entries hgap h.1 fun name hname =>
      isEntry_of_isEntryText (h.2 name hname)
    refine ⟨_, rfl, ?_⟩
    rw [String.toList_intercalate, hseparator]
    have hframe := HeadedIn.frame hreads
    rwa [hsplit] at hframe
  | root => cases hstuck
  | mixin _ selector _ => cases selector <;> cases hrule
  | _ => cases hrule

/-- What stands before a brace says where the rule stands. -/
theorem Heralds.outer_eq {stretch : Stretch} {kind : Kind} (h : Heralds stretch kind) :
    kind.outer = stretch := by
  obtain ⟨heading, -, h⟩ := h [] 0
  cases h with
  | rule h =>
    obtain ⟨hs, -, -, hheads⟩ := h
    have hheads := hheads []
    generalize regapped [] hs = ps at hheads
    cases hheads <;> rfl
  | frame h => rfl

/-! ## Statements that are read again -/

/-- **Written statements, and those that are read from their text.**  Lists in values may be nested in
other ways, and lines and scopes are gone. -/
inductive Rereads : Stretch → List Node → List Node → Prop where
  | nil {stretch : Stretch} : Rereads stretch [] []
  | property {l : Label} {v : Node} {name : String} {important : Bool} {rows : List (List Node)}
      {ns ms : List Node} (h : l.kind = .property name [] important) (hname : IsLabel name.toList)
      (hv : IsPlain v) (hrows : Printed v.cssText rows) (hmore : Rereads .statements ns ms) :
      Rereads .statements (.mk l [v] :: ns)
        (.make (.property name [] important) 0 [valueOf rows] :: ms)
  | rule {stretch : Stretch} {l lb : Label} {cs ds ns ms : List Node}
      (hok : Finished (.mk l [.mk lb cs])) (hrule : l.kind.form.isRule = true)
      (hdynamic : l.kind.dynamic = []) (h : Heralds stretch l.kind) (hr : lb.relation = some .rules)
      (hinner : Rereads l.kind.inner cs ds) (hmore : Rereads stretch ns ms) :
      Rereads stretch (.mk l [.mk lb cs] :: ns) (ruleOf l.kind ds :: ms)

/-- A rule and the statements behind it. -/
theorem HeadedIn.typeset {stretch : Stretch} {heading : List Char} {kind : Kind}
    (h : HeadedIn stretch heading kind) {gap space inner outer trailing body more : List Char}
    {nodes nodes' : List Node} (hgap : AllBlank gap) (hspace : AllBlank space)
    (hinner : AllBlank inner) (houter : AllBlank outer) (htrailing : AllBlank trailing)
    (hbody : ∀ gap, AllBlank gap → Typeset kind.inner gap body nodes)
    (hmore : ∀ gap, AllBlank gap → Typeset stretch gap more nodes') :
    Typeset stretch gap (heading ++ (space ++ '\x7b' :: (inner ++ (body ++ (outer ++
      '\x7d' :: (trailing ++ more)))))) (ruleOf kind nodes :: nodes') := by
  cases h with
  | rule h =>
    have hrule := Typeset.rule hgap hspace hinner houter htrailing h hbody
    have hcons := hrule.cons hmore
    simpa only [append_assoc, cons_append] using hcons
  | frame h => exact Typeset.frame hgap hspace hinner houter htrailing h hbody hmore

theorem Kind.inner_ne_statement (kind : Kind) : kind.inner ≠ .statement := by
  cases kind <;> exact nofun

/-- The steps of an animation stand in animations, and everything else stands elsewhere. -/
theorem Kind.outer_eq_inner_iff {kind kind' : Kind} :
    kind.outer = kind'.inner ↔ (kind.form = .frame ↔ kind'.form = .keyframes) := by
  have houter : kind.outer = if kind.form = .frame then .frames else .statements := by
    unfold Kind.form
    split <;> rfl
  have hinner : kind'.inner = if kind'.form = .keyframes then .frames else .statements := by
    unfold Kind.form
    split <;> rfl
  rw [houter, hinner]
  split_ifs <;> simp_all

namespace Rereads

variable {stretch : Stretch} {ns ms : List Node}

section

variable (h : Rereads stretch ns ms)

include h

/-- **The statements have one text in every layout, and it is a layout of what is read.** -/
theorem css (flags : List LayoutFlag) (depth : Nat) (file file' : Option String) :
    ∃ text, cssAll file { flags } depth ns = .ok text ∧
      cssAll file' { flags } depth ms = .ok text ∧
      (stretch ≠ .statement → ∀ gap, AllBlank gap → Typeset stretch gap text.toList ms) := by
  induction h generalizing depth with
  | @nil stretch =>
    refine ⟨"", rfl, rfl, fun hstretch gap hgap => ?_⟩
    cases stretch with
    | statement => exact absurd rfl hstretch
    | statements => exact .nil hgap
    | frames => exact .noFrame hgap
  | @property l v name important rows ns ms h hname hv hrows hmore ih =>
    obtain ⟨rest, hrest, hrest', htypeset⟩ := ih depth
    have hvalue : v.cssValue file { flags } = .ok (v.cssText flags) := hv.cssValue_eq file
    have hvalue' : (valueOf rows).cssValue file' { flags } = .ok (v.cssText flags) := by
      rw [(isPlain_valueOf hrows.isPlain_item).cssValue_eq file', hrows.cssText_valueOf]
    refine ⟨_, cssAll_cons (css_property (cssValues_singleton hvalue) h) hrest,
      cssAll_cons (css_property (cssValues_singleton hvalue') rfl) hrest',
      fun _ gap hgap => ?_⟩
    rw [String.toList_append, Layout.toList_property]
    refine Typeset.cons (Typeset.indent (fun gap hgap => ?_) (Layout.allBlank_indentation _ _) hgap)
      (htypeset nofun)
    have hproperty := Typeset.property hname (hrows.composed flags) important hgap
      (Layout.allBlank_space { flags }) (Layout.allBlank_statementBreak { flags })
    rwa [String.ofList_toList] at hproperty
  | @rule stretch l lb cs ds ns ms hok hrule hdynamic h hr hinner hmore ihinner ih =>
    obtain ⟨rest, hrest, hrest', htypeset⟩ := ih depth
    obtain ⟨body, hbody, hbody', hinside⟩ := ihinner (depth + 1)
    obtain ⟨heading, hheading, hheaded⟩ := h flags depth
    refine ⟨_, cssAll_cons (css_rule hheading hr hbody) hrest,
      cssAll_cons (css_ruleOf hheading hbody') hrest', fun hstretch gap hgap => ?_⟩
    rw [String.toList_append, Layout.toList_rule]
    simp only [append_assoc, cons_append]
    refine Typeset.indent (fun gap hgap => ?_) (Layout.allBlank_indentation _ _) hgap
    exact hheaded.typeset hgap (Layout.allBlank_space _) (Layout.allBlank_statementBreak _)
      (Layout.allBlank_indentation _ _) (Layout.allBlank_blockBreak _)
      (hinside l.kind.inner_ne_statement) (htypeset hstretch)

theorem map_kind : ms.map kind = ns.map kind := by
  induction h with
  | nil => rfl
  | @property l _ _ _ _ _ _ h _ _ _ _ ih =>
    rw [map_cons, map_cons, ih, kind_mk, h]
    rfl
  | rule _ _ _ _ _ _ _ _ ih =>
    rw [map_cons, map_cons, ih]
    rfl

theorem isEmpty_eq : ms.isEmpty = ns.isEmpty := by
  cases h <;> rfl

/-- What is read stands in no named place, and where it stood. -/
theorem relation_outer : ∀ m ∈ ms, m.relation = none ∧ m.kind.outer = stretch := by
  induction h with
  | nil => exact forall_mem_nil _
  | property _ _ _ _ _ ih => exact forall_mem_cons.2 ⟨⟨rfl, rfl⟩, ih⟩
  | rule _ _ _ h _ _ _ _ ih => exact forall_mem_cons.2 ⟨⟨rfl, h.outer_eq⟩, ih⟩

/-- Every statement that is read comes from one that was written. -/
theorem of_mem {m : Node} (hm : m ∈ ms) : ∃ n ∈ ns, Rereads stretch [n] [m] := by
  induction h with
  | nil => cases hm
  | property h hname hv hrows _ ih =>
    obtain rfl | hm := mem_cons.1 hm
    · exact ⟨_, mem_cons_self, .property h hname hv hrows .nil⟩
    · obtain ⟨n, hn, hread⟩ := ih hm
      exact ⟨n, mem_cons_of_mem _ hn, hread⟩
  | rule hok hrule hdynamic h hr hinner _ _ ih =>
    obtain rfl | hm := mem_cons.1 hm
    · exact ⟨_, mem_cons_self, .rule hok hrule hdynamic h hr hinner .nil⟩
    · obtain ⟨n, hn, hread⟩ := ih hm
      exact ⟨n, mem_cons_of_mem _ hn, hread⟩

end

theorem cons {n m : Node} (h : Rereads stretch [n] [m]) (hmore : Rereads stretch ns ms) :
    Rereads stretch (n :: ns) (m :: ms) := by
  cases h with
  | property h hname hv hrows _ => exact .property h hname hv hrows hmore
  | rule hok hrule hdynamic h hr hinner _ => exact .rule hok hrule hdynamic h hr hinner hmore

/-- Statements that are read again one by one. -/
theorem exists_of_forall (h : ∀ n ∈ ns, ∃ m, Rereads stretch [n] [m]) :
    ∃ ms, Rereads stretch ns ms := by
  induction ns with
  | nil => exact ⟨[], .nil⟩
  | cons n ns ih =>
    obtain ⟨⟨m, hm⟩, hns⟩ := forall_mem_cons.1 h
    obtain ⟨ms, hms⟩ := ih hns
    exact ⟨m :: ms, hm.cons hms⟩

end Rereads

theorem Kind.exists_property {kind : Kind} (hform : kind.form = .property)
    (hdynamic : kind.dynamic = []) : ∃ name important, kind = .property name [] important := by
  obtain ⟨name, dynamic, important, rfl⟩ := of_form hform
  obtain rfl : dynamic = [] := hdynamic
  exact ⟨name, important, rfl⟩

theorem Node.isReadable_of_isLegible {n : Node} (hrule : n.kind.form.isRule = true)
    (h : n.isLegible = true) : n.kind.isReadable = true := by
  unfold isLegible at h
  split at h
  · rename_i hkind
    rw [hkind] at hrule
    cases hrule
  · exact h

/-- **Finished statements that are readable are read again.** -/
theorem IsSettled.rereads {n : Node} (hn : IsSettled Finished n)
    (h : ∀ m ∈ n.preorder, m.isLegible = true) : ∃ m, Rereads n.kind.outer [n] [m] := by
  induction hn with
  | @property l v hok hform hd hr hv =>
    obtain ⟨name, important, hkind⟩ := Kind.exists_property hform hd
    have hlegible := h _ (self_mem_preorder _)
    simp only [isLegible, kind_mk, children_mk, hkind, Bool.and_eq_true,
      all_eq_true] at hlegible
    obtain ⟨rows, hrows⟩ := hv.printed (hlegible.2 v mem_cons_self)
    rw [kind_mk, hkind]
    exact ⟨_, .property hkind (isLabel_of_isLabelText hlegible.1) hv hrows .nil⟩
  | silent hok hdiscarded => cases hdiscarded.symm.trans hok.writable.2.1
  | call hok hform => exact (hok.1.1.1 hform).elim
  | block hok hform => exact absurd hform hok.1.1.2
  | @rule l lb cs hok hrule hd hk hr hm hcs ih =>
    obtain ⟨ds, hds⟩ : ∃ ds, Rereads l.kind.inner cs ds := by
      refine Rereads.exists_of_forall fun c hc => ?_
      rw [← Kind.outer_eq_inner_iff.2 (hm c hc).2]
      exact ih c hc fun m hm => h m (mem_preorder_of_mem mem_cons_self
        (mem_preorder_of_mem hc hm))
    have hreadable : l.kind.isReadable = true :=
      isReadable_of_isLegible (n := .mk l [.mk lb cs]) hrule (h _ (self_mem_preorder _))
    have hheralds := Kind.heralds hrule hd hok.2 hreadable
    exact ⟨_, .rule hok hrule hd hheralds hr hds .nil⟩
  | extended hok hform => cases (Kind.isStuck_of_extended hform).symm.trans hok.2

/-! ## What is read is reduced -/

namespace Rereads

variable {stretch : Stretch} {ns ms : List Node}

theorem kind_eq {n m : Node} (h : Rereads stretch [n] [m]) : m.kind = n.kind :=
  (cons_eq_cons.1 h.map_kind).1

/-- The statements of a query are read as those of the query that is read. -/
theorem body {n m : Node} (h : Rereads stretch [n] [m]) (hquery : n.kind.isQuery = true) :
    Rereads n.kind.inner n.body m.body := by
  cases h with
  | property hkind =>
    rw [kind_mk, hkind] at hquery
    cases hquery
  | rule hok hrule hdynamic h hr hinner _ =>
    rw [body_rule hr]
    exact hinner

/-- A rule is read as a rule of the same kind, with what is read of its statements. -/
theorem finished_ruleOf {l lb : Label} {cs ds : List Node} (hok : Finished (.mk l [.mk lb cs]))
    (hr : lb.relation = some .rules) (h : Rereads stretch cs ds) : Finished (ruleOf l.kind ds) := by
  obtain ⟨⟨hunblocked, hkept⟩, hstuck⟩ := hok
  refine ⟨⟨hunblocked, ?_⟩, hstuck⟩
  have hempty : (ruleOf l.kind ds).isEmptyRule = (Node.mk l [.mk lb cs]).isEmptyRule := by
    rw [isEmptyRule, isEmptyRule, rules?_rule hr]
    obtain ⟨kind, _⟩ := l
    cases kind <;> first | rfl | exact h.isEmpty_eq
  rw [isKept, hempty]
  exact hkept

/-- **What is read is finished.** -/
theorem isSettled (h : Rereads stretch ns ms) : ∀ m ∈ ms, IsSettled Finished m := by
  induction h with
  | nil => exact forall_mem_nil _
  | property h hname hv hrows _ ih =>
    refine forall_mem_cons.2 ⟨.property ⟨⟨⟨nofun, nofun⟩, rfl⟩, rfl⟩ rfl rfl (relation_valueOf
      fun row hrow b hb => (hrows.readItem row hrow b hb).relation)
      (isPlain_valueOf hrows.isPlain_item), ih⟩
  | rule hok hrule hdynamic h hr hinner _ ihinner ih =>
    refine forall_mem_cons.2 ⟨.rule (hinner.finished_ruleOf hok hr) hrule hdynamic rfl rfl
      (fun d hd => ?_) ihinner, ih⟩
    obtain ⟨hrelation, houter⟩ := hinner.relation_outer d hd
    exact ⟨hrelation, Kind.outer_eq_inner_iff.1 houter⟩

end Rereads

section Layers

variable {ok : Node → Prop} {stretch : Stretch} {n m : Node}

theorem IsPlain.kind_ne_block {v : Node} (hv : IsPlain v) : v.kind ≠ .block := by
  intro hkind
  cases hv with
  | literal h => rw [← kind_mk, hkind] at h; cases h
  | group h _ => obtain h | h | h := h <;> cases h.symm.trans hkind
  | function h _ _ _ => cases h.symm.trans hkind

section

variable (h : Rereads stretch [n] [m])

include h

theorem RuleOf.rereads {heading : Kind → Prop} {P Q : Node → Prop} (hn : RuleOf heading P n)
    (hPQ : ∀ stretch c d, P c → Rereads stretch [c] [d] → Q d) : RuleOf heading Q m := by
  cases hn with
  | mk hl hrel hb hr hcs =>
    cases h with
    | property hkind hname hv => exact absurd hb hv.kind_ne_block
    | rule hok hrule hdynamic h hr' hinner _ =>
      refine .mk hl rfl rfl rfl fun d hd => ?_
      obtain ⟨c, hc, hcd⟩ := hinner.of_mem hd
      exact hPQ _ c d (hcs c hc) hcd

theorem IsDeclaration.rereads (hn : IsDeclaration ok n) : IsDeclaration Finished m := by
  have hkind := h.kind_eq
  refine ⟨h.isSettled m mem_cons_self,
    ⟨(h.relation_outer m mem_cons_self).1, ?_⟩, ?_⟩
  · rw [hkind]
    exact hn.2.1.2
  · rw [hkind]
    exact hn.2.2

theorem IsCore.rereads (hn : IsCore ok n) : IsCore Finished m := by
  have hsettled := h.isSettled m mem_cons_self
  refine ⟨hsettled.self, hn.2.imp (fun hrule => hrule.rereads h fun _ _ _ hc => hc.rereads) ?_⟩
  rintro ⟨hwhole, -, -⟩
  rw [← h.kind_eq] at hwhole
  exact ⟨hwhole, hsettled, (h.relation_outer m mem_cons_self).1⟩

theorem IsInner.rereads (hn : IsInner ok n) : IsInner Finished m :=
  hn.imp (fun hn => hn.rereads h) fun hn =>
    ⟨(h.isSettled m mem_cons_self).self, hn.2.rereads h fun _ _ _ hc => hc.rereads⟩

/-- Layers are read as layers. -/
theorem IsTop.rereads (hn : IsTop ok n) : IsTop Finished m :=
  hn.imp (fun hn => hn.rereads h) fun hn => hn.imp (fun hn => hn.rereads h) fun hn =>
    ⟨(h.isSettled m mem_cons_self).self, hn.2.rereads h fun _ _ _ hc => hc.rereads⟩

end

/-- Neighbours that could not be merged are read as such. -/
theorem Tidy.rereads {ns ms : List Node} (hn : Tidy ns) (h : Rereads stretch ns ms) : Tidy ms := by
  induction hn generalizing stretch ms with
  | @mk ns hapart hinside ih =>
    refine .mk ?_ fun m hm hquery => ?_
    · have hkinds : (ns.map kind).IsChain fun a b => a.sameRule b = false :=
        (isChain_map kind).2 hapart
      rw [← h.map_kind] at hkinds
      exact (isChain_map kind).1 hkinds
    · obtain ⟨n, hn, hread⟩ := h.of_mem hm
      rw [hread.kind_eq] at hquery
      exact ih n hn hquery (hread.body hquery)

end Layers

/-! ## Compiling what was compiled -/

/-- What is read is reduced to itself, and has the text that was read. -/
theorem Rereads.reduce {ns ms : List Node} (h : Rereads .statements ns ms)
    {ok : Node → Prop} (htop : ∀ n ∈ ns, IsTop ok n) (htidy : Tidy ns) (file : Option String)
    (profile : Profile) :
    ∃ twice, Sheet.reduce { root := .make .sheet 1 ms, file } profile = .ok twice ∧
      twice.file = file ∧ twice.root.children.map bare = ms.map bare := by
  have htop' : ∀ m ∈ ms, IsTop Finished m := fun m hm => by
    obtain ⟨n, hn, hread⟩ := h.of_mem hm
    exact (htop n hn).rereads hread
  exact Sheet.reduce_finished profile rfl h.isSettled htop' (htidy.rereads h)

/-- The statements of a stylesheet that can be written and read are read again. -/
theorem Sheet.rereads {source : Source} {profile : Profile} {sheet reduced : Sheet}
    (hp : Sheet.parse source = .ok sheet) (h : sheet.reduce profile = .ok reduced)
    (hfinished : ∀ n ∈ reduced.root.children, IsSettled Finished n)
    (hreadable : reduced.isReadable = true) :
    ∃ ms, Rereads .statements reduced.root.children ms := by
  rw [Sheet.isReadable, all_eq_true] at hreadable
  have hchildren (n : Node) (hn : n ∈ reduced.root.children) (m : Node) (hm : m ∈ n.preorder) :
      m.isLegible = true := by
    refine hreadable m ?_
    cases hroot : reduced.root with
    | mk l cs =>
      rw [hroot] at hn
      exact mem_preorder_of_mem hn hm
  refine Rereads.exists_of_forall fun n hn => ?_
  have hmember := ((Sheet.reduce_isTop hp h).2 n hn).isSettled.2
  have houter : n.kind.outer = (Kind.sheet).inner :=
    Kind.outer_eq_inner_iff.2 (iff_of_false hmember.2 nofun)
  rw [← show n.kind.outer = .statements from houter]
  exact (hfinished n hn).rereads (hchildren n hn)

/-- **Compiled text is compiled to itself** in every layout, if the texts in it are read again as
they are. -/
theorem compile_compiled {source : Source} {profile : Profile} {flags flags' : List LayoutFlag}
    {sheet reduced : Sheet} {css : String} (hp : Sheet.parse source = .ok sheet)
    (h : sheet.reduce profile = .ok reduced) (hreadable : reduced.isReadable = true)
    (hcss : compile source profile { flags } = .ok css) (profile' : Profile)
    (file : Option String) :
    ∃ css', compile { text := css, file } profile' { flags := flags' } = .ok css' ∧
      compile source profile { flags := flags' } = .ok css' := by
  have hwritten : reduced.css { flags } = .ok css := by
    obtain ⟨_, hsheet, hcss⟩ := bind_eq_ok.1 hcss
    cases hp.symm.trans hsheet
    obtain ⟨_, hreduced, hcss⟩ := bind_eq_ok.1 hcss
    cases h.symm.trans hreduced
    exact hcss
  have hfinished := (Sheet.css_ok_iff hp h).1 ⟨css, hwritten⟩
  obtain ⟨ms, hms⟩ := Sheet.rereads hp h hfinished hreadable
  obtain ⟨text, htext, -, htypeset⟩ := hms.css flags 0 reduced.file none
  obtain rfl : text = css := Except.ok.inj (htext.symm.trans hwritten)
  obtain ⟨css', hcss', hagain, -⟩ := hms.css flags' 0 reduced.file file
  obtain ⟨twice, htwice, hfile, hbare⟩ :=
    hms.reduce (Sheet.reduce_isTop hp h).2 (Sheet.reduce_tidy hp h) file profile'
  refine ⟨css', (htypeset nofun [] AllBlank.nil).compile ?_, ?_⟩
  · refine bind_eq_ok.2 ⟨twice, htwice, ?_⟩
    rw [Sheet.css, hfile]
    exact cssAll_of_bare_eq hbare.symm hagain
  · exact bind_eq_ok.2 ⟨sheet, hp, bind_eq_ok.2 ⟨reduced, h, hcss'⟩⟩

/-- A nested rule in a query, with a list in the arguments of a function. -/
theorem compile_compiled_query :
    ∃ sheet reduced,
      Sheet.parse { text := "@media x\x7ba\x7b&:e\x7bb:f(g h,-2px) \"i\";\x7d\x7d\x7d" } = .ok sheet ∧
      sheet.reduce {} = .ok reduced ∧ reduced.isReadable = true ∧
      compile { text := "@media x\x7ba\x7b&:e\x7bb:f(g h,-2px) \"i\";\x7d\x7d\x7d" } {} {} =
        .ok "@media x\x7ba:e\x7bb:f(g h,-2px) \"i\";\x7d\x7d" ∧
      ∃ css, compile { text := "@media x\x7ba:e\x7bb:f(g h,-2px) \"i\";\x7d\x7d" } {}
          { flags := [.blocks, .whitespace] } = .ok css ∧
        compile { text := "@media x\x7ba\x7b&:e\x7bb:f(g h,-2px) \"i\";\x7d\x7d\x7d" } {}
          { flags := [.blocks, .whitespace] } = .ok css := by
  have hcompile : compile { text := "@media x\x7ba\x7b&:e\x7bb:f(g h,-2px) \"i\";\x7d\x7d\x7d" } {} {} =
      .ok "@media x\x7ba:e\x7bb:f(g h,-2px) \"i\";\x7d\x7d" := by
    decide +kernel
  have hread : (do
      let sheet ← Sheet.parse { text := "@media x\x7ba\x7b&:e\x7bb:f(g h,-2px) \"i\";\x7d\x7d\x7d" }
      let reduced ← sheet.reduce {}
      pure reduced.isReadable) = Except.ok true := by
    decide +kernel
  obtain ⟨sheet, hp, hread⟩ := bind_eq_ok.1 hread
  obtain ⟨reduced, h, hread⟩ := bind_eq_ok.1 hread
  have hreadable := Except.ok.inj hread
  exact ⟨sheet, reduced, hp, h, hreadable, hcompile, compile_compiled hp h hreadable hcompile {} none⟩

/-- `null` has no text, and a property without a value cannot be read. -/
theorem compiled_null_unreadable :
    compile { text := "a\x7bb:null;\x7d" } {} {} = .ok "a\x7bb:;\x7d" ∧
      compile { text := "a\x7bb:;\x7d" } {} {} =
        .error ⟨.parse (.unexpectedToken "value" "`;`"), ⟨none, 1⟩⟩ :=
  ⟨by decide +kernel, by decide +kernel⟩

end Cascade
