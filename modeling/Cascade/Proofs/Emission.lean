import Cascade.Proofs.ParsedGrammar
import Cascade.Proofs.StageGrammar

/-!
# Writing reduced stylesheets

A reduced stylesheet is made of layers, and it can be written out unless something is left in it
that has no text: a rule that starts at the root again, a mixin, or a use of one.  Outside animations
and fonts none of these is left by flattening, which does not look into animations and fonts; so
there they stay, and the stylesheet cannot be written.
-/

set_option autoImplicit false

namespace Cascade

open Node List

variable {source : Source} {n : Node} {profile : Profile} {kind : Kind} {cs : List Node}
  {sheet : Sheet}

/-! ## The stages together -/

/-- The stages of reduction before flattening. -/
def Sheet.evaluate (sheet : Sheet) (profile : Profile) : Except Error Sheet := do
  let sheet ← sheet.substituteFields profile.fields
  let sheet ← sheet.cleanUp
  let sheet ← sheet.expandMixins
  let sheet ← sheet.processExtends
  let sheet ← sheet.cleanUp
  sheet.execute profile.commands

theorem Sheet.reduce_eq (sheet : Sheet) (profile : Profile) :
    sheet.reduce profile = sheet.evaluate profile >>= Sheet.flatten := by
  simp only [reduce, evaluate, bind_assoc]

theorem Sheet.parse_isSheet {sharing : Prop} (h : Sheet.parse source = .ok sheet) :
    IsSheet sharing sheet.root := by
  obtain ⟨root, hroot, rfl⟩ := map_eq_ok.1 h
  exact Cascade.parse_isSheet hroot

/-- What the stages before flattening leave of a parsed stylesheet. -/
theorem Sheet.evaluate_left {evaluated : Sheet} (hp : Sheet.parse source = .ok sheet)
    (h : sheet.evaluate profile = .ok evaluated) :
    evaluated.root.kind.form = .sheet ∧ LeftAll (CallsAre True) evaluated.root.children := by
  obtain ⟨s₁, h₁, h⟩ := bind_eq_ok.1 h
  obtain ⟨s₂, h₂, h⟩ := bind_eq_ok.1 h
  obtain ⟨s₃, h₃, h⟩ := bind_eq_ok.1 h
  obtain ⟨s₄, h₄, h⟩ := bind_eq_ok.1 h
  obtain ⟨s₅, h₅, h⟩ := bind_eq_ok.1 h
  have hs := (((((Sheet.parse_isSheet hp).substituteFields h₁).cleanUp h₂).expandMixins
    h₃).processExtends h₄).cleanUp h₅
  obtain ⟨hk, -, hleft⟩ := hs.execute (fun _ => trivial) h
  exact ⟨hk, hleft⟩

/-- **Reduced stylesheets are flat.** -/
theorem Sheet.reduce_isTop {flat : Sheet} (hp : Sheet.parse source = .ok sheet)
    (h : sheet.reduce profile = .ok flat) :
    flat.root.kind.form = .sheet ∧ ∀ n ∈ flat.root.children, IsTop (Full True) n := by
  rw [Sheet.reduce_eq] at h
  obtain ⟨evaluated, he, h⟩ := bind_eq_ok.1 h
  obtain ⟨hk, hleft⟩ := Sheet.evaluate_left hp he
  obtain ⟨hlabel, htop⟩ := Sheet.flatten_isTop hleft h
  refine ⟨?_, htop⟩
  rwa [kind, hlabel]

/-! ## Texts -/

/-- Kinds of statements that may be left over and have no text. -/
def Kind.isStuck : Kind → Bool
  | root | mixin .. | call .. => true
  | _ => false

theorem Kind.isStuck_of_extended (h : kind.form = .extended) : kind.isStuck = true := by
  cases kind <;> first | rfl | cases h

theorem Kind.isStuck_of_property (h : kind.form = .property) : kind.isStuck = false := by
  unfold form at h
  split at h <;> simp_all [isStuck]

/-- Kinds of nodes that have a text, or are part of nodes that have one. -/
def Kind.isInert : Kind → Bool
  | selector _ dynamic | property _ dynamic _ | media _ dynamic => dynamic.isEmpty
  | block | supports _ | fontFace | keyframes .. | frame _ | function _ | params | list | comma
  | slash | number .. | string .. | identifier _ | boolean _ | null | raw _ => true
  | _ => false

theorem Kind.isStuck_of_isInert (h : kind.isInert = true) : kind.isStuck = false := by
  cases kind with
  | root | mixin | call => cases h
  | _ => rfl

/-- Statements that have a text. -/
def Finished (m : Node) : Prop :=
  Full False m ∧ m.kind.isStuck = false

/-- Statements that have a text, unless they are empty. -/
def Writable (m : Node) : Prop :=
  Unblocked False m ∧ m.kind.isDiscarded = false ∧ m.kind.isStuck = false

theorem Finished.writable {m : Node} (h : Finished m) : Writable m :=
  ⟨h.1.1, h.1.isDiscarded, h.2⟩

section Texts

variable {file : Option String} {layout : Layout} {leaks : Prop} {depth : Nat}

theorem Node.cssValues_ok (h : ∀ c ∈ cs, ∃ text, ∀ file, c.cssValue file layout = .ok text) :
    ∃ texts, ∀ file, cssValues file layout cs = .ok texts := by
  induction cs with
  | nil => exact ⟨[], fun _ => rfl⟩
  | cons c cs ih =>
    obtain ⟨⟨text, htext⟩, hcs⟩ := forall_mem_cons.1 h
    obtain ⟨texts, htexts⟩ := ih hcs
    refine ⟨text :: texts, fun file => ?_⟩
    rw [cssValues, htext, htexts]
    rfl

/-- **Plain values have a text**, whatever file they are from. -/
theorem IsPlain.cssValue {v : Node} (hv : IsPlain v) :
    ∃ text, ∀ file, v.cssValue file layout = .ok text := by
  induction hv with
  | @literal l h =>
    simp only [Node.cssValue]
    revert h
    cases l.kind <;> simp [Kind.isLiteral, Kind.cssLiteral?]
  | @group l cs h _ ih =>
    obtain ⟨texts, htexts⟩ := cssValues_ok ih
    rcases h with h | h | h <;> simp only [Node.cssValue, h, htexts] <;> exact ⟨_, fun _ => rfl⟩
  | @function l lp cs name h hk hr _ ih =>
    obtain ⟨texts, htexts⟩ := cssValues_ok ih
    simp only [Node.cssValue, h, cssArguments, if_pos hr, htexts]
    exact ⟨_, fun _ => rfl⟩

theorem Node.cssAll_ok_iff : (∃ text, cssAll file layout depth cs = .ok text) ↔
      ∀ c ∈ cs, ∃ text, c.css file layout depth = .ok text := by
  induction cs with
  | nil => simp [cssAll]
  | cons c cs ih =>
    rw [forall_mem_cons, ← ih, cssAll]
    constructor
    · rintro ⟨text, h⟩
      obtain ⟨first, hfirst, h⟩ := bind_eq_ok.1 h
      obtain ⟨rest, hrest, h⟩ := bind_eq_ok.1 h
      exact ⟨⟨first, hfirst⟩, rest, hrest⟩
    · rintro ⟨⟨first, hfirst⟩, rest, hrest⟩
      rw [hfirst, hrest]
      exact ⟨_, rfl⟩

/-- The rules that are not stuck are those with a heading. -/
theorem Kind.heading?_isSome (h : kind.form.isRule = true) :
    (kind.heading? layout depth).isSome = !kind.isStuck := by
  cases kind with
  | mixin _ s _ => cases s <;> cases h
  | keyframes _ vendor => cases vendor <;> rfl
  | selector | media | supports | root | fontFace | frame => rfl
  | _ => cases h

/-- A rule has a text if its kind has a heading and its statements have texts. -/
theorem Node.css_rule_ok_iff {l lb : Label} (h : l.kind.form.isRule = true)
    (hr : lb.relation = some .rules) :
    (∃ text, (Node.mk l [.mk lb cs]).css file layout depth = .ok text) ↔
      l.kind.isStuck = false ∧ ∀ c ∈ cs, ∃ text, c.css file layout (depth + 1) = .ok text := by
  have hrules : cssRules file layout (depth + 1) [.mk lb cs] =
      cssAll file layout (depth + 1) cs := by
    rw [cssRules, if_pos hr]
  have hcss : (Node.mk l [.mk lb cs]).css file layout depth =
      (l.kind.heading? layout depth).elim (.error (l.unwritable file)) fun heading =>
        (cssAll file layout (depth + 1) cs).map (layout.rule depth heading) := by
    rw [css, hrules]
    cases hk : l.kind with
    | property | block => simp [hk, Kind.form, Form.isRule] at h
    | _ =>
      dsimp only
      split <;> simp only [*] <;> rfl
  have hsome : (l.kind.heading? layout depth).isSome = !l.kind.isStuck := Kind.heading?_isSome h
  rw [← cssAll_ok_iff, hcss]
  cases hheading : l.kind.heading? layout depth with
  | none => simp_all
  | some heading =>
    have hstuck : l.kind.isStuck = false := by simpa [hheading] using hsome.symm
    simp [hstuck, map_eq_ok]

/-- **Finished statements have a text.** -/
theorem IsSettled.css_of_finished (hn : IsSettled Finished n) (depth : Nat) :
    ∃ text, n.css file layout depth = .ok text := by
  induction hn generalizing depth with
  | @property l v hok h hd hr hv =>
    obtain ⟨texts, htexts⟩ : ∃ texts, ∀ file, cssValues file layout [v] = .ok texts :=
      cssValues_ok (forall_mem_singleton.2 hv.cssValue)
    obtain ⟨_, _, _, h⟩ := Kind.of_form h
    rw [css, h]
    simp only [htexts]
    exact ⟨_, rfl⟩
  | silent hok h => cases h.symm.trans hok.1.isDiscarded
  | call hok h => exact (hok.1.1.1 h).elim
  | block hok h => exact absurd h hok.1.1.2
  | rule hok h hd hk hr hm hcs ih =>
    exact (css_rule_ok_iff h hr).2 ⟨hok.2, fun c hc => ih c hc _⟩
  | extended hok h => exact absurd (Kind.isStuck_of_extended h) (by simpa using hok.2)

/-- A settled statement without anything empty in it **is finished, or has no text because something
in it is stuck**. -/
theorem IsSettled.finished_or_stuck (hn : IsSettled (Full leaks) n) (file : Option String)
    (layout : Layout) : IsSettled Finished n ∨
      (∀ depth text, n.css file layout depth ≠ .ok text) ∧
        ∃ m ∈ n.preorder, m.kind.isStuck = true := by
  -- What is stuck itself.
  have self : ∀ {l : Label} {cs : List Node}, l.kind.isStuck = true →
      (∀ depth text, (Node.mk l cs).css file layout depth ≠ .ok text) ∧
        ∃ m ∈ (Node.mk l cs).preorder, m.kind.isStuck = true := by
    intro l cs h
    refine ⟨fun depth text => ?_, _, self_mem_preorder _, h⟩
    rw [css]
    revert h
    cases l.kind <;> simp [Kind.isStuck, Kind.heading?]
  induction hn with
  | @property l v hok h hd hr hv =>
    have hstuck := Kind.isStuck_of_property h
    refine .inl (.property ⟨⟨⟨fun hc => ?_, hok.1.2⟩, hok.2⟩, hstuck⟩ h hd hr hv)
    rw [kind_mk, h] at hc
    cases hc
  | silent hok h => cases h.symm.trans hok.isDiscarded
  | call hok h =>
    obtain ⟨name, extend, hk⟩ := Kind.of_form h
    exact .inr (self (by rw [hk]; rfl))
  | block hok h => exact absurd h hok.1.2
  | @rule l lb cs hok h hd hk hr hm hcs ih =>
    by_cases hstuck : l.kind.isStuck = true
    · exact .inr (self hstuck)
    by_cases hall : ∀ c ∈ cs, IsSettled Finished c
    · refine .inl (.rule ⟨⟨⟨fun hc => ?_, hok.1.2⟩, hok.2⟩, by simpa using hstuck⟩ h hd hk hr hm hall)
      rw [kind_mk] at hc
      rw [hc] at h
      cases h
    · push Not at hall
      obtain ⟨c, hc, hnot⟩ := hall
      obtain ⟨htext, m, hmc, hms⟩ := (ih c hc).resolve_left hnot
      refine .inr ⟨fun depth text heq => ?_, m, ?_, hms⟩
      · obtain ⟨text, htext'⟩ := ((css_rule_ok_iff h hr).1 ⟨text, heq⟩).2 c hc
        exact htext _ _ htext'
      · exact mem_preorder_of_mem (mem_singleton_self _) (mem_preorder_of_mem hc hmc)
  | extended hok h => exact .inr (self (Kind.isStuck_of_extended h))

/-- Values are inert. -/
theorem IsPlain.inert {v : Node} (hv : IsPlain v) : ∀ m ∈ v.preorder, m.kind.isInert = true := by
  induction hv with
  | @literal l h =>
    refine forall_mem_preorder.2 ⟨?_, by simp⟩
    rw [kind_mk]
    revert h
    cases l.kind <;> simp [Kind.isLiteral, Kind.isInert]
  | group h _ ih =>
    refine forall_mem_preorder.2 ⟨?_, ih⟩
    rcases h with h | h | h <;> rw [kind_mk, h] <;> rfl
  | function h hk hr _ ih =>
    exact forall_mem_preorder.2 ⟨by rw [kind_mk, h]; rfl, forall_mem_singleton.2
      (forall_mem_preorder.2 ⟨by rw [kind_mk, hk]; rfl, ih⟩)⟩

/-- **Statements that can be written are inert.** -/
theorem IsSettled.inert (hn : IsSettled Writable n) : ∀ m ∈ n.preorder, m.kind.isInert = true := by
  induction hn with
  | @property l v hok h hd hr hv =>
    refine forall_mem_preorder.2 ⟨?_, forall_mem_singleton.2 hv.inert⟩
    rw [kind_mk]
    unfold Kind.form at h
    split at h <;> simp_all [Kind.dynamic, Kind.isInert]
  | silent hok h => cases h.symm.trans hok.2.1
  | call hok h => exact (hok.1.1 h).elim
  | block hok h => exact absurd h hok.1.2
  | @rule l lb cs hok h hd hk hr hm hcs ih =>
    refine forall_mem_preorder.2 ⟨?_, forall_mem_singleton.2 (forall_mem_preorder.2
      ⟨by rw [kind_mk, Kind.eq_block hk]; rfl, ih⟩)⟩
    have hstuck := hok.2.2
    rw [kind_mk] at hstuck ⊢
    unfold Kind.form at h
    split at h <;> simp_all [Form.isRule, Kind.dynamic, Kind.isInert, Kind.isStuck]
  | extended hok h => exact absurd (Kind.isStuck_of_extended h) (by simpa using hok.2.2)

theorem IsSettled.not_stuck (hn : IsSettled Finished n) :
    ∀ m ∈ n.preorder, m.kind.isStuck = false :=
  fun m hm => Kind.isStuck_of_isInert ((hn.mono fun _ => Finished.writable).inert m hm)

theorem IsSettled.css_ok_iff (hn : IsSettled (Full leaks) n) (depth : Nat) :
    (∃ text, n.css file layout depth = .ok text) ↔ IsSettled Finished n := by
  refine ⟨fun ⟨text, htext⟩ => ?_, fun h => h.css_of_finished depth⟩
  exact (hn.finished_or_stuck file layout).resolve_right fun h => h.1 depth text htext

theorem IsSettled.finished_iff (hn : IsSettled (Full leaks) n) :
    IsSettled Finished n ↔ ∀ m ∈ n.preorder, m.kind.isStuck = false := by
  refine ⟨IsSettled.not_stuck, fun hall => ?_⟩
  refine (hn.finished_or_stuck none default).resolve_right fun ⟨_, m, hm, hstuck⟩ => ?_
  rw [hall m hm] at hstuck
  cases hstuck

end Texts

/-! ## Reduced stylesheets -/

/-- A reduced stylesheet can be written if all its statements are finished. -/
theorem Sheet.css_ok_iff {reduced : Sheet} {layout : Layout} (hp : Sheet.parse source = .ok sheet)
    (h : sheet.reduce profile = .ok reduced) : (∃ text, reduced.css layout = .ok text) ↔
      ∀ n ∈ reduced.root.children, IsSettled Finished n := by
  obtain ⟨-, htop⟩ := Sheet.reduce_isTop hp h
  rw [Sheet.css, cssAll_ok_iff]
  exact forall₂_congr fun n hn => (htop n hn).isSettled.1.css_ok_iff 0

/-- **A reduced stylesheet can be written exactly if** no rule that starts at the root, no mixin and
no use of a mixin is left in it. -/
theorem reduced_css_ok_iff {source : Source} {profile : Profile} {sheet reduced : Sheet}
    (layout : Layout) (hp : Sheet.parse source = .ok sheet)
    (h : sheet.reduce profile = .ok reduced) :
    (∃ text, reduced.css layout = .ok text) ↔
      ∀ n ∈ reduced.root.preorder, n.kind.isStuck = false := by
  obtain ⟨hk, htop⟩ := Sheet.reduce_isTop hp h
  rw [Sheet.css_ok_iff hp h]
  obtain ⟨⟨l, cs⟩, file, expansions⟩ := reduced
  have hl : l.kind = .sheet := Kind.eq_sheet hk
  constructor
  · intro hall n hn
    obtain rfl | ⟨c, hc, hn⟩ := mem_preorder_mk.1 hn
    · rw [kind_mk, hl]
      rfl
    · exact (hall c hc).not_stuck n hn
  · intro hall c hc
    exact (htop c hc).isSettled.1.finished_iff.2 fun m hm =>
      hall m (mem_preorder_of_mem hc hm)

/-- A rule that starts at the root again inside a font: it stays, and nothing can be written. -/
theorem root_in_font_unwritable :
    ∃ sheet reduced, Sheet.parse { text := "@font-face\x7b@root\x7ba:b;\x7d\x7d" } = .ok sheet ∧
      sheet.reduce {} = .ok reduced ∧
      reduced.css {} = .error ⟨.output (.unreducedNode "root"), ⟨none, 1⟩⟩ := by
  let source : Source := { text := "@font-face\x7b@root\x7ba:b;\x7d\x7d" }
  have hreduces : (Sheet.parse source >>= fun sheet => sheet.reduce {}).toBool = true := by
    decide +kernel
  have hfails : compile source {} {} = .error ⟨.output (.unreducedNode "root"), ⟨none, 1⟩⟩ := by
    decide +kernel
  cases hp : Sheet.parse source with
  | error e => simp [hp, bind, Except.bind, Except.toBool] at hreduces
  | ok sheet =>
    cases h : sheet.reduce {} with
    | error e => simp [hp, h, bind, Except.bind, Except.toBool] at hreduces
    | ok reduced =>
      simp only [compile, hp, h, bind, Except.bind] at hfails
      exact ⟨sheet, reduced, rfl, h, hfails⟩

/-- An animation with nothing but properties in its steps: nothing is stuck. -/
theorem reduced_css_ok_animation :
    ∃ sheet reduced,
      Sheet.parse { text := "@keyframes k\x7bfrom\x7ba:b;\x7d\x7dc\x7b@root\x7bd\x7be:f;\x7d\x7d\x7d" } = .ok sheet ∧
      sheet.reduce {} = .ok reduced ∧
      (∃ text, reduced.css {} = .ok text) ∧ ∀ n ∈ reduced.root.preorder, n.kind.isStuck = false := by
  let source : Source :=
    { text := "@keyframes k\x7bfrom\x7ba:b;\x7d\x7dc\x7b@root\x7bd\x7be:f;\x7d\x7d\x7d" }
  have hcompile : compile source {} {} =
      .ok "@keyframes k\x7bfrom\x7ba:b;\x7d\x7dd\x7be:f;\x7d" := by
    decide +kernel
  obtain ⟨sheet, hp, hcompile⟩ := bind_eq_ok.1 hcompile
  obtain ⟨reduced, h, hcss⟩ := bind_eq_ok.1 hcompile
  exact ⟨sheet, reduced, hp, h, ⟨_, hcss⟩, (reduced_css_ok_iff {} hp h).1 ⟨_, hcss⟩⟩

end Cascade
