import Cascade.Proofs.ParsedGrammar
import Cascade.Proofs.StageGrammar

/-!
# No use of a mixin stays open

Uses of mixins disappear in three rounds.  The first expands those inside definitions, so that no
definition has a use in it any more.  The second expands the copying uses in rules.  Statements that
they pass along may hold extending uses, and these may get into definitions again, namely into copies
of definitions that are nested in other ones.  But the names of these copies are marked, so that no
use of the third round finds them; there they stay, where nobody looks at them.  The third round
handles the extending uses that are in no definition, the last one first.

Each round goes through a list of places.  Its invariant says of every use in the tree where it
stands and, if it has still to be handled, that its place is yet to come.
-/

set_option autoImplicit false

namespace Cascade

open Node List

variable {sheet sheet' : Sheet} {t : List Kind} {rest : List Path} {name : String} {path q : Path}
  {root mixin : Node} {extend : Bool}

/-! ## Marked names -/

/-- Whether a character is a digit of a mark. -/
def isMarkDigit (c : Char) : Bool :=
  "0123456789abcdef".toList.contains c

/-- **Whether a name starts like the names in expansions**: `m`, five or more hexadecimal digits, and
a hyphen. -/
def hasMark (name : String) : Bool :=
  match name.toList with
  | 'm' :: rest =>
    5 ≤ (rest.takeWhile isMarkDigit).length && (rest.dropWhile isMarkDigit).head? == some '-'
  | _ => false

theorem Number.length_hexDigits (count n : Nat) : (hexDigits count n).length = count := by
  induction count generalizing n with
  | zero => rfl
  | succ count ih => rw [hexDigits, length_cons, ih]

theorem Number.isMarkDigit_of_mem_hexDigits {count n : Nat} {c : Char}
    (h : c ∈ hexDigits count n) : isMarkDigit c = true := by
  have digit : ∀ d < 16, isMarkDigit (Nat.digitChar d) = true := by decide
  induction count generalizing n with
  | zero => cases h
  | succ count ih =>
    rcases mem_cons.1 h with rfl | h
    · exact digit _ (Nat.mod_lt _ (by decide))
    · exact ih h

/-- **The names that expansions give start with a mark.** -/
theorem hasMark_marked (number : Nat) (name : String) :
    hasMark (Renaming.markOf number ++ "-" ++ name) = true := by
  generalize hd : (Number.hexDigits (max 5 (Nat.toDigits 16 number).length) number).reverse = ds
  have hlen : 5 ≤ ds.length := by
    rw [← hd, length_reverse, Number.length_hexDigits]
    exact Nat.le_max_left _ _
  have hdigit : ∀ c ∈ ds, isMarkDigit c = true := fun c hc =>
    Number.isMarkDigit_of_mem_hexDigits (mem_reverse.1 (hd ▸ hc))
  have hlist : (Renaming.markOf number ++ "-" ++ name).toList = 'm' :: (ds ++ '-' :: name.toList) := by
    simp [Renaming.markOf, Number.hex, hd]
  rw [hasMark, hlist]
  have hstop : isMarkDigit '-' = false := by decide
  simp [takeWhile_append_of_pos hdigit, dropWhile_append_of_pos hdigit, hstop, hlen]

/-! ## Uses inside definitions -/

open Node (Found)

/-- The invariant of the first round: no use has a marked name, and the uses inside definitions are
yet to come. -/
def Untouched (rest : List Path) (root : Node) : Prop :=
  ∀ ⦃q : Path⦄ ⦃t : List Kind⦄ ⦃name : String⦄ ⦃extend : Bool⦄, Found q t (.call name extend) root →
    hasMark name = false ∧ (t.any Kind.isMixin = true → q ∈ rest)

/-- **What one step of the first round keeps.**  Inner uses come first, and a use only sees mixins that
stand before it, so the mixin has no use in it and neither have the passed statements. -/
theorem Untouched.visit {sharing : Prop} (hs : IsSheet sharing sheet.root)
    (hrest : ∀ b ∈ rest, ¬ path <+: b ∧ ¬ Path.Precedes b path)
    (hu : Untouched (path :: rest) sheet.root)
    (h : ExpansionRound.definitions.visit sheet path = .ok sheet') :
    Untouched rest sheet'.root := by
  intro q t name extend hq
  obtain ⟨rfl, hno⟩ | ⟨call, cname, cextend, place, mixin, selector, dropped, number, hcall, hck,
    hsel, hprec, hmixin, hmk, heq⟩ := ExpansionRound.visit_cases h
  · obtain ⟨hmark, hin⟩ := hu hq
    refine ⟨hmark, fun hm => (mem_cons.1 (hin hm)).resolve_left ?_⟩
    rintro rfl
    obtain ⟨call, hcall, hck⟩ := hq.get?
    have := hno call name extend hcall hck
    rw [ExpansionRound.selects, hq.isInsideMixin, hm] at this
    cases this
  · rw [heq] at hq
    have hmm : mixin.kind.isMixin = true := by rw [hmk]; rfl
    cases Found.of_expansion hs hcall (by rw [hck, Kind.form]) hmixin hmm hq with
    | kept hpre hq =>
      obtain ⟨hmark, hin⟩ := hu hq
      refine ⟨hmark, fun hm => (mem_cons.1 (hin hm)).resolve_left ?_⟩
      rintro rfl
      exact hpre prefix_rfl
    | @defined r t₀ name₀ ht hq =>
      have hin := (hu hq).2 (any_eq_true.2 ⟨_, ht, hmm⟩)
      rcases mem_cons.1 hin with hpath | hin
      · exact absurd ⟨r, hpath⟩ hprec.not_prefix
      · have := (hrest _ hin).2
        rw [← append_nil path] at this
        exact absurd (hprec.append r []) this
    | @passed r t₀ t₁ t₂ kind hr ht hpath hq hcopy =>
      have hinside : t₀.any Kind.isMixin = true := hpath.isInsideMixin ▸ hsel
      have hin := (hu hq).2 (by rw [any_append, hinside, Bool.true_or])
      rcases mem_cons.1 hin with hpath | hin
      · exact absurd (append_right_eq_self.1 hpath) hr
      · exact absurd (prefix_append path r) (hrest _ hin).1

theorem Node.mem_callPlaces (h : Found q t (.call name extend) root) : q ∈ root.callPlaces := by
  obtain ⟨m, hm, hk⟩ := h.get?
  refine mem_filterMap.2 ⟨(q, m), mem_placesUpFrom.2 ⟨q, rfl, hm⟩, ?_⟩
  simp only [hk]

/-- Inner uses come before the ones around them, and otherwise the first one comes first. -/
theorem Node.pairwise_callPlaces (root : Node) :
    root.callPlaces.Pairwise fun a b => ¬ a <+: b ∧ ¬ Path.Precedes b a := by
  refine (pairwise_placesUpFrom root []).filterMap _ ?_
  rintro ⟨a, n⟩ ⟨b, m⟩ hab a' ha b' hb
  simp only at ha hb
  split at ha <;> cases ha
  split at hb <;> cases hb
  exact hab

/-- **What the first round leaves**: no use is inside a definition. -/
theorem Untouched.expandRound {sharing : Prop} (hs : IsSheet sharing sheet.root)
    (hn : CallsNamed (fun name => hasMark name = false) sheet.root)
    (h : sheet.expandRound .definitions = .ok sheet') : Untouched [] sheet'.root := by
  have start : Untouched sheet.root.callPlaces sheet.root := fun q t name extend hq => by
    obtain ⟨m, hm, hk⟩ := hq.get?
    exact ⟨hn m (mem_preorder.2 ⟨q, hm⟩) name extend hk, fun _ => mem_callPlaces hq⟩
  refine (foldlM_invariant (fun rest s => rest.Pairwise (fun a b => ¬ a <+: b ∧ ¬ Path.Precedes b a) ∧
    IsSheet sharing s.root ∧ Untouched rest s.root) ?_ _ _ _
      ⟨sheet.root.pairwise_callPlaces, hs, start⟩ h).2.2
  rintro path rest s s' ⟨hpair, hs, hu⟩ hstep
  obtain ⟨hrest, hpair⟩ := pairwise_cons.1 hpair
  exact ⟨hpair, hs.visit hstep, Untouched.visit hs hrest hu hstep⟩

/-! ## Uses in rules -/

/-- The definitions around a use have marked names, and one of them at least is not extended. -/
structure Sealed (t : List Kind) : Prop where
  marked : ∀ name selector dropped, .mixin name selector dropped ∈ t → hasMark name = true
  closed : t.any Kind.isMixin = true → ∃ k ∈ t, k.form = .template

theorem sealed_of_not_any (h : t.any Kind.isMixin = false) : Sealed t where
  marked _ _ _ hm := absurd rfl (any_eq_false.1 h _ hm)
  closed ha := by rw [h] at ha; cases ha

/-- What is around a use that was passed along. -/
theorem Sealed.passed {t₀ t₁ t₂ : List Kind} {kind : Kind} (h : Sealed (t₀ ++ kind :: .block :: t₂))
    (hk : kind.form = .call) (hcopy : ∀ k ∈ t₁, k.isMixin = true → Node.IsCopy mixin k)
    (hclosed : (t₀ ++ kind :: .block :: t₂).any Kind.isMixin = true ∨ ∀ k ∈ t₁, k.isMixin = true →
      k.form = .template) :
    Sealed (t₀ ++ t₁ ++ t₂) := by
  -- What was around the use before, apart from the use that passed it along, is still there.
  have old : ∀ k ∈ t₀ ++ kind :: .block :: t₂, k.isMixin = true → k ∈ t₀ ++ t₁ ++ t₂ := by
    intro k hkt hkm
    obtain ⟨name, extend, rfl⟩ := Kind.of_form hk
    simp only [mem_append, mem_cons] at hkt ⊢
    rcases hkt with h | rfl | rfl | h
    · exact .inl (.inl h)
    · cases hkm
    · cases hkm
    · exact .inr h
  have new : ∀ k ∈ t₀ ++ t₁ ++ t₂, k ∈ t₀ ++ kind :: .block :: t₂ ∨ k ∈ t₁ := by
    intro k hkt
    simp only [mem_append, mem_cons] at hkt ⊢
    tauto
  have hopen : (t₀ ++ kind :: .block :: t₂).any Kind.isMixin = true →
      ∃ k ∈ t₀ ++ t₁ ++ t₂, k.form = .template := fun ha => by
    obtain ⟨k, hkt, hkf⟩ := h.closed ha
    obtain ⟨name, dropped, rfl⟩ := Kind.of_form hkf
    exact ⟨_, old _ hkt rfl, hkf⟩
  refine ⟨fun name selector dropped hm => ?_, fun ha => ?_⟩
  · rcases new _ hm with hm | hm
    · exact h.marked _ _ _ hm
    · obtain ⟨name', number, _, _, hname, -⟩ := hcopy _ hm rfl
      cases hname
      exact hasMark_marked number name'
  · obtain ⟨k, hkt, hkm⟩ := any_eq_true.1 ha
    rcases new k hkt with hold | hnew
    · exact hopen (any_eq_true.2 ⟨k, hold, hkm⟩)
    · rcases hclosed with hclosed | hclosed
      · exact hopen hclosed
      · exact ⟨k, hkt, hclosed k hnew hkm⟩

/-- The invariant of the other rounds: no use has a marked name, the definitions around a use are
sealed, and of the uses that are in no definition `awaits` holds. -/
def Pending (awaits : Path → Bool → Prop) (root : Node) : Prop :=
  ∀ ⦃q : Path⦄ ⦃t : List Kind⦄ ⦃name : String⦄ ⦃extend : Bool⦄, Found q t (.call name extend) root →
    hasMark name = false ∧ Sealed t ∧ (t.any Kind.isMixin = false → awaits q extend)

/-- **What both rounds keep when a use is replaced.**  A use that was passed along without being in a
definition must be one that may stand anywhere, and all copies must be closed then. -/
theorem Pending.of_origin {awaits : Path → Bool → Prop} {place : Path} {u : List Kind}
    {cname : String} {cextend : Bool} {selector : Option (List String)} {dropped : Nat}
    (hp : Pending awaits root) (awaits' : Path → Bool → Prop)
    (hcall : Found path u (.call cname cextend) root)
    (hmk : mixin.kind = .mixin cname selector dropped)
    (hkept : ∀ q extend, ¬ path <+: q → awaits q extend → awaits' q extend)
    (hpassed : ∀ r extend, r ≠ [] → awaits (path ++ r) extend →
      (∀ k, Node.IsCopy mixin k → k.form = .template) ∧ ∀ q, awaits' q extend)
    (h : Node.Origin root mixin path place q t name extend) :
    hasMark name = false ∧ Sealed t ∧ (t.any Kind.isMixin = false → awaits' q extend) := by
  cases h with
  | kept hpre hq =>
    obtain ⟨hmark, hsealed, hopen⟩ := hp hq
    exact ⟨hmark, hsealed, fun hm => hkept _ _ hpre (hopen hm)⟩
  | defined ht hq =>
    -- The mixin would have a marked name, but the use has not.
    have hmarked := (hp hq).2.1.marked _ _ _ (hmk ▸ ht)
    rw [(hp hcall).1] at hmarked
    cases hmarked
  | @passed r t₀ t₁ t₂ kind hr ht hpath hq hcopy =>
    subst ht
    obtain ⟨-, rfl⟩ := hcall.unique hpath
    obtain ⟨hmark, hsealed, hopen⟩ := hp hq
    have hany : (t₀ ++ t₁ ++ t₂).any Kind.isMixin = false →
        (t₀ ++ .call cname cextend :: .block :: t₂).any Kind.isMixin = false := by
      simp only [any_append, any_cons, Kind.isMixin, Bool.false_or, Bool.or_eq_false_iff]
      exact fun h => ⟨h.1.1, h.2⟩
    cases hin : (t₀ ++ .call cname cextend :: .block :: t₂).any Kind.isMixin with
    | true =>
      refine ⟨hmark, hsealed.passed rfl hcopy (.inl hin), fun hm => ?_⟩
      rw [hany hm] at hin
      cases hin
    | false =>
      obtain ⟨hclosed, hall⟩ := hpassed r extend hr (hopen hin)
      exact ⟨hmark, hsealed.passed rfl hcopy (.inr fun k hk hkm => hclosed k (hcopy k hk hkm)),
        fun _ => hall q⟩

/-- Before mixins are extended, no definition is. -/
theorem IsSheet.form_of_isMixin {m : Node} (hs : IsSheet False root) (hm : m ∈ root.preorder)
    (hk : m.kind.isMixin = true) : m.kind.form = .template := by
  have hitem := hs.orderly.item (hs.kind ▸ rfl) hm (Kind.isLoose_of_isMixin hk)
  obtain ⟨l, lp, ps, b, rfl, h, -⟩ := hitem.isStatement.mixin_cases hk
  exact h.resolve_right fun h => h.1

theorem IsSheet.form_of_isCopy {place : Path} {kind : Kind} (hs : IsSheet False root)
    (hmixin : root.get? place = some mixin) (h : Node.IsCopy mixin kind) :
    kind.form = .template := by
  obtain ⟨name, number, selector, dropped, rfl, m, hm, hmk⟩ := h
  obtain ⟨r, hr⟩ := mem_preorder.1 hm
  have hroot : m ∈ root.preorder :=
    mem_preorder.2 ⟨place ++ r, by rw [get?_append, hmixin]; exact hr⟩
  have hform := hs.form_of_isMixin hroot (by rw [hmk]; rfl)
  rw [hmk] at hform
  cases selector with
  | none => rfl
  | some _ => cases hform

/-- **What one step of the second round keeps.** -/
theorem Pending.visit (hs : IsSheet False sheet.root) (hrest : ∀ b ∈ rest, ¬ path <+: b)
    (hp : Pending (fun q extend => extend = true ∨ q ∈ path :: rest) sheet.root)
    (h : ExpansionRound.rules.visit sheet path = .ok sheet') :
    Pending (fun q extend => extend = true ∨ q ∈ rest) sheet'.root := by
  intro q t name extend hq
  obtain ⟨rfl, hno⟩ | ⟨call, cname, cextend, place, mixin, selector, dropped, number, hcall, hck,
    -, hprec, hmixin, hmk, heq⟩ := ExpansionRound.visit_cases h
  · obtain ⟨hmark, hsealed, hopen⟩ := hp hq
    refine ⟨hmark, hsealed, fun hm => ?_⟩
    rcases hopen hm with hextend | hin
    · exact .inl hextend
    rcases mem_cons.1 hin with rfl | hin
    · obtain ⟨call, hcall, hck⟩ := hq.get?
      have := hno call name extend hcall hck
      rw [ExpansionRound.selects, hq.isInsideMixin, hm] at this
      exact .inl (by simpa using this)
    · exact .inr hin
  · rw [heq] at hq
    obtain ⟨u, hu⟩ := found_of_get? hcall
    rw [hck] at hu
    refine hp.of_origin (fun q extend => extend = true ∨ q ∈ rest) hu hmk
      (fun q extend hpre => ?_) (fun r extend hr hawaits => ?_)
      (Found.of_expansion hs hcall (by rw [hck, Kind.form]) hmixin (by rw [hmk]; rfl) hq)
    · refine Or.imp_right fun hin => (mem_cons.1 hin).resolve_left ?_
      rintro rfl
      exact hpre prefix_rfl
    · refine ⟨fun k hk => hs.form_of_isCopy hmixin hk, fun _ => .inl (hawaits.resolve_right ?_)⟩
      intro hin
      rcases mem_cons.1 hin with hpath | hin
      · exact hr (append_right_eq_self.1 hpath)
      · exact hrest _ hin (prefix_append path r)

/-- **What the second round leaves**: all uses in rules are extending ones. -/
theorem Pending.expandRound (hs : IsSheet False sheet.root) (hu : Untouched [] sheet.root)
    (h : sheet.expandRound .rules = .ok sheet') :
    Pending (fun _ extend => extend = true) sheet'.root := by
  have start : Pending (fun q extend => extend = true ∨ q ∈ sheet.root.callPlaces) sheet.root :=
    fun q t name extend hq => by
      obtain ⟨hmark, hin⟩ := hu hq
      have hout : t.any Kind.isMixin = false := by simpa using hin
      exact ⟨hmark, sealed_of_not_any hout, fun _ => .inr (mem_callPlaces hq)⟩
  have run : Pending (fun q extend => extend = true ∨ q ∈ []) sheet'.root := by
    refine (foldlM_invariant (fun rest s => rest.Pairwise (fun a b => ¬ a <+: b) ∧
      IsSheet False s.root ∧ Pending (fun q extend => extend = true ∨ q ∈ rest) s.root) ?_ _ _ _
        ⟨sheet.root.pairwise_callPlaces.imp fun h => h.1, hs, start⟩ h).2.2
    rintro path rest s s' ⟨hpair, hs, hp⟩ hstep
    obtain ⟨hrest, hpair⟩ := pairwise_cons.1 hpair
    exact ⟨hpair, hs.visit hstep, Pending.visit hs hrest hp hstep⟩
  intro q t name extend hq
  obtain ⟨hmark, hsealed, hopen⟩ := run hq
  exact ⟨hmark, hsealed, fun hm => (hopen hm).resolve_right not_mem_nil⟩

/-! ## Extending uses -/

/-- **What one step of the third round keeps.**  What the replacement moves stands after it, and there
all uses have been handled. -/
theorem Pending.extendAt (hs : IsSheet True sheet.root)
    (hrest : ∀ b ∈ rest, ¬ path <+: b ∧ ¬ Path.Precedes path b)
    (hp : Pending (fun q extend => extend = true ∧ q ∈ path :: rest) sheet.root)
    (h : sheet.extendAt path = .ok sheet') :
    Pending (fun q extend => extend = true ∧ q ∈ rest) sheet'.root := by
  intro q t name extend hq
  obtain ⟨rfl, hno⟩ | ⟨call, cname, place, mixin, selector, dropped, hcall, hck, -, hprec, hmixin,
    hmk, hedit⟩ := Sheet.extendAt_cases h
  · obtain ⟨hmark, hsealed, hopen⟩ := hp hq
    refine ⟨hmark, hsealed, fun hm => ?_⟩
    obtain ⟨rfl, hin⟩ := hopen hm
    refine ⟨rfl, (mem_cons.1 hin).resolve_left ?_⟩
    rintro rfl
    obtain ⟨call, hcall, hck⟩ := hq.get?
    have := hno call name hcall hck
    rw [hq.isInsideMixin, hm] at this
    cases this
  · have hcf : call.kind.form = .call := by rw [hck, Kind.form]
    have hmm : mixin.kind.isMixin = true := by rw [hmk]; rfl
    obtain ⟨u, hu⟩ := found_of_get? hcall
    rw [hck] at hu
    have horigin : Node.Origin sheet.root mixin path place q t name extend →
        hasMark name = false ∧ Sealed t ∧
          (t.any Kind.isMixin = false → extend = true ∧ q ∈ rest) := by
      refine hp.of_origin (fun q extend => extend = true ∧ q ∈ rest) hu hmk
        (fun q extend hpre => ?_) fun r extend hr hawaits => ?_
      · refine And.imp_right fun hin => (mem_cons.1 hin).resolve_left ?_
        rintro rfl
        exact hpre prefix_rfl
      · rcases mem_cons.1 hawaits.2 with hpath | hin
        · exact absurd (append_right_eq_self.1 hpath) hr
        · exact absurd (prefix_append path r) (hrest _ hin).1
    rcases hedit with ⟨number, heq⟩ | ⟨selectors, -, heq⟩ <;> rw [heq] at hq
    · exact horigin (Found.of_expansion hs hcall hcf hmixin hmm hq)
    · rcases Found.of_extension hs hcall hcf hmixin hmm hprec hq with horig | ⟨q₀, hq₀, hq⟩
      · exact horigin horig
      · obtain ⟨hmark, hsealed, hopen⟩ := hp hq
        refine ⟨hmark, hsealed, fun hm => ?_⟩
        rcases mem_cons.1 (hopen hm).2 with rfl | hin
        · exact absurd hq₀ (Path.not_precedes_self _)
        · exact absurd hq₀ (hrest _ hin).2

theorem Node.mem_extendPlaces (h : Found q t (.call name true) root) : q ∈ root.extendPlaces := by
  obtain ⟨m, hm, hk⟩ := h.get?
  refine mem_filterMap.2 ⟨(q, m), mem_placesFrom.2 ⟨q, rfl, hm⟩, ?_⟩
  simp only [hk]

theorem Node.pairwise_extendPlaces (root : Node) :
    root.extendPlaces.Pairwise fun a b => ¬ b <+: a ∧ ¬ Path.Precedes b a := by
  refine (pairwise_placesFrom root []).filterMap _ ?_
  rintro ⟨a, n⟩ ⟨b, m⟩ hab a' ha b' hb
  simp only at ha hb
  split at ha <;> cases ha
  split at hb <;> cases hb
  exact hab

/-- **What the third round leaves**: all uses are inside definitions, and these are sealed. -/
theorem Pending.extendAll (hs : IsSheet True sheet.root)
    (hp : Pending (fun _ extend => extend = true) sheet.root)
    (h : sheet.root.extendPlaces.reverse.foldlM Sheet.extendAt sheet = .ok sheet') :
    IsSheet True sheet'.root ∧ Pending (fun _ _ => False) sheet'.root := by
  have start : Pending (fun q extend => extend = true ∧ q ∈ sheet.root.extendPlaces.reverse)
      sheet.root := fun q t name extend hq => by
    obtain ⟨hmark, hsealed, hopen⟩ := hp hq
    refine ⟨hmark, hsealed, fun hm => ?_⟩
    obtain rfl := hopen hm
    exact ⟨rfl, mem_reverse.2 (mem_extendPlaces hq)⟩
  have run : IsSheet True sheet'.root ∧
      Pending (fun q extend => extend = true ∧ q ∈ []) sheet'.root := by
    refine (foldlM_invariant
      (fun rest s => rest.Pairwise (fun a b => ¬ a <+: b ∧ ¬ Path.Precedes a b) ∧
        IsSheet True s.root ∧ Pending (fun q extend => extend = true ∧ q ∈ rest) s.root) ?_ _ _ _
          ⟨pairwise_reverse.2 sheet.root.pairwise_extendPlaces, hs, start⟩ h).2
    rintro path rest s s' ⟨hpair, hs, hp⟩ hstep
    obtain ⟨hrest, hpair⟩ := pairwise_cons.1 hpair
    exact ⟨hpair, hs.extendAt hstep, Pending.extendAt hs hrest hp hstep⟩
  refine ⟨run.1, fun q t name extend hq => ?_⟩
  obtain ⟨hmark, hsealed, hopen⟩ := run.2 hq
  exact ⟨hmark, hsealed, fun hm => not_mem_nil (hopen hm).2⟩

/-! ## Open uses -/

/-- An open use is found below no mixin that nobody extends. -/
theorem OpenCall.found {n : Node} (h : OpenCall n) :
    ∃ q t name extend, Found q t (.call name extend) n ∧ ∀ k ∈ t, k.form ≠ .template := by
  induction h with
  | here h =>
    obtain ⟨name, extend, hk⟩ := Kind.of_form h
    exact ⟨[], [], name, extend, ⟨rfl, hk⟩, by simp⟩
  | @inside l cs c h hc _ ih =>
    obtain ⟨q, t, name, extend, hq, ht⟩ := ih
    obtain ⟨i, hi⟩ := getElem?_of_mem hc
    exact ⟨i :: q, l.kind :: t, name, extend, ⟨c, t, hi, rfl, hq⟩, forall_mem_cons.2 ⟨h, ht⟩⟩

/-- **Editing without new statements opens no use.** -/
theorem OpenCall.of_edited {m : Node} (h : OpenCall m) :
    ∀ {n : Node}, Edited (fun _ => False) n m → OpenCall n := by
  induction h with
  | here h =>
    rintro ⟨l, cs⟩ ⟨-, ⟨hf, -⟩ | ⟨-, hf, -⟩⟩
    · exact .here (hf ▸ h)
    · rw [h] at hf
      cases hf
  | inside h hc _ ih =>
    rintro ⟨l, cs⟩ ⟨-, ⟨hf, hcs⟩ | ⟨-, -, rfl⟩⟩
    · obtain ⟨c, hc, he⟩ | ⟨-, -, hno⟩ := hcs.exists_mem hc
      · exact .inside (hf ▸ h) hc (ih he)
      · exact hno.elim
    · cases hc

/-- A use that is found below no mixin that nobody extends is open. -/
theorem OpenCall.of_found {n : Node} (h : Found q t (.call name extend) n)
    (ht : ∀ k ∈ t, k.form ≠ .template) : OpenCall n := by
  induction q generalizing n t with
  | nil =>
    obtain ⟨l, cs⟩ := n
    have hk : l.kind = .call name extend := h.2
    exact .here (by rw [hk]; rfl)
  | cons i q ih =>
    obtain ⟨l, cs⟩ := n
    obtain ⟨c, rest, hc, rfl, h⟩ := h
    obtain ⟨hl, hrest⟩ := forall_mem_cons.1 ht
    exact .inside hl (mem_of_getElem? hc) (ih h hrest)

/-- **After the first two rounds** the uses in rules are extending ones, and those inside definitions
are sealed off. -/
theorem Sheet.expandMixins_pending {expanded : Sheet} (hs : IsSheet False sheet.root)
    (hn : CallsNamed (fun name => hasMark name = false) sheet.root)
    (h : sheet.expandMixins = .ok expanded) :
    Pending (fun _ extend => extend = true) expanded.root := by
  obtain ⟨first, hfirst, hsecond⟩ := bind_eq_ok.1 h
  exact .expandRound (hs.expandRound hfirst) (.expandRound hs hn hfirst) hsecond

/-- **After the three rounds no use is open.** -/
theorem Sheet.processExtends_closed {mid : Sheet} (hs : ∀ sharing, IsSheet sharing sheet.root)
    (hn : CallsNamed (fun name => hasMark name = false) sheet.root)
    (hexpand : sheet.expandMixins = .ok mid) (hextend : mid.processExtends = .ok sheet') :
    ¬ OpenCall sheet'.root := by
  have hpending := Sheet.expandMixins_pending (hs False) hn hexpand
  obtain ⟨last, hlast, h⟩ := bind_eq_ok.1 hextend
  obtain ⟨hsl, hend⟩ := Pending.extendAll ((hs True).expandMixins hexpand) hpending hlast
  cases h
  intro hopen
  obtain ⟨q, t, name, extend, hq, ht⟩ :=
    (hopen.of_edited (dropContent_edited hsl.orderly false)).found
  obtain ⟨-, hsealed, hno⟩ := hend hq
  cases hm : t.any Kind.isMixin with
  | false => exact hno hm
  | true =>
    obtain ⟨k, hk, hkt⟩ := hsealed.closed hm
    exact ht k hk hkt

/-! ## Live uses -/

/-- Whether every mixin that is used in a tree has an unmarked name. -/
def Node.callsUnmarked (n : Node) : Bool :=
  n.preorder.all fun m => match m.kind with
    | .call name _ => !hasMark name
    | _ => true

theorem Node.callsUnmarked_iff {n : Node} :
    n.callsUnmarked = true ↔ CallsNamed (fun name => hasMark name = false) n := by
  rw [callsUnmarked, all_eq_true]
  refine forall₂_congr fun m _ => ?_
  cases m.kind <;> simp

/-- **Expansion leaves no live use.**  If no mixin is used under a marked name, then after the first
two rounds every use that is in no definition is an extending one, and after the third every use that
is left stands inside a mixin that no selector extends. -/
theorem expansion_leaves_no_live_use {source : Source} {sheet expanded : Sheet}
    (hp : Sheet.parse source = .ok sheet)
    (hn : CallsNamed (fun name => hasMark name = false) sheet.root)
    (hexpand : sheet.expandMixins = .ok expanded) :
    (∀ q t name extend, Found q t (.call name extend) expanded.root →
      t.any Kind.isMixin = false → extend = true) ∧
    ∀ extended, expanded.processExtends = .ok extended →
      ∀ q t name extend, Found q t (.call name extend) extended.root →
        ∃ mixin dropped, .mixin mixin none dropped ∈ t := by
  have hs : ∀ sharing, IsSheet sharing sheet.root := by
    obtain ⟨root, hroot, rfl⟩ := map_eq_ok.1 hp
    exact fun _ => parse_isSheet hroot
  refine ⟨fun q t name extend hq hm => ?_, fun extended hextend q t name extend hq => ?_⟩
  · exact (Sheet.expandMixins_pending (hs False) hn hexpand hq).2.2 hm
  · by_contra hnone
    refine Sheet.processExtends_closed hs hn hexpand hextend (.of_found hq fun k hk hform => ?_)
    obtain ⟨mixin, dropped, rfl⟩ := Kind.of_form hform
    exact hnone ⟨mixin, dropped, hk⟩

/-- A rule passes an extending use along to a mixin that has another mixin in it.  One copy of the
use is handled, and the other one stays inside the copy of the inner mixin. -/
theorem expansion_leaves_no_live_use_passed :
    ∃ sheet expanded extended,
      Sheet.parse
          { text := "$e\x7bx:y;\x7d$m\x7b$n\x7b@content;\x7d@content;\x7da\x7b$m()<\x7b$e;\x7d\x7d" } =
        .ok sheet ∧
      CallsNamed (fun name => hasMark name = false) sheet.root ∧
      sheet.expandMixins = .ok expanded ∧ expanded.processExtends = .ok extended ∧
      expanded.root.callPlaces = [[2, 0, 0, 0, 1, 0], [2, 0, 0, 1]] ∧
      extended.root.callPlaces = [[2, 0, 0, 0, 1, 0]] ∧
      (∀ q t name extend, Found q t (.call name extend) expanded.root →
        t.any Kind.isMixin = false → extend = true) ∧
      ∀ q t name extend, Found q t (.call name extend) extended.root →
        ∃ mixin dropped, .mixin mixin none dropped ∈ t := by
  let source : Source :=
    { text := "$e\x7bx:y;\x7d$m\x7b$n\x7b@content;\x7d@content;\x7da\x7b$m()<\x7b$e;\x7d\x7d" }
  have hrun : (do
      let sheet ← Sheet.parse source
      let expanded ← sheet.expandMixins
      let extended ← expanded.processExtends
      pure (sheet.root.callsUnmarked, expanded.root.callPlaces, extended.root.callPlaces)) =
      .ok (true, [[2, 0, 0, 0, 1, 0], [2, 0, 0, 1]], [[2, 0, 0, 0, 1, 0]]) := by
    decide +kernel
  obtain ⟨sheet, hp, hrun⟩ := bind_eq_ok.1 hrun
  obtain ⟨expanded, hexpand, hrun⟩ := bind_eq_ok.1 hrun
  obtain ⟨extended, hextend, hrun⟩ := bind_eq_ok.1 hrun
  obtain ⟨hunmarked, hexpanded, hextended⟩ : sheet.root.callsUnmarked = true ∧
      expanded.root.callPlaces = [[2, 0, 0, 0, 1, 0], [2, 0, 0, 1]] ∧
      extended.root.callPlaces = [[2, 0, 0, 0, 1, 0]] := by
    simpa [pure_eq_ok] using hrun
  have hn := callsUnmarked_iff.1 hunmarked
  obtain ⟨hrules, hall⟩ := expansion_leaves_no_live_use hp hn hexpand
  exact ⟨sheet, expanded, extended, hp, hn, hexpand, hextend, hexpanded, hextended, hrules,
    hall extended hextend⟩

end Cascade
