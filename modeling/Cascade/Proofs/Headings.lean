import Cascade.Proofs.Writing

/-!
# Lists of names before a brace

Selectors, queries and steps are written as lists of names with commas between them.  A name that
has no comma of its own outside of quotes and brackets, and that closes what it opens, comes out of
such a list as it went in, whatever blanks stand behind the commas.
-/

set_option autoImplicit false

namespace Cascade

open List

variable {gap : List Char} {c : Char} {before : String} {names : List (List Char)}

/-! ## Lists of names -/

/-- **A name that can stand in a list**: without blanks at its ends, without a comma outside of
quotes and brackets, and with everything closed. -/
structure IsEntry (name : List Char) : Prop where
  nonempty : name ≠ []
  trimmed : Text.trim name = name
  whole : topLevelPieces ',' {} name = [name]
  closed : name.foldl Nesting.step {} = {}

instance (name : List Char) : Decidable (IsEntry name) :=
  decidable_of_iff (name ≠ [] ∧ Text.trim name = name ∧ topLevelPieces ',' {} name = [name] ∧
      name.foldl Nesting.step {} = {})
    ⟨fun ⟨h, h', h'', h'''⟩ => ⟨h, h', h'', h'''⟩,
      fun h => ⟨h.nonempty, h.trimmed, h.whole, h.closed⟩⟩

section Split

variable {separator : Char} {nesting : Nesting}

theorem topLevelPieces_ne_nil (separator : Char) (nesting : Nesting) (cs : List Char) :
    topLevelPieces separator nesting cs ≠ [] := by
  cases cs with
  | nil => exact cons_ne_nil _ _
  | cons c cs =>
    rw [topLevelPieces]
    split
    · exact cons_ne_nil _ _
    · split <;> exact cons_ne_nil _ _

/-- A text without separators is the beginning of the first piece. -/
theorem topLevelPieces_append {as : List Char} (h : topLevelPieces separator nesting as = [as])
    {bs first : List Char} {rest : List (List Char)}
    (hbs : topLevelPieces separator (as.foldl Nesting.step nesting) bs = first :: rest) :
    topLevelPieces separator nesting (as ++ bs) = (as ++ first) :: rest := by
  induction as generalizing nesting with
  | nil => exact hbs
  | cons c as ih =>
    rw [cons_append, topLevelPieces]
    rw [topLevelPieces] at h
    by_cases hsep : nesting.isTop = true ∧ c = separator ∧ ¬Nesting.isMark c = true
    · rw [if_pos hsep] at h
      cases h
    · rw [if_neg hsep] at h ⊢
      cases hpieces : topLevelPieces separator (nesting.step c) as with
      | nil => exact absurd hpieces (topLevelPieces_ne_nil _ _ _)
      | cons piece pieces =>
        rw [hpieces] at h
        cases h
        rw [ih hpieces hbs]
        rfl

theorem not_isMark_of_isBlank (h : Text.isBlank c = true) : Nesting.isMark c = false := by
  cases hmark : Nesting.isMark c with
  | false => rfl
  | true =>
    simp only [Nesting.isMark, Bool.or_eq_true, beq_iff_eq] at hmark
    obtain ((((rfl | rfl) | rfl) | rfl) | rfl) | rfl := hmark <;> cases h

/-- Characters that open and close nothing. -/
theorem Nesting.step_of_not_isMark (h : Nesting.isMark c = false) : Nesting.step {} c = {} := by
  simp only [isMark, Bool.or_eq_false_iff, beq_eq_false_iff_ne] at h
  simp [step, h]

theorem topLevelPieces_of_not_mem {cs : List Char}
    (h : ∀ c ∈ cs, c ≠ separator ∧ Nesting.isMark c = false) :
    topLevelPieces separator {} cs = [cs] ∧ cs.foldl Nesting.step {} = {} := by
  induction cs with
  | nil => exact ⟨rfl, rfl⟩
  | cons c cs ih =>
    obtain ⟨⟨hc, hmark⟩, hcs⟩ := forall_mem_cons.1 h
    obtain ⟨hpieces, hclosed⟩ := ih hcs
    rw [topLevelPieces, if_neg fun hsep => hc hsep.2.1, foldl_cons,
      Nesting.step_of_not_isMark hmark, hpieces]
    exact ⟨rfl, hclosed⟩

theorem ne_comma_of_isBlank (h : Text.isBlank c = true) : c ≠ ',' := by
  rintro rfl
  cases h

/-- **Lists of names are cut at their commas.** -/
theorem topLevelPieces_intercalate (hgap : ∀ c ∈ gap, Text.isBlank c = true) {name : List Char}
    (h : ∀ n ∈ name :: names, IsEntry n) :
    topLevelPieces ',' {} ((',' :: gap).intercalate (name :: names)) =
      name :: names.map (gap ++ ·) := by
  induction names generalizing name with
  | nil =>
    rw [intercalate_singleton]
    exact (h name mem_cons_self).whole
  | cons next names ih =>
    obtain ⟨hname, hnames⟩ := forall_mem_cons.1 h
    have hblank (c : Char) (hc : c ∈ gap) : c ≠ ',' ∧ Nesting.isMark c = false :=
      ⟨ne_comma_of_isBlank (hgap c hc), not_isMark_of_isBlank (hgap c hc)⟩
    obtain ⟨hwhole, hclosed⟩ := topLevelPieces_of_not_mem hblank
    have hmore : topLevelPieces ',' {} (gap ++ (',' :: gap).intercalate (next :: names)) =
        (gap ++ next) :: names.map (gap ++ ·) :=
      topLevelPieces_append hwhole (by rw [hclosed]; exact ih hnames)
    have hrest : topLevelPieces ',' (name.foldl Nesting.step {})
        (',' :: (gap ++ (',' :: gap).intercalate (next :: names))) =
          [] :: (gap ++ next) :: names.map (gap ++ ·) := by
      rw [hname.closed, topLevelPieces, if_pos ⟨rfl, rfl, by decide⟩, hmore]
    rw [intercalate_cons_cons, append_assoc, cons_append,
      topLevelPieces_append hname.whole hrest, append_nil]
    rfl

end Split

/-- A text without blanks at its ends. -/
theorem trim_eq_self {d : Char} {cs ds : List Char} (hc : Text.isBlank c = false)
    (hd : Text.isBlank d = false) (h : c :: cs = ds ++ [d]) : Text.trim (c :: cs) = c :: cs := by
  have hleft : Text.trimLeft (c :: cs) = c :: cs :=
    dropWhile_cons_of_neg (by simp [hc])
  rw [Text.trim, hleft, h, Text.trimRight, reverse_append, reverse_singleton,
    singleton_append, dropWhile_cons_of_neg (by simp [hd]), reverse_cons,
    reverse_reverse]

/-- **A list of names is taken apart** into the names. -/
theorem splitTopLevel_intercalate (hgap : ∀ c ∈ gap, Text.isBlank c = true) {names : List String}
    (hne : names ≠ []) (h : ∀ n ∈ names, IsEntry n.toList) {text : String}
    (htext : text.toList = (',' :: gap).intercalate (names.map String.toList)) :
    splitTopLevel ',' text = names := by
  obtain _ | ⟨name, names⟩ := names
  · exact absurd rfl hne
  have hpieces : (topLevelPieces ',' {} text.toList).map Text.trim =
      (name :: names).map String.toList := by
    rw [htext, map_cons, topLevelPieces_intercalate hgap, map_cons, map_map]
    · refine congrArg₂ List.cons (h name mem_cons_self).trimmed ?_
      rw [map_map]
      refine map_congr_left fun n hn => ?_
      rw [Function.comp_apply, Function.comp_apply, Text.trim, Text.trimLeft,
        dropWhile_append_of_pos hgap]
      exact (h n (mem_cons_of_mem _ hn)).trimmed
    · rw [← map_cons]
      exact forall_mem_map.2 h
  have hname := (h name mem_cons_self).nonempty
  rw [splitTopLevel, hpieces]
  split
  · rename_i heq
    exact absurd (List.cons.inj heq).1 hname
  · rw [map_map]
    simp

/-- **A list of selectors is taken apart** into the selectors. -/
theorem splitSelectors_intercalate (hgap : ∀ c ∈ gap, Text.isBlank c = true) {names : List String}
    (hne : names ≠ []) (h : ∀ n ∈ names, IsEntry n.toList)
    (hcollapse : ∀ n ∈ names, collapseCombinators n = n) {text : String}
    (htext : text.toList = (',' :: gap).intercalate (names.map String.toList)) :
    splitSelectors text = names := by
  rw [splitSelectors, splitTopLevel_intercalate hgap hne h htext]
  exact (map_congr_left hcollapse).trans (map_id' _)

/-! ## Names in pieces -/

/-- The text that is kept goes on behind a text that is not empty. -/
theorem headingFrom_append (hbefore : before ≠ "") (front : String) (ps : List TextPiece) :
    headingFrom (front ++ before) ps = front ++ headingFrom before ps := by
  induction ps generalizing before with
  | nil => rfl
  | cons p ps ih =>
    have hne : front ++ before ≠ "" := fun h => hbefore (String.append_eq_empty_iff.1 h).2
    have hmore (text : String) : before ++ text ≠ "" := fun h =>
      hbefore (String.append_eq_empty_iff.1 h).1
    rw [headingFrom, headingFrom]
    by_cases hgap : p.gap = []
    · rw [if_neg fun h => h.1 hgap, if_neg fun h => h.1 hgap, String.append_assoc]
      exact ih (hmore _)
    · rw [if_pos ⟨hgap, hne⟩, if_pos ⟨hgap, hbefore⟩]
      simp only [String.append_assoc]
      exact ih (hmore _)

theorem headingFrom_ne_empty (h : before ≠ "") (ps : List TextPiece) :
    headingFrom before ps ≠ "" := by
  induction ps generalizing before with
  | nil => exact h
  | cons p ps ih =>
    refine ih fun hempty => ?_
    have hbefore := (String.append_eq_empty_iff.1 hempty).1
    split at hbefore
    · exact h (String.append_eq_empty_iff.1 hbefore).1
    · exact h hbefore

theorem headingFrom_pieces (before : String) (ps qs : List TextPiece) :
    headingFrom before (ps ++ qs) = headingFrom (headingFrom before ps) qs := by
  induction ps generalizing before with
  | nil => rfl
  | cons p ps ih => exact ih _

theorem KeptFrom.append {depth : Nat} {ps qs : List TextPiece} (h : KeptFrom depth ps)
    (hq : KeptFrom 0 qs) : KeptFrom depth (ps ++ qs) := by
  induction ps generalizing depth with
  | nil =>
    rw [show depth = 0 from h]
    exact hq
  | cons p ps ih => exact ⟨h.1, h.2.1, h.2.2.1, ih h.2.2.2⟩

/-- Pieces with other blanks before the first of them. -/
def regapped (gap : List Char) : List TextPiece → List TextPiece
  | [] => []
  | p :: ps => { p with gap } :: ps

/-- **Pieces of a text before a brace**, with what is kept of the text. -/
structure Reads (ps : List TextPiece) (text kept : List Char) : Prop where
  tight : ∃ p qs, ps = p :: qs ∧ p.gap = [] ∧ p.kind ≠ .eof
  text : textOf ps = text
  laid : Laid ps []
  inside : KeptFrom 0 ps
  heading : headingFrom "" ps = String.ofList kept
  /-- A dollar sign at the end would take the brace. -/
  ends : ∀ p, ps.getLast? = some p → p.kind ≠ .dollar

/-- The characters that may stand behind a name before a brace. -/
def isBreak (c : Char) : Bool :=
  Text.isBlank c || c == ',' || c == '\x7b'

theorem isJoint_of_isBreak (h : isBreak c = true) : isJoint c = false := by
  rw [isBreak, Bool.or_eq_true, Bool.or_eq_true, beq_iff_eq, beq_iff_eq] at h
  obtain (h | rfl) | rfl := h
  · exact isJoint_of_isBlank h
  · rfl
  · rfl

theorem ne_of_isBreak {d : Char} (h : isBreak c = true) (hd : isBreak d = false) : c ≠ d := by
  rintro rfl
  cases hd.symm.trans h

section Regapped

variable {ps qs : List TextPiece} {text kept text' kept' gap tail : List Char}

theorem Reads.text_ne_nil (h : Reads ps text kept) :
    ∃ p qs, ps = p :: qs ∧ p.gap = [] ∧ String.ofList p.lexeme.text ≠ "" := by
  obtain ⟨p, qs, rfl, hgap, hkind⟩ := h.tight
  refine ⟨p, qs, rfl, hgap, fun hempty => h.laid.2.1.text_ne_nil hkind ?_⟩
  rw [← String.toList_ofList (l := p.lexeme.text), hempty]
  rfl

/-- A name is read where it is followed by a blank, a comma or a brace. -/
theorem Reads.laid_cons (h : Reads ps text kept) (hc : isBreak c = true) : Laid ps (c :: tail) := by
  refine h.laid.extend h.inside.kind_ne_eof (isJoint_of_isBreak hc) fun p hp => ?_
  have hne (d : Char) (hd : isBreak d = false) : (c :: tail).head? ≠ some d := fun heq =>
    ne_of_isBreak hc hd (Option.some.inj heq)
  exact ⟨isJoint_of_isBreak hc, fun hdollar => absurd hdollar (h.ends p hp),
    fun _ => hne ':' rfl, fun _ => ⟨hne '/' rfl, hne '*' rfl⟩⟩

theorem textOf_regapped (h : ∃ p qs, ps = p :: qs ∧ p.gap = []) (gap : List Char) :
    textOf (regapped gap ps) = gap ++ textOf ps := by
  obtain ⟨p, qs, rfl, hgap⟩ := h
  rw [regapped, textOf_cons, textOf_cons, hgap, nil_append]

theorem Laid.regapped (h : Laid ps tail) (hgap : ∀ c ∈ gap, Text.isBlank c = true) :
    Laid (regapped gap ps) tail := by
  cases ps with
  | nil => trivial
  | cons p ps => exact ⟨hgap, h.2⟩

theorem KeptFrom.regapped {depth : Nat} (h : KeptFrom depth ps) (gap : List Char) :
    KeptFrom depth (regapped gap ps) := by
  cases ps with
  | nil => exact h
  | cons p ps => exact h

/-- At the beginning blanks are not kept. -/
theorem headingFrom_empty_regapped (gap : List Char) (ps : List TextPiece) :
    headingFrom "" (regapped gap ps) = headingFrom "" ps := by
  cases ps with
  | nil => rfl
  | cons p ps => simp only [regapped, headingFrom, ne_eq, not_true_eq_false, and_false, if_false]

theorem headingFrom_regapped (hbefore : before ≠ "")
    (h : ∃ p qs, ps = p :: qs ∧ p.gap = [] ∧ String.ofList p.lexeme.text ≠ "") (gap : List Char) :
    headingFrom before (regapped gap ps) =
      before ++ (if gap = [] then "" else " ") ++ headingFrom "" ps := by
  obtain ⟨p, qs, rfl, hgap, htext⟩ := h
  have hfirst : headingFrom "" (p :: qs) = headingFrom (String.ofList p.lexeme.text) qs := by
    rw [headingFrom, if_neg fun h => h.1 hgap, String.empty_append]
  rw [hfirst, regapped, headingFrom, ← headingFrom_append htext]
  by_cases hnil : gap = []
  · rw [if_neg fun h => h.1 hnil, if_pos hnil, String.append_empty]
  · rw [if_pos ⟨hnil, hbefore⟩, if_neg hnil]

/-- Pieces that go on a text before a brace. -/
structure Continues (ps : List TextPiece) (text kept : List Char) : Prop where
  breaks : text.head?.any isBreak = true
  text : textOf ps = text
  laid : Laid ps []
  inside : KeptFrom 0 ps
  heading : ∀ before, before ≠ "" → headingFrom before ps = before ++ String.ofList kept
  ends : ∀ p, ps.getLast? = some p → p.kind ≠ .dollar

variable (h : Reads ps text kept)

include h

theorem Reads.kept_ne_empty : String.ofList kept ≠ "" := by
  obtain ⟨p, qs, rfl, hgap, htext⟩ := h.text_ne_nil
  rw [← h.heading, headingFrom, if_neg fun h => h.1 hgap, String.empty_append]
  exact headingFrom_ne_empty htext qs

/-- A name and what goes on behind it. -/
theorem Reads.append (h' : Continues qs text' kept') :
    Reads (ps ++ qs) (text ++ text') (kept ++ kept') := by
  have hne : qs ≠ [] := by
    rintro rfl
    have hbreaks := h'.breaks
    rw [← h'.text] at hbreaks
    cases hbreaks
  refine ⟨?_, ?_, ?_, h.inside.append h'.inside, ?_, fun p hp => ?_⟩
  · obtain ⟨p, rs, rfl, hp⟩ := h.tight
    exact ⟨p, _, rfl, hp⟩
  · rw [textOf_append, h.text, h'.text]
  · refine laid_append.2 ⟨?_, h'.laid⟩
    have hbreaks := h'.breaks
    rw [append_nil, h'.text]
    cases text' with
    | nil => cases hbreaks
    | cons c cs => exact h.laid_cons hbreaks
  · rw [headingFrom_pieces, h.heading, h'.heading _ h.kept_ne_empty, String.ofList_append]
  · rw [getLast?_append_of_ne_nil _ hne] at hp
    exact h'.ends p hp

theorem Reads.getLast?_regapped (gap : List Char) :
    ∀ p, (regapped gap ps).getLast? = some p → p.kind ≠ .dollar := by
  intro p hp
  obtain ⟨q, rs, rfl, -⟩ := h.tight
  rw [regapped] at hp
  cases rs with
  | nil =>
    cases hp
    exact h.ends q rfl
  | cons r rs =>
    rw [getLast?_cons_cons] at hp
    exact h.ends p (by rwa [getLast?_cons_cons])

/-- A name behind blanks. -/
theorem Reads.follows (hgap : ∀ c ∈ gap, Text.isBlank c = true) (hne : gap ≠ []) :
    Continues (regapped gap ps) (gap ++ text) (' ' :: kept) := by
  obtain ⟨p, qs, rfl, hp, -⟩ := h.tight
  refine ⟨?_, ?_, h.laid.regapped hgap, h.inside.regapped gap, fun before hbefore => ?_,
    h.getLast?_regapped gap⟩
  · obtain ⟨c, gap, rfl⟩ := exists_cons_of_ne_nil hne
    show isBreak c = true
    rw [isBreak, hgap c mem_cons_self]
    rfl
  · rw [textOf_regapped ⟨p, qs, rfl, hp⟩, h.text]
  · rw [headingFrom_regapped hbefore h.text_ne_nil, if_neg hne, h.heading, ← String.toList_inj]
    simp

/-- A name behind a comma. -/
theorem Reads.follows_comma (hgap : ∀ c ∈ gap, Text.isBlank c = true) :
    Continues (.mark [] ',' .comma :: regapped gap ps) (',' :: (gap ++ text))
      (',' :: ((if gap = [] then [] else [' ']) ++ kept)) := by
  obtain ⟨p, qs, rfl, hp, -⟩ := h.tight
  refine ⟨rfl, ?_, ⟨forall_mem_nil _, .separator (by decide), h.laid.regapped hgap⟩,
    ⟨nofun, nofun, fun _ => rfl, h.inside.regapped gap⟩, fun before hbefore => ?_, ?_⟩
  · rw [textOf_mark, textOf_regapped ⟨p, qs, rfl, hp⟩, h.text]
    rfl
  · have hcomma : before ++ "," ≠ "" := fun hempty =>
      hbefore (String.append_eq_empty_iff.1 hempty).1
    have hfirst : headingFrom before (.mark [] ',' .comma :: regapped gap (p :: qs)) =
        headingFrom (before ++ ",") (regapped gap (p :: qs)) := by
      rw [headingFrom, if_neg fun h => h.1 rfl]
      rfl
    rw [hfirst, headingFrom_regapped hcomma h.text_ne_nil, h.heading, ← String.toList_inj]
    split <;> simp
  · intro r hr
    rw [regapped, getLast?_cons_cons] at hr
    exact h.getLast?_regapped gap r hr

end Regapped

/-! ## Lists of names in pieces -/

/-- Names with a comma and a gap between each two. -/
def listPieces (gap : List Char) : List (List TextPiece) → List TextPiece
  | [] => []
  | [ps] => ps
  | ps :: qs :: rest => ps ++ .mark [] ',' .comma :: regapped gap (listPieces gap (qs :: rest))

/-- **A list of names is read** as the names with commas between them. -/
theorem Reads.list (hgap : ∀ c ∈ gap, Text.isBlank c = true) {pss : List (List TextPiece)}
    (h : List.Forall₂ (fun ps name => Reads ps name name) pss names) (hne : names ≠ []) :
    Reads (listPieces gap pss) ((',' :: gap).intercalate names)
      ((',' :: if gap = [] then [] else [' ']).intercalate names) := by
  induction h with
  | nil => exact absurd rfl hne
  | @cons ps name pss names hname hnames ih =>
    cases hnames with
    | nil =>
      rw [intercalate_singleton, intercalate_singleton]
      exact hname
    | @cons qs next pss names hnext hnames =>
      have hlist := hname.append ((ih (cons_ne_nil _ _)).follows_comma hgap)
      rw [listPieces, intercalate_cons_cons, intercalate_cons_cons]
      simpa only [append_assoc, cons_append] using hlist

end Cascade
