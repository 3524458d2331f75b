import Cascade.Proofs.Headings
import Mathlib.Data.List.DropRight
import Mathlib.Logic.Relation

/-!
# Normal forms of selector lists

Two texts that name the same selectors have the same list, whatever spaces stand around their commas
and combinators, and a list of selectors in this form is not changed by being read again.

Cutting a text at its commas, trimming the pieces and dropping blanks around combinators are three
passes over it.  `ListReader` makes them at once, one character at a time, so that what blanks do is
said once for commas and combinators.
-/

set_option autoImplicit false

namespace Cascade

open List

variable {c : Char} {bs cs : List Char}

namespace Nesting

variable {n : Nesting}

/-- What is open is not a blank. -/
def Sane (n : Nesting) : Prop :=
  ∀ mark, n.quote = some mark → Text.isBlank mark = false

theorem Sane.step (h : n.Sane) (c : Char) : (n.step c).Sane := by
  intro mark hmark
  rw [Nesting.step] at hmark
  split at hmark
  · split at hmark
    · cases hmark
    · exact h mark hmark
  · split at hmark
    · rename_i hc
      cases hmark
      obtain rfl | rfl := hc <;> decide
    · split at hmark
      · exact h mark hmark
      · split at hmark <;> exact h mark hmark

theorem Sane.step_of_isBlank (h : n.Sane) (hc : Text.isBlank c = true) : n.step c = n := by
  rw [Nesting.step]
  split
  · rename_i mark hmark
    rw [if_neg]
    rintro rfl
    rw [h c hmark] at hc
    cases hc
  · have hmark := not_isMark_of_isBlank hc
    simp only [isMark, Bool.or_eq_false_iff, beq_eq_false_iff_ne] at hmark
    simp [hmark]

theorem eq_empty_of_isTop (h : n.isTop = true) : n = {} := by
  obtain ⟨quote, depth⟩ := n
  simp_all [isTop]

end Nesting

theorem isCombinator_iff : isCombinator c = true ↔ c = '>' ∨ c = '+' ∨ c = '~' := by
  simp [isCombinator, or_assoc]

/-! ## One selector -/

/-- What is known of a selector in the middle of its text: what is open, whether a combinator was
the last thing kept, and what has been kept, the last character first. -/
structure SelectorReader where
  nesting : Nesting := {}
  after : Bool := false
  done : List Char := []

namespace SelectorReader

variable {r : SelectorReader}

/-- Blanks at the beginning and spaces after a combinator. -/
def Skips (r : SelectorReader) (c : Char) : Prop :=
  r.done = [] ∧ Text.isBlank c = true ∨ r.nesting.quote.isNone = true ∧ c = ' ' ∧ r.after = true

instance (r : SelectorReader) (c : Char) : Decidable (r.Skips c) :=
  inferInstanceAs (Decidable (_ ∨ _))

def step (r : SelectorReader) (c : Char) : SelectorReader :=
  if r.nesting.isTop ∧ isCombinator c then
    { r with after := true, done := c :: r.done.dropWhile Text.isBlank }
  else if r.Skips c then r
  else { nesting := r.nesting.step c, done := c :: r.done }

/-- The selector, if its text ends here. -/
def form (r : SelectorReader) : List Char :=
  (r.done.dropWhile Text.isBlank).reverse

theorem Skips.isBlank (h : r.Skips c) : Text.isBlank c = true := by
  obtain ⟨-, h⟩ | ⟨-, rfl, -⟩ := h
  · exact h
  · rfl

theorem nesting_step (h : r.nesting.Sane) (c : Char) : (r.step c).nesting = r.nesting.step c := by
  rw [step]
  split
  · rename_i hc
    rw [Nesting.eq_empty_of_isTop hc.1]
    obtain rfl | rfl | rfl := isCombinator_iff.1 hc.2 <;> rfl
  · split
    · rename_i hskip
      exact (h.step_of_isBlank hskip.isBlank).symm
    · rfl

/-- What is not blank is kept. -/
theorem done_step (r : SelectorReader) (hc : Text.isBlank c = false) :
    ∃ cs, (r.step c).done = c :: cs := by
  rw [step]
  split
  · exact ⟨_, rfl⟩
  · rw [if_neg fun hskip => by simp [hskip.isBlank] at hc]
    exact ⟨_, rfl⟩

/-- Blanks change nothing but the blanks at the end. -/
theorem dropWhile_done_step (r : SelectorReader) (hc : Text.isBlank c = true) :
    (r.step c).done.dropWhile Text.isBlank = r.done.dropWhile Text.isBlank := by
  rw [step, if_neg]
  · split
    · rfl
    · exact dropWhile_cons_of_pos hc
  · rintro ⟨-, h⟩
    obtain rfl | rfl | rfl := isCombinator_iff.1 h <;> cases hc

theorem foldl_trimLeft (cs : List Char) : (Text.trimLeft cs).foldl step {} = cs.foldl step {} := by
  induction cs with
  | nil => rfl
  | cons c cs ih =>
    rw [Text.trimLeft]
    cases hc : Text.isBlank c with
    | false => rw [dropWhile_cons_of_neg (by simp [hc])]
    | true =>
      have hstep : ({} : SelectorReader).step c = {} := by
        rw [step, if_neg, if_pos (.inl ⟨rfl, hc⟩)]
        rintro ⟨-, h⟩
        obtain rfl | rfl | rfl := isCombinator_iff.1 h <;> cases hc
      rw [dropWhile_cons_of_pos hc, foldl_cons, hstep]
      exact ih

theorem form_foldl (cs : List Char) :
    (cs.foldl step {}).form = ((Text.trimRight cs).foldl step {}).done.reverse := by
  induction cs using reverseRecOn with
  | nil => rfl
  | append_singleton cs c ih =>
    have htrim : Text.trimRight (cs ++ [c]) = (cs ++ [c]).rdropWhile Text.isBlank := rfl
    rw [foldl_append, foldl_cons, foldl_nil, htrim]
    cases hc : Text.isBlank c with
    | true =>
      rw [rdropWhile_concat_pos _ _ _ hc, form, dropWhile_done_step _ hc]
      exact ih
    | false =>
      obtain ⟨done, hdone⟩ := (cs.foldl step {}).done_step hc
      rw [rdropWhile_concat_neg _ _ _ (by simp [hc]), foldl_append, foldl_cons, foldl_nil, form,
        hdone, dropWhile_cons_of_neg (by simp [hc])]

/-- What has begun is never empty again. -/
theorem done_step_ne_nil (h : r.done = [] → Text.isBlank c = false) : (r.step c).done ≠ [] := by
  rw [step]
  split
  · exact cons_ne_nil _ _
  · split
    · rename_i hskip
      intro hnil
      have hblank := h hnil
      rw [hskip.isBlank] at hblank
      cases hblank
    · exact cons_ne_nil _ _

theorem done_foldl_ne_nil (h : r.done ≠ []) (cs : List Char) : (cs.foldl step r).done ≠ [] := by
  induction cs generalizing r with
  | nil => exact h
  | cons c cs ih => exact ih (done_step_ne_nil fun hnil => absurd hnil h)

/-- The dropping of blanks around combinators, from the first character on. -/
theorem collapseFrom_eq (h : r.done = [] → ∀ c ∈ cs.head?, Text.isBlank c = false) :
    collapseFrom r.nesting r.after r.done cs = (cs.foldl step r).done.reverse := by
  induction cs generalizing r with
  | nil => rfl
  | cons c cs ih =>
    have hdone := done_step_ne_nil fun hnil => h hnil c rfl
    rw [collapseFrom, foldl_cons, ← ih fun hnil => absurd hnil hdone]
    rw [step] at hdone ⊢
    split
    · rfl
    · by_cases hskip : r.Skips c
      · rw [if_neg ‹_›, if_pos hskip] at hdone
        rw [if_pos (hskip.resolve_left fun hnil => hdone hnil.1), if_pos hskip]
      · rw [if_neg fun hspace => hskip (.inr hspace), if_neg hskip]

end SelectorReader

theorem isBlank_of_trim_eq_cons (h : Text.trim cs = c :: bs) : Text.isBlank c = false := by
  obtain ⟨rest, hrest⟩ := rdropWhile_prefix Text.isBlank (cs.dropWhile Text.isBlank)
  replace hrest : c :: (bs ++ rest) = cs.dropWhile Text.isBlank := by
    rw [← cons_append, ← h]
    exact hrest
  have hfirst := head_dropWhile_not Text.isBlank (hrest ▸ cons_ne_nil _ _)
  simpa [← hrest] using hfirst

open SelectorReader in
/-- **A selector in its shortest form**, without blanks at its ends. -/
theorem form_eq_collapse (cs : List Char) :
    (cs.foldl step {}).form = collapseFrom {} false [] (Text.trim cs) := by
  rw [← foldl_trimLeft, form_foldl]
  refine (collapseFrom_eq (r := {}) fun _ c hc => ?_).symm
  obtain ⟨as, hcs⟩ := head?_eq_some_iff.1 hc
  exact isBlank_of_trim_eq_cons hcs

open SelectorReader in
theorem form_eq_nil_iff : (cs.foldl step {}).form = [] ↔ Text.trim cs = [] := by
  constructor
  · intro h
    rw [← foldl_trimLeft, form_foldl, reverse_eq_nil_iff] at h
    cases htrim : Text.trim cs with
    | nil => rfl
    | cons c as =>
      rw [← Text.trim, htrim] at h
      refine absurd h (done_foldl_ne_nil (done_step_ne_nil fun _ => ?_) as)
      exact isBlank_of_trim_eq_cons htrim
  · intro h
    rw [form_eq_collapse, h]
    rfl

/-! ## Lists of selectors -/

/-- What is known in the middle of a list: the selector that is being read, and those before it. -/
structure ListReader where
  current : SelectorReader := {}
  forms : List (List Char) := []

namespace ListReader

variable {r : ListReader}

/-- The selectors, if the text ends here. -/
def result (r : ListReader) : List (List Char) :=
  r.forms ++ [r.current.form]

def step (r : ListReader) (c : Char) : ListReader :=
  if r.current.nesting.isTop ∧ c = ',' then { forms := r.result }
  else { r with current := r.current.step c }

theorem result_foldl (hsane : r.current.nesting.Sane) {first : List Char} {rest : List (List Char)}
    (h : topLevelPieces ',' r.current.nesting cs = first :: rest) : (cs.foldl step r).result =
      r.forms ++ (first.foldl SelectorReader.step r.current).form ::
        rest.map fun piece => (piece.foldl SelectorReader.step {}).form := by
  induction cs generalizing r first rest with
  | nil =>
    cases h
    rfl
  | cons c cs ih =>
    rw [topLevelPieces] at h
    rw [foldl_cons, step]
    by_cases hsep : r.current.nesting.isTop = true ∧ c = ','
    · obtain ⟨next, rest, hnext⟩ := exists_cons_of_ne_nil (topLevelPieces_ne_nil ',' {} cs)
      rw [if_pos ⟨hsep.1, hsep.2, by rw [hsep.2]; decide⟩, Nesting.eq_empty_of_isTop hsep.1,
        hnext] at h
      cases h
      rw [if_pos hsep, ih (by rintro _ ⟨⟩) hnext, result, append_assoc]
      rfl
    · rw [if_neg fun hall => hsep ⟨hall.1, hall.2.1⟩] at h
      have hnesting := SelectorReader.nesting_step hsane c
      obtain ⟨next, rest, hnext⟩ :=
        exists_cons_of_ne_nil (topLevelPieces_ne_nil ',' (r.current.step c).nesting cs)
      rw [← hnesting, hnext] at h
      cases h
      rw [if_neg hsep, ih (by exact hnesting ▸ hsane.step c) hnext]
      rfl

/-- **Lists are read like this.** -/
theorem splitSelectors_eq (text : String) : splitSelectors text =
    if (text.toList.foldl step {}).result = [[]] then []
    else (text.toList.foldl step {}).result.map String.ofList := by
  obtain ⟨first, rest, hpieces⟩ := exists_cons_of_ne_nil (topLevelPieces_ne_nil ',' {} text.toList)
  have hresult : (text.toList.foldl step {}).result =
      (topLevelPieces ',' {} text.toList).map
        fun piece => (piece.foldl SelectorReader.step {}).form := by
    rw [hpieces]
    exact @result_foldl _ {} (fun _ h => nomatch h) _ _ hpieces
  rw [splitSelectors, splitTopLevel, hresult]
  split
  · rename_i h
    obtain ⟨piece, hpiece, htrim⟩ := map_eq_singleton_iff.1 h
    rw [hpiece, map_singleton, form_eq_nil_iff.2 htrim]
    rfl
  · rename_i h
    rw [if_neg, map_map, map_map, map_map]
    · refine map_congr_left fun piece _ => ?_
      rw [Function.comp_apply, Function.comp_apply, Function.comp_apply, form_eq_collapse,
        collapseCombinators, String.toList_ofList]
    · intro hforms
      obtain ⟨piece, hpiece, hform⟩ := map_eq_singleton_iff.1 hforms
      rw [hpiece, map_singleton] at h
      exact h (congrArg ([·]) (form_eq_nil_iff.1 hform))

/-! ## Reading again -/

/-- **What has been read so far would be read from its own text**, with and without the blanks at
its end. -/
structure Steady (r : ListReader) : Prop where
  start : (r.forms.flatMap (· ++ [','])).foldl step {} = ⟨{}, r.forms⟩
  whole : r.current.done.reverse.foldl step ⟨{}, r.forms⟩ = r
  trimmed : ∃ after, r.current.form.foldl step ⟨{}, r.forms⟩ =
    ⟨⟨r.current.nesting, after, r.current.done.dropWhile Text.isBlank⟩, r.forms⟩
  sane : r.current.nesting.Sane

theorem Steady.comma (h : r.Steady) (htop : r.current.nesting.isTop = true) :
    Steady ⟨{}, r.result⟩ := by
  refine ⟨?_, rfl, ⟨false, rfl⟩, fun _ h => nomatch h⟩
  obtain ⟨after, htrimmed⟩ := h.trimmed
  rw [result, flatMap_append, flatMap_singleton, foldl_append, h.start, foldl_append, htrimmed]
  refine (if_pos ⟨htop, rfl⟩).trans ?_
  rw [result, SelectorReader.form, dropWhile_idempotent]
  rfl

theorem Steady.kept (h : r.Steady) (c : Char) (hwhole : (r.current.step c).done.reverse.foldl
      ListReader.step ⟨{}, r.forms⟩ = ⟨r.current.step c, r.forms⟩) :
    Steady ⟨r.current.step c, r.forms⟩ := by
  have hnesting := SelectorReader.nesting_step h.sane c
  refine ⟨h.start, hwhole, ?_, by exact hnesting ▸ h.sane.step c⟩
  cases hc : Text.isBlank c with
  | true =>
    show ∃ after, (r.current.step c).form.foldl _ _ = _
    rw [SelectorReader.form, SelectorReader.dropWhile_done_step _ hc, hnesting,
      h.sane.step_of_isBlank hc]
    exact h.trimmed
  | false =>
    obtain ⟨done, hdone⟩ := r.current.done_step hc
    have hend : (r.current.step c).done.dropWhile Text.isBlank = (r.current.step c).done := by
      rw [hdone, dropWhile_cons_of_neg (by simp [hc])]
    refine ⟨(r.current.step c).after, ?_⟩
    rw [SelectorReader.form, hend, hwhole]

theorem Steady.step (h : r.Steady) (c : Char) : (r.step c).Steady := by
  rw [ListReader.step]
  split
  · rename_i hc
    exact h.comma hc.1
  · rename_i hcomma
    refine h.kept c ?_
    rw [SelectorReader.step]
    split
    · rename_i hc
      obtain ⟨after, htrimmed⟩ := h.trimmed
      rw [SelectorReader.form] at htrimmed
      rw [reverse_cons, foldl_append, htrimmed, foldl_cons, foldl_nil, ListReader.step,
        if_neg hcomma, SelectorReader.step, if_pos hc, dropWhile_idempotent]
    · split
      · exact h.whole
      · rename_i hc hskip
        rw [reverse_cons, foldl_append, h.whole, foldl_cons, foldl_nil, ListReader.step,
          if_neg hcomma, SelectorReader.step, if_neg hc, if_neg hskip]

theorem steady_foldl (cs : List Char) : (cs.foldl ListReader.step {}).Steady := by
  induction cs using reverseRecOn with
  | nil => exact ⟨rfl, rfl, ⟨false, rfl⟩, fun _ h => nomatch h⟩
  | append_singleton cs c ih =>
    rw [foldl_append]
    exact ih.step c

/-- **The selectors of a list, joined by commas, are those of the result.** -/
theorem Steady.reread (h : r.Steady) :
    (([','].intercalate r.result).foldl ListReader.step {}).result = r.result := by
  have hjoin (forms : List (List Char)) (form : List Char) :
      [','].intercalate (forms ++ [form]) = forms.flatMap (· ++ [',']) ++ form := by
    induction forms with
    | nil => simp
    | cons f fs ih =>
      rw [cons_append, intercalate_cons_of_ne_nil (by simp), ih]
      simp
  obtain ⟨after, htrimmed⟩ := h.trimmed
  have hread : ([','].intercalate r.result).foldl ListReader.step {} =
      ⟨⟨r.current.nesting, after, r.current.done.dropWhile Text.isBlank⟩, r.forms⟩ := by
    rw [result, hjoin, foldl_append, h.start, htrimmed]
  rw [hread, result, SelectorReader.form, dropWhile_idempotent]
  rfl

/-! ## Other spaces -/

theorem nesting_foldl (cs : List Char) :
    (cs.foldl step {}).current.nesting = cs.foldl Nesting.step {} := by
  induction cs using reverseRecOn with
  | nil => rfl
  | append_singleton cs c ih =>
    rw [foldl_append, foldl_append, ← ih, foldl_cons, foldl_nil, foldl_cons, foldl_nil, step]
    split
    · rename_i hc
      rw [Nesting.eq_empty_of_isTop hc.1, hc.2]
      rfl
    · exact SelectorReader.nesting_step (steady_foldl cs).sane c

/-- What commas and combinators do. -/
theorem step_mark (hr : r.current.nesting = {}) (hc : c = ',' ∨ isCombinator c = true) : r.step c =
    if c = ',' then ⟨{}, r.forms ++ [(r.current.done.dropWhile Text.isBlank).reverse]⟩
    else ⟨⟨{}, true, c :: r.current.done.dropWhile Text.isBlank⟩, r.forms⟩ := by
  obtain ⟨⟨nesting, after, done⟩, forms⟩ := r
  cases hr
  by_cases hcomma : c = ','
  · exact (if_pos ⟨rfl, hcomma⟩).trans (if_pos hcomma).symm
  · rw [step, if_neg fun h => hcomma h.2, if_neg hcomma, SelectorReader.step,
      if_pos ⟨rfl, hc.resolve_left hcomma⟩]

/-- **Spaces around commas and combinators** are skipped. -/
theorem foldl_mark (hr : r.current.nesting = {}) (hc : c = ',' ∨ isCombinator c = true)
    (m n : Nat) : (replicate m ' ' ++ c :: replicate n ' ').foldl step r = r.step c := by
  have hbefore : ((replicate m ' ').foldl step r).step c = r.step c := by
    induction m generalizing r with
    | zero => rfl
    | succ m ih =>
      have hstep : r.step ' ' = ⟨r.current.step ' ', r.forms⟩ := if_neg (by simp)
      have hnesting : (r.current.step ' ').nesting = {} := by
        rw [SelectorReader.nesting_step (hr ▸ fun _ h => nomatch h), hr]
        rfl
      rw [replicate_succ, foldl_cons, hstep, ih hnesting, step_mark hnesting hc, step_mark hr hc]
      dsimp only
      rw [r.current.dropWhile_done_step rfl]
  rw [foldl_append, foldl_cons, hbefore, step_mark hr hc]
  split
  · induction n with
    | zero => rfl
    | succ n ih => exact ih
  · induction n with
    | zero => rfl
    | succ n ih => exact ih

end ListReader

open ListReader

/-- `t'` is `t` with spaces put around a comma or combinator that is not in quotes or brackets. -/
def Respaced (t t' : List Char) : Prop :=
  ∃ before c behind m n, (c = ',' ∨ isCombinator c = true) ∧
    (before.foldl Nesting.step {}).isTop = true ∧ t = before ++ c :: behind ∧
    t' = before ++ (replicate m ' ' ++ c :: replicate n ' ' ++ behind)

theorem Respaced.foldl_eq {t t' : List Char} (h : Respaced t t') :
    t.foldl step {} = t'.foldl step {} := by
  obtain ⟨before, c, behind, m, n, hc, htop, rfl, rfl⟩ := h
  rw [← nesting_foldl] at htop
  rw [foldl_append, foldl_append, foldl_append, foldl_mark (Nesting.eq_empty_of_isTop htop) hc]
  rfl

theorem foldl_eq_of_eqvGen {t t' : List Char} (h : Relation.EqvGen Respaced t t') :
    t.foldl step {} = t'.foldl step {} := by
  induction h with
  | rel _ _ h => exact h.foldl_eq
  | refl => rfl
  | symm _ _ _ ih => exact ih.symm
  | trans _ _ _ _ _ ih ih' => exact ih.trans ih'

/-- **Selector lists have a normal form.**  The selectors of a list, joined by commas, are the
selectors of the result, and spaces around commas and combinators outside of quotes and brackets do
not change them. -/
theorem splitSelectors_normal (text : String) :
    splitSelectors (",".intercalate (splitSelectors text)) = splitSelectors text ∧
      ∀ text' : String, Relation.EqvGen Respaced text.toList text'.toList →
        splitSelectors text' = splitSelectors text := by
  constructor
  · rw [splitSelectors_eq text]
    split
    · rfl
    · rename_i h
      have htext (forms : List (List Char)) :
          (",".intercalate (forms.map String.ofList)).toList = [','].intercalate forms := by
        rw [String.toList_intercalate, map_map]
        exact congrArg _ (map_id'' (fun _ => String.toList_ofList) _)
      rw [splitSelectors_eq, htext, (steady_foldl text.toList).reread, if_neg h]
  · intro text' h
    rw [splitSelectors_eq, splitSelectors_eq, foldl_eq_of_eqvGen h]

theorem splitSelectors_normal_child :
    splitSelectors "ul  >li,[a='> ']" = splitSelectors "ul>li,[a='> ']" :=
  (splitSelectors_normal "ul>li,[a='> ']").2 "ul  >li,[a='> ']" (.rel _ _
    ⟨['u', 'l'], '>', ['l', 'i', ',', '[', 'a', '=', '\'', '>', ' ', '\'', ']'], 2, 0, .inr rfl,
      rfl, by simp, by simp⟩)

end Cascade
