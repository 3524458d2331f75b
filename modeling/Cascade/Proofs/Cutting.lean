import Cascade.Proofs.Typesetting

/-!
# Texts that are read as they are

Whether a text is read as the name, the selector or the query that it is can be found out by cutting
it into tokens.  The tests in this file do that.  They are about a text on its own; that it is read
in the same way between other texts is a matter of layouts.
-/

set_option autoImplicit false

namespace Cascade

open Parse List

variable {text : List Char} {ps : List TextPiece} {name : String}

/-! ## Cutting -/

/-- The pieces of a text in at most the given number of steps.  A text that ends in a blank, or that
holds a comment, is not cut. -/
def cutFrom : Nat → List Char → Option (List TextPiece)
  | _, [] => some []
  | 0, _ :: _ => none
  | n + 1, c :: cs =>
    match Lexeme.read (Text.trimLeft (c :: cs)) with
    | .error _ => none
    | .ok l =>
      if l.kind ≠ .eof ∧ startsToken (Text.trimLeft (c :: cs)) = true then
        (cutFrom n ((Text.trimLeft (c :: cs)).drop l.text.length)).map
          (⟨(c :: cs).takeWhile Text.isBlank, l⟩ :: ·)
      else none

/-- **The pieces of a text.** -/
def cut (text : List Char) : Option (List TextPiece) :=
  cutFrom text.length text

/-- A text falls into pieces. -/
structure Cuts (text : List Char) (ps : List TextPiece) : Prop where
  text : textOf ps = text
  laid : Laid ps []
  kind_ne_eof : ∀ p ∈ ps, p.kind ≠ .eof

theorem cuts_of_cutFrom {n : Nat} (h : cutFrom n text = some ps) : Cuts text ps := by
  fun_induction cutFrom n text generalizing ps with
  | case1 =>
    cases h
    exact ⟨rfl, trivial, forall_mem_nil _⟩
  | case2 => cases h
  | case3 => cases h
  | case4 n c cs l hread hl ih =>
    obtain ⟨qs, hqs, rfl⟩ := Option.map_eq_some_iff.1 h
    obtain ⟨htext, hlaid, hkinds⟩ := ih hqs
    have hrest : l.text ++ textOf qs = Text.trimLeft (c :: cs) := by
      rw [htext]
      exact prefix_iff_eq_append.1 (Lexeme.isPrefix_read hread)
    refine ⟨?_, ⟨fun d hd => ?_, ⟨?_, ?_⟩, hlaid⟩, forall_mem_cons.2 ⟨hl.1, hkinds⟩⟩
    · rw [textOf_cons, hrest]
      exact takeWhile_append_dropWhile
    · exact all_eq_true.1 all_takeWhile d hd
    · rw [append_nil, hrest, hread]
    · rw [append_nil, hrest]
      exact hl.2
  | case5 => cases h

theorem cuts_of_cut (h : cut text = some ps) : Cuts text ps :=
  cuts_of_cutFrom h

/-! ## Texts before a brace -/

instance decidableKeptFrom : ∀ (depth : Nat) (ps : List TextPiece), Decidable (KeptFrom depth ps)
  | depth, [] => inferInstanceAs (Decidable (depth = 0))
  | depth, p :: ps =>
    have := decidableKeptFrom (depthAfter depth p.kind) ps
    inferInstanceAs (Decidable (_ ∧ _ ∧ _ ∧ _))

instance (ps : List TextPiece) : Decidable (OpensFirst ps) :=
  inferInstanceAs (Decidable (_ = true))

/-- Pieces of a text that is kept before a brace as it is. -/
def keepsText (text : List Char) (ps : List TextPiece) : Bool :=
  ps.head?.any (·.gap.isEmpty) && decide (KeptFrom 0 ps) &&
    headingFrom "" ps == String.ofList text && ps.getLast?.all (·.kind != .dollar)

/-- A text that is kept before a brace as it is. -/
def isKeptText (text : List Char) : Bool :=
  (cut text).any (keepsText text)

/-- A name of a list. -/
def isEntryText (name : String) : Bool :=
  decide (IsEntry name.toList) && isKeptText name.toList

def isSelectorText (name : String) : Bool :=
  decide (IsEntry name.toList) && collapseCombinators name == name &&
    (cut name.toList).any fun ps => keepsText name.toList ps && decide (OpensFirst ps)

theorem Cuts.reads (h : Cuts text ps) (hkept : keepsText text ps = true) : Reads ps text text := by
  rw [keepsText, Bool.and_eq_true, Bool.and_eq_true, Bool.and_eq_true, decide_eq_true_eq,
    beq_iff_eq] at hkept
  obtain ⟨⟨⟨htight, hinside⟩, hheading⟩, hends⟩ := hkept
  refine ⟨?_, h.text, h.laid, hinside, hheading, fun p hp hdollar => ?_⟩
  · obtain ⟨p, hp, hgap⟩ := (Option.any_eq_true _ _).1 htight
    obtain ⟨qs, rfl⟩ := head?_eq_some_iff.1 hp
    exact ⟨p, qs, rfl, isEmpty_iff.1 hgap, h.kind_ne_eof p mem_cons_self⟩
  · rw [hp, Option.all_some, hdollar] at hends
    cases hends

theorem reads_of_isKeptText (h : isKeptText text = true) : ∃ ps, Reads ps text text := by
  obtain ⟨ps, hcut, hkept⟩ := (Option.any_eq_true _ _).1 h
  exact ⟨ps, (cuts_of_cut hcut).reads hkept⟩

theorem isEntry_of_isEntryText (h : isEntryText name = true) :
    IsEntry name.toList ∧ ∃ ps, Reads ps name.toList name.toList := by
  rw [isEntryText, Bool.and_eq_true, decide_eq_true_eq] at h
  exact ⟨h.1, reads_of_isKeptText h.2⟩

theorem isSelector_of_isSelectorText (h : isSelectorText name = true) : IsSelector name := by
  rw [isSelectorText, Bool.and_eq_true, Bool.and_eq_true, decide_eq_true_eq, beq_iff_eq] at h
  obtain ⟨⟨hentry, hcollapsed⟩, hreads⟩ := h
  obtain ⟨ps, hcut, hps⟩ := (Option.any_eq_true _ _).1 hreads
  rw [Bool.and_eq_true, decide_eq_true_eq] at hps
  exact ⟨hentry, hcollapsed, ps, (cuts_of_cut hcut).reads hps.1, hps.2⟩

/-- Pieces whose last token stays what it is. -/
theorem Cuts.steady (h : Cuts text ps)
    (hlast : ∀ p, ps.getLast? = some p → p.kind.isSteady = true) : Steady ps :=
  h.laid.steady h.kind_ne_eof hlast

/-- A text that is the heading of an animation. -/
def isAnimationText (text : List Char) (name : String) (vendor : Option String) : Bool :=
  (cut text).any fun
    | [command, word] => command.gap.isEmpty && command.kind == .command &&
        (match vendor with
          | none => command.lexeme.value == "keyframes"
          | some vendor => vendor? command.lexeme.value == some vendor) &&
        word.kind == .identifier && word.lexeme.value == name
    | _ => false

theorem headed_of_isAnimationText {vendor : Option String}
    (h : isAnimationText text name vendor = true) : Headed text (.keyframes name vendor) := by
  obtain ⟨ps, hcut, hps⟩ := (Option.any_eq_true _ _).1 h
  have hcuts := cuts_of_cut hcut
  rcases ps with _ | ⟨command, _ | ⟨word, _ | ⟨_, _⟩⟩⟩
  · cases hps
  · cases hps
  · simp only [Bool.and_eq_true, beq_iff_eq, List.isEmpty_iff] at hps
    obtain ⟨⟨⟨⟨hgap, hcommand⟩, hvendor⟩, hword⟩, rfl⟩ := hps
    have hsteady : Steady [command, word] := hcuts.steady fun p hp => by
      obtain rfl : word = p := Option.some.inj hp
      rw [hword]
      rfl
    refine ⟨[command, word], hcuts.text, ⟨fun c tail hc => hsteady c tail (isJoint_of_isBreak hc),
      command, [word], rfl, hgap⟩, fun gap => .keyframes hcommand ?_ (.inl hword)⟩
    cases vendor with
    | none => exact .inl ⟨beq_iff_eq.1 hvendor, rfl⟩
    | some vendor => exact .inr ⟨rfl, beq_iff_eq.1 hvendor⟩
  · cases hps

/-! ## Names of properties -/

def isLabelText (name : String) : Bool :=
  (cut name.toList).any fun ps => ps.head?.any (·.kind.isSelectorPart) &&
    ps.all fun p => p.gap.isEmpty && p.kind.isNamePart

theorem isLabel_of_isLabelText (h : isLabelText name = true) : IsLabel name.toList := by
  obtain ⟨ps, hcut, hps⟩ := (Option.any_eq_true _ _).1 h
  rw [Bool.and_eq_true, all_eq_true] at hps
  obtain ⟨hfirst, hparts⟩ := hps
  have hcuts := cuts_of_cut hcut
  obtain ⟨p, hp, hfirst⟩ := (Option.any_eq_true _ _).1 hfirst
  obtain ⟨qs, rfl⟩ := head?_eq_some_iff.1 hp
  have hparts' (q : TextPiece) (hq : q ∈ p :: qs) : q.gap = [] ∧ q.kind.isNamePart = true := by
    have hq := hparts q hq
    rwa [Bool.and_eq_true, List.isEmpty_iff] at hq
  refine ⟨p, qs, hcuts.text, hfirst, hparts', hcuts.steady fun q hq => ?_⟩
  have hpart := (hparts' q (List.mem_of_getLast? hq)).2
  revert hpart
  cases q.kind <;> simp [TokenKind.isNamePart, TokenKind.isSteady]

/-! ## Texts in parentheses -/

/-- A text that is kept in parentheses as it is. -/
def isRawText (text : List Char) : Bool :=
  let raw := TokenStream.rawText none 0 (text ++ [')'])
  raw.body == text && raw.closed && Text.trim text == text &&
    (cut text).any fun ps => ps.head?.all (·.gap.isEmpty) && ps.all (·.kind.isInside)

theorem rawBody_of_isRawText (h : isRawText text = true) : RawBody text := by
  simp only [isRawText, Bool.and_eq_true, beq_iff_eq] at h
  obtain ⟨⟨⟨hbody, hclosed⟩, -⟩, -⟩ := h
  obtain ⟨body, rest, hraw, heq⟩ := (balanced_of_closed hclosed).exists_rawBody
  have hpassed := (hraw.rawText 0 (')' :: rest)).1
  rw [← heq, hbody, rawText_none, if_pos rfl, append_nil] at hpassed
  exact hpassed ▸ hraw

end Cascade
