import Mathlib.Data.List.TakeWhile
import Cascade.Proofs.Expressions
import Cascade.Proofs.Outcome

/-!
# A token is its text

Which token stands at the front of a text hangs on what comes behind it, but only as long as that
could be more of the token.  If the text of a token is cut out, the same token is read again, and so
it is if something that cannot be more of it stands behind.  So all that a token says is in its text.
-/

set_option autoImplicit false

namespace Cascade

open Lexeme List

variable {cs tail : List Char} {c : Char} {p : Char → Bool} {l : Lexeme}

/-! ## Characters -/

/-- A character of a class differs from every character outside it. -/
theorem ne_of_class {d : Char} (hc : p c = true) (hd : p d = false) : c ≠ d := by
  rintro rfl
  exact Bool.false_ne_true (hd.symm.trans hc)

/-- A class without the line break holds no line break. -/
theorem oneLine_of_class (h : cs.all p = true) (hp : p '\n' = false) : '\n' ∉ cs :=
  fun hmem => ne_of_class (all_eq_true.1 h _ hmem) hp rfl

theorem isNameChar_of_isNameStart (h : isNameStart c = true) : isNameChar c = true := by
  simp only [isNameStart, isNameChar, Char.isAlphanum, Bool.or_eq_true] at h ⊢
  tauto

theorem isNameChar_of_isDigit (h : c.isDigit = true) : isNameChar c = true := by
  simp [isNameChar, Char.isAlphanum, h]

theorem isNameStart_of_isAlpha (h : c.isAlpha = true) : isNameStart c = true := by
  rw [isNameStart, h, Bool.true_or]

theorem isNameChar_of_commandStart (h : (isNameStart c || c == '-') = true) :
    isNameChar c = true := by
  rw [Bool.or_eq_true, beq_iff_eq] at h
  exact h.elim isNameChar_of_isNameStart fun h => h ▸ rfl

/-- The characters of a class by their code points. -/
theorem isAlpha_iff :
    c.isAlpha = true ↔ (65 ≤ c.toNat ∧ c.toNat ≤ 90) ∨ (97 ≤ c.toNat ∧ c.toNat ≤ 122) := by
  have halpha : c.isAlpha = (decide (c.val ≥ 'A'.val ∧ c.val ≤ 'Z'.val) ||
      (decide (c.val ≥ 'a'.val) && decide (c.val ≤ 'z'.val))) := rfl
  simp [halpha, UInt32.le_iff_toNat_le, ← Char.toNat_val]

theorem isDigit_iff : c.isDigit = true ↔ 48 ≤ c.toNat ∧ c.toNat ≤ 57 := by
  simp [Char.isDigit, UInt32.le_iff_toNat_le, ← Char.toNat_val]

theorem not_isDigit_of_isNameStart (h : isNameStart c = true) : c.isDigit = false := by
  simp only [isNameStart, Bool.or_eq_true, beq_iff_eq, isAlpha_iff] at h
  rw [← Bool.not_eq_true, isDigit_iff]
  rcases h with h | rfl
  · omega
  · decide

theorem isNameChar_of_isHexDigit (h : isHexDigit c = true) : isNameChar c = true := by
  have hletter (hc : c.isAlpha = true) : isNameChar c = true :=
    isNameChar_of_isNameStart (isNameStart_of_isAlpha hc)
  simp only [isHexDigit, Bool.or_eq_true, Bool.and_eq_true, decide_eq_true_eq] at h
  rcases h with (h | ⟨hle, hge⟩) | ⟨hle, hge⟩
  · exact isNameChar_of_isDigit h
  · have hle' : 97 ≤ c.toNat := hle
    have hge' : c.toNat ≤ 102 := hge
    exact hletter (isAlpha_iff.2 (by omega))
  · have hle' : 65 ≤ c.toNat := hle
    have hge' : c.toNat ≤ 70 := hge
    exact hletter (isAlpha_iff.2 (by omega))

/-- No character of a name is blank. -/
theorem isBlank_of_isNameChar (h : isNameChar c = true) : Text.isBlank c = false := by
  have hrange : 45 ≤ c.toNat ∧ c.toNat ≤ 122 := by
    simp only [isNameChar, Char.isAlphanum, Bool.or_eq_true, beq_iff_eq, isAlpha_iff,
      isDigit_iff] at h
    rcases h with ((h | h) | rfl) | rfl
    · omega
    · omega
    · decide
    · decide
  simp only [Text.isBlank, Text.blankRanges, any_cons, any_nil, Bool.or_eq_false_iff,
    Bool.and_eq_false_iff, decide_eq_false_iff_not, and_true]
  omega

/-- The characters that may be more of a token before them. -/
def isJoint (c : Char) : Bool :=
  isNameChar c || c ∈ ['.', '%', '=', '&', '|']

theorem isJoint_of_isNameChar (h : isNameChar c = true) : isJoint c = true := by
  rw [isJoint, h, Bool.true_or]

theorem isJoint_of_isNameStart (h : isNameStart c = true) : isJoint c = true :=
  isJoint_of_isNameChar (isNameChar_of_isNameStart h)

theorem isJoint_of_isDigit (h : c.isDigit = true) : isJoint c = true :=
  isJoint_of_isNameChar (isNameChar_of_isDigit h)

theorem isJoint_of_isHexDigit (h : isHexDigit c = true) : isJoint c = true :=
  isJoint_of_isNameChar (isNameChar_of_isHexDigit h)

theorem isJoint_of_isBlank (h : Text.isBlank c = true) : isJoint c = false := by
  cases hjoint : isJoint c with
  | false => rfl
  | true =>
    rw [isJoint, Bool.or_eq_true] at hjoint
    obtain hname | hmark := hjoint
    · rw [isBlank_of_isNameChar hname] at h
      cases h
    · simp only [mem_cons, not_mem_nil, or_false, decide_eq_true_eq] at hmark
      obtain rfl | rfl | rfl | rfl | rfl := hmark <;> cases h

/-- A text that does not begin with a blank or a comment. -/
def startsToken : List Char → Bool
  | '/' :: '/' :: _ => false
  | '/' :: '*' :: _ => false
  | c :: _ => !Text.isBlank c
  | [] => true

theorem isBlank_of_startsToken (h : startsToken (c :: cs) = true) : Text.isBlank c = false := by
  unfold startsToken at h
  split at h <;> simp_all

theorem startsToken_cons (hblank : Text.isBlank c = false) (hslash : c ≠ '/') :
    startsToken (c :: cs) = true := by
  unfold startsToken
  split
  · simp_all
  · simp_all
  · simp_all
  · rfl

theorem startsToken_of_isNameChar (h : isNameChar c = true) : startsToken (c :: cs) = true :=
  startsToken_cons (isBlank_of_isNameChar h) (ne_of_class h rfl)

/-- A slash begins a comment only if another one or an asterisk follows. -/
theorem startsToken_slash {d : Char} {ds : List Char} :
    startsToken ('/' :: d :: ds) = true ↔ d ≠ '/' ∧ d ≠ '*' := by
  by_cases hslash : d = '/'
  · simp [hslash, startsToken]
  by_cases hstar : d = '*'
  · simp [hstar, startsToken]
  refine iff_of_true ?_ ⟨hslash, hstar⟩
  rw [startsToken.eq_def]
  split <;> simp_all
  rename_i heq
  rw [← heq.1]
  rfl

theorem startsToken_append (hne : cs ≠ []) (h : startsToken cs = true)
    (hslash : cs = ['/'] → tail.head? ≠ some '/' ∧ tail.head? ≠ some '*') :
    startsToken (cs ++ tail) = true := by
  obtain _ | ⟨c, cs⟩ := cs
  · exact absurd rfl hne
  by_cases hc : c = '/'
  · subst hc
    obtain _ | ⟨d, cs⟩ := cs
    · cases tail with
      | nil => rfl
      | cons d tail => exact startsToken_slash.2 (by simpa using hslash rfl)
    · exact startsToken_slash.2 (startsToken_slash.1 h)
  · exact startsToken_cons (isBlank_of_startsToken h) hc

namespace Lexeme

/-! ## Pieces of tokens -/

/-- Two pieces of a text, the second one read after the first. -/
theorem isPrefix_append {as bs : List Char} (has : as <+: cs) (hbs : bs <+: cs.drop as.length) :
    as ++ bs <+: cs := by
  obtain ⟨rest, rfl⟩ := has
  rw [drop_left] at hbs
  exact (prefix_append_right_inj as).2 hbs

theorem isPrefix_nameChars (cs : List Char) : nameChars cs <+: cs := by
  induction cs with
  | nil => exact nil_prefix
  | cons c cs ih =>
    rw [nameChars]
    split
    · exact (prefix_cons_inj c).2 ih
    · exact nil_prefix

theorem isName_nameChars (cs : List Char) : isName (nameChars cs) = true := by
  induction cs with
  | nil => rfl
  | cons c cs ih =>
    rw [nameChars]
    split
    · rename_i hc
      rw [isName, ih, Bool.and_true]
      rw [Bool.or_eq_true, Bool.and_eq_true] at hc ⊢
      refine hc.imp_right fun ⟨hdot, hstart⟩ => ⟨hdot, ?_⟩
      -- The name that follows the dot belongs to the same name.
      cases cs with
      | nil => simp at hstart
      | cons d ds =>
        have hd : isNameStart d = true := hstart
        rw [nameChars, isNameChar_of_isNameStart hd, Bool.true_or, if_pos rfl]
        exact hd
    · rfl

/-- A name is read whole. -/
theorem nameChars_of_isName (h : isName cs = true) : nameChars cs = cs := by
  induction cs with
  | nil => rfl
  | cons c cs ih =>
    rw [isName, Bool.and_eq_true] at h
    rw [nameChars, if_pos h.1, ih h.2]

theorem isName_oneLine (h : isName cs = true) : '\n' ∉ cs := by
  induction cs with
  | nil => simp
  | cons c cs ih =>
    simp only [isName, Bool.and_eq_true] at h
    rw [mem_cons, not_or]
    refine ⟨?_, ih h.2⟩
    rintro rfl
    exact absurd h.1 (by simp [isNameChar])

/-- The first character of a name is that of the text. -/
theorem any_head?_nameChars (hp : ∀ c, p c = true → isNameChar c = true)
    (h : cs.head?.any p = true) : (nameChars cs).head?.any p = true := by
  cases cs with
  | nil => simp at h
  | cons c cs =>
    have hc : p c = true := h
    rw [nameChars, hp c hc, Bool.true_or, if_pos rfl]
    exact hc

theorem any_head?_takeWhile (h : cs.head?.any p = true) : (cs.takeWhile p).head?.any p = true := by
  cases cs with
  | nil => simp at h
  | cons c cs =>
    have hc : p c = true := h
    rw [takeWhile_cons_of_pos hc]
    exact hc

/-- The inside of a quoted string, with the mark that closes it. -/
theorem quotedBody?_eq_some {mark : Char} {body : List Char} (h : quotedBody? mark cs = some body) :
    isQuotable mark body = true ∧ body ++ [mark] <+: cs := by
  fun_induction quotedBody? mark cs generalizing body with
  | case1 | case3 | case5 | case6 => simp at h
  | case2 | case4 =>
    obtain rfl := Option.some.inj h
    simp_all [isQuotable]
  | case7 d cs hd _ _ ih =>
    obtain ⟨inner, hinner, rfl⟩ := Option.map_eq_some_iff.1 h
    simpa [isQuotable, hd] using ih hinner
  | case8 c d cs hc hline hslash ih =>
    obtain ⟨inner, hinner, rfl⟩ := Option.map_eq_some_iff.1 h
    cases inner with
    | nil => simpa [isQuotable, hc, hline, hslash] using ih hinner
    | cons e es => simpa [isQuotable, hc, hline, hslash] using ih hinner

theorem quotedBody?_append {quote : Quote} {body : List Char}
    (h : isQuotable quote.char body = true) :
    quotedBody? quote.char (body ++ quote.char :: tail) = some body := by
  have hmark : '\\' ≠ quote.char := by
    cases quote <;> decide
  fun_induction isQuotable quote.char body with
  | case1 => cases tail <;> simp [quotedBody?]
  | case2 c =>
    simp only [Bool.and_eq_true, bne_iff_ne] at h
    cases tail <;> simp [quotedBody?, h]
  | case3 d cs ih =>
    simp only [Bool.and_eq_true, bne_iff_ne] at h
    simp [quotedBody?, hmark, h.1, ih h.2]
  | case4 c d cs hc ih =>
    simp only [Bool.and_eq_true, bne_iff_ne] at h
    have hrest := ih h.2
    rw [cons_append] at hrest
    simp [quotedBody?, hc, h.1, hrest]

theorem isQuotable_oneLine {mark : Char} (h : isQuotable mark cs = true) : '\n' ∉ cs := by
  fun_induction isQuotable mark cs with
  | case1 => simp
  | case2 c =>
    simp only [Bool.and_eq_true, bne_iff_ne] at h
    simp [Ne.symm h.1.2]
  | case3 d cs ih =>
    simp only [Bool.and_eq_true, bne_iff_ne] at h
    simp [Ne.symm h.1, ih h.2]
  | case4 c d cs hc ih =>
    simp only [Bool.and_eq_true, bne_iff_ne] at h
    rw [mem_cons, not_or]
    exact ⟨Ne.symm h.1.2, ih h.2⟩

/-! ## Numbers -/

theorem fractionDigits_spec (cs : List Char) : (fractionDigits cs).all Char.isDigit = true ∧
    (fractionDigits cs ≠ [] → '.' :: fractionDigits cs <+: cs) := by
  fun_cases fractionDigits cs with
  | case1 cs => exact ⟨all_takeWhile, fun _ => (prefix_cons_inj '.').2 ( takeWhile_prefix _)⟩
  | case2 => exact ⟨rfl, fun h => absurd rfl h⟩

theorem unitChars_spec (cs : List Char) :
    (unitChars cs = ['%'] ∨ (unitChars cs).all Char.isAlpha = true) ∧ unitChars cs <+: cs := by
  fun_cases unitChars cs with
  | case1 => exact ⟨.inl rfl, by simp⟩
  | case2 => exact ⟨.inr all_takeWhile, takeWhile_prefix _⟩

/-- Whole digits and, if there are any, digits after the point. -/
def decimal (whole fraction : List Char) : List Char :=
  if fraction = [] then whole else whole ++ '.' :: fraction

/-- The digits at the front of a text. -/
theorem isPrefix_decimal (cs : List Char) :
    decimal (cs.takeWhile Char.isDigit)
      (fractionDigits (cs.drop (cs.takeWhile Char.isDigit).length)) <+: cs := by
  rw [decimal]
  split
  · exact takeWhile_prefix _
  · rename_i hne
    exact isPrefix_append ( takeWhile_prefix _) ((fractionDigits_spec _).2 hne)

/-- The token that is made of digits on both sides of the point, and of a unit. -/
def numberLexeme (whole fraction unit : List Char) : Lexeme where
  kind := .number
  text := decimal whole fraction ++ unit
  number := Number.ofDigits whole fraction
  unit := if unit = [] then none else some (String.ofList unit)

/-- The parts of a number: digits on both sides of the point, and a percent sign or letters. -/
structure Parts (whole fraction unit : List Char) : Prop where
  whole_digits : whole.all Char.isDigit = true
  fraction_digits : fraction.all Char.isDigit = true
  nonempty : whole ≠ [] ∨ fraction ≠ []
  unit_letters : unit = ['%'] ∨ unit.all Char.isAlpha = true

/-- How a number begins. -/
def StartsNumber (c : Char) (cs : List Char) : Prop :=
  c.isDigit = true ∨ c = '.' ∧ cs.head?.any Char.isDigit = true

section Parts

variable {whole fraction unit : List Char}

variable (h : Parts whole fraction unit)

include h

/-- A unit holds no digit and no point at its front, and is read whole. -/
theorem Parts.behind :
    unit.takeWhile Char.isDigit = [] ∧ fractionDigits unit = [] ∧ unitChars unit = unit := by
  rcases h.unit_letters with rfl | hletters
  · exact ⟨rfl, rfl, rfl⟩
  · cases unit with
    | nil => exact ⟨rfl, rfl, rfl⟩
    | cons c rest =>
      rw [all_eq_true] at hletters
      have hc : c.isAlpha = true := hletters c mem_cons_self
      have hdigit := not_isDigit_of_isNameStart (isNameStart_of_isAlpha hc)
      have hpoint : c ≠ '.' := ne_of_class hc (by decide)
      have hpercent : c ≠ '%' := ne_of_class hc (by decide)
      exact ⟨takeWhile_cons_of_neg (by simp [hdigit]), by simp [fractionDigits, hpoint],
        by simpa [unitChars, hpercent] using takeWhile_eq_self_iff.2 hletters⟩

/-- Parts of a number are read as the number. -/
theorem Parts.readNumber :
    readNumber (decimal whole fraction ++ unit) = numberLexeme whole fraction unit := by
  obtain ⟨htake, hpoint, hunit⟩ := h.behind
  have hwhole := all_eq_true.1 h.whole_digits
  by_cases hf : fraction = []
  · have hdigits : (whole ++ unit).takeWhile Char.isDigit = whole := by
      rw [takeWhile_append_of_pos hwhole, htake, append_nil]
    simp [Lexeme.readNumber, numberLexeme, decimal, hf, hdigits, hpoint, hunit]
  · have hdigits : (whole ++ '.' :: (fraction ++ unit)).takeWhile Char.isDigit = whole := by
      rw [takeWhile_append_of_pos hwhole, takeWhile_cons_of_neg (by decide), append_nil]
    have htail : fractionDigits ('.' :: (fraction ++ unit)) = fraction := by
      rw [fractionDigits, takeWhile_append_of_pos (all_eq_true.1 h.fraction_digits), htake,
        append_nil]
    simp [Lexeme.readNumber, numberLexeme, decimal, hf, hdigits, htail, hunit]

/-- Parts of a number begin as numbers do. -/
theorem Parts.starts :
    ∃ c more, decimal whole fraction ++ unit = c :: more ∧ StartsNumber c more := by
  cases whole with
  | nil =>
    have hf := h.nonempty.resolve_left (fun h => h rfl)
    obtain ⟨d, ds, rfl⟩ := exists_cons_of_ne_nil hf
    refine ⟨'.', d :: ds ++ unit, by rw [decimal, if_neg hf]; rfl, .inr ⟨rfl, ?_⟩⟩
    exact all_eq_true.1 h.fraction_digits d mem_cons_self
  | cons c cs =>
    refine ⟨c, (decimal (c :: cs) fraction ++ unit).tail, ?_, .inl ?_⟩
    · rw [decimal]
      split <;> rfl
    · exact all_eq_true.1 h.whole_digits c mem_cons_self

end Parts

/-- **Every number has its parts**, and takes them from the text. -/
theorem readNumber_parts (h : StartsNumber c cs) :
    ∃ whole fraction unit, Parts whole fraction unit ∧
      readNumber (c :: cs) = numberLexeme whole fraction unit ∧
      decimal whole fraction ++ unit <+: c :: cs := by
  let whole := (c :: cs).takeWhile Char.isDigit
  let fraction := fractionDigits ((c :: cs).drop whole.length)
  let unit := unitChars ((c :: cs).drop (decimal whole fraction).length)
  obtain ⟨hfraction, -⟩ := fractionDigits_spec ((c :: cs).drop whole.length)
  obtain ⟨hletters, hunit⟩ := unitChars_spec ((c :: cs).drop (decimal whole fraction).length)
  have hnonempty : whole ≠ [] ∨ fraction ≠ [] := by
    rcases h with h | ⟨rfl, h⟩
    · exact .inl (by simp [whole, takeWhile_cons_of_pos h])
    · cases cs with
      | nil => simp at h
      | cons d cs => exact .inr (by simp_all [fraction, whole, fractionDigits])
  exact ⟨whole, fraction, unit, ⟨all_takeWhile, hfraction, hnonempty, hletters⟩, rfl,
    isPrefix_append (isPrefix_decimal _) hunit⟩

/-! ## Marks -/

/-- What a mark begins with: no blank, and nothing that a token of another form begins with. -/
theorem singleMark?_class {kind : TokenKind} (h : singleMark? c = some kind) :
    kind ≠ .eof ∧ startsToken [c] = true ∧ c ∉ ['\n', '"', '\'', '#'] ∧ c.isDigit = false ∧
      isNameStart c = false := by
  revert h
  fun_cases singleMark? c <;> rintro ⟨⟩ <;> decide

/-- A mark of one character, if it is not the start of a longer one. -/
theorem readMark_single {next : Option Char} {kind : TokenKind}
    (hassign : next ≠ some '=' ∨ AssignOp.ofChar? c = none)
    (hdouble : next.bind (doubleMark? c) = none) (hsingle : singleMark? c = some kind) :
    readMark c next = .ok { kind, text := [c] } := by
  unfold readMark
  split
  · simp_all
  · simp_all
  · simp [hsingle]

/-- A mark takes one character or two, and is read again without what stands behind. -/
theorem readMark_text (h : readMark c cs.head? = .ok l) :
    ∃ more, l.text = c :: more ∧ more <+: cs ∧ '\n' ∉ more ∧ startsToken (c :: more) = true ∧
      l.kind ≠ .eof ∧ (singleMark? c).isSome = true ∧ readMark c more.head? = .ok l := by
  have two {d : Char} (hd : cs.head? = some d) : [d] <+: cs := by
    obtain ⟨rest, rfl⟩ := head?_eq_some_iff.1 hd
    simp
  have h' := h
  rw [readMark.eq_def] at h
  split at h
  · rename_i op hnext hop
    cases h
    obtain ⟨hstarts, hsome⟩ : startsToken [c, '='] = true ∧ (singleMark? c).isSome = true := by
      fun_cases AssignOp.ofChar? c <;> first | decide | simp [AssignOp.ofChar?] at hop
    exact ⟨['='], rfl, two hnext, by decide, hstarts, nofun, hsome, by rwa [hnext] at h'⟩
  · rename_i d kind hnext hkind _
    cases h
    rw [hnext, Option.bind_some] at hkind
    obtain ⟨hd, hstarts, hne, hsome⟩ : '\n' ∉ [d] ∧ startsToken [c, d] = true ∧ kind ≠ .eof ∧
        (singleMark? c).isSome = true := by
      fun_cases doubleMark? c d <;> simp [doubleMark?] at hkind <;> subst hkind <;> decide
    exact ⟨[d], rfl, two hnext, hd, hstarts, hne, hsome, by rwa [hnext] at h'⟩
  · split at h
    · rename_i kind hkind
      cases h
      obtain ⟨hne, hstarts, -⟩ := singleMark?_class hkind
      exact ⟨[], rfl, nil_prefix, not_mem_nil, hstarts, hne, hkind ▸ rfl,
        readMark_single (.inl nofun) rfl hkind⟩
    · cases h

end Lexeme

/-! ## Text behind a text -/

/-- A text that is cut off from the one before it: neither is it more of the last token there, nor
does it make a longer mark of it. -/
structure Severed (cs tail : List Char) : Prop where
  head : tail.head?.any isJoint = false
  dollar : cs = ['$'] → tail.head? ≠ some '\x7b'
  colon : cs = [':'] → tail.head? ≠ some ':'

namespace Severed

variable {cs tail : List Char}

section

variable (h : Severed cs tail)

include h

theorem head?_ne (hc : isJoint c = true) : tail.head? ≠ some c := by
  intro hhead
  have hjoint := h.head
  rw [hhead, Option.any_some, hc] at hjoint
  cases hjoint

/-- A class of joints is decided within the text. -/
theorem any_head? (hp : ∀ c, p c = true → isJoint c = true) (ds : List Char) :
    (ds ++ tail).head?.any p = ds.head?.any p := by
  cases ds with
  | cons d ds => rfl
  | nil =>
    rw [nil_append, head?_nil, Option.any_none, Bool.eq_false_iff]
    intro htail
    obtain ⟨d, hd, hpd⟩ := (Option.any_eq_true _ _).1 htail
    exact h.head?_ne (hp d hpd) hd

theorem takeWhile (hp : ∀ c, p c = true → isJoint c = true) (ds : List Char) :
    (ds ++ tail).takeWhile p = ds.takeWhile p := by
  induction ds with
  | nil =>
    cases tail with
    | nil => rfl
    | cons d tail => exact takeWhile_cons_of_neg fun hd => h.head?_ne (hp d hd) rfl
  | cons d ds ih => rw [cons_append, takeWhile_cons, takeWhile_cons, ih]

theorem nameChars (ds : List Char) : nameChars (ds ++ tail) = nameChars ds := by
  induction ds with
  | nil =>
    cases tail with
    | nil => rfl
    | cons d tail =>
      rw [nil_append, Lexeme.nameChars, Lexeme.nameChars, if_neg]
      rw [Bool.or_eq_true, Bool.and_eq_true, beq_iff_eq]
      rintro (hd | ⟨rfl, -⟩)
      · exact h.head?_ne (isJoint_of_isNameChar hd) rfl
      · exact h.head?_ne (by decide) rfl
  | cons d ds ih =>
    rw [cons_append, Lexeme.nameChars, Lexeme.nameChars, ih,
      h.any_head? fun _ => isJoint_of_isNameStart]

theorem fractionDigits (ds : List Char) : fractionDigits (ds ++ tail) = fractionDigits ds := by
  cases ds with
  | nil =>
    have hpoint := h.head?_ne (c := '.') (by decide)
    unfold Lexeme.fractionDigits
    split
    · simp_all
    · rfl
  | cons d ds =>
    by_cases hd : d = '.'
    · rw [hd, cons_append, Lexeme.fractionDigits, Lexeme.fractionDigits]
      exact h.takeWhile (fun _ => isJoint_of_isDigit) ds
    · simp [Lexeme.fractionDigits, hd]

theorem unitChars (ds : List Char) : unitChars (ds ++ tail) = unitChars ds := by
  have htake := h.takeWhile (p := Char.isAlpha)
    (fun _ hd => isJoint_of_isNameStart (isNameStart_of_isAlpha hd)) ds
  cases ds with
  | nil =>
    have hpercent := h.head?_ne (c := '%') (by decide)
    unfold Lexeme.unitChars
    split
    · simp_all
    · exact htake
  | cons d ds =>
    by_cases hd : d = '%'
    · rw [hd, cons_append, Lexeme.unitChars, Lexeme.unitChars]
    · simpa [Lexeme.unitChars, hd] using htake

theorem readNumber (ds : List Char) : readNumber (ds ++ tail) = readNumber ds := by
  have hwhole : (ds ++ tail).takeWhile Char.isDigit = ds.takeWhile Char.isDigit :=
    h.takeWhile (fun _ => isJoint_of_isDigit) ds
  have hdrop {as : List Char} (has : as <+: ds) :
      (ds ++ tail).drop as.length = ds.drop as.length ++ tail :=
    drop_append_of_le_length has.length_le
  have hdecimal := hdrop (isPrefix_decimal ds)
  rw [decimal] at hdecimal
  simp only [Lexeme.readNumber, hwhole, hdrop ( takeWhile_prefix _), h.fractionDigits, hdecimal,
    h.unitChars]

end

/-- No mark becomes longer. -/
theorem readMark {c : Char} {ds : List Char} (h : Severed (c :: ds) tail) {l : Lexeme}
    (hl : readMark c ds.head? = .ok l) : readMark c (ds ++ tail).head? = .ok l := by
  cases ds with
  | cons d ds => exact hl
  | nil =>
    obtain ⟨-, -, -, -, -, -, hsome, -⟩ := readMark_text hl
    obtain ⟨kind, hsingle⟩ := Option.isSome_iff_exists.1 hsome
    have hnone : (none : Option Char) ≠ some '=' := nofun
    rw [head?_nil, readMark_single (.inl hnone) rfl hsingle] at hl
    cases hl
    refine readMark_single (.inl (h.head?_ne (by decide))) ?_ hsingle
    rw [nil_append]
    cases hhead : tail.head? with
    | none => rfl
    | some d =>
      have hjoint : isJoint d = false := by simpa [hhead] using h.head
      have hcolon : c = ':' → d ≠ ':' := fun hc hd => h.colon (by rw [hc]) (by rw [hhead, hd])
      rw [Option.bind_some]
      unfold doubleMark?
      split <;> first | rfl | exact absurd hjoint (by decide) | exact absurd rfl (hcolon rfl)

end Severed

namespace Lexeme

/-! ## Tokens at the front of a text -/

/-- A mark that does not begin a name, a command or a number. -/
structure StartsMark (c : Char) (next : Option Char) : Prop where
  dollar : c = '$' → next ≠ some '\x7b' ∧ next.any isNameStart = false
  command : c = '@' → next.any (fun d => isNameStart d || d == '-') = false
  point : c = '.' → next.any Char.isDigit = false

/-- **The ways a token stands at the front of a text.** -/
inductive Fronts : Char → List Char → Lexeme → Prop where
  | string (q : QuotedText) (rest : List Char) :
      Fronts q.quote.char (q.body ++ q.quote.char :: rest) (Literal.string q).lexeme
  | block {name : List Char} (rest : List Char) : name ≠ [] → isName name = true →
      Fronts '$' ('\x7b' :: (name ++ '\x7d' :: rest))
        { kind := .variableName
          text := '$' :: '\x7b' :: (name ++ ['\x7d'])
          value := String.ofList name }
  | variable {cs : List Char} : cs.head?.any isNameStart = true →
      Fronts '$' cs (readNamed .variableName '$' cs)
  | command {cs : List Char} : cs.head?.any (fun d => isNameStart d || d == '-') = true →
      Fronts '@' cs (readNamed .command '@' cs)
  | hash {cs : List Char} : cs.head?.any isNameChar = true → Fronts '#' cs (readHash cs)
  | hexWord {cs : List Char} : cs.head?.any isHexDigit = true →
      Fronts '0' ('x' :: cs) (readHexWord cs)
  | number {c : Char} {cs : List Char} : StartsNumber c cs →
      (c = '0' → ∀ ds, cs = 'x' :: ds → ds.head?.any isHexDigit = false) →
      Fronts c cs (readNumber (c :: cs))
  | word {c : Char} {cs : List Char} : isNameStart c = true → Fronts c cs (readWord (c :: cs))
  | mark {c : Char} {cs : List Char} {l : Lexeme} : StartsMark c cs.head? →
      readMark c cs.head? = .ok l → Fronts c cs l

theorem fronts_of_readString {quote : Quote} (h : readString quote cs = .ok l) :
    Fronts quote.char cs l := by
  rw [readString] at h
  split at h
  · rename_i body hbody
    obtain ⟨hquotable, rest, rfl⟩ := quotedBody?_eq_some hbody
    cases h
    rw [append_assoc, singleton_append]
    exact .string ⟨quote, body, hquotable⟩ rest
  · cases h

theorem fronts_of_readVariableBlock (h : readVariableBlock cs = .ok l) :
    Fronts '$' ('\x7b' :: cs) l := by
  rw [readVariableBlock] at h
  split at h
  · rename_i hname
    obtain ⟨rest, hrest⟩ := head?_eq_some_iff.1 hname.2
    have hcs : cs = nameChars cs ++ '\x7d' :: rest := by
      rw [← hrest]
      exact prefix_iff_eq_append.1 (isPrefix_nameChars cs) |>.symm
    cases h
    have hfronts := Fronts.block rest hname.1 (isName_nameChars cs)
    rwa [← hcs] at hfronts
  · cases h

theorem fronts_of_read (h : read (c :: cs) = .ok l) : Fronts c cs l := by
  rw [read] at h
  refine if hc : c = '"' then ?_ else if hc' : c = '\'' then ?_ else ?_
  · rw [if_pos hc] at h
    exact hc ▸ fronts_of_readString h
  · rw [if_neg hc, if_pos hc'] at h
    exact hc' ▸ fronts_of_readString h
  rw [if_neg hc, if_neg hc'] at h
  by_cases hblock : c = '$' ∧ cs.head? = some '\x7b'
  · rw [if_pos hblock] at h
    obtain ⟨rfl, hbrace⟩ := hblock
    obtain ⟨rest, rfl⟩ := head?_eq_some_iff.1 hbrace
    exact fronts_of_readVariableBlock h
  rw [if_neg hblock] at h
  by_cases hname : c = '$' ∧ cs.head?.any isNameStart
  · rw [if_pos hname] at h
    cases h
    obtain ⟨rfl, hstart⟩ := hname
    exact .variable hstart
  rw [if_neg hname] at h
  by_cases hcommand : c = '@' ∧ cs.head?.any fun d => isNameStart d || d == '-'
  · rw [if_pos hcommand] at h
    cases h
    obtain ⟨rfl, hstart⟩ := hcommand
    exact .command hstart
  rw [if_neg hcommand] at h
  by_cases hhash : c = '#' ∧ cs.head?.any isNameChar
  · rw [if_pos hhash] at h
    cases h
    obtain ⟨rfl, hstart⟩ := hhash
    exact .hash hstart
  rw [if_neg hhash] at h
  by_cases hhex : c = '0' ∧ cs.head? = some 'x' ∧ (cs.drop 1).head?.any isHexDigit
  · rw [if_pos hhex] at h
    cases h
    obtain ⟨rfl, hx, hdigit⟩ := hhex
    obtain ⟨rest, rfl⟩ := head?_eq_some_iff.1 hx
    exact .hexWord hdigit
  rw [if_neg hhex] at h
  by_cases hnumber : c.isDigit ∨ c = '.' ∧ cs.head?.any Char.isDigit
  · rw [if_pos hnumber] at h
    cases h
    refine .number hnumber fun hc ds hds => Bool.eq_false_iff.2 fun hdigit => ?_
    exact hhex ⟨hc, hds ▸ rfl, hds ▸ hdigit⟩
  rw [if_neg hnumber] at h
  by_cases hword : isNameStart c
  · rw [if_pos hword] at h
    cases h
    exact .word hword
  rw [if_neg hword] at h
  refine .mark ⟨fun hc => ⟨fun hnext => hblock ⟨hc, hnext⟩, ?_⟩, fun hc => ?_, fun hc => ?_⟩ h
  · exact Bool.eq_false_iff.2 fun hnext => hname ⟨hc, hnext⟩
  · exact Bool.eq_false_iff.2 fun hnext => hcommand ⟨hc, hnext⟩
  · exact Bool.eq_false_iff.2 fun hnext => hnumber (.inr ⟨hc, hnext⟩)

/-- Characters that no token of another form begins with. -/
theorem read_of_notMem (hc : c ∉ ['"', '\'', '$', '@', '#']) : read (c :: cs) =
    if c = '0' ∧ cs.head? = some 'x' ∧ (cs.drop 1).head?.any isHexDigit then
      .ok (readHexWord (cs.drop 1))
    else if c.isDigit ∨ (c = '.' ∧ cs.head?.any Char.isDigit) then .ok (readNumber (c :: cs))
    else if isNameStart c then .ok (readWord (c :: cs))
    else readMark c cs.head? := by
  simp_all [read]

theorem notMem_of_class (hc : p c = true) {ds : List Char} (hds : ds.any p = false) : c ∉ ds :=
  fun hmem => any_eq_false.1 hds c hmem hc

theorem Fronts.read (h : Fronts c cs l) : read (c :: cs) = .ok l := by
  cases h with
  | string q rest =>
    have hread : Lexeme.read (q.quote.char :: (q.body ++ q.quote.char :: rest)) =
        readString q.quote (q.body ++ q.quote.char :: rest) := by
      cases q.quote <;> rfl
    rw [hread, readString, quotedBody?_append q.isQuotable]
    rfl
  | @block name rest hne hname =>
    have hbrace : Severed name ('\x7d' :: rest) := ⟨rfl, by simp, by simp⟩
    simp [Lexeme.read, readVariableBlock, hbrace.nameChars, nameChars_of_isName hname, hne]
  | «variable» h =>
    have hbrace : cs.head? ≠ some '\x7b' := by
      intro hcs
      rw [hcs] at h
      exact absurd h (by decide)
    simp [Lexeme.read, h, hbrace]
  | command h => simp [Lexeme.read, h]
  | hash h => simp [Lexeme.read, h]
  | hexWord h => simp [Lexeme.read, h]
  | number h hhex =>
    rw [read_of_notMem, if_neg, if_pos (show _ ∨ _ from h)]
    · rintro ⟨rfl, hx, hdigit⟩
      obtain ⟨ds, rfl⟩ := head?_eq_some_iff.1 hx
      simp [hhex rfl ds rfl] at hdigit
    · rcases h with h | ⟨rfl, -⟩
      · exact notMem_of_class h rfl
      · decide
  | word h =>
    rw [read_of_notMem (notMem_of_class h rfl), if_neg, if_neg, if_pos h]
    · rw [not_isDigit_of_isNameStart h]
      rintro (hc | ⟨rfl, -⟩)
      · cases hc
      · cases h
    · rintro ⟨rfl, -⟩
      cases h
  | mark hstarts h =>
    obtain ⟨-, -, -, -, -, -, hsome, -⟩ := readMark_text h
    obtain ⟨kind, hsingle⟩ := Option.isSome_iff_exists.1 hsome
    obtain ⟨-, -, hc, hdigit, hstart⟩ := singleMark?_class hsingle
    simp only [mem_cons, not_mem_nil, or_false, not_or] at hc
    have hzero : c ≠ '0' := by
      rintro rfl
      cases hdigit
    rw [Lexeme.read, if_neg hc.2.1, if_neg hc.2.2.1, if_neg fun h => (hstarts.dollar h.1).1 h.2,
      if_neg fun h => Bool.eq_false_iff.1 (hstarts.dollar h.1).2 h.2,
      if_neg fun h => Bool.eq_false_iff.1 (hstarts.command h.1) h.2, if_neg fun h => hc.2.2.2 h.1,
      if_neg fun h => hzero h.1, if_neg, if_neg (by simp [hstart]), h]
    rintro (h | ⟨h, hnext⟩)
    · simp [hdigit] at h
    · exact Bool.eq_false_iff.1 (hstarts.point h) hnext

/-- A token that stands at the front of a text, takes a piece of it, and is read again in that. -/
structure Heads (l : Lexeme) (c : Char) (cs : List Char) : Prop where
  text : ∃ more, l.text = c :: more ∧ more <+: cs ∧ Fronts c more l
  kind_ne_eof : l.kind ≠ .eof
  starts : startsToken l.text = true
  oneLine : '\n' ∉ l.text

theorem nameChars_nameChars (cs : List Char) : nameChars (nameChars cs) = nameChars cs :=
  nameChars_of_isName (isName_nameChars cs)

theorem readNumber_heads (h : StartsNumber c cs)
    (hhex : c = '0' → ∀ ds, cs = 'x' :: ds → ds.head?.any isHexDigit = false) :
    (readNumber (c :: cs)).Heads c cs := by
  obtain ⟨whole, fraction, unit, hparts, hread, hpre⟩ := readNumber_parts h
  obtain ⟨d, more, htext, hstarts⟩ := hparts.starts
  have hagain := hparts.readNumber
  rw [htext] at hpre hagain
  obtain ⟨rfl, hmore⟩ := cons_prefix_cons.1 hpre
  rw [hread]
  refine ⟨⟨more, htext, hmore, hagain ▸ .number hstarts fun hzero ds hds => ?_⟩, nofun, ?_, ?_⟩
  · obtain ⟨rest, rfl⟩ := hmore
    subst hds
    have hdigit := hhex hzero _ rfl
    cases ds with
    | nil => rfl
    | cons e ds => exact hdigit
  · rw [numberLexeme, htext]
    rcases h with h | ⟨rfl, -⟩
    · exact startsToken_of_isNameChar (isNameChar_of_isDigit h)
    · exact startsToken_cons rfl (by decide)
  · have hunit : '\n' ∉ unit := by
      rcases hparts.unit_letters with rfl | hletters
      · decide
      · exact oneLine_of_class hletters rfl
    simp only [numberLexeme, decimal]
    split <;> simp [oneLine_of_class hparts.whole_digits, oneLine_of_class hparts.fraction_digits, hunit]

theorem Fronts.heads (h : Fronts c cs l) : l.Heads c cs := by
  have hline : '\n' ∉ nameChars cs := isName_oneLine (isName_nameChars cs)
  cases h with
  | string q rest =>
    have hbody := isQuotable_oneLine q.isQuotable
    refine ⟨⟨q.body ++ [q.quote.char], rfl, by simp, .string q []⟩, nofun, ?_, ?_⟩
    · simp only [Literal.lexeme]
      cases q.quote <;> rfl
    · simp only [Literal.lexeme]
      cases q.quote <;> simpa [Quote.char] using hbody
  | @block name rest hne hname =>
    refine ⟨⟨_, rfl, by simp, .block [] hne hname⟩, nofun, rfl, ?_⟩
    simp [isName_oneLine hname]
  | «variable» h =>
    have hagain := Fronts.variable (any_head?_nameChars (fun _ => isNameChar_of_isNameStart) h)
    rw [readNamed, nameChars_nameChars] at hagain
    exact ⟨⟨_, rfl, isPrefix_nameChars cs, hagain⟩, nofun, rfl, by simp [readNamed, hline]⟩
  | command h =>
    have hagain := Fronts.command (any_head?_nameChars (fun _ => isNameChar_of_commandStart) h)
    rw [readNamed, nameChars_nameChars] at hagain
    exact ⟨⟨_, rfl, isPrefix_nameChars cs, hagain⟩, nofun, rfl, by simp [readNamed, hline]⟩
  | hash h =>
    have hagain := Fronts.hash (any_head?_nameChars (fun _ hd => hd) h)
    rw [readHash, nameChars_nameChars] at hagain
    exact ⟨⟨_, rfl, isPrefix_nameChars cs, hagain⟩, nofun, rfl, by simp [readHash, hline]⟩
  | @hexWord cs h =>
    have hagain := Fronts.hexWord (any_head?_takeWhile h)
    rw [readHexWord, takeWhile_idem] at hagain
    have hdigits : (cs.takeWhile isHexDigit).all isHexDigit = true := all_takeWhile
    refine ⟨⟨_, rfl, (prefix_cons_inj 'x').2 ( takeWhile_prefix _), hagain⟩, nofun, rfl, ?_⟩
    simp [readHexWord, oneLine_of_class hdigits rfl]
  | number h hhex => exact readNumber_heads h hhex
  | word h =>
    have htext : nameChars (c :: cs) = c :: nameChars cs := by
      rw [nameChars, isNameChar_of_isNameStart h, Bool.true_or, if_pos rfl]
    have hagain : Fronts c (nameChars cs) _ := .word h
    rw [readWord, ← htext, nameChars_nameChars] at hagain
    refine ⟨⟨_, htext, isPrefix_nameChars cs, hagain⟩, ?_, ?_, isName_oneLine (isName_nameChars _)⟩
    · simp only [readWord, wordKind]
      split_ifs <;> exact nofun
    · rw [readWord, htext]
      exact startsToken_of_isNameChar (isNameChar_of_isNameStart h)
  | mark hstarts h =>
    obtain ⟨more, htext, hmore, hline, htoken, hkind, hsome, hagain⟩ := readMark_text h
    obtain ⟨kind, hsingle⟩ := Option.isSome_iff_exists.1 hsome
    obtain ⟨-, -, hc, -⟩ := singleMark?_class hsingle
    refine ⟨⟨more, htext, hmore, .mark ?_ hagain⟩, hkind, htext ▸ htoken, ?_⟩
    · obtain ⟨rest, rfl⟩ := hmore
      cases more with
      | nil => exact ⟨fun _ => ⟨nofun, rfl⟩, fun _ => rfl, fun _ => rfl⟩
      | cons d more => exact hstarts
    · rw [htext, mem_cons, not_or]
      exact ⟨fun heq => hc (heq ▸ mem_cons_self), hline⟩

/-- **Every token that is read takes a piece of the text**, if there is any text. -/
theorem read_heads (h : read (c :: cs) = .ok l) : l.Heads c cs :=
  (fronts_of_read h).heads

section

variable (h : read cs = .ok l)

include h

/-- Only at the end of a text is the end read. -/
theorem eq_nil_of_eof (hl : l.kind = .eof) : cs = [] := by
  cases cs with
  | nil => rfl
  | cons c cs => exact absurd hl (read_heads h).kind_ne_eof

theorem text_ne_nil (hl : l.kind ≠ .eof) : l.text ≠ [] := by
  cases cs with
  | nil =>
    cases h
    exact absurd rfl hl
  | cons c cs =>
    obtain ⟨more, htext, -⟩ := (read_heads h).text
    exact htext ▸ cons_ne_nil c more

theorem oneLine : '\n' ∉ l.text := by
  cases cs with
  | nil =>
    cases h
    exact not_mem_nil
  | cons c cs => exact (read_heads h).oneLine

theorem isPrefix_read : l.text <+: cs := by
  cases cs with
  | nil =>
    cases h
    exact nil_prefix
  | cons c cs =>
    obtain ⟨more, htext, hmore, -⟩ := (read_heads h).text
    rw [htext]
    exact (prefix_cons_inj c).2 hmore

end

/-- **The text of a token, cut out, is read as that token.** -/
theorem read_text (h : read (c :: cs) = .ok l) : read l.text = .ok l := by
  obtain ⟨more, htext, -, hagain⟩ := (read_heads h).text
  rw [htext]
  exact hagain.read

theorem Fronts.append (h : Fronts c cs l) (ht : Severed (c :: cs) tail) :
    Fronts c (cs ++ tail) l := by
  cases h with
  | string q rest => simpa using Fronts.string q (rest ++ tail)
  | block rest hne hname => simpa using Fronts.block (rest ++ tail) hne hname
  | «variable» h =>
    have hfronts := Fronts.variable ((ht.any_head? (fun _ => isJoint_of_isNameStart) cs).trans h)
    rwa [readNamed, ht.nameChars] at hfronts
  | command h =>
    have hfronts := Fronts.command ((ht.any_head?
      (fun _ hd => isJoint_of_isNameChar (isNameChar_of_commandStart hd)) cs).trans h)
    rwa [readNamed, ht.nameChars] at hfronts
  | hash h =>
    have hfronts := Fronts.hash ((ht.any_head? (fun _ => isJoint_of_isNameChar) cs).trans h)
    rwa [readHash, ht.nameChars] at hfronts
  | @hexWord cs h =>
    have hfronts := Fronts.hexWord ((ht.any_head? (fun _ => isJoint_of_isHexDigit) cs).trans h)
    rwa [readHexWord, ht.takeWhile fun _ => isJoint_of_isHexDigit] at hfronts
  | number h hhex =>
    rw [← ht.readNumber (c :: cs)]
    refine .number (h.imp_right fun h => ⟨h.1, ?_⟩) fun hzero ds hds => ?_
    · exact (ht.any_head? (fun _ => isJoint_of_isDigit) cs).trans h.2
    · cases cs with
      | nil => exact absurd (congrArg head? hds) (ht.head?_ne (by decide))
      | cons d cs =>
        cases hds
        exact (ht.any_head? (fun _ => isJoint_of_isHexDigit) cs).trans (hhex hzero cs rfl)
  | word h =>
    have hfronts : Fronts c (cs ++ tail) _ := .word h
    rwa [readWord, ← cons_append, ht.nameChars] at hfronts
  | mark hstarts h =>
    refine .mark ?_ (ht.readMark h)
    cases cs with
    | cons d cs => exact hstarts
    | nil =>
      refine ⟨fun hc => ⟨ht.dollar (by rw [hc]), ?_⟩, fun _ => ?_, fun _ => ?_⟩
      · exact ht.any_head? (fun _ => isJoint_of_isNameStart) []
      · exact ht.any_head? (fun _ hd => isJoint_of_isNameChar (isNameChar_of_commandStart hd)) []
      · exact ht.any_head? (fun _ => isJoint_of_isDigit) []

/-- **A token is read as before if the text behind it is cut off from it.** -/
theorem read_append (h : read (c :: cs) = .ok l) (ht : Severed (c :: cs) tail) :
    read (c :: cs ++ tail) = .ok l :=
  ((fronts_of_read h).append ht).read

/-- Tokens with the same text are the same. -/
theorem eq_of_text_eq {cs' : List Char} {l' : Lexeme} (h : read cs = .ok l) (h' : read cs' = .ok l')
    (htext : l.text = l'.text) : l = l' := by
  have hagain {cs : List Char} {l : Lexeme} (h : read cs = .ok l) : read l.text = .ok l := by
    cases cs with
    | nil =>
      cases h
      rfl
    | cons c cs => exact read_text h
  exact Except.ok.inj ((hagain h).symm.trans (htext ▸ hagain h'))

end Lexeme

end Cascade
