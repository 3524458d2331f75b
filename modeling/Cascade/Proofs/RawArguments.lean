import Cascade.Proofs.Spelling

/-!
# Arguments that are kept as text

An argument that is not cut into tokens reaches up to the closing parenthesis that matches the one
before it.  It is read in one pass, with a count of open parentheses and the quotation mark of the
string at hand.  What is read has a grammar, which knows nothing of such a pass: characters, strings,
and bodies in parentheses.
-/

set_option autoImplicit false

namespace Cascade

open TokenStream List

variable {mark : Char} {depth : Nat} {cs body rest : List Char}

/-! ## The grammar -/

/-- A string from behind its opening quotation mark on.  A backslash keeps the character after it from
closing the string. -/
inductive StringTail (mark : Char) : List Char → Prop where
  | close : StringTail mark [mark]
  | escape {c : Char} {cs : List Char} : StringTail mark cs → StringTail mark ('\\' :: c :: cs)
  | char {c : Char} {cs : List Char} : c ≠ mark → c ≠ '\\' → StringTail mark cs →
      StringTail mark (c :: cs)

/-- **The grammar of arguments that are kept as text.** -/
inductive RawBody : List Char → Prop where
  | nil : RawBody []
  | char {c : Char} {cs : List Char} : c ∉ ['"', '\'', '(', ')'] → RawBody cs → RawBody (c :: cs)
  | string {mark : Char} {tail cs : List Char} : mark ∈ ['"', '\''] → StringTail mark tail →
      RawBody cs → RawBody (mark :: tail ++ cs)
  | group {inner cs : List Char} : RawBody inner → RawBody cs → RawBody ('(' :: inner ++ ')' :: cs)

/-! ## What the pass does -/

/-- One character in quotes. -/
theorem rawText_some (mark : Char) (depth : Nat) (c : Char) (cs : List Char) :
    rawText (some mark) depth (c :: cs) =
      if c = mark then .cons c (rawText none depth cs)
      else if c = '\\' then
        match cs with
        | [] => .cons c ⟨[], 0, false⟩
        | d :: cs =>
          let raw := rawText (some mark) depth cs
          { raw with body := c :: d :: raw.body }
      else .cons c (rawText (some mark) depth cs) := by
  cases cs <;> simp [rawText]

/-- One character outside of quotes. -/
theorem rawText_none (depth : Nat) (c : Char) (cs : List Char) :
    rawText none depth (c :: cs) =
      if c = ')' then
        match depth with
        | 0 => ⟨[], 0, true⟩
        | depth + 1 => .cons c (rawText none depth cs)
      else if c = '(' then .cons c (rawText none (depth + 1) cs)
      else if c = '"' ∨ c = '\'' then .cons c (rawText (some c) depth cs)
      else .cons c (rawText none depth cs) := by
  cases cs <;> exact rawText.eq_def ..

/-- A text is passed, and what is found behind it decides. -/
def Passed (piece : List Char) (raw behind : RawText) : Prop :=
  raw.body = piece ++ behind.body ∧ raw.closed = behind.closed

theorem Passed.cons {piece : List Char} {raw behind : RawText} (h : Passed piece raw behind)
    (c : Char) : Passed (c :: piece) (raw.cons c) behind :=
  ⟨congrArg (c :: ·) h.1, h.2⟩

theorem Passed.trans {first second : List Char} {raw middle behind : RawText}
    (h : Passed first raw middle) (h' : Passed second middle behind) :
    Passed (first ++ second) raw behind :=
  ⟨by rw [h.1, h'.1, append_assoc], h.2.trans h'.2⟩

theorem StringTail.rawText {tail : List Char} (h : StringTail mark tail) (hmark : mark ≠ '\\')
    (depth : Nat) (cs : List Char) :
    Passed tail (rawText (some mark) depth (tail ++ cs)) (rawText none depth cs) := by
  induction h with
  | close =>
    rw [singleton_append, rawText_some, if_pos rfl]
    exact .cons ⟨rfl, rfl⟩ _
  | escape _ ih =>
    rw [cons_append, rawText_some, if_neg hmark.symm, if_pos rfl]
    exact ⟨congrArg ('\\' :: _ :: ·) ih.1, ih.2⟩
  | char hc hslash _ ih =>
    rw [cons_append, rawText_some, if_neg hc, if_neg hslash]
    exact ih.cons _

/-- **A body is passed**, whatever stands behind it. -/
theorem RawBody.rawText (h : RawBody body) (depth : Nat) (cs : List Char) :
    Passed body (rawText none depth (body ++ cs)) (rawText none depth cs) := by
  induction h generalizing depth cs with
  | nil => exact ⟨rfl, rfl⟩
  | char hc _ ih =>
    simp only [mem_cons, not_mem_nil, or_false, not_or] at hc
    rw [cons_append, rawText_none, if_neg hc.2.2.2, if_neg hc.2.2.1,
      if_neg (not_or.2 ⟨hc.1, hc.2.1⟩)]
    exact (ih depth cs).cons _
  | @string mark tail more hmark htail _ ih =>
    have hquote : mark = '"' ∨ mark = '\'' := by simpa using hmark
    have hother : mark ≠ ')' ∧ mark ≠ '(' ∧ mark ≠ '\\' := by
      obtain rfl | rfl := hquote <;> decide
    simp only [append_assoc, cons_append]
    rw [rawText_none, if_neg hother.1, if_neg hother.2.1, if_pos hquote]
    exact ((htail.rawText hother.2.2 depth _).trans (ih depth cs)).cons mark
  | @group inner more _ _ ihinner ih =>
    have hclose : Passed (')' :: more) (TokenStream.rawText none (depth + 1) (')' :: (more ++ cs)))
        (TokenStream.rawText none depth cs) := by
      rw [rawText_none, if_pos rfl]
      exact (ih depth cs).cons ')'
    simp only [append_assoc, cons_append]
    rw [rawText_none, if_neg (by decide), if_pos rfl]
    exact ((ihinner (depth + 1) _).trans hclose).cons '('

/-- A text in which the parentheses that are open, and the one before it, are closed. -/
inductive Balanced : Nat → List Char → Prop where
  | last {body rest : List Char} : RawBody body → Balanced 0 (body ++ ')' :: rest)
  | inner {depth : Nat} {body rest : List Char} : RawBody body → Balanced depth rest →
      Balanced (depth + 1) (body ++ ')' :: rest)

theorem Balanced.exists_rawBody (h : Balanced depth cs) :
    ∃ body rest, RawBody body ∧ cs = body ++ ')' :: rest := by
  cases h with
  | last hbody | inner hbody => exact ⟨_, _, hbody, rfl⟩

theorem Balanced.prepend {piece : List Char} (h : Balanced depth cs)
    (hpiece : ∀ body, RawBody body → RawBody (piece ++ body)) : Balanced depth (piece ++ cs) := by
  cases h with
  | last hbody =>
    rw [← append_assoc]
    exact .last (hpiece _ hbody)
  | inner hbody hrest =>
    rw [← append_assoc]
    exact .inner (hpiece _ hbody) hrest

/-- **Where the pass finds its end, everything is closed.**  In quotes, the string is closed first. -/
theorem balanced_of_closed {quote : Option Char} : (rawText quote depth cs).closed = true →
    match quote with
    | none => Balanced depth cs
    | some mark => ∃ tail rest, StringTail mark tail ∧ cs = tail ++ rest ∧ Balanced depth rest := by
  fun_induction rawText quote depth cs with
  | case1 | case2 => exact nofun
  | case3 depth c d cs ih => exact fun h => ⟨[c], _, .close, rfl, ih h⟩
  | case4 mark depth d cs raw hmark ih =>
    intro h
    obtain ⟨tail, rest, htail, rfl, hrest⟩ := ih h
    exact ⟨_, rest, htail.escape, rfl, hrest⟩
  | case5 mark depth c d cs hmark hslash ih =>
    intro h
    obtain ⟨tail, rest, htail, heq, hrest⟩ := ih h
    exact ⟨c :: tail, rest, htail.char hmark hslash, congrArg (c :: ·) heq, hrest⟩
  | case6 => exact fun _ => .last .nil
  | case7 cs depth ih => exact fun h => .inner .nil (ih h)
  | case8 depth cs _ ih =>
    intro h
    cases ih h with
    | @inner _ inner rest hinner hrest =>
      have hgroup (body : List Char) (hbody : RawBody body) :
          RawBody ('(' :: inner ++ [')'] ++ body) := by
        rw [append_assoc]
        exact hinner.group hbody
      simpa using hrest.prepend hgroup
  | case9 depth c cs hclose hopen hquote ih =>
    intro h
    obtain ⟨tail, rest, htail, rfl, hrest⟩ := ih h
    exact hrest.prepend fun _ => .string (by simpa using hquote) htail
  | case10 depth c cs hclose hopen hquote ih =>
    exact fun h => (ih h).prepend fun _ => show _ → RawBody ([c] ++ _) from .char (by simp_all)

/-! ## Arguments -/

/-- A body in front of a closing parenthesis is read up to it. -/
theorem rawArgument_of_rawBody {s : TokenStream} (hnone : s.pushedBack = 0) (h : RawBody body)
    (hrest : s.cursor.rest = body ++ ')' :: rest) :
    ∃ cursor lastLine, Reading.rawArgument s =
        .ok (String.ofList (Text.trim body), { s with cursor, lastLine }) ∧
      cursor.rest = ')' :: rest ∧
      cursor.position = s.cursor.position + Text.byteLength body := by
  have hdiscard : s.discardPushedBack = s := if_pos hnone
  obtain ⟨htext, hclosed⟩ := h.rawText 0 (')' :: rest)
  rw [← hrest, rawText_none, if_pos rfl] at htext hclosed
  rw [append_nil] at htext
  have hdrop : s.cursor.rest.drop body.length = ')' :: rest := by rw [hrest, drop_left]
  simp only [Reading.rawArgument, guard_of_safe _ hnone, hdiscard, hclosed, htext, hdrop, if_true]
  exact ⟨_, _, rfl, rfl, rfl⟩

/-- A closing parenthesis is read where it stands. -/
theorem advance_closeParen {s : TokenStream} (hnone : s.pushedBack = 0)
    (hrest : s.cursor.rest = ')' :: rest) :
    ∃ s', Reading.advance s = .ok (.closeParen, s') ∧ s'.token.text = ")" ∧
      s'.token.span.start = s.cursor.position := by
  have hleads : (markLexeme .closeParen).Leads rest := .separator (by decide)
  have hscan := hleads.scan (forall_mem_nil _) hrest s.lastLine
  obtain ⟨s', hnext, htoken⟩ : ∃ s', s.next = .ok s' ∧ s'.token = _ :=
    ⟨_, next_of_scan hnone hscan, by rw [token, get_slots, Vector.getElem_set_self]⟩
  refine ⟨s', ?_, by rw [htoken]; rfl, by rw [htoken]; rfl⟩
  rw [Reading.advance, hnext, Except.map, htoken]
  rfl

/-- **An argument that is kept as text is read if and only if it follows the grammar.**  With nothing
put back, and a body and a closing parenthesis ahead, the body is given without the blanks around it,
and the parenthesis is the next token; if there is no such body ahead, the parenthesis is missed at
the end of the text. -/
theorem rawArgument_reads_body {s : TokenStream} (hnone : s.pushedBack = 0) :
    (∀ body rest, RawBody body → s.cursor.rest = body ++ ')' :: rest →
      ∃ s' s'', Reading.rawArgument s = .ok (String.ofList (Text.trim body), s') ∧
        Reading.advance s' = .ok (.closeParen, s'') ∧ s''.token.text = ")" ∧
        s''.token.span.start = s.cursor.position + Text.byteLength body) ∧
    ((∀ body rest, RawBody body → s.cursor.rest ≠ body ++ ')' :: rest) →
      ∃ line, Reading.rawArgument s =
        .error ⟨.parse (.unexpectedToken "`)`" "end of file"), ⟨s.source.file, line⟩⟩) := by
  refine ⟨fun body rest hbody hrest => ?_, fun hall => ?_⟩
  · obtain ⟨cursor, lastLine, hrun, hrest', hposition⟩ := rawArgument_of_rawBody hnone hbody hrest
    obtain ⟨s', hadvance, htext, hspan⟩ :=
      advance_closeParen (s := { s with cursor, lastLine }) hnone hrest'
    exact ⟨_, s', hrun, hadvance, htext, hspan.trans hposition⟩
  · have hopen : (rawText none 0 s.cursor.rest).closed = false := by
      refine Bool.eq_false_iff.2 fun hclosed => ?_
      obtain ⟨body, rest, hbody, hrest⟩ := (balanced_of_closed hclosed).exists_rawBody
      exact hall body rest hbody hrest
    have hdiscard : s.discardPushedBack = s := if_pos hnone
    simp only [Reading.rawArgument, guard_of_safe _ hnone, hdiscard, hopen]
    exact ⟨_, rfl⟩

/-- Parentheses that do not close the argument: one in a string, one of a group. -/
def rawSample : Source where
  text := " a(\")\") ) b"

theorem rawArgument_reads_body_nested :
    (∃ s s', Reading.rawArgument (.ofSource rawSample) = .ok ("a(\")\")", s) ∧
      Reading.advance s = .ok (.closeParen, s') ∧ s'.token.text = ")" ∧ s'.token.span.start = 8) ∧
    ∃ line, Reading.rawArgument (.ofSource { text := "" }) =
      .error ⟨.parse (.unexpectedToken "`)`" "end of file"), ⟨none, line⟩⟩ := by
  refine ⟨?_, (rawArgument_reads_body rfl).2 fun body rest _ h => by cases body <;> cases h⟩
  have hgroup : RawBody ('(' :: ('"' :: [')', '"'] ++ []) ++ ')' :: [' ']) :=
    .group (.string (by decide) (.char (by decide) (by decide) .close) .nil) (.char (by decide) .nil)
  have hbody : RawBody (' ' :: 'a' :: _) := .char (by decide) (.char (by decide) hgroup)
  exact (rawArgument_reads_body rfl).1 _ [' ', 'b'] hbody rfl

end Cascade
