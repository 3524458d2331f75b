import Cascade.Proofs.LockstepStatements
import Cascade.Proofs.StrippedReduction
import Mathlib.Data.List.Chain

/-!
# What stands between tokens

How much stands between two tokens, and whether it is blanks, line breaks or comments, has no part in
what a stylesheet means.  Two texts that are cut into the same tokens, each set off from the one before
it in both texts or in neither, have the same output or fail for the same reason.

There is one exception, at the very end: after a sign that is set off, the parser asks whether the end
of the text is set off too.  The outcome is an error all the same, since a text that ends in a sign
is never a stylesheet, but it may be another one.
-/

set_option autoImplicit false

namespace Cascade

open List

/-! ## Texts with the same tokens -/

/-- The text of a token, and whether it is set off from the one before it. -/
def Token.cut (t : Token) : String × Bool :=
  (t.text, t.spaced)

/-- A token does not open the arguments of a function that may keep them as text. -/
def Token.OpensNoText (t u : Token) : Prop :=
  t.kind = .identifier → Parse.lowercase t.value ∈ rawNames → u.kind = .openParen → u.spaced = true

instance (t u : Token) : Decidable (t.OpensNoText u) :=
  inferInstanceAs (Decidable (_ → _ → _ → _))

/-- No function in a list of tokens keeps its arguments as text. -/
def ReadsNoText (ts : List Token) : Prop :=
  ts.IsChain Token.OpensNoText

instance (ts : List Token) : Decidable (ReadsNoText ts) :=
  inferInstanceAs (Decidable (ts.IsChain _))

/-- Something stands between a token and the end of the text. -/
def Token.Trailed (source : Source) (t : Token) : Prop :=
  t.span.stop ≠ Text.byteLength source.text.toList

/-- Both texts end in a sign that is set off, and blanks or comments follow it in just one of them. -/
def LooseEnd (source source' : Source) (ts ts' : List Token) : Prop :=
  ∃ t t', ts.getLast? = some t ∧ ts'.getLast? = some t' ∧ t.kind.isSign = true ∧ t.spaced = true ∧
    ¬(t.Trailed source ↔ t'.Trailed source')

/-- Tokens with the same text are the same, but for their places and comments. -/
theorem scan_essence_eq {l l' : Option Nat} {c c' next next' : Cursor} {t t' : Token}
    (h : scan l c = .ok (t, next)) (h' : scan l' c' = .ok (t', next')) (hcut : t.cut = t'.cut) :
    t.essence = t'.essence := by
  obtain ⟨gap, start, lexeme, comments, -, hread, rfl, -⟩ := scan_eq_ok h
  obtain ⟨gap', start', lexeme', comments', -, hread', rfl, -⟩ := scan_eq_ok h'
  obtain ⟨htext, hspaced⟩ := Prod.mk.inj hcut
  obtain rfl := Lexeme.eq_of_text_eq hread hread' (String.ofList_injective htext)
  have hset : (start.position != c.position) = (start'.position != c'.position) := hspaced
  rw [hset]
  rfl

theorem Listed.essence_eq {l l' : Option Nat} {c c' : Cursor} {ts ts' : List Token}
    (h : Listed l c ts) (h' : Listed l' c' ts') (hcut : ts.map Token.cut = ts'.map Token.cut) :
    ts.map Token.essence = ts'.map Token.essence := by
  induction ts generalizing l l' c c' ts' with
  | nil => rw [map_eq_nil_iff.1 hcut.symm]
  | cons t ts ih =>
    obtain ⟨t', ts', rfl, ht, hts⟩ := map_eq_cons_iff.1 hcut.symm
    obtain ⟨next, hscan, -, hrest⟩ := h
    obtain ⟨next', hscan', -, hrest'⟩ := h'
    exact congrArg₂ cons (scan_essence_eq hscan hscan' ht.symm) (ih hrest hrest' hts.symm)

theorem ReadsNoText.of_essence {ts ts' : List Token} (h : ReadsNoText ts)
    (hessence : ts.map Token.essence = ts'.map Token.essence) : ReadsNoText ts' := by
  have hmap (ts : List Token) : ReadsNoText (ts.map Token.essence) ↔ ReadsNoText ts :=
    isChain_map Token.essence
  rwa [← hmap, ← hessence, hmap]

/-! ## Places behind a token -/

/-- **A place in a source**, with the token that ends there and those that follow.  Together they are
the last ones of all tokens of the source, unless its end has been read. -/
structure Pauses (source : Source) (all : List Token) (t : Token) (l : Option Nat) (c : Cursor)
    (ts : List Token) : Prop where
  listed : Listed l c ts
  inside : c.In source
  stop : t.span.stop = c.position
  suffix : t :: ts <:+ {} :: all ∨ t.kind = .eof ∧ ts = []

namespace Pauses

variable {source : Source} {all ts : List Token} {t u : Token} {l : Option Nat} {c : Cursor}

theorem start (h : tokenize source = .ok all) :
    Pauses source all {} none { rest := source.text.toList } all :=
  ⟨tokenize_eq_ok.1 h, .start source, rfl, .inl suffix_rfl⟩

theorem next (h : Pauses source all t l c (u :: ts)) : ∃ stop, scan l c = .ok (u, stop) ∧
    u.kind ≠ .eof ∧ Pauses source all u (some stop.line) stop ts := by
  obtain ⟨stop, hscan, hu, hrest⟩ := h.listed
  obtain ⟨piece, hpasses⟩ := scan_passes hscan
  refine ⟨stop, hscan, hu, hrest, h.inside.passes hpasses, scan_stop hscan, .inl ?_⟩
  exact (suffix_cons t _).trans (h.suffix.resolve_right fun hend => nomatch hend.2)

/-- The end of a text is set off if its last token does not reach it. -/
theorem finish (h : Pauses source all t l c []) : ∃ u stop, scan l c = .ok (u, stop) ∧
    u.kind = .eof ∧ Pauses source all u (some stop.line) stop [] ∧
      (u.spaced = true ↔ t.Trailed source) := by
  obtain ⟨u, stop, hscan, hu⟩ := h.listed
  obtain ⟨piece, hpasses⟩ := scan_passes hscan
  refine ⟨u, stop, hscan, hu, ⟨⟨_, _, scan_nil (scan_eof hscan hu), rfl⟩, h.inside.passes hpasses,
    scan_stop hscan, .inr ⟨hu, rfl⟩⟩, ?_⟩
  obtain ⟨gap, start, lexeme, comments, ⟨hgap, -⟩, hread, rfl, -⟩ := scan_eq_ok hscan
  obtain ⟨read, htext, hposition, -⟩ := h.inside.passes hgap
  rw [Lexeme.eq_nil_of_eof hread hu, append_nil] at htext
  rw [Token.Trailed, htext, h.stop, ← hposition]
  show (start.position != c.position) = true ↔ _
  rw [bne_iff_ne]
  exact ne_comm

theorem getLast? (h : Pauses source all t l c []) (ht : t.kind ≠ .eof) :
    all.getLast? = some t := by
  obtain ⟨before, hall⟩ := h.suffix.resolve_right fun hend => ht hend.1
  cases before with
  | nil =>
    cases hall
    exact absurd rfl ht
  | cons b before =>
    cases hall
    exact getLast?_concat

theorem opensNoText (h : Pauses source all t l c (u :: ts)) (hplain : ReadsNoText all) :
    t.OpensNoText u := by
  have hsuffix := h.suffix.resolve_right fun hend => nomatch hend.2
  have hall : ReadsNoText ({} :: all) := IsChain.cons hplain fun _ _ hkind => nomatch hkind
  exact (isChain_cons_cons.1 (IsChain.suffix hall hsuffix)).1

end Pauses

/-- Where the same text is ahead, the same token is read. -/
theorem Point.next_of_scan {p : Point} {l : Option Nat} {c stop : Cursor} {t : Token}
    (hrest : p.rest = c.rest) (h : scan l c = .ok (t, stop)) :
    p.Reads ∧ p.next = ⟨t.essence, stop.rest⟩ := by
  have hscan := outline_scan l c
  rw [h, ← hrest] at hscan
  exact next_of_firstToken hscan.symm

/-- **Places in two sources behind which the same tokens follow.** -/
inductive Alike (source source' : Source) (all all' : List Token) : Points → Prop where
  | mk {t t' : Token} {l l' : Option Nat} {c c' : Cursor} {ts ts' : List Token} :
      Pauses source all t l c ts → Pauses source' all' t' l' c' ts' →
      t.essence.Resembles t'.essence → ts.map Token.cut = ts'.map Token.cut →
      Alike source source' all all' (⟨t.essence, c.rest⟩, ⟨t'.essence, c'.rest⟩)

section Alike

variable {source source' : Source} {all all' : List Token} {p : Points}

theorem Alike.start (h : tokenize source = .ok all) (h' : tokenize source' = .ok all')
    (hcut : all.map Token.cut = all'.map Token.cut) :
    Alike source source' all all' (.start source, .start source') :=
  .mk (.start h) (.start h') ⟨rfl, fun _ => rfl⟩ hcut

/-- Both texts go on, and the next token is set off in both or in neither; if it is the end, that is
so after a sign. -/
theorem Alike.next (h : Alike source source' all all' p) (hend : ¬LooseEnd source source' all all') :
    p.1.Reads ∧ p.2.Reads ∧ Alike source source' all all' p.next ∧
      (p.1.next.token.kind ≠ .eof ∨ p.1.token.kind.isSign = true ∧ p.1.token.spaced = true →
        p.1.next.token.spaced = p.2.next.token.spaced) := by
  obtain @⟨t, t', l, l', c, c', ts, ts', h, h', hsame, hcut⟩ := h
  cases ts with
  | nil =>
    obtain rfl := map_eq_nil_iff.1 hcut.symm
    obtain ⟨u, stop, hscan, hu, hs, htrailed⟩ := h.finish
    obtain ⟨u', stop', hscan', hu', hs', htrailed'⟩ := h'.finish
    obtain ⟨hreads, hnext⟩ := Point.next_of_scan (p := ⟨t.essence, c.rest⟩) rfl hscan
    obtain ⟨hreads', hnext'⟩ := Point.next_of_scan (p := ⟨t'.essence, c'.rest⟩) rfl hscan'
    refine ⟨hreads, hreads', ?_, fun hgo => ?_⟩
    · rw [Points.next, hnext, hnext']
      exact .mk hs hs' ⟨hu.trans hu'.symm, absurd hu⟩ rfl
    · rw [hnext, hnext']
      rw [hnext] at hgo
      obtain ⟨hsign, hspaced⟩ := hgo.resolve_left (absurd hu)
      have ht : t.kind ≠ .eof := fun heof => by rw [show t.essence.kind = _ from heof] at hsign; cases hsign
      by_contra hdiffer
      refine hend ⟨t, t', h.getLast? ht, h'.getLast? (hsame.1 ▸ ht), hsign, hspaced, fun hiff => ?_⟩
      exact hdiffer (Bool.eq_iff_iff.2 (htrailed.trans (hiff.trans htrailed'.symm)))
  | cons u ts =>
    obtain ⟨u', ts', rfl, hu, hts⟩ := map_eq_cons_iff.1 hcut.symm
    obtain ⟨stop, hscan, -, hs⟩ := h.next
    obtain ⟨stop', hscan', -, hs'⟩ := h'.next
    obtain ⟨hreads, hnext⟩ := Point.next_of_scan (p := ⟨t.essence, c.rest⟩) rfl hscan
    obtain ⟨hreads', hnext'⟩ := Point.next_of_scan (p := ⟨t'.essence, c'.rest⟩) rfl hscan'
    have hessence := scan_essence_eq hscan hscan' hu.symm
    refine ⟨hreads, hreads', ?_, fun _ => ?_⟩
    · rw [Points.next, hnext, hnext']
      exact .mk hs hs' (hessence ▸ ⟨rfl, fun _ => rfl⟩) hts.symm
    · rw [hnext, hnext', hessence]

/-- No function ahead keeps its arguments as text. -/
theorem Alike.opensNoText (h : Alike source source' all all' p) (hplain : ReadsNoText all) :
    p.1.token.OpensNoText p.1.next.token := by
  obtain @⟨t, -, l, -, c, -, ts, -, h, -, -, -⟩ := h
  cases ts with
  | nil =>
    obtain ⟨u, stop, hscan, hu, -⟩ := h.finish
    rw [(Point.next_of_scan (p := ⟨t.essence, c.rest⟩) rfl hscan).2]
    exact fun _ _ hopen => nomatch hu.symm.trans hopen
  | cons u ts =>
    obtain ⟨stop, hscan, -⟩ := h.next
    rw [(Point.next_of_scan (p := ⟨t.essence, c.rest⟩) rfl hscan).2]
    exact h.opensNoText hplain

end Alike

/-- **Texts with the same tokens go on alike**, unless they end loosely. -/
def Tandem.ofTokens {source source' : Source} {ts ts' : List Token} (hplain : ReadsNoText ts)
    (hend : ¬LooseEnd source source' ts ts') : Tandem where
  Loose := Alike source source' ts ts'
  Firm := Alike source source' ts ts'
  Raw := False
  loose := id
  error_iff h e := by
    obtain ⟨hreads, hreads', -⟩ := h.next hend
    rw [hreads, hreads']
    exact iff_of_false nofun nofun
  next h _ _ := (h.next hend).2.2.1
  resembles h := by
    obtain ⟨-, -, ⟨hkind, heq⟩, -⟩ := h
    exact ⟨hkind, heq⟩
  spaced h _ hne := (h.next hend).2.2.2 (.inl hne)
  spaced_after_sign h hsign hspaced := (h.next hend).2.2.2 (.inr ⟨hsign, hspaced⟩)
  unraw h hkind hname hopen := .inl (h.opensNoText hplain hkind hname hopen)
  rest_eq := False.elim
  firm_raw := False.elim

/-! ## Outcomes -/

/-- **Texts that go on alike have the same output**, or fail for the same reason. -/
theorem Tandem.compile_agrees (w : Tandem) {source source' : Source}
    (h : w.Loose (.start source, .start source')) (profile : Profile) (layout : Layout) :
    unplaced id (compile source profile layout) = unplaced id (compile source' profile layout) := by
  rw [compile, compile, Sheet.parse, Sheet.parse]
  obtain ⟨e, e', he, he', hcause, -⟩ | ⟨root, root', -, hroot, hroot', hsame, -⟩ := parse_agrees h
  · rw [he, he']
    exact congrArg (fun cause => Except.error (⟨cause, ⟨none, 0⟩⟩ : Error)) hcause
  · rw [hroot, hroot']
    have hstripped : (⟨root, source.file, 0⟩ : Sheet).stripped =
        (⟨root', source'.file, 0⟩ : Sheet).stripped :=
      congrArg (fun root => ({ root } : Sheet)) hsame
    exact Sheet.outcome_eq_of_stripped_eq hstripped profile layout

/-- A text that ends in a sign does not compile. -/
theorem compile_of_last_isSign {source : Source} {ts : List Token} (h : tokenize source = .ok ts)
    (hplain : ReadsNoText ts) {t : Token} (ht : ts.getLast? = some t) (hsign : t.kind.isSign = true)
    (profile : Profile) (layout : Layout) : ∃ e, compile source profile layout = .error e := by
  have hend : ¬LooseEnd source source ts ts := by
    rintro ⟨t, t', ht, ht', -, -, hdiffer⟩
    rw [ht] at ht'
    cases ht'
    exact hdiffer Iff.rfl
  let w := Tandem.ofTokens hplain hend
  have hstart : w.Loose (.start source, .start source) := Alike.start h h rfl
  obtain ⟨e, -, he, -⟩ | ⟨-, -, q, -, -, -, -, hkept, heof⟩ :=
    Tandem.parse_agrees hstart
  · refine ⟨e, ?_⟩
    rw [compile, Sheet.parse, he]
    rfl
  · -- The last token was still to be read at the start, so it is not read when the end comes.
    have hnone {u : Token} {l : Option Nat} {c : Cursor} {us : List Token}
        (hs : Pauses source ts u l c us) (hrest : q.1.rest = c.rest) : us = [] := by
      cases us with
      | nil => rfl
      | cons v us =>
        obtain ⟨stop, hscan, hv, -⟩ := hs.next
        have hkind := heof.kind_eq
        rw [(Point.next_of_scan hrest hscan).2] at hkind
        exact absurd hkind hv
    obtain rfl | hmoved := hkept
    · rw [hnone (.start h) rfl] at ht
      cases ht
    · have hended := hmoved.ended
      have hq : Alike source source ts ts q := hmoved.firm
      obtain @⟨u, _, l, _, c, _, us, _, hs, -, -, -⟩ := hq
      obtain rfl := hnone hs rfl
      cases ht.symm.trans (hs.getLast? hended.1)
      cases hsign.symm.trans hended.2

/-! ## The main result -/

/-- **What stands between tokens has no part in what a stylesheet means.**  Two texts that are cut into
the same tokens both have the same output, or both fail; and they fail for the same reason, unless
they end loosely. -/
theorem compile_of_same_tokens {source source' : Source} {ts ts' : List Token}
    (h : tokenize source = .ok ts) (h' : tokenize source' = .ok ts')
    (hcut : ts.map Token.cut = ts'.map Token.cut) (hplain : ReadsNoText ts) (profile : Profile)
    (layout : Layout) :
    (∃ css, compile source profile layout = .ok css ∧ compile source' profile layout = .ok css) ∨
    ∃ e e', compile source profile layout = .error e ∧ compile source' profile layout = .error e' ∧
      (¬LooseEnd source source' ts ts' → e.cause = e'.cause) := by
  have hessence := (tokenize_eq_ok.1 h).essence_eq (tokenize_eq_ok.1 h') hcut
  by_cases hend : LooseEnd source source' ts ts'
  · obtain ⟨t, t', ht, ht', hsign, -, -⟩ := id hend
    have hlast := congrArg getLast? hessence
    rw [getLast?_map, getLast?_map, ht, ht'] at hlast
    have hsign' : t'.kind.isSign = true :=
      Token.kind_eq_of_essence (Option.some.inj hlast) ▸ hsign
    have hplain' := hplain.of_essence hessence
    obtain ⟨e, he⟩ := compile_of_last_isSign h hplain ht hsign profile layout
    obtain ⟨e', he'⟩ := compile_of_last_isSign h' hplain' ht' hsign' profile layout
    exact .inr ⟨e, e', he, he', fun hnot => absurd hend hnot⟩
  · have hagree := (Tandem.ofTokens hplain hend).compile_agrees (.start h h' hcut) profile layout
    obtain hok | ⟨e, e', he, he', hcause⟩ := of_unplaced_eq hagree
    · exact .inl hok
    · exact .inr ⟨e, e', he, he', fun _ => hcause⟩

/-- A rule in a condition, with an operation in it. -/
def tightSample : Source where
  text := "$x=1px;a\x7b@if $x == 1px\x7bb:$x + 2px\x7d\x7d"

/-- The same tokens with line breaks and comments between them. -/
def wideSample : Source where
  text := "$x=1px;a\x7b@if\n\t$x // first\n== /* one */ 1px\x7bb:$x/**/+\n2px\x7d\x7d\n"
  file := some "wide.css"

theorem compile_of_same_tokens_wide : ∃ ts ts', tokenize tightSample = .ok ts ∧
    tokenize wideSample = .ok ts' ∧ ts.map Token.cut = ts'.map Token.cut ∧ ReadsNoText ts ∧
      compile tightSample {} {} = .ok "a\x7bb:3px;\x7d" ∧
      compile wideSample {} {} = .ok "a\x7bb:3px;\x7d" := by
  have hrun : (do
      let ts ← tokenize tightSample
      let ts' ← tokenize wideSample
      pure (decide (ts.map Token.cut = ts'.map Token.cut ∧ ReadsNoText ts))) = .ok true := by
    decide +kernel
  have hcss : compile tightSample {} {} = .ok "a\x7bb:3px;\x7d" := by
    decide +kernel
  obtain ⟨ts, hts, hrun⟩ := bind_eq_ok.1 hrun
  obtain ⟨ts', hts', hrun⟩ := bind_eq_ok.1 hrun
  obtain ⟨hcut, hplain⟩ := of_decide_eq_true (pure_eq_ok.1 hrun)
  obtain ⟨css, hok, hok'⟩ | ⟨e, e', he, -⟩ := compile_of_same_tokens hts hts' hcut hplain {} {}
  · rw [hcss] at hok
    cases hok
    exact ⟨ts, ts', hts, hts', hcut, hplain, hcss, hok'⟩
  · rw [hcss] at he
    cases he

/-- After a sign that ends a text, the kind of the error depends on what follows the sign. -/
theorem compile_after_loose_sign : ∃ ts ts', tokenize { text := "a: (b -" } = .ok ts ∧
    tokenize { text := "a: (b - " } = .ok ts' ∧ ts.map Token.cut = ts'.map Token.cut ∧
      ReadsNoText ts ∧
      compile { text := "a: (b -" } {} {} =
        .error ⟨.parse (.unexpectedToken "`)`" "`-`"), ⟨none, 1⟩⟩ ∧
      compile { text := "a: (b - " } {} {} =
        .error ⟨.parse (.unexpectedToken "value" "end of file"), ⟨none, 1⟩⟩ := by
  have hrun : (do
      let ts ← tokenize { text := "a: (b -" }
      let ts' ← tokenize { text := "a: (b - " }
      pure (decide (ts.map Token.cut = ts'.map Token.cut ∧ ReadsNoText ts))) = .ok true := by
    decide +kernel
  obtain ⟨ts, hts, hrun⟩ := bind_eq_ok.1 hrun
  obtain ⟨ts', hts', hrun⟩ := bind_eq_ok.1 hrun
  obtain ⟨hcut, hplain⟩ := of_decide_eq_true (pure_eq_ok.1 hrun)
  exact ⟨ts, ts', hts, hts', hcut, hplain, by decide +kernel, by decide +kernel⟩

end Cascade
