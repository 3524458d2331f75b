import Cascade.Proofs.Spelling
import Cascade.Proofs.Tiling

/-!
# Tokens do not hang on their surroundings

How far a token goes is decided by the characters behind it, but once it is cut out nothing is left
of them.  So the texts of all tokens, with a blank between each two, are read as the same tokens, and
so is the text of each token alone.
-/

set_option autoImplicit false

namespace Cascade

open List

variable {source : Source} {t : Token} {ts : List Token} {c : Cursor}

/-- What a token says, apart from its place and what is around it. -/
def Token.content (t : Token) :
    TokenKind × String × Float × Option String × Option Quote × Option AssignOp :=
  (t.kind, t.value, t.number, t.unit, t.quote, t.assign)

/-- The text of the source that a token takes. -/
def Token.slice (source : Source) (t : Token) : String :=
  source.slice t.span

/-- A token whose text says the same on its own. -/
def Token.Restates (source : Source) (t : Token) : Prop :=
  ∃ l : Lexeme, l.Leads [] ∧ l.kind ≠ .eof ∧ (t.slice source).toList = l.text ∧
    t.content = (l.kind, l.value, l.number, l.unit, l.quote, l.assign)

/-- Every token that is read restates itself. -/
theorem Listed.restates {lastLine : Option Nat} (h : Listed lastLine c ts) (hc : c.In source) :
    ∀ t ∈ ts, t.Restates source := by
  induction ts generalizing lastLine c with
  | nil => exact forall_mem_nil _
  | cons t ts ih =>
    obtain ⟨next, hscan, ht, hrest⟩ := h
    obtain ⟨htile, hnext, -⟩ := scan_tile hscan ht hc
    refine forall_mem_cons.2 ⟨?_, ih hrest hnext⟩
    obtain ⟨gap, start, lexeme, comments, -, hread, rfl, -⟩ := scan_eq_ok hscan
    refine ⟨lexeme, Lexeme.leads_of_read hread, ht, ?_, rfl⟩
    rw [Token.slice, htile.text]
    exact String.toList_ofList

/-- The texts of tokens with a blank before each. -/
def blankedText (source : Source) (ts : List Token) : List Char :=
  ts.flatMap fun t => ' ' :: (t.slice source).toList

theorem intercalate_slices (source : Source) (t : Token) (ts : List Token) :
    (" ".intercalate ((t :: ts).map (Token.slice source))).toList =
      (t.slice source).toList ++ blankedText source ts := by
  rw [String.toList_intercalate, map_map, map_cons]
  induction ts generalizing t with
  | nil => simp [blankedText]
  | cons u ts ih =>
    rw [map_cons, intercalate_cons_cons, ih, append_assoc]
    rfl

/-- **Tokens that restate themselves are read again**, with blanks between them. -/
theorem listed_blankedText (hts : ∀ u ∈ t :: ts, u.Restates source) {gap : List Char}
    (hgap : ∀ c ∈ gap, Text.isBlank c = true)
    (hc : c.rest = gap ++ ((t.slice source).toList ++ blankedText source ts))
    (lastLine : Option Nat) :
    ∃ us, Listed lastLine c us ∧ us.map Token.content = (t :: ts).map Token.content := by
  induction ts generalizing gap t c lastLine with
  | nil =>
    obtain ⟨l, hleads, hkind, htext, hcontent⟩ := hts t mem_cons_self
    rw [htext] at hc
    have hend : (c.advance (gap ++ l.text)).rest = [] := by
      simp [Cursor.advance, hc, blankedText]
    exact ⟨[_], ⟨_, hleads.scan hgap hc lastLine, hkind, _, _, scan_nil hend, rfl⟩,
      congrArg (cons · []) hcontent.symm⟩
  | cons u ts ih =>
    obtain ⟨⟨l, hleads, hkind, htext, hcontent⟩, hts⟩ := forall_mem_cons.1 hts
    rw [htext] at hc
    have hblank : l.Leads (blankedText source (u :: ts)) :=
      hleads.extend hkind rfl fun _ => ⟨rfl, by simp, by simp, by simp⟩
    have hrest : (c.advance (gap ++ l.text)).rest =
        [' '] ++ ((u.slice source).toList ++ blankedText source ts) := by
      rw [Cursor.advance, hc, ← append_assoc, drop_left]
      rfl
    obtain ⟨us, hus, hmore⟩ := ih hts (forall_mem_singleton.2 rfl) hrest _
    exact ⟨_ :: us, ⟨_, hblank.scan hgap hc lastLine, hkind, hus⟩,
      congrArg₂ cons hcontent.symm hmore⟩

/-- **Tokens are read again from their texts.**  Joined with single blanks, the texts of the tokens of
a source are read as the same tokens, and so is the text of each of them alone. -/
theorem tokenize_rejoined (h : tokenize source = .ok ts) :
    (∃ us, tokenize { source with text := " ".intercalate (ts.map (Token.slice source)) } = .ok us ∧
      us.map Token.content = ts.map Token.content) ∧
    ∀ t ∈ ts, ∃ u, tokenize { source with text := t.slice source } = .ok [u] ∧
      u.content = t.content := by
  have hts := (tokenize_eq_ok.1 h).restates (.start source)
  simp only [tokenize_eq_ok]
  constructor
  · cases ts with
    | nil => exact ⟨[], ⟨_, _, scan_nil rfl, rfl⟩, rfl⟩
    | cons t ts =>
      exact listed_blankedText hts (forall_mem_nil _) (intercalate_slices source t ts) none
  · intro t ht
    have halone : ∀ u ∈ [t], u.Restates source := forall_mem_singleton.2 (hts t ht)
    obtain ⟨us, hus, hcontent⟩ := listed_blankedText halone (forall_mem_nil _)
      (append_nil _).symm (c := { rest := (t.slice source).toList }) none
    obtain ⟨u, rfl⟩ := length_eq_one_iff.1 (by simpa using congrArg length hcontent)
    exact ⟨u, hus, by simpa using hcontent⟩

/-- Tokens that would run into each other, and a slash that would begin a comment. -/
def rejoiningSample : Source where
  text := "a.5em/=.b$\x7bc\x7d$d::#e"

set_option maxRecDepth 10000 in
theorem tokenize_rejoined_adjacent :
    ∃ ts, tokenize rejoiningSample = .ok ts ∧
      " ".intercalate (ts.map (Token.slice rejoiningSample)) = "a .5em /= . b $\x7bc\x7d $d :: #e" ∧
      ∃ us, tokenize { text := "a .5em /= . b $\x7bc\x7d $d :: #e" } = .ok us ∧
        us.map Token.content = ts.map Token.content := by
  have hrun : (tokenize rejoiningSample).map (map (Token.slice rejoiningSample)) =
      .ok ["a", ".5em", "/=", ".", "b", "$\x7bc\x7d", "$d", "::", "#e"] := by
    decide +kernel
  obtain ⟨ts, hts, htexts⟩ := map_eq_ok.1 hrun
  have htext : " ".intercalate (ts.map (Token.slice rejoiningSample)) =
      "a .5em /= . b $\x7bc\x7d $d :: #e" := by
    rw [htexts]
    decide
  obtain ⟨us, hus, hcontent⟩ := (tokenize_rejoined hts).1
  rw [htext] at hus
  exact ⟨ts, hts, htext, us, hus, hcontent⟩

end Cascade
