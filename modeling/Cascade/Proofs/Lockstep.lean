import Cascade.Proofs.TextAhead

/-!
# Two texts read in lockstep

A parser that runs over two texts takes the same decisions as long as it sees the same tokens.  This
file sets up that comparison: pairs of places in the two texts, and computations that stay together
on them or fail for the same reason.  What the two texts have in common is left open.  They may
consist of the same tokens with different gaps between them, or one of them may be a part of the
other; a `Tandem` says what has to be known of their places.

What a token is does not include its line, its span and its comments.  Whether it is set off from the
token before it counts, except for the first token of a text, before which nothing was read.
-/

set_option autoImplicit false

namespace Cascade

variable {kind : TokenKind}

/-- The signs that may belong to what comes after them. -/
def TokenKind.isSign : TokenKind → Bool
  | plus | minus => true
  | _ => false

/-- The names of functions whose arguments may be text that is not cut into tokens. -/
def rawNames : List String :=
  "url" :: rawFunctions

/-- Two errors with one cause, which lies in the text: neither have the steps been used up, nor has a
token been lost. -/
structure Error.Alike (e e' : Error) : Prop where
  cause_eq : e.cause = e'.cause
  steps_left : e.cause ≠ .parse .outOfSteps
  tokens_kept : e.cause ≠ .parse .tokenLost

namespace Token

/-- A token as it stands behind nothing. -/
def unspaced (t : Token) : Token :=
  { t with spaced := false }

/-- Two tokens of one kind that are the same, unless they are the end, but for what stands before
them. -/
def Resembles (t t' : Token) : Prop :=
  t.kind = t'.kind ∧ (t.kind ≠ .eof → t.unspaced = t'.unspaced)

end Token

/-! ## Pairs of places -/

/-- A place in each of two texts. -/
abbrev Points := Point × Point

/-- The places behind the next tokens. -/
def Points.next (p : Points) : Points :=
  (p.1.next, p.2.next)

/-- **Two texts that go on alike.**  At a pair of places that is `Loose` the same tokens follow; at one
that is `Firm` the same token has also been read, and the next one is set off in both texts or in
neither.  If `Raw` holds, the texts themselves are the same from a firm pair on. -/
structure Tandem where
  Loose : Points → Prop
  Firm : Points → Prop
  Raw : Prop
  loose : ∀ {p}, Firm p → Loose p
  error_iff : ∀ {p}, Loose p → ∀ e, firstToken p.1.rest = .error e ↔ firstToken p.2.rest = .error e
  next : ∀ {p : Points}, Loose p → p.1.Reads → p.2.Reads → Firm p.next
  resembles : ∀ {p}, Firm p → p.1.token.Resembles p.2.token
  spaced : ∀ {p}, Firm p → p.1.Reads → p.1.next.token.kind ≠ .eof →
    p.1.next.token.spaced = p.2.next.token.spaced
  spaced_after_sign : ∀ {p}, Firm p → p.1.token.kind.isSign = true → p.1.token.spaced = true →
    p.1.next.token.spaced = p.2.next.token.spaced
  unraw : ∀ {p}, Firm p → p.1.token.kind = .identifier →
    Parse.lowercase p.1.token.value ∈ rawNames → p.1.next.token.kind = .openParen →
      p.1.next.token.spaced = true ∨ Raw
  rest_eq : ∀ {p}, Raw → Firm p → p.1.rest = p.2.rest
  firm_raw : ∀ {p}, Raw → Firm p → ∀ cs, Firm (⟨p.1.token, cs⟩, ⟨p.2.token, cs⟩)

namespace Tandem

open TokenStream

variable {w : Tandem} {p q r : Points}

/-- A token of a kind comes next in both texts. -/
structure Next (w : Tandem) (p : Points) (kind : TokenKind) : Prop where
  reads : p.1.Reads
  reads' : p.2.Reads
  firm : w.Firm p.next
  kind_eq : p.1.next.token.kind = kind

theorem Next.kind_eq' (h : w.Next p kind) : p.2.next.token.kind = kind :=
  (w.resembles h.firm).1.symm.trans h.kind_eq

/-- Two tokens are those that come next. -/
structure Shows (w : Tandem) (p : Points) (t t' : Token) : Prop extends Next w p t.kind where
  essence : t.essence = p.1.next.token
  essence' : t'.essence = p.2.next.token

namespace Shows

variable {t t' : Token} (h : w.Shows p t t')

include h

theorem same_kind : t'.kind = t.kind := by
  have hkind : t'.essence.kind = p.2.next.token.kind := congrArg Token.kind h.essence'
  exact hkind.trans h.kind_eq'

theorem next_of_kind (hkind : t.kind = kind) : w.Next p kind :=
  hkind ▸ h.toNext

theorem ne_eof (hnext : w.Next p kind) (hkind : kind ≠ .eof) : t.kind ≠ .eof := by
  rwa [← h.kind_eq, hnext.kind_eq]

/-- Away from the end of the text the tokens are the same, whatever stands before them. -/
theorem unspaced_eq (hk : t.kind ≠ .eof) : t'.essence.unspaced = t.essence.unspaced := by
  rw [h.essence, h.essence']
  exact ((w.resembles h.firm).2 (h.kind_eq ▸ hk)).symm

section

variable (hk : t.kind ≠ .eof)

include hk

theorem text_eq : t'.text = t.text :=
  (congrArg Token.text (h.unspaced_eq hk) :)

theorem value_eq : t'.value = t.value :=
  (congrArg Token.value (h.unspaced_eq hk) :)

theorem number_eq : t'.number = t.number :=
  (congrArg Token.number (h.unspaced_eq hk) :)

theorem unit_eq : t'.unit = t.unit :=
  (congrArg Token.unit (h.unspaced_eq hk) :)

theorem quote_eq : t'.quote = t.quote :=
  (congrArg Token.quote (h.unspaced_eq hk) :)

theorem assign_eq : t'.assign = t.assign :=
  (congrArg Token.assign (h.unspaced_eq hk) :)

end

/-- Two tokens are set off alike if those next to the place are. -/
theorem spaced_eq_of (hnext : p.1.next.token.spaced = p.2.next.token.spaced) :
    t'.spaced = t.spaced := by
  have hspaced : t.essence.spaced = p.1.next.token.spaced := congrArg Token.spaced h.essence
  have hspaced' : t'.essence.spaced = p.2.next.token.spaced := congrArg Token.spaced h.essence'
  exact hspaced'.trans (hnext.symm.trans hspaced.symm)

theorem spaced_eq (hp : w.Firm p) (hk : t.kind ≠ .eof) : t'.spaced = t.spaced :=
  h.spaced_eq_of (w.spaced hp h.reads (h.kind_eq ▸ hk))

/-- A token of a kind that touches what stands before it. -/
theorem touching_iff (hp : w.Firm p) (hkind : kind ≠ .eof) :
    t'.kind = kind ∧ (!t'.spaced) = true ↔ t.kind = kind ∧ (!t.spaced) = true := by
  rw [h.same_kind]
  exact and_congr_right fun hk => by rw [h.spaced_eq hp (hk ▸ hkind)]

/-- A token of a kind with a name. -/
theorem named_iff (hkind : kind ≠ .eof) (name : String) :
    t'.kind = kind ∧ t'.value = name ↔ t.kind = kind ∧ t.value = name := by
  rw [h.same_kind]
  exact and_congr_right fun hk => by rw [h.value_eq (hk ▸ hkind)]

theorem apart_iff (hp : w.Firm p) :
    t'.kind ≠ .openParen ∨ t'.spaced = true ↔ t.kind ≠ .openParen ∨ t.spaced = true := by
  rw [h.same_kind]
  exact or_congr_right' fun hk => by rw [h.spaced_eq hp (not_not.1 hk ▸ by decide)]

theorem describe_eq : t'.describe = t.describe := by
  by_cases hk : t.kind = .eof
  · rw [Token.describe, Token.describe, h.same_kind, hk]
  · rw [Token.describe, Token.describe, h.same_kind, h.text_eq hk]

end Shows

/-! ## Points after others -/

/-- In both texts the second place is behind the first one, or the same. -/
structure Later (p q : Points) : Prop where
  le : q.1.rest.length ≤ p.1.rest.length
  le' : q.2.rest.length ≤ p.2.rest.length

/-- In both texts the second place is behind the first one. -/
structure Past (p q : Points) : Prop where
  lt : q.1.rest.length < p.1.rest.length
  lt' : q.2.rest.length < p.2.rest.length

/-- A place after another one, reached by reading something that ends neither in a sign nor with the
text. -/
structure Moved (w : Tandem) (p q : Points) : Prop extends Past p q where
  firm : w.Firm q
  ended : q.1.token.kind ≠ .eof ∧ q.1.token.kind.isSign = false

/-- A place after another one, or the same. -/
def Kept (w : Tandem) (p q : Points) : Prop :=
  p = q ∨ w.Moved p q

theorem Later.refl (p : Points) : Later p p :=
  ⟨le_rfl, le_rfl⟩

theorem Later.trans (h : Later p q) (h' : Later q r) : Later p r :=
  ⟨h'.le.trans h.le, h'.le'.trans h.le'⟩

theorem Past.later (h : Past p q) : Later p q :=
  ⟨h.lt.le, h.lt'.le⟩

theorem Next.later (h : w.Next p kind) : Later p p.next :=
  ⟨h.reads.length_le, h.reads'.length_le⟩

theorem Next.past (h : w.Next p kind) (hkind : kind ≠ .eof) : Past p p.next :=
  ⟨h.reads.length_lt (h.kind_eq ▸ hkind), h.reads'.length_lt (h.kind_eq' ▸ hkind)⟩

/-- One token that is neither the end nor a sign. -/
theorem Next.moved (h : w.Next p kind)
    (hkind : (kind != .eof && !kind.isSign) = true) : w.Moved p p.next := by
  obtain ⟨hend, hsign⟩ : kind ≠ .eof ∧ kind.isSign = false := by simpa using hkind
  obtain rfl : p.next.1.token.kind = kind := h.kind_eq
  exact ⟨h.past hend, h.firm, hend, hsign⟩

theorem Moved.kept (h : w.Moved p q) : w.Kept p q :=
  .inr h

theorem Kept.refl (p : Points) : w.Kept p p :=
  .inl rfl

/-- What is read after a later place is read after an earlier one. -/
theorem Moved.of_later (h : w.Moved q r) (hpq : Later p q) : w.Moved p r :=
  { h with
    lt := h.lt.trans_le hpq.le
    lt' := h.lt'.trans_le hpq.le' }

theorem Moved.trans (h : w.Moved p q) (h' : w.Moved q r) : w.Moved p r :=
  h'.of_later h.later

theorem Moved.kept_trans (h : w.Moved p q) (h' : w.Kept q r) : w.Moved p r := by
  obtain rfl | h' := h'
  · exact h
  · exact h.trans h'

theorem Kept.trans (h : w.Kept p q) (h' : w.Kept q r) : w.Kept p r := by
  obtain rfl | h := h
  · exact h'
  · exact (h.kept_trans h').kept

theorem Kept.later (h : w.Kept p q) : Later p q := by
  obtain rfl | h := h
  · exact .refl p
  · exact h.toPast.later

/-! ## Streams at the same place -/

/-- Two streams are at a pair of places, with equally many tokens put back.  No more than the next
token is, if that is an opening parenthesis. -/
structure At (w : Tandem) (p : Points) (s s' : TokenStream) : Prop where
  loose : w.Loose p
  first : Reached p.1 s
  second : Reached p.2 s'
  pushedBack_eq : s'.pushedBack = s.pushedBack
  near : s.pushedBack ≤ 2
  unseen : 1 < s.pushedBack → p.1.next.token.kind ≠ .openParen

section At

variable {s s' t t' : TokenStream}

theorem reads_or_error (h : w.Loose p) :
    (∃ e, firstToken p.1.rest = .error e ∧ firstToken p.2.rest = .error e) ∨
      p.1.Reads ∧ p.2.Reads := by
  obtain hreads | ⟨e, he⟩ := p.1.reads_or_error
  · obtain hreads' | ⟨e, he⟩ := p.2.reads_or_error
    · exact .inr ⟨hreads, hreads'⟩
    · cases hreads.symm.trans ((w.error_iff h e).2 he)
  · exact .inl ⟨e, he, (w.error_iff h e).1 he⟩

/-- The tokens of streams one token on are those that come next. -/
theorem At.shows (h : w.At p.next t t') (hnext : w.Next p kind) :
    w.Shows p t.token t'.token := by
  have hkind : t.token.kind = kind :=
    (congrArg Token.kind h.first.current : t.token.essence.kind = _).trans hnext.kind_eq
  exact ⟨hkind ▸ hnext, h.first.current, h.second.current⟩

/-- **One token on**, both streams fail for the same reason or stay together, and the token can be put
back. -/
theorem At.step (h : w.At p s s') :
    (∃ e e', s.next = .error e ∧ s'.next = .error e' ∧ e.Alike e') ∨
      ∃ kind t t', w.Next p kind ∧ s.next = .ok t ∧ s'.next = .ok t' ∧ w.At p.next t t' ∧
        w.At p t.previous t'.previous ∧ t.pushedBack = s.pushedBack - 1 ∧
        (kind ≠ .eof → t.stepsLeft < s.stepsLeft ∧ t'.stepsLeft < s'.stepsLeft) := by
  have hnear := h.near
  have hcount := h.pushedBack_eq
  obtain ⟨e, he, he'⟩ | ⟨hreads, hreads'⟩ := reads_or_error h.loose
  · obtain ⟨line, herror⟩ := h.first.next_error he
    obtain ⟨line', herror'⟩ := h.second.next_error he'
    exact .inl ⟨_, _, herror, herror', rfl, nofun, nofun⟩
  · have hnext : w.Next p _ := ⟨hreads, hreads', w.next h.loose hreads hreads', rfl⟩
    obtain ⟨t, ht, hreached, hback, hpushed, hsteps⟩ := h.first.next hreads
    obtain ⟨t', ht', hreached', hback', hpushed', hsteps'⟩ := h.second.next hreads'
    refine .inr ⟨_, t, t', hnext, ht, ht', ⟨w.loose hnext.firm, hreached, hreached', ?_, ?_, ?_⟩,
      ⟨h.loose, hback, hback', ?_, ?_, fun hfar => h.unseen ?_⟩, hpushed, fun hkind =>
        ⟨hsteps hkind, hsteps' (hnext.kind_eq'.symm ▸ hkind)⟩⟩
    · omega
    · omega
    · omega
    · show t'.pushedBack + 1 = t.pushedBack + 1
      omega
    · show t.pushedBack + 1 ≤ 2
      omega
    · have hfar' : 1 < t.pushedBack + 1 := hfar
      omega

end At

/-! ## Computations in lockstep -/

/-- Two outcomes that agree: results at the same place that satisfy `post`, or errors alike. -/
inductive Agree {α β : Type} (w : Tandem) (post : Points → α → β → Prop) :
    Except Error (α × TokenStream) → Except Error (β × TokenStream) → Prop where
  | fail {e e' : Error} (h : e.Alike e') : Agree w post (.error e) (.error e')
  | done {a : α} {b : β} {q : Points} {s s' : TokenStream} (at_ : w.At q s s') (h : post q a b) :
      Agree w post (.ok (a, s)) (.ok (b, s'))

theorem Agree.outcomes {α β : Type} {post : Points → α → β → Prop}
    {x : Except Error (α × TokenStream)} {x' : Except Error (β × TokenStream)}
    (h : w.Agree post x x') : (∃ e e', x = .error e ∧ x' = .error e' ∧ e.Alike e') ∨
      ∃ q a b s s', x = .ok (a, s) ∧ x' = .ok (b, s') ∧ post q a b := by
  cases h with
  | fail h => exact .inl ⟨_, _, rfl, rfl, h⟩
  | done _ h => exact .inr ⟨_, _, _, _, _, rfl, rfl, h⟩

theorem Agree.bind {α α' β β' : Type} {mid : Points → α → α' → Prop} {post : Points → β → β' → Prop}
    {x : Except Error (α × TokenStream)} {x' : Except Error (α' × TokenStream)}
    {k : α × TokenStream → Except Error (β × TokenStream)}
    {k' : α' × TokenStream → Except Error (β' × TokenStream)} (hx : w.Agree mid x x')
    (hk : ∀ q a a' s s', w.At q s s' → mid q a a' → w.Agree post (k (a, s)) (k' (a', s'))) :
    w.Agree post (x >>= k) (x' >>= k') := by
  cases hx with
  | fail h => exact .fail h
  | done hat h => exact hk _ _ _ _ _ hat h

theorem Agree.weaken {α β : Type} {post post' : Points → α → β → Prop}
    {x : Except Error (α × TokenStream)} {x' : Except Error (β × TokenStream)}
    (hx : w.Agree post' x x') (h : ∀ q a b, post' q a b → post q a b) : w.Agree post x x' := by
  cases hx with
  | fail hcause => exact .fail hcause
  | done hat hpost => exact .done hat (h _ _ _ hpost)

section Raw

variable {s s' : TokenStream}

/-- With nothing put back, both streams see the same text. -/
theorem At.bare (h : w.At p s s') (hraw : w.Raw) (hp : w.Firm p) (hnone : s.pushedBack = 0) :
    s.discardPushedBack = s ∧ s'.discardPushedBack = s' ∧ s.cursor.rest = p.1.rest ∧
      s'.cursor.rest = p.1.rest := by
  obtain ⟨hdiscard, hrest⟩ := h.first.bare hnone
  obtain ⟨hdiscard', hrest'⟩ := h.second.bare (h.pushedBack_eq.trans hnone)
  exact ⟨hdiscard, hdiscard', hrest, hrest'.trans (w.rest_eq hraw hp).symm⟩

theorem At.nextIsRaw (h : w.At p s s') (hraw : w.Raw) (hp : w.Firm p) (hnone : s.pushedBack = 0) :
    ∃ b, Reading.nextIsRaw s = .ok (b, s) ∧ Reading.nextIsRaw s' = .ok (b, s') := by
  obtain ⟨hdiscard, hdiscard', hrest, hrest'⟩ := h.bare hraw hp hnone
  have hnone' := h.pushedBack_eq.trans hnone
  simp only [Reading.nextIsRaw, guard_of_safe _ hnone, guard_of_safe _ hnone', hdiscard, hdiscard',
    hrest, hrest']
  exact ⟨_, rfl, rfl⟩

/-- Text that is the same is read up to the same place. -/
theorem At.rawArgument (h : w.At p s s') (hraw : w.Raw) (hp : w.Firm p) (hnone : s.pushedBack = 0) :
    w.Agree (fun q text text' => text' = text ∧ Later p q) (Reading.rawArgument s)
      (Reading.rawArgument s') := by
  obtain ⟨hdiscard, hdiscard', hrest, hrest'⟩ := h.bare hraw hp hnone
  have hnone' := h.pushedBack_eq.trans hnone
  simp only [Reading.rawArgument, guard_of_safe _ hnone, guard_of_safe _ hnone', hdiscard, hdiscard',
    hrest, hrest']
  generalize TokenStream.rawText none 0 p.1.rest = raw
  split
  · have hfirm := w.firm_raw hraw hp (p.1.rest.drop raw.body.length)
    have hle : (p.1.rest.drop raw.body.length).length ≤ p.1.rest.length :=
      (List.drop_sublist _ _).length_le
    refine .done ⟨w.loose hfirm, .of_bare hnone h.first.current, .of_bare hnone' h.second.current,
      h.pushedBack_eq, h.near, ?_⟩ ⟨rfl, hle, w.rest_eq hraw hp ▸ hle⟩
    simp [hnone]
  · exact .fail ⟨rfl, fun h => ParseError.noConfusion (Cause.parse.inj h),
      fun h => ParseError.noConfusion (Cause.parse.inj h)⟩

end Raw

/-- **Two computations that stay together**: from streams at the same place they reach the same place
with results that satisfy `post`, or fail for the same reason. -/
def Lockstep {α β : Type} (w : Tandem) (p : Points) (m : Reading α) (m' : Reading β)
    (post : Points → α → β → Prop) : Prop :=
  ∀ s s', w.At p s s' → w.Agree post (m s) (m' s')

namespace Lockstep

open Reading

variable {α α' β β' : Type} {post : Points → β → β' → Prop} {m' : Reading α'} {m : Reading α}
  {expected : String}

theorem pure {b : β} {b' : β'} (h : post p b b') :
    w.Lockstep p (Pure.pure b) (Pure.pure b') post :=
  fun _ _ hat => .done hat h

theorem bind {mid : Points → α → α' → Prop} {k : α → Reading β} {k' : α' → Reading β'}
    (hm : w.Lockstep p m m' mid) (hk : ∀ q a a', mid q a a' → w.Lockstep q (k a) (k' a') post) :
    w.Lockstep p (m >>= k) (m' >>= k') post :=
  fun s s' hat => (hm s s' hat).bind fun q a a' t t' hat' h => hk q a a' h t t' hat'

theorem weaken {m : Reading β} {m' : Reading β'} {post' : Points → β → β' → Prop}
    (hm : w.Lockstep p m m' post') (h : ∀ q b b', post' q b b' → post q b b') :
    w.Lockstep p m m' post :=
  fun s s' hat => (hm s s' hat).weaken h

theorem ite_iff {c c' : Prop} [Decidable c] [Decidable c'] {m n : Reading β} {m' n' : Reading β'}
    (hiff : c' ↔ c) (hm : c → w.Lockstep p m m' post) (hn : ¬c → w.Lockstep p n n' post) :
    w.Lockstep p (if c then m else n) (if c' then m' else n') post := by
  by_cases hc : c
  · rw [if_pos hc, if_pos (hiff.2 hc)]
    exact hm hc
  · rw [if_neg hc, if_neg fun hc' => hc (hiff.1 hc')]
    exact hn hc

theorem ite {c : Prop} [Decidable c] {m n : Reading β} {m' n' : Reading β'}
    (hm : c → w.Lockstep p m m' post) (hn : ¬c → w.Lockstep p n n' post) :
    w.Lockstep p (if c then m else n) (if c then m' else n') post :=
  ite_iff Iff.rfl hm hn

theorem failAt {line line' : Nat} {error : ParseError} (hsteps : error ≠ .outOfSteps)
    (htokens : error ≠ .tokenLost) :
    w.Lockstep p (Reading.failAt line error) (Reading.failAt line' error) post :=
  fun _ _ _ => .fail ⟨rfl, fun h => hsteps (Cause.parse.inj h), fun h => htokens (Cause.parse.inj h)⟩

variable {kind : TokenKind} {k : α → Reading β} {k' : α' → Reading β'}

theorem bind_token {k k' : Token → Reading _} (hnext : w.Next p kind)
    (hk : ∀ t t', w.Shows p t t' → w.Lockstep p.next (k t) (k' t') post) :
    w.Lockstep p.next (Reading.token >>= k) (Reading.token >>= k') post :=
  fun s s' hat => hk _ _ (hat.shows hnext) s s' hat

theorem unexpected (hnext : w.Next p kind) :
    w.Lockstep p.next (Reading.unexpected expected) (Reading.unexpected expected) post := by
  refine bind_token hnext fun t t' h => ?_
  rw [h.describe_eq]
  exact failAt nofun nofun

/-- Nothing comes after an error. -/
theorem unexpected_bind (hnext : w.Next p kind) :
    w.Lockstep p.next (Reading.unexpected expected >>= k) (Reading.unexpected expected >>= k')
      post := by
  have hfail : w.Lockstep p.next (Reading.unexpected expected : Reading α)
      (Reading.unexpected expected : Reading α') fun _ _ _ => False := unexpected hnext
  exact hfail.bind fun _ _ _ h => h.elim

theorem bind_advance {k k' : TokenKind → Reading _}
    (hk : ∀ kind, w.Next p kind → w.Lockstep p.next (k kind) (k' kind) post) :
    w.Lockstep p (advance >>= k) (advance >>= k') post := by
  intro s s' hat
  show w.Agree post ((s.next.map fun s => (s.token.kind, s)) >>= fun r => k r.1 r.2)
    ((s'.next.map fun s => (s.token.kind, s)) >>= fun r => k' r.1 r.2)
  obtain ⟨e, e', herror, herror', hcause⟩ | ⟨kind, t, t', hnext, ht, ht', hat', -⟩ := hat.step
  · rw [herror, herror']
    exact .fail hcause
  · have hshows := hat'.shows hnext
    rw [ht, ht']
    show w.Agree post (k t.token.kind t) (k' t'.token.kind t')
    rw [hshows.same_kind]
    exact hk _ hshows.toNext t t' hat'

/-- An operation that leaves both streams where they are. -/
theorem bind_staying {mid : α → α' → Prop} (hm : w.Lockstep p m m' fun q a a' => q = p ∧ mid a a')
    (hk : ∀ a a', mid a a' → w.Lockstep p (k a) (k' a') post) :
    w.Lockstep p (m >>= k) (m' >>= k') post := by
  refine hm.bind fun q a a' ⟨hq, h⟩ => ?_
  rw [hq]
  exact hk a a' h

theorem peekNth_zero : w.Lockstep p (peekNth 0) (peekNth 0) fun q t t' =>
    q = p ∧ w.Shows p t t' := by
  intro s s' hat
  obtain ⟨e, e', herror, herror', hcause⟩ | ⟨kind, t, t', hnext, ht, ht', hat', hback, -⟩ := hat.step
  · rw [peekNth, peekNth, TokenStream.nextMany, TokenStream.nextMany, herror, herror']
    exact .fail hcause
  · rw [peekNth_of_next ht hback.first.few, peekNth_of_next ht' hback.second.few]
    exact .done hback ⟨rfl, hat'.shows hnext⟩

theorem bind_peekNth_zero {k k' : Token → Reading _}
    (hk : ∀ t t', w.Shows p t t' → w.Lockstep p (k t) (k' t') post) :
    w.Lockstep p (peekNth 0 >>= k) (peekNth 0 >>= k') post :=
  peekNth_zero.bind_staying hk

/-- The token after the next one is looked at, unless the next one opens a parenthesis. -/
theorem bind_peekNth_one {k k' : Token → Reading _} (hnext : w.Next p kind)
    (hkind : kind ≠ .openParen)
    (hk : ∀ t t', w.Shows p.next t t' → w.Lockstep p (k t) (k' t') post) :
    w.Lockstep p (peekNth 1 >>= k) (peekNth 1 >>= k') post := by
  refine bind_staying (fun s s' hat => ?_) hk
  have hnear := hat.near
  have hcount := hat.pushedBack_eq
  obtain ⟨t, ht, hreached, -, hpushed, -⟩ := hat.first.next hnext.reads
  obtain ⟨t', ht', hreached', -, hpushed', -⟩ := hat.second.next hnext.reads'
  obtain ⟨e, he, he'⟩ | ⟨hreads, hreads'⟩ := reads_or_error (w.loose hnext.firm)
  · obtain ⟨line, herror⟩ := hreached.next_error he
    obtain ⟨line', herror'⟩ := hreached'.next_error he'
    have hrun {s t : TokenStream} {e : Error} (h : s.next = .ok t) (h' : t.next = .error e) :
        peekNth 1 s = .error e := by
      rw [peekNth, TokenStream.nextMany, h]
      simp only [Except.bind, TokenStream.nextMany, h']
    rw [hrun ht herror, hrun ht' herror']
    exact .fail ⟨rfl, Cause.noConfusion, Cause.noConfusion⟩
  · obtain ⟨u, far, hpeek, hu, hback, hfar⟩ := hat.first.peekNth_one hnext.reads hreads
    obtain ⟨u', far', hpeek', hu', hback', hfar'⟩ := hat.second.peekNth_one hnext.reads' hreads'
    have hsecond := w.next (w.loose hnext.firm) hreads hreads'
    rw [hpeek, hpeek']
    refine .done ⟨hat.loose, hback, hback', ?_, ?_, fun _ => hnext.kind_eq ▸ hkind⟩
      ⟨rfl, ⟨hreads, hreads', hsecond, ?_⟩, hu, hu'⟩
    · omega
    · omega
    · exact (congrArg Token.kind hu).symm

theorem bind_peek {k k' : TokenKind → Reading _}
    (hk : ∀ kind, w.Next p kind → w.Lockstep p (k kind) (k' kind) post) :
    w.Lockstep p (peek >>= k) (peek >>= k') post := by
  rw [peek, bind_assoc, bind_assoc]
  refine bind_peekNth_zero fun t t' h => ?_
  rw [pure_bind, pure_bind, h.same_kind]
  exact hk _ h.toNext

theorem bind_accept {k k' : Bool → Reading _}
    (hyes : w.Next p kind → w.Lockstep p.next (k true) (k' true) post)
    (hno : w.Lockstep p (k false) (k' false) post) :
    w.Lockstep p (accept kind >>= k) (accept kind >>= k') post := by
  rw [accept, bind_assoc, bind_assoc]
  refine bind_peek fun found hfound => ?_
  by_cases h : found = kind
  · rw [if_pos h, bind_assoc, bind_assoc]
    refine bind_advance fun _ _ => ?_
    rw [pure_bind, pure_bind]
    exact hyes (h ▸ hfound)
  · rw [if_neg h, pure_bind, pure_bind]
    exact hno

/-- A token that is expected can be put back.  If it is an opening parenthesis, nothing else has been
put back behind it. -/
theorem bind_expect_at {k k' : Token → Reading _}
    (hk : w.Next p kind → ∀ t t', w.At p.next t t' → w.At p t.previous t'.previous →
      (kind = .openParen → t.pushedBack = 0) → w.Agree post (k t.token t) (k' t'.token t')) :
    w.Lockstep p (expect kind >>= k) (expect kind >>= k') post := by
  intro s s' hat
  have hrun {s t : TokenStream} {γ : Type} {k : Token → Reading γ} (h : s.next = .ok t) :
      (expect kind >>= k) s =
        (if t.token.kind = kind then Reading.token >>= k
          else Reading.unexpected kind.describe >>= k) t := by
    show ((s.next.map fun s => (s.token.kind, s)) >>= fun r =>
      (if r.1 = kind then Reading.token else Reading.unexpected kind.describe) r.2) >>=
        (fun r => k r.1 r.2) = _
    rw [h, ← apply_ite (· >>= k)]
    rfl
  obtain ⟨e, e', herror, herror', hcause⟩ | ⟨found, t, t', hnext, ht, ht', hat', hback, hpushed, -⟩ :=
    hat.step
  · have hfail {s : TokenStream} {γ : Type} {k : Token → Reading γ} {e : Error}
        (h : s.next = .error e) : (expect kind >>= k) s = .error e := by
      show ((s.next.map fun s => (s.token.kind, s)) >>= _) >>= _ = _
      rw [h]
      rfl
    rw [hfail herror, hfail herror']
    exact .fail hcause
  · have hshows := hat'.shows hnext
    rw [hrun ht, hrun ht', hshows.same_kind]
    by_cases h : t.token.kind = kind
    · rw [if_pos h, if_pos h]
      refine hk (hshows.next_of_kind h) t t' hat' hback fun hopen => ?_
      have hunseen : ¬1 < s.pushedBack := fun hfar =>
        hat.unseen hfar (hshows.kind_eq.trans (h.trans hopen))
      omega
    · rw [if_neg h, if_neg h]
      exact unexpected_bind hnext t t' hat'

theorem bind_expect {k k' : Token → Reading _}
    (hk : w.Next p kind → ∀ t t', w.Shows p t t' → w.Lockstep p.next (k t) (k' t') post) :
    w.Lockstep p (expect kind >>= k) (expect kind >>= k') post :=
  bind_expect_at fun hnext t t' hat _ _ => hk hnext _ _ (hat.shows hnext) t t' hat

/-- Both streams find the same, whatever the numbers of steps, if these are enough. -/
theorem findFrom (kinds : List TokenKind) {fuel fuel' : Nat} {s s' : TokenStream} (hat : w.At p s s')
    (hfuel : s.stepsLeft ≤ fuel) (hfuel' : s'.stepsLeft ≤ fuel') :
    (∃ e e', s.findFrom kinds fuel = .error e ∧ s'.findFrom kinds fuel' = .error e' ∧
      e.Alike e') ∨
      ∃ kind, s.findFrom kinds fuel = .ok kind ∧ s'.findFrom kinds fuel' = .ok kind := by
  induction fuel generalizing p s s' fuel' with
  | zero => exact absurd hfuel (Nat.not_succ_le_zero _)
  | succ fuel ih =>
    obtain ⟨fuel', rfl⟩ : ∃ n, fuel' = n + 1 :=
      ⟨fuel' - 1, by have hpos : 0 < s'.stepsLeft := Nat.succ_pos _; omega⟩
    have hrun {s t : TokenStream} (h : s.next = .ok t) (fuel : Nat) :
        s.findFrom kinds (fuel + 1) =
          if t.token.kind = .eof ∨ t.token.kind ∈ kinds then .ok t.token.kind
          else t.findFrom kinds fuel := by
      rw [TokenStream.findFrom, h]
      rfl
    obtain ⟨e, e', herror, herror', hcause⟩ | ⟨kind, t, t', hnext, ht, ht', hat', -, -, hsteps⟩ :=
      hat.step
    · rw [TokenStream.findFrom, TokenStream.findFrom, herror, herror']
      exact .inl ⟨e, e', rfl, rfl, hcause⟩
    · have hshows := hat'.shows hnext
      rw [hrun ht, hrun ht', hshows.same_kind]
      split
      · exact .inr ⟨_, rfl, rfl⟩
      · rename_i hstop
        have hkind : t.token.kind = kind := hshows.kind_eq.symm.trans hnext.kind_eq
        have hless := hsteps fun heof => hstop (.inl (hkind.trans heof))
        exact ih hat' (by omega) (by omega)

theorem bind_find {kinds : List TokenKind} {k k' : TokenKind → Reading _}
    (hk : ∀ kind, w.Lockstep p (k kind) (k' kind) post) :
    w.Lockstep p (find kinds >>= k) (find kinds >>= k') post := by
  have hfind : w.Lockstep p (find kinds) (find kinds) fun q kind kind' =>
      q = p ∧ kind' = kind := by
    intro s s' hat
    rw [find, find]
    obtain ⟨e, e', herror, herror', hcause⟩ | ⟨kind, hrun, hrun'⟩ :=
      findFrom kinds hat le_rfl le_rfl
    · rw [herror, herror']
      exact .fail hcause
    · rw [hrun, hrun']
      exact .done hat ⟨rfl, rfl⟩
  exact hfind.bind_staying fun kind kind' heq => heq ▸ hk kind

theorem bind_takeComments {k k' : List Comment → Reading _}
    (hk : ∀ comments comments', w.Lockstep p (k comments) (k' comments') post) :
    w.Lockstep p (takeComments >>= k) (takeComments >>= k') post := by
  have htake : w.Lockstep p takeComments takeComments fun q _ _ =>
      q = p ∧ True := by
    intro s s' hat
    have hnear := hat.near
    have hcount := hat.pushedBack_eq
    obtain ⟨e, he, he'⟩ | ⟨hreads, hreads'⟩ := reads_or_error hat.loose
    · obtain ⟨line, herror⟩ := hat.first.next_error he
      obtain ⟨line', herror'⟩ := hat.second.next_error he'
      rw [takeComments, takeComments, herror, herror']
      exact .fail ⟨rfl, Cause.noConfusion, Cause.noConfusion⟩
    · obtain ⟨comments, t, hrun, hback, hpushed⟩ := hat.first.takeComments hreads
      obtain ⟨comments', t', hrun', hback', hpushed'⟩ := hat.second.takeComments hreads'
      rw [hrun, hrun']
      exact .done ⟨hat.loose, hback, hback', by omega, by omega, fun hfar => hat.unseen (by omega)⟩
        ⟨rfl, trivial⟩
  exact htake.bind_staying fun comments comments' _ => hk comments comments'

/-- A computation that is run ahead leaves both streams where they are. -/
theorem ahead {mid : α → α' → Prop} (hm : w.Lockstep p m m' fun _ a a' => mid a a') :
    w.Lockstep p (Reading.ahead m) (Reading.ahead m') fun q a a' => q = p ∧ mid a a' := by
  intro s s' hat
  have hrun {γ : Type} (m : Reading γ) (s : TokenStream) :
      Reading.ahead m s = m s >>= fun r => Except.ok (r.1, s) := by
    rw [Reading.ahead]
    cases m s <;> rfl
  rw [hrun, hrun]
  exact (hm s s' hat).bind fun _ _ _ _ _ _ h => .done hat ⟨rfl, h⟩

end Lockstep

end Tandem

end Cascade
