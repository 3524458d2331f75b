import Cascade.Proofs.Outcome
import Cascade.Token.Stream

/-!
# The tokens ahead of a parser

A parser reads from a stream with a ring of four tokens and a place in the text.  What it can see of
all that is a row of tokens: those that were put back, and after them those that the text still
holds.  This file says of the operations of the stream where they lead to in that row, so that a
parser is followed without the ring.
-/

set_option autoImplicit false

namespace Cascade

variable {s : TokenStream} {n : Nat}

/-! ## Places of a text -/

/-- A place in a text at which a token is read, with the token before it and the line on which that
one ended. -/
structure Spot where
  token : Token
  lastLine : Option Nat
  cursor : Cursor

namespace Spot

/-- The place after the next token; where there is none, the same place. -/
def next (p : Spot) : Spot :=
  match scan p.lastLine p.cursor with
  | .ok (t, c) => ⟨t, some c.line, c⟩
  | .error _ => p

/-- The place after so many tokens. -/
def skip (p : Spot) : Nat → Spot
  | 0 => p
  | n + 1 => p.next.skip n

/-- A token can be read here. -/
def Reads (p : Spot) : Prop :=
  scan p.lastLine p.cursor = .ok (p.next.token, p.next.cursor)

theorem skip_succ (p : Spot) (n : Nat) : p.skip (n + 1) = (p.skip n).next := by
  induction n generalizing p with
  | zero => rfl
  | succ n ih => exact ih p.next

theorem next_of_scan {p : Spot} {t : Token} {c : Cursor}
    (h : scan p.lastLine p.cursor = .ok (t, c)) : p.Reads ∧ p.next = ⟨t, some c.line, c⟩ := by
  have hnext : p.next = ⟨t, some c.line, c⟩ := by rw [next, h]
  exact ⟨by rw [Reads, h, hnext], hnext⟩

theorem Reads.lastLine_next {p : Spot} (h : p.Reads) : p.next.lastLine = some p.next.cursor.line := by
  rw [(next_of_scan h).2]

end Spot

/-! ## The ring -/

namespace TokenStream

theorem val_slotAfter (s : TokenStream) (n : Nat) :
    (s.slotAfter n).val = (s.current.val + n) % ringSize := by
  rw [slotAfter, Fin.val_add, Nat.add_mod_mod]

/-- A slot is known by its distance from the current one. -/
theorem slotAfter_congr {s' : TokenStream} {n' : Nat}
    (h : (s.current.val + n) % 4 = (s'.current.val + n') % 4) : s.slotAfter n = s'.slotAfter n' :=
  Fin.ext (by simpa only [val_slotAfter, ringSize] using h)

theorem slotAfter_previous (s : TokenStream) (n : Nat) :
    s.previous.slotAfter (n + 1) = s.slotAfter n := by
  have h : s.previous.current.val = (s.current.val + 3) % 4 := s.val_slotAfter 3
  exact slotAfter_congr (by omega)

theorem slotAfter_zero (s : TokenStream) : s.slotAfter 0 = s.current :=
  Fin.ext (by rw [val_slotAfter, Nat.add_zero, Nat.mod_eq_of_lt s.current.isLt])

/-- A token that was put back is the next one. -/
theorem next_of_pushedBack (h : s.pushedBack = n + 1) :
    s.next = .ok { s with current := s.slotAfter 1, pushedBack := n } := by
  rw [TokenStream.next, h]

/-- With nothing put back, the next token is read from the text. -/
theorem next_of_scan {t : Token} {place : Cursor} (hnone : s.pushedBack = 0)
    (hscan : scan s.lastLine s.cursor = .ok (t, place)) :
    s.next = .ok { s with
      cursor := place
      slots := s.slots.set (s.slotAfter 1) t (s.slotAfter 1).isLt
      current := s.slotAfter 1
      lastLine := some place.line } := by
  have hread : s.next = s.readNext := by rw [TokenStream.next, hnone]
  rw [hread, readNext, hscan]

/-- Looking at the next token is a step on and a step back. -/
theorem peekNth_of_next {t : TokenStream} (h : s.next = .ok t)
    (hroom : t.previous.pushedBack < ringSize) :
    Reading.peekNth 0 s = .ok (t.token, t.previous) := by
  have hslot : t.previous.slots.get (t.previous.slotAfter 1) = t.token := by
    rw [slotAfter_previous, slotAfter_zero]
    rfl
  rw [Reading.peekNth, nextMany, h, ← hslot]
  exact t.guard_of_safe hroom _

/-- Looking at the token after the next one is two steps on and two steps back. -/
theorem peekNth_one_of_next {t u : TokenStream} (h : s.next = .ok t) (h' : t.next = .ok u)
    (hroom : u.previous.previous.pushedBack < ringSize) :
    Reading.peekNth 1 s = .ok (u.token, u.previous.previous) := by
  have hslot : u.previous.previous.slots.get (u.previous.previous.slotAfter 2) = u.token := by
    rw [slotAfter_previous, slotAfter_previous, slotAfter_zero]
    rfl
  rw [Reading.peekNth, nextMany, h, ← hslot]
  simp only [Except.bind, nextMany, h']
  exact u.guard_of_safe hroom _

/-- The place in the text at which a stream reads on. -/
def spot (s : TokenStream) : Spot :=
  ⟨s.token, s.lastLine, s.cursor⟩

theorem get_slots (slots : Vector Token ringSize) (i : Fin ringSize) :
    slots.get i = slots[i.val] := rfl

end TokenStream

open TokenStream

/-- **A stream that has come so many tokens far.**  It has read as far as it has looked, and its slots
hold the last four tokens that it has read, as far as `view` shows them. -/
structure Rings (view : Token → Token) (start : Spot) (place : Nat) (s : TokenStream) : Prop where
  few : s.pushedBack < ringSize
  reads : ∀ i < place + s.pushedBack, (start.skip i).Reads
  lastLine : s.lastLine = (start.skip (place + s.pushedBack)).lastLine
  cursor : s.cursor = (start.skip (place + s.pushedBack)).cursor
  slots : ∀ back < ringSize, back ≤ place + s.pushedBack →
    view (s.slots.get (s.slotAfter (s.pushedBack + ringSize - back))) =
      view (start.skip (place + s.pushedBack - back)).token

namespace Rings

variable {view : Token → Token} {start : Spot} {place : Nat}

variable (h : Rings view start place s)

include h

/-- The token so many places ahead, if it has been read. -/
theorem ahead (hn : n ≤ s.pushedBack) :
    view (s.slots.get (s.slotAfter n)) = view (start.skip (place + n)).token := by
  have hfew : s.pushedBack < 4 := h.few
  have hslot := h.slots (s.pushedBack - n) (show _ < 4 by omega) (by omega)
  have hahead : s.slotAfter (s.pushedBack + ringSize - (s.pushedBack - n)) = s.slotAfter n :=
    slotAfter_congr (by simp only [ringSize]; omega)
  rwa [hahead, show place + s.pushedBack - (s.pushedBack - n) = place + n by omega] at hslot

theorem token : view s.token = view (start.skip place).token := by
  have hslot := h.ahead (Nat.zero_le _)
  rwa [slotAfter_zero] at hslot

omit h in
/-- With nothing put back, a stream may as well have come from where it is. -/
theorem of_bare (hnone : s.pushedBack = 0) : Rings view s.spot 0 s := by
  refine ⟨by rw [hnone]; exact Nat.succ_pos 3, ?_, ?_, ?_, fun back _ hle => ?_⟩
  · simp [hnone]
  · rw [hnone]; rfl
  · rw [hnone]; rfl
  · obtain rfl : back = 0 := by omega
    rw [hnone]
    exact congrArg (fun q => view (s.slots.get q)) ((slotAfter_congr rfl).trans s.slotAfter_zero)

omit h in
/-- One token back. -/
theorem previous (h : Rings view start (place + 1) s) (hroom : s.pushedBack + 1 < ringSize) :
    Rings view start place s.previous := by
  have hfar : place + s.previous.pushedBack = place + 1 + s.pushedBack :=
    (Nat.add_left_comm _ _ _).trans (Nat.add_comm _ _)
  refine ⟨hroom, hfar ▸ h.reads, hfar ▸ h.lastLine, hfar ▸ h.cursor, fun back hback hle => ?_⟩
  have hsucc : s.previous.pushedBack + ringSize - back = s.pushedBack + ringSize - back + 1 := by
    show s.pushedBack + 1 + ringSize - back = _
    omega
  rw [hsucc, slotAfter_previous, hfar]
  exact h.slots back hback (hfar ▸ hle)

/-- **One token on.** -/
theorem next (hreads : (start.skip place).Reads) :
    ∃ s', s.next = .ok s' ∧ Rings view start (place + 1) s' ∧
      s'.pushedBack = s.pushedBack - 1 ∧ s'.source = s.source := by
  have hfew : s.pushedBack < 4 := h.few
  have hmoved : (s.slotAfter 1).val = (s.current.val + 1) % 4 := s.val_slotAfter 1
  cases hn : s.pushedBack with
  | zero =>
    -- The next token comes from the text, and takes the slot of the oldest one.
    have hplace := start.skip_succ place
    have hlastLine := h.lastLine
    have hcursor := h.cursor
    have hslots := h.slots
    simp only [hn, Nat.add_zero, Nat.zero_add] at hlastLine hcursor hslots
    have hscan : scan s.lastLine s.cursor =
        .ok ((start.skip (place + 1)).token, (start.skip (place + 1)).cursor) := by
      rw [hlastLine, hcursor, hplace]
      exact hreads
    refine ⟨_, next_of_scan hn hscan, ⟨h.few, fun i hi => ?_, ?_, ?_, fun back hback hle => ?_⟩, hn, rfl⟩
    · simp only [hn, Nat.add_zero] at hi
      obtain hi | rfl := Nat.lt_succ_iff_lt_or_eq.1 hi
      · exact h.reads i (Nat.lt_of_lt_of_le hi (Nat.le_add_right _ _))
      · exact hreads
    · simp only [hn, Nat.add_zero, hplace, hreads.lastLine_next]
    · simp only [hn, Nat.add_zero]
    · simp only [hn, Nat.add_zero, Nat.zero_add] at hle ⊢
      have hback' : back < 4 := hback
      cases back with
      | zero =>
        refine congrArg view ((congrArg _ (slotAfter_congr ?_ : _ = s.slotAfter 1)).trans ?_)
        · simp only [hmoved, ringSize]
          omega
        · rw [get_slots, Vector.getElem_set_self]
          rfl
      | succ back =>
        have hslot : TokenStream.slotAfter { s with current := s.slotAfter 1 }
            (ringSize - (back + 1)) = s.slotAfter (ringSize - back) :=
          slotAfter_congr (by simp only [hmoved, ringSize]; omega)
        have hother : (s.slotAfter 1).val ≠ (s.slotAfter (ringSize - back)).val := by
          simp only [val_slotAfter, ringSize]
          omega
        refine (congrArg (fun q => view ((s.slots.set _ _).get q)) hslot).trans ?_
        rw [get_slots, Vector.getElem_set_ne _ _ hother, Nat.add_sub_add_right]
        exact hslots back (Nat.lt_of_succ_lt hback) (Nat.le_of_succ_le_succ hle)
  | succ n =>
    have hfar : place + 1 + n = place + s.pushedBack := by omega
    refine ⟨_, next_of_pushedBack hn, ⟨show n < 4 by omega, hfar ▸ h.reads, ?_, ?_,
      fun back hback hle => ?_⟩, rfl, rfl⟩
    · rw [h.lastLine, ← hfar]
    · rw [h.cursor, ← hfar]
    · have hback' : back < 4 := hback
      have hslot : TokenStream.slotAfter { s with current := s.slotAfter 1, pushedBack := n }
          (n + ringSize - back) = s.slotAfter (s.pushedBack + ringSize - back) :=
        slotAfter_congr (by simp only [hmoved, ringSize]; omega)
      rw [hslot, hfar]
      exact h.slots back hback (hfar ▸ hle)

theorem nextMany (hreads : ∀ i < n, (start.skip (place + i)).Reads) :
    ∃ s', s.nextMany n = .ok s' ∧ Rings view start (place + n) s' ∧
      s'.pushedBack = s.pushedBack - n ∧ s'.source = s.source := by
  induction n generalizing place s with
  | zero => exact ⟨s, rfl, h, rfl, rfl⟩
  | succ n ih =>
    obtain ⟨s', hnext, h', hcount, hsource⟩ := h.next (hreads 0 (Nat.succ_pos n))
    obtain ⟨far, hfar, hrings, hcount', hsource'⟩ := ih h' fun i hi => by
      rw [Nat.add_right_comm, Nat.add_assoc]
      exact hreads (i + 1) (Nat.succ_lt_succ hi)
    refine ⟨far, by rw [TokenStream.nextMany, hnext]; exact hfar, ?_, by omega, hsource'.trans hsource⟩
    rwa [Nat.add_right_comm] at hrings

omit h in
theorem previousMany (h : Rings view start (place + n) s) (hroom : s.pushedBack + n < ringSize) :
    Rings view start place (s.previousMany n) ∧
      (s.previousMany n).pushedBack = s.pushedBack + n ∧ (s.previousMany n).source = s.source := by
  induction n generalizing s with
  | zero => exact ⟨h, rfl, rfl⟩
  | succ n ih =>
    have hcount : s.previous.pushedBack + n = s.pushedBack + (n + 1) := Nat.succ_add_eq_add_succ _ _
    rw [← hcount] at hroom ⊢
    exact ih (h.previous (Nat.lt_of_le_of_lt (Nat.le_add_right _ _) hroom)) hroom

/-- Looking ahead leaves the stream where it is. -/
theorem peekNth (hn : n ≤ 2) (hreads : ∀ i ≤ n, (start.skip (place + i)).Reads) :
    ∃ t s', Reading.peekNth n s = .ok (t, s') ∧ view t = view (start.skip (place + (n + 1))).token ∧
      Rings view start place s' ∧ s'.pushedBack = max s.pushedBack (n + 1) ∧
      s'.source = s.source := by
  have hfew : s.pushedBack < 4 := h.few
  obtain ⟨far, hfar, hrings, hcount, hsource⟩ := h.nextMany fun i hi => hreads i (Nat.le_of_lt_succ hi)
  obtain ⟨hback, hcount', hsource'⟩ :=
    hrings.previousMany (show far.pushedBack + (n + 1) < 4 by omega)
  refine ⟨_, _, ?_, hback.ahead (by omega), hback, by omega, hsource'.trans hsource⟩
  rw [Reading.peekNth, hfar]
  exact far.guard_of_safe (show far.pushedBack + (n + 1) < 4 by omega) _

end Rings

end Cascade
