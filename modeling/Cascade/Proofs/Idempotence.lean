import Cascade.Proofs.Inert
import Cascade.Proofs.Reflatten

/-!
# Reducing twice

A stylesheet that has been reduced and can be written is reduced to itself: the text of the result
is the same.  Its statements are finished, so that the stages before flattening have nothing to do,
and it is flat, with no neighbours left to merge, so that flattening takes it apart and puts it
together again.
-/

set_option autoImplicit false

namespace Cascade

open Node List

/-! ## Layers of other statements -/

section Settled

variable {ok ok' : Node → Prop} {n : Node}

variable (hs : IsSettled ok' n)

include hs

theorem RuleOf.of_isSettled {heading : Kind → Prop} {P Q : Node → Prop}
    (hh : ∀ k, heading k → Heading k) (hn : RuleOf heading P n)
    (hPQ : ∀ c, P c → IsSettled ok' c → Q c) : RuleOf heading Q n := by
  have hkind : n.kind.isContainer = true ∧ n.kind.isDiscarded = false ∧ n.kind.isWhole = false := by
    rcases hh _ hn.kind with ⟨_, hk, -⟩ | ⟨_, hk⟩ | ⟨_, hk, -⟩ <;> rw [hk] <;> exact ⟨rfl, rfl, rfl⟩
  have hbody := hs.body hkind.1 hkind.2.1 hkind.2.2
  cases hn with
  | mk hl hrel hb hr hcs =>
    rw [body_rule hr] at hbody
    exact .mk hl hrel hb hr fun c hc => hPQ c (hcs c hc) (hbody c hc).1

theorem IsCore.of_isSettled (hn : IsCore ok n) : IsCore ok' n :=
  ⟨hs.self, hn.2.imp
    (fun h => h.of_isSettled hs (fun _ => .inl) fun _ hc hs => ⟨hs, hc.2⟩)
    fun h => ⟨h.1, hs, h.2.2⟩⟩

theorem IsInner.of_isSettled (hn : IsInner ok n) : IsInner ok' n :=
  hn.imp (fun h => h.of_isSettled hs) fun h =>
    ⟨hs.self, h.2.of_isSettled hs (fun _ h => .inr (.inl h)) fun _ hc hs => hc.of_isSettled hs⟩

/-- What holds of all statements holds of the layers that are made of them. -/
theorem IsTop.of_isSettled (hn : IsTop ok n) : IsTop ok' n :=
  hn.imp (fun h => ⟨hs, h.2⟩) fun h => h.imp (fun h => h.of_isSettled hs) fun h =>
    ⟨hs.self, h.2.of_isSettled hs (fun _ h => .inr (.inr h)) fun _ hc hs => hc.of_isSettled hs⟩

end Settled

/-! ## Reducing twice -/

/-- No neighbours are left that could be merged. -/
theorem Sheet.reduce_tidy {source : Source} {profile : Profile} {sheet reduced : Sheet}
    (hp : Sheet.parse source = .ok sheet) (h : sheet.reduce profile = .ok reduced) :
    Tidy reduced.root.children := by
  rw [Sheet.reduce_eq] at h
  obtain ⟨evaluated, he, h⟩ := bind_eq_ok.1 h
  obtain ⟨lifted, hlifted, -, rfl⟩ := Sheet.flatten_eq_ok (Sheet.evaluate_left hp he).2 h
  exact (mergeWithin_lifted evaluated.root.label hlifted).1

/-- Finished statements in layers, without neighbours that could be merged, are reduced to
themselves. -/
theorem Sheet.reduce_finished {sheet : Sheet} {ok : Node → Prop} (profile : Profile)
    (hk : sheet.root.kind = .sheet) (hfinished : ∀ n ∈ sheet.root.children, IsSettled Finished n)
    (htop : ∀ n ∈ sheet.root.children, IsTop ok n) (htidy : Tidy sheet.root.children) :
    ∃ twice, sheet.reduce profile = .ok twice ∧ twice.file = sheet.file ∧
      twice.root.children.map bare = sheet.root.children.map bare := by
  obtain ⟨flat, hflat, hfile, hbare⟩ := Sheet.flatten_of_isTop (fun n hn =>
    (htop n hn).of_isSettled ((hfinished n hn).mono fun m hm => hm.1)) htidy
  obtain ⟨twice, htwice, hfile', hbare'⟩ := Sheet.reduce_writable profile hk
    (fun n hn => (hfinished n hn).mono fun _ => Finished.writable) hflat
  exact ⟨twice, htwice, hfile'.trans hfile, hbare'.symm.trans hbare⟩

/-- **Reducing twice gives the text that reducing once gives.** -/
theorem reduce_idempotent {source : Source} {profile : Profile} {layout : Layout}
    {sheet once : Sheet} {css : String} (hp : Sheet.parse source = .ok sheet)
    (h : sheet.reduce profile = .ok once) (hcss : once.css layout = .ok css) :
    ∃ twice, once.reduce profile = .ok twice ∧ twice.css layout = .ok css := by
  obtain ⟨hkind, htop⟩ := Sheet.reduce_isTop hp h
  have hfinished := (Sheet.css_ok_iff hp h).1 ⟨css, hcss⟩
  obtain ⟨twice, htwice, hfile, hbare⟩ := Sheet.reduce_finished profile
    (Kind.eq_sheet hkind) hfinished htop (Sheet.reduce_tidy hp h)
  refine ⟨twice, htwice, ?_⟩
  rw [Sheet.css, hfile]
  exact cssAll_of_bare_eq hbare.symm hcss

/-- Two rules under one query, taken apart and put together again. -/
theorem reduce_idempotent_query :
    ∃ sheet once, Sheet.parse { text := "@media x\x7ba\x7bb:c;\x7de\x7bf:g;\x7d\x7d" } = .ok sheet ∧
      sheet.reduce {} = .ok once ∧ once.css {} = .ok "@media x\x7ba\x7bb:c;\x7de\x7bf:g;\x7d\x7d" ∧
      ∃ twice, once.reduce {} = .ok twice ∧
        twice.css {} = .ok "@media x\x7ba\x7bb:c;\x7de\x7bf:g;\x7d\x7d" := by
  have hcompile : compile { text := "@media x\x7ba\x7bb:c;\x7de\x7bf:g;\x7d\x7d" } {} {} =
      .ok "@media x\x7ba\x7bb:c;\x7de\x7bf:g;\x7d\x7d" := by
    decide +kernel
  obtain ⟨sheet, hp, hcompile⟩ := bind_eq_ok.1 hcompile
  obtain ⟨once, h, hcss⟩ := bind_eq_ok.1 hcompile
  exact ⟨sheet, once, hp, h, hcss, reduce_idempotent hp h hcss⟩

end Cascade
