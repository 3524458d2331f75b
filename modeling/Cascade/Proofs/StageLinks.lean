import Cascade.Document.Stage
import Cascade.Proofs.SoundEvaluation
import Cascade.Proofs.SoundExpansion

/-!
# Every run of stages keeps parents and children in step

A parsed stylesheet is put into a document and any stages are run on it, in any order and as often
as one likes.  After each of them, whether it succeeded or failed, the document is sound: its root
is the stylesheet and has no parent, nodes name each other as parent and child, no node is a child
twice, and no way up is a circle.
-/

set_option autoImplicit false

namespace Cascade

open Document

theorem safe_reduce (profile : Profile) : Safe (Editing.reduce profile) :=
  (safe_substituteFields profile.fields).bind fun _ => leads_cleanUp.safe.bind fun _ =>
    safe_expandMixins.bind fun _ => safe_processExtends.bind fun _ => leads_cleanUp.safe.bind fun _ =>
      (safe_execute profile.commands).bind fun _ => safe_flatten

namespace Stage

/-- **One stage keeps documents sound**, also if it fails. -/
theorem safe_run (stage : Stage) : Safe stage.run := by
  cases stage with
  | resolveInclusions library => exact safe_resolveInclusions library
  | substituteFields fields => exact safe_substituteFields fields
  | scanScopes => exact leads_scanScopes.safe
  | cleanUp => exact leads_cleanUp.safe
  | expandMixins => exact safe_expandMixins
  | processExtends => exact safe_processExtends
  | execute commands => exact safe_execute commands
  | flatten => exact safe_flatten
  | reduce profile => exact safe_reduce profile

/-- All documents of a run are sound if the first one is. -/
theorem sound_of_mem_trace {stages : List Stage} {d : Document} (hd : d.Sound)
    {step : Except Error Unit × Document} (h : step ∈ trace stages d) : step.2.Sound := by
  induction stages generalizing d with
  | nil => cases h
  | cons stage rest ih =>
    have hstage : (stage.run d).2.Sound := (stage.safe_run d hd).sound
    rcases List.mem_cons.1 h with rfl | h
    · exact hstage
    · exact ih hstage h

end Stage

/-- **Any stages run on a parsed stylesheet leave a sound document after each of them.** -/
theorem stages_keep_links {source : Source} {tree : Node} (h : parse source = .ok tree)
    (stages : List Stage) :
    ∀ step ∈ Stage.trace stages (Document.ofTree source.file tree),
      step.2.Sound ∧ step.2.linksHold = true := by
  intro step hstep
  have hsound := Stage.sound_of_mem_trace (sound_of_parse h) hstep
  exact ⟨hsound, hsound.linksHold⟩

/-- A mixin with a parameter and a place for statements, and a use with both. -/
def linksSample : Source where
  text := "$m($a)\x7bb:$a;@content;\x7d.x\x7b$m(c)<\x7bd:e;\x7d\x7d"

/-- Mixins can be expanded, then names are missing that have not been counted yet, and then all is
done from the beginning. -/
theorem stages_keep_links_sample :
    ∃ tree, parse linksSample = .ok tree ∧
      ((Stage.trace [.expandMixins, .execute fun _ _ => none, .reduce {}]
        (Document.ofTree none tree)).map fun step => step.1.toBool) = [true, false, true] ∧
      ∀ step ∈ Stage.trace [.expandMixins, .execute fun _ _ => none, .reduce {}]
        (Document.ofTree none tree), step.2.Sound ∧ step.2.linksHold = true := by
  exact exists_of_map (by decide +kernel) fun _ hparse => stages_keep_links hparse _

end Cascade
