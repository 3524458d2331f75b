import Cascade.Document.Evaluation
import Cascade.Document.Flat
import Cascade.Proofs.SoundEditing

/-!
# Evaluating and flattening a document keeps it sound

Evaluation puts new nodes in the place of expressions and the statements of a branch in the place of
a conditional.  Flattening moves statements to new rules at the top and merges neighbours.
-/

set_option autoImplicit false

namespace Cascade

open Document Editing List

variable {key previous : Key} {d : Document} {run : Key → KeyBindings → Editing Unit}
  (commands : CommandHost) (context : Context) (parent : Key) (depth : Nat)

/-! ## Expressions -/

/-- A new node in the place of an old one. -/
theorem Keeps.replace {d₁ : Document} {old new : Key} {tree : Node} (hd : d.Sound)
    (hd₁ : d₁.Sound) (hnew : Planted d₁ d new tree) (hold : old < d₁.cells.size) :
    Keeps d (Editing.edit (·.replace old new)) fun _ _ => True := by
  have hreplace := hd.toLinked.replace old hnew.key_lt
    (hnew.fresh.not_above hd₁.toLinked hold (mem_singleton_self new))
  refine .edit (hreplace.sound hd ?_) hreplace.size_eq.ge trivial
  simpa using Ne.symm (hnew.fresh.ne_root hd₁ (mem_singleton_self new))

theorem Keeps.putInPlace (tree : Node) (hd : d.Sound) (hkey : key < d.cells.size) :
    Keeps d (putInPlace key tree) fun _ _ => True :=
  (Keeps.plant tree hd).bind fun _ _ hd₁ _ hnew =>
    (Keeps.replace hd₁ hd hnew hkey).done

theorem Keeps.copyInPlace (original : Key) (hd : d.Sound) (hkey : key < d.cells.size) :
    Keeps d (copyInPlace key original) fun _ _ => True :=
  (Keeps.deepClone original hd).bind fun _ _ hd₁ _ hnew =>
    (Keeps.replace hd₁ hd hnew hkey).done

theorem safe_ofResult {α : Type} (key : Key) (result : Except EvalError α) :
    Safe (ofResult key result) := fun _ hd =>
  (Keeps.ofResult hd).forget

theorem safe_make_create (kind : Kind) (line : Nat) : Safe (make (·.create kind line)) :=
  fun _ hd => (Keeps.push _ hd).forget

section Evaluator

variable {evaluate : Evaluator}

variable (h : ∀ key values, Safe (evaluate key values))

include h

theorem safe_evaluateAll (keys : List Key) (values : KeyBindings) :
    Safe (evaluateAll evaluate keys values) := fun _ hd =>
  Keeps.foldlM (fun _ _ _ => True) (fun key _ values d' hd' _ =>
    (h key values d' hd').done) keys hd trivial

theorem safe_evaluateArguments (key : Key) (values : KeyBindings) :
    Safe (evaluateArguments evaluate key values) :=
  .look_bind fun keys => safe_evaluateAll h keys values

theorem safe_operand (key : Key) (values : KeyBindings) : Safe (operand evaluate key values) :=
  (h key values).bind fun _ => .look_bind fun _ => .pure _

theorem safe_leftOperand (operator : BinaryOp) (key : Key) (values : KeyBindings) :
    Safe (leftOperand evaluate operator key values) := by
  refine .look_bind fun unset => ?_
  split
  · exact .pure _
  · exact safe_operand h key values

theorem safe_evaluateInitializer (key : Key) (values : KeyBindings) :
    Safe (evaluateInitializer evaluate key values) := by
  refine .look_bind fun initializer => ?_
  split
  · exact h _ values
  · exact .look_bind fun line => (safe_make_create .null line).bind fun _ => .pure _

omit h in
theorem safe_assignedAt (key : Key) (name : String) (operator : Option AssignOp)
    (current : Option Key) (value : Key) : Safe (assignedAt key name operator current value) := by
  rw [assignedAt.eq_def]
  split
  · exact .pure value
  · exact .pure value
  · refine .look_bind fun result => ?_
    split
    · exact .pure value
    · exact .pure _
  · exact .failAt key _
  · refine .look_bind fun _ => .look_bind fun _ => (safe_ofResult key _).bind fun result => ?_
    exact .look_bind fun line _ hd => (Keeps.plant _ hd).forget

theorem safe_assign (key : Key) (name : String) (operator : Option AssignOp) (values : KeyBindings) :
    Safe (assign evaluate key name operator values) :=
  (safe_evaluateInitializer h key values).bind fun _ =>
    (safe_assignedAt key name operator _ _).bind fun _ => .pure _

end Evaluator

theorem Keeps.command (name : String) (hd : d.Sound) (hkey : d.Movable key) :
    Keeps d (command commands key name) fun _ _ => True := by
  refine .ite (fun _ => ?_) fun _ => ?_
  · refine .edit_bind (by simp [updateKind]) (.pure ?_ trivial)
    exact hd.relabel fun heq => absurd heq hkey.ne_root
  · refine .look_bind (.look_bind ((Keeps.ofResult hd).bind fun result d' hd' hsize _ => ?_))
    exact Keeps.putInPlace result hd' (hkey.lt_size.trans_le hsize)

/-- **Expressions are evaluated safely.** -/
theorem safe_evaluateTo (key : Key) (values : KeyBindings) :
    Safe (evaluateTo commands depth key values) := by
  induction depth generalizing key values with
  | zero => exact .pure _
  | succ depth ih =>
    intro d hd
    rw [evaluateTo]
    refine .look_bind (.look_bind ?_)
    have hmovable : ∀ {kind : Kind}, d.kindAt key = kind → kind ≠ .sheet → d.Movable key :=
      fun hkind hne => hd.movable_of_kindAt (hkind ▸ hne)
    split
    · rename_i name hkind
      have hkey := hmovable hkind nofun
      split
      · exact (Keeps.copyInPlace _ hd hkey.lt_size).done
      · exact .failAt hd
    · rename_i operator left right hkind _
      have hkey := hmovable hkind nofun
      refine (safe_leftOperand ih operator left values d hd).bind fun _ d₁ hd₁ hsize₁ _ => ?_
      refine (safe_operand ih right _ d₁ hd₁).bind fun _ d₂ hd₂ hsize₂ _ => ?_
      refine (Keeps.ofResult hd₂).bind fun result d₃ hd₃ hsize₃ _ => .look_bind ?_
      have hlt := (((hkey.mono hsize₁).mono hsize₂).mono hsize₃).lt_size
      exact (Keeps.putInPlace _ hd₃ hlt).done
    · rename_i operator child rest hkind _
      have hkey := hmovable hkind nofun
      refine (safe_operand ih child values d hd).bind fun _ d₁ hd₁ hsize₁ _ => ?_
      refine (Keeps.ofResult hd₁).bind fun result d₂ hd₂ hsize₂ _ => .look_bind ?_
      have hlt := ((hkey.mono hsize₁).mono hsize₂).lt_size
      exact (Keeps.putInPlace _ hd₂ hlt).done
    · rename_i name operator hkind
      have hkey := hmovable hkind nofun
      refine (safe_assign ih key name operator values d hd).bind fun _ d' hd' hsize _ => ?_
      exact (Keeps.copyInPlace _ hd' (hkey.mono hsize).lt_size).done
    · rename_i name hkind
      have hkey := hmovable hkind nofun
      refine (safe_evaluateArguments ih key values d hd).bind fun _ d' hd' hsize _ => ?_
      exact (Keeps.command commands name hd' (hkey.mono hsize)).done
    · exact (safe_evaluateArguments ih key values d hd).done
    · exact (safe_evaluateAll ih _ values d hd).done
    · exact (safe_evaluateAll ih _ values d hd).done
    · exact (safe_evaluateAll ih _ values d hd).done
    · exact .pure hd trivial

theorem safe_evaluate (key : Key) (values : KeyBindings) : Safe (evaluate commands key values) :=
  .look_bind fun depth => safe_evaluateTo commands depth key values

/-! ## Statements -/

theorem Keeps.interpolate (values : KeyBindings) (hd : d.Sound) (hkey : d.Movable key) :
    Keeps d (interpolate key values) fun _ _ => True := by
  refine .look_bind (.look_bind ((Keeps.ofResult hd).bind fun kind d' hd' _ _ => ?_))
  exact .edit (hd'.relabel fun heq => absurd heq hkey.ne_root) (by simp [updateKind]) trivial

theorem safe_declare (key : Key) (name : String) (values : KeyBindings) :
    Safe (declare commands key name values) := by
  refine .look_bind fun initializer => ?_
  split
  · exact (safe_evaluate commands _ values).bind fun _ => .pure _
  · exact .pure _

theorem safe_conditionHolds (key : Key) (values : KeyBindings) :
    Safe (conditionHolds commands key values) := by
  refine .look_bind fun condition => ?_
  split
  · exact (safe_evaluate commands _ values).bind fun _ => .look_bind fun _ => .pure _
  · exact .pure _

/-- The statements of a branch are below the conditional. -/
theorem Keeps.branchStatements (key : Key) (holds : Bool) (hd : d.Sound) :
    Keeps d (branchStatements key holds) fun statements d' =>
      statements.Nodup ∧ ∀ x ∈ statements, d'.Movable x ∧ ¬ d'.Above x key := by
  refine .look_bind ?_
  split
  · rename_i part hpart
    have hparent : d.parent? part = some key :=
      hd.mem_childKeys.1 (mem_of_find?_eq_some hpart)
    refine .look_bind (.ite (fun _ => .pure hd ⟨nodup_singleton part, ?_⟩) fun _ => ?_)
    · exact forall_mem_singleton.2
        ⟨hd.movable_of_parent? hparent, hd.not_above_of_parent? hparent⟩
    · have htake := hd.toLinked.takeChildren part root
      refine ⟨hd.takeChildren part, htake.size_eq.ge, fun statements heq => ?_⟩
      cases heq
      refine ⟨hd.nodup part, fun x hx => ?_⟩
      have hx' : d.parent? x = some part := hd.mem_childKeys.1 hx
      refine ⟨(hd.movable_of_parent? hx').mono htake.size_eq.ge, fun habove => ?_⟩
      have habove' : d.Above x key := htake.moves.above (by simp) habove
      exact hd.not_above_of_parent? hx' (habove'.trans (.parent hparent))
  · exact .pure hd ⟨nodup_nil, by simp⟩

theorem safe_enterBlock (h : ∀ block values, Safe (run block values)) (block : Key)
    (values : KeyBindings) : Safe (enterBlock run block values) := by
  refine .look_bind fun scope => ?_
  split
  · exact .failAt block _
  · exact h block _

theorem safe_enterRules (h : ∀ block values, Safe (run block values)) (rule : Key)
    (values : KeyBindings) : Safe (enterRules run rule values) := by
  refine .look_bind fun block => ?_
  split
  · exact safe_enterBlock h _ values
  · exact .pure ()

/-- **Statements are evaluated safely.** -/
theorem safe_executeStatements (count : Nat) (block : Key) (index : Nat) (values : KeyBindings) :
    Safe (executeStatements commands count block index values) := by
  induction count generalizing block index values with
  | zero => exact .pure ()
  | succ count ih =>
    have hrun : ∀ block values, Safe (executeStatements commands count block 0 values) :=
      fun block values => ih block 0 values
    intro d hd
    rw [executeStatements]
    refine .look_bind ?_
    split
    · exact .pure hd trivial
    · rename_i key hkey
      have hmovable : d.Movable key :=
        hd.movable_of_parent? (hd.mem_childKeys.1 (mem_of_getElem? hkey))
      refine .look_bind ?_
      split
      · refine (safe_conditionHolds commands key values d hd).bind fun _ d₁ hd₁ _ _ => ?_
        refine (Keeps.branchStatements key _ hd₁).bind fun statements d₂ hd₂ _ ⟨hnodup, h⟩ => ?_
        have hsplice := hd₂.toLinked.splice key hnodup fun x hx =>
          ⟨(h x hx).1.lt_size, (h x hx).2⟩
        refine .edit_bind hsplice.size_eq.ge (ih block index _ _ ?_)
        exact hsplice.sound hd₂ fun hroot => (h root hroot).1.ne_root rfl
      · refine (safe_declare commands key _ values d hd).bind fun _ d₁ hd₁ _ _ => ?_
        exact (Safe.remove key d₁ hd₁).bind fun _ d₂ hd₂ _ _ => ih block index _ d₂ hd₂
      · refine (safe_assign (safe_evaluate commands) key _ _ values d hd).bind fun _ d₁ hd₁ _ _ => ?_
        exact (Safe.remove key d₁ hd₁).bind fun _ d₂ hd₂ _ _ => ih block index _ d₂ hd₂
      · refine (Keeps.interpolate values hd hmovable).bind fun _ d₁ hd₁ _ _ => .look_bind ?_
        exact (safe_evaluateAll (safe_evaluate commands) _ values d₁ hd₁).bind
          fun _ d₂ hd₂ _ _ => ih block _ _ d₂ hd₂
      · refine (Keeps.interpolate values hd hmovable).bind fun _ d₁ hd₁ _ _ => ?_
        exact (safe_enterRules hrun key values d₁ hd₁).bind fun _ d₂ hd₂ _ _ => ih block _ _ d₂ hd₂
      · exact (safe_enterBlock hrun key values d hd).bind fun _ d₁ hd₁ _ _ => ih block _ _ d₁ hd₁
      · exact (safe_evaluateArguments (safe_evaluate commands) key values d hd).bind
          fun _ d₁ hd₁ _ _ => ih block _ _ d₁ hd₁
      · exact ih block _ _ d hd

theorem safe_execute : Safe (execute commands) :=
  .look_bind fun count => safe_enterBlock
    (fun block values => safe_executeStatements commands count block 0 values) root []

/-! ## Blocks that stand for themselves -/

theorem safe_dissolveBlocks : Safe dissolveBlocks := by
  have hat : ∀ key, Safe (dissolveAt key) := by
    intro key d hd
    refine .look_bind (.ite (fun _ => ?_) fun _ => .pure hd trivial)
    have htake := hd.toLinked.takeChildren key root
    have hd₁ := hd.takeChildren key
    have hsplice := hd₁.toLinked.splice key (hd.nodup key) fun x hx => by
      have hx' : d.parent? x = some key := hd.mem_childKeys.1 hx
      refine ⟨by rw [htake.size_eq]; exact lt_size_of_parent? hx', fun habove => ?_⟩
      exact hd.not_above_of_parent? hx' (htake.moves.above (by simp) habove)
    refine .make_bind htake.size_eq.ge
      (.edit (hsplice.sound hd₁ fun hroot => ?_) hsplice.size_eq.ge trivial)
    exact hd.ne_root_of_parent? (hd.mem_childKeys.1 hroot) rfl
  exact .look_bind fun _ => .forM hat

/-! ## Lifting rules out -/

section

variable (hd : d.Sound) (hkey : d.Movable key)

include hd hkey

/-- Containers can be put somewhere else. -/
theorem Document.Sound.movable_of_mem_containersTo (depth : Nat) {k : Key}
    (hk : k ∈ d.containersTo depth key) : d.Movable k := by
  induction depth generalizing key with
  | zero => cases hk
  | succ depth ih =>
    rw [containersTo] at hk
    split at hk
    · cases hk
    · split at hk
      · rw [mem_singleton] at hk
        exact hk ▸ hkey
      · rcases mem_cons.1 hk with rfl | hk
        · exact hkey
        · obtain ⟨child, hchild, hk⟩ := mem_flatMap.1 hk
          cases hrules : d.rules? key with
          | none =>
            rw [hrules] at hchild
            cases hchild
          | some block =>
            rw [hrules] at hchild
            exact ih (hd.movable_of_parent? (hd.mem_childKeys.1 hchild)) hk

theorem Keeps.ruleOf : Keeps d (ruleOf key context) fun rule d' => ∀ k ∈ rule, d'.Movable k := by
  refine .look_bind (.ite (fun _ => ?_) fun _ => ?_)
  · refine .edit_bind (by simp) (.pure (hd.remove key) fun k hk => ?_)
    cases hk
    exact hkey.mono (by simp)
  · refine .look_bind ?_
    split
    · exact .pure hd nofun
    · refine .look_bind (.ite (fun _ => .pure hd nofun) fun _ => .look_bind ?_)
      refine Keeps.bind (Keeps.enclose _ hd fun statement hstatement => ?_)
        fun rule d' hd' _ ⟨hrule, hlt, _⟩ => .pure hd' fun k hk => ?_
      · exact hd.movable_of_parent? (hd.mem_childKeys.1 (mem_filter.1 hstatement).1)
      · cases hk
        exact ⟨hlt, fun heq => hd.root_lt.ne' (hrule.symm.trans heq)⟩

theorem Keeps.encloseIn (kind : Option Kind) :
    Keeps d (encloseIn kind key) fun rule d' => d'.Movable rule := by
  rw [Editing.encloseIn.eq_def]
  split
  · refine .look_bind ((Keeps.enclose _ hd (forall_mem_singleton.2 hkey)).weaken
      fun rule d' _ _ ⟨hrule, hlt, _⟩ => ⟨hlt, fun heq => ?_⟩)
    exact hd.root_lt.ne' (hrule.symm.trans heq)
  · exact .pure hd hkey

theorem Keeps.wrap : Keeps d (wrap context key) fun rule d' => d'.Movable rule :=
  (Keeps.encloseIn hd hkey _).bind fun _ _ hd' _ hrule => Keeps.encloseIn hd' hrule _

theorem Keeps.liftOne :
    Keeps d (liftOne key context) fun rules d' => ∀ k ∈ rules, d'.Movable k := by
  refine (Keeps.ruleOf context hd hkey).bind fun rule d' hd' _ hrule => ?_
  split
  · refine (Keeps.wrap context hd' (hrule _ rfl)).bind fun _ d'' hd'' _ h => .pure hd'' ?_
    exact forall_mem_singleton.2 h
  · exact .pure hd' (by simp)

theorem Keeps.liftStatement :
    Keeps d (liftStatement key) fun rules d' => ∀ k ∈ rules, d'.Movable k := by
  refine .look_bind (.ite (fun _ => .pure hd (by simp)) fun _ => ?_)
  refine .ite (fun _ => .pure hd (forall_mem_singleton.2 hkey)) fun _ => ?_
  refine .look_bind (.look_bind ((Keeps.ofExcept hd).bind fun lifted d' hd' hsize ⟨hok, heq⟩ => ?_))
  subst heq
  have hlifted : ∀ entry ∈ lifted, d'.Movable entry.1 := by
    refine forall_mem_of_forall₂ (mapM_eq_ok hok)
      (fun k hk => hd'.movable_of_mem_containersTo hkey _ hk) fun k _ entry hentry hk => ?_
    obtain ⟨context, -, rfl⟩ := map_eq_ok.1 hentry
    exact hk
  refine .look_bind (.look_bind ?_)
  refine (Keeps.mapM_movable id (fun entry hentry d'' hd'' hsize' => ?_) hd').bind
    fun rules d'' hd'' _ h => .pure hd'' (by simpa using h)
  rcases mem_append.1 hentry with hentry | hentry
  · exact Keeps.liftOne _ hd'' ((hlifted entry (mem_filter.1 hentry).1).mono hsize')
  · exact Keeps.liftOne _ hd'' ((hlifted entry (mem_filter.1 hentry).1).mono hsize')

end

theorem safe_liftRules : Safe liftRules := by
  intro d hd
  have htake := hd.toLinked.takeChildren root root
  refine .make_bind htake.size_eq.ge ?_
  have hd₁ := hd.takeChildren root
  refine (Keeps.mapM_movable id (fun key hkey d' hd' hsize => ?_) hd₁).bind
    fun lifted d₂ hd₂ _ h => ?_
  · have hkey' := hd.movable_of_parent? (hd.mem_childKeys.1 hkey)
    exact Keeps.liftStatement hd' (hkey'.mono (htake.size_eq ▸ hsize))
  · refine (Keeps.forM (fun rest d' => ∀ key ∈ rest, d'.Movable key)
      (fun key rest d' hd' hrest => ?_) _ hd₂ (by simpa using h)).forget
    rw [forall_mem_cons] at hrest
    refine (Keeps.append hd' hrest.1 hd'.root_lt fun habove =>
      hrest.1.ne_root (habove.eq_of_parent?_eq_none hd'.root_parent)).weaken
      fun _ d'' _ hsize _ key hkey => (hrest.2 key hkey).mono hsize

theorem safe_dropEmpty : Safe dropEmpty := by
  refine .look_bind fun _ => .forM fun key => .look_bind fun drop => ?_
  split
  · exact Safe.remove key
  · exact .pure ()

/-! ## Merging neighbours -/

/-- A block of a rule, another one, and a rule `next` beside the first rule that the other block
belongs to. -/
structure Neighbours (d : Document) (parent previous next target source : Key) : Prop where
  parent?_previous : d.parent? previous = some parent
  parent?_next : d.parent? next = some parent
  parent?_target : d.parent? target = some previous
  parent?_source : d.parent? source = some next

namespace Neighbours

variable {parent previous next target source : Key}

/-- What is in the block of a rule is not above the block of its neighbour. -/
theorem not_above (h : Neighbours d parent previous next target source) (hd : d.Linked) {x : Key}
    (hx : d.parent? x = some source) : ¬ d.Above x target := by
  -- the way up from `x` is `x`, `source`, `next`, `parent`
  have hnext : ¬ d.Above next parent := hd.not_above_of_parent? h.parent?_next
  have hsource : ¬ d.Above source next := hd.not_above_of_parent? h.parent?_source
  have hxs : ¬ d.Above x source := hd.not_above_of_parent? hx
  intro habove
  cases habove with
  | self =>
    have heq : source = previous := Option.some.inj (hx.symm.trans h.parent?_target)
    have heq' : next = parent := by
      rw [← heq] at h
      exact Option.some.inj (h.parent?_source.symm.trans h.parent?_previous)
    exact hnext (heq' ▸ .self)
  | step hp habove =>
    rw [h.parent?_target] at hp
    cases hp
    cases habove with
    | self =>
      have heq : source = parent := Option.some.inj (hx.symm.trans h.parent?_previous)
      exact hsource (heq ▸ .parent h.parent?_next)
    | step hp habove =>
      rw [h.parent?_previous] at hp
      cases hp
      exact hxs (habove.trans (.step h.parent?_source (.parent h.parent?_next)))

theorem source_ne_parent (h : Neighbours d parent previous next target source) (hd : d.Linked) :
    source ≠ parent := fun heq =>
  hd.not_above_of_parent? h.parent?_source (heq ▸ .parent h.parent?_next)

end Neighbours

theorem Document.Sound.neighbours (hd : d.Sound) {parent next target source : Key}
    (hprevious : d.parent? previous = some parent) (hnext : d.parent? next = some parent)
    (h : d.mergeable? previous next = some (target, source)) :
    Neighbours d parent previous next target source := by
  rw [mergeable?.eq_def] at h
  split at h
  · rename_i htarget hsource
    cases h
    exact ⟨hprevious, hnext, hd.mem_childKeys.1 (mem_of_find?_eq_some htarget),
      hd.mem_childKeys.1 (mem_of_find?_eq_some hsource)⟩
  · cases h

/-- One rule merged into the one before it.  Other children of their parent stay. -/
theorem Keeps.mergeInto {parent next target source : Key} (hd : d.Sound)
    (h : Neighbours d parent previous next target source) :
    Keeps d (mergeInto target source next) fun _ d' =>
      ∀ k, k ≠ next → d.parent? k = some parent → d'.parent? k = some parent := by
  have htake := hd.toLinked.takeChildren source root
  have hd₁ := hd.takeChildren source
  refine .make_bind htake.size_eq.ge ?_
  have hstay : ∀ k, d.parent? k = some parent →
      (d.takeChildren source).1.parent? k = some parent := fun k hk => by
    rw [hd.parent?_takeChildren, hk, if_neg fun heq =>
      h.source_ne_parent hd.toLinked (Option.some.inj heq).symm]
  refine (Keeps.forM (fun rest d' => target < d'.cells.size ∧
      (∀ x ∈ rest, d.parent? x = some source ∧ d'.Movable x ∧ ¬ d'.Above x target) ∧
      ∀ k, d.parent? k = some parent → d'.parent? k = some parent)
    (fun x rest d' hd' ⟨htarget, hrest, hparent⟩ => ?_) _ hd₁ ⟨?_, fun x hx => ?_, hstay⟩).bind
    fun _ d₂ hd₂ _ ⟨_, _, hparent⟩ => ?_
  · rw [forall_mem_cons] at hrest
    obtain ⟨⟨hx, hmove, habove⟩, hrest⟩ := hrest
    refine (Keeps.append hd' hmove htarget habove).weaken
      fun _ d'' _ hsize ⟨hmoves, hparent'⟩ => ⟨htarget.trans_le hsize, ?_, ?_⟩
    · intro y hy
      obtain ⟨hsource, hmove', habove'⟩ := hrest y hy
      exact ⟨hsource, hmove'.mono hsize, fun hy' =>
        habove' (hmoves.moves.above (forall_mem_singleton.2 habove) hy')⟩
    · intro k hk
      have hne : k ≠ x := by
        rintro rfl
        exact h.source_ne_parent hd.toLinked (Option.some.inj (hx.symm.trans hk))
      rw [hparent', if_neg hne, hparent k hk]
  · rw [htake.size_eq]
    exact lt_size_of_parent? h.parent?_target
  · have hx' : d.parent? x = some source := hd.mem_childKeys.1 hx
    refine ⟨hx', (hd.movable_of_parent? hx').mono htake.size_eq.ge, fun habove => ?_⟩
    exact h.not_above hd.toLinked hx' (htake.moves.above (by simp) habove)
  · refine .edit (hd₂.remove next) (by simp) fun k hne hk => ?_
    rw [parent?_remove, if_neg hne, hparent k hk]

/-- Neighbours are merged from left to right; what is still to come stays where it is. -/
theorem Keeps.mergeAfter {rest : List Key} (hd : d.Sound) (hnodup : (previous :: rest).Nodup)
    (h : ∀ key ∈ previous :: rest, d.parent? key = some parent) :
    Keeps d (Editing.mergeAfter previous rest) fun _ _ => True := by
  induction rest generalizing previous d with
  | nil => exact .pure hd trivial
  | cons next rest ih =>
    have hnodup' := hnodup
    rw [nodup_cons, nodup_cons] at hnodup'
    have h' := h
    rw [forall_mem_cons, forall_mem_cons] at h'
    obtain ⟨hprevious, hnext, hrest⟩ := h'
    refine .look_bind ?_
    split
    · rename_i target source hmerge
      refine (Keeps.mergeInto hd (hd.neighbours hprevious hnext hmerge)).bind
        fun _ d' hd' _ hstay => ih hd' ?_ ?_
      · exact nodup_cons.2
          ⟨fun hmem => hnodup'.1 (mem_cons_of_mem _ hmem), hnodup'.2.2⟩
      · intro key hkey
        rcases mem_cons.1 hkey with rfl | hkey
        · exact hstay _ (fun heq => hnodup'.1 (heq ▸ mem_cons_self)) hprevious
        · exact hstay _ (fun heq => hnodup'.2.1 (heq ▸ hkey)) (hrest key hkey)
    · exact ih hd (nodup_cons.1 hnodup).2 (forall_mem_cons.1 h).2

theorem safe_mergeChildren : Safe (mergeChildren parent) := by
  intro d hd
  refine .look_bind ?_
  split
  · exact .pure hd trivial
  · rename_i first rest hchildren
    refine Keeps.mergeAfter parent hd ?_ fun key hkey => ?_
    · rw [← hchildren]
      exact hd.nodup parent
    · rw [← hchildren] at hkey
      exact hd.mem_childKeys.1 hkey

theorem safe_mergeBelow (parent : Key) : Safe (mergeBelow depth parent) := by
  induction depth generalizing parent with
  | zero => exact safe_mergeChildren parent
  | succ depth ih =>
    refine (safe_mergeChildren parent).bind fun _ => .look_bind fun children => .forM fun child => ?_
    refine .look_bind fun kind => .look_bind fun block => ?_
    split
    · exact ih _
    · exact .pure ()

theorem safe_flatten : Safe flatten :=
  safe_dissolveBlocks.bind fun _ => safe_liftRules.bind fun _ => safe_dropEmpty.bind fun _ =>
    .look_bind fun depth => safe_mergeBelow depth root

end Cascade
