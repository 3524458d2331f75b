import Cascade.Evaluation.Expression
import Cascade.Proofs.Grammar

/-!
# Evaluated expressions

The value of an expression is a tree again.  It is plain: literals, lists of them, and functions
with plain arguments, with no variable, operator, assignment or command left.  What variables are
bound to is plain too, and stays so.
-/

set_option autoImplicit false

namespace Cascade

open Node List

variable {s : Surroundings} {line : Nat} {cs : List Node} {bindings : Bindings} {name : String}
  {unscoped : Prop}
  {value n result : Node}

/-! ## Plain trees -/

/-- **A value with nothing left to compute.** -/
inductive IsPlain : Node → Prop
  | literal {l : Label} (h : l.kind.isLiteral = true) : IsPlain (.mk l [])
  | group {l : Label} {cs : List Node}
      (h : l.kind = .list ∨ l.kind = .comma ∨ l.kind = .slash) (hcs : ∀ c ∈ cs, IsPlain c) :
      IsPlain (.mk l cs)
  | function {l lp : Label} {cs : List Node} {name : String} (h : l.kind = .function name)
      (hk : lp.kind = .params) (hr : lp.relation = some .params) (hcs : ∀ c ∈ cs, IsPlain c) :
      IsPlain (.mk l [.mk lp cs])

theorem IsPlain.relabel {l l' : Label} (h : IsPlain (.mk l cs)) (hk : l'.kind = l.kind) :
    IsPlain (.mk l' cs) := by
  cases h with
  | literal h => exact .literal (hk ▸ h)
  | group h hcs => exact .group (hk ▸ h) hcs
  | function h hkp hr hcs => exact .function (hk.trans h) hkp hr hcs

theorem IsPlain.withRelation (h : IsPlain n) (r : Option Relation) :
    IsPlain (n.withRelation r) := by
  cases n
  exact h.relabel rfl

theorem IsPlain.copied (h : IsPlain n) : IsPlain n.copied := by
  induction h with
  | literal h => exact .literal h
  | group h _ ih =>
    rw [Node.copied, Node.copiedAll_eq_map]
    exact .group h (forall_mem_map.2 ih)
  | function h hk hr _ ih =>
    rw [Node.copied, Node.copiedAll_eq_map, map_singleton, Node.copied,
      copiedAll_eq_map]
    exact .function h hk hr (forall_mem_map.2 ih)

theorem IsPlain.isPart (h : IsPlain n) : ∀ m ∈ n.preorder, m.kind.form.isPart = true := by
  induction h with
  | @literal l h =>
    refine forall_mem_preorder.2 ⟨?_, by simp⟩
    rw [kind_mk]
    revert h
    cases l.kind <;> simp [Kind.isLiteral, Kind.form, Form.isPart, Form.isValue]
  | group h _ ih =>
    refine forall_mem_preorder.2 ⟨?_, ih⟩
    rcases h with h | h | h <;> simp [h, Kind.form, Form.isPart, Form.isValue]
  | function h hk _ _ ih =>
    exact forall_mem_preorder.2 ⟨by simp [h, Kind.form, Form.isPart, Form.isValue],
      forall_mem_singleton.2 (forall_mem_preorder.2 ⟨by simp [hk, Kind.form, Form.isPart], ih⟩)⟩

mutual

/-- The tree for a value is plain. -/
theorem Value.isPlain_toNode (line : Nat) : ∀ value : Value, IsPlain (value.toNode line)
  | .number .. | .string .. | .identifier _ | .boolean _ | .null | .text _ => .literal rfl
  | .list items => .group (.inl rfl) (Value.isPlain_toNodes line items)
  | .comma items => .group (.inr (.inl rfl)) (Value.isPlain_toNodes line items)

theorem Value.isPlain_toNodes (line : Nat) :
    ∀ values : List Value, ∀ n ∈ Value.toNodes line values, IsPlain n
  | [] => by simp [Value.toNodes]
  | value :: rest => by
    rw [Value.toNodes]
    exact forall_mem_cons.2
      ⟨Value.isPlain_toNode line value, Value.isPlain_toNodes line rest⟩

end

/-! ## Bindings -/

/-- Every variable is bound to a plain tree. -/
def Bindings.Plain (bindings : Bindings) : Prop :=
  ∀ e ∈ bindings, IsPlain e.2

namespace Bindings.Plain

variable (h : Bindings.Plain bindings)

include h

theorem find? (hf : NameTable.find? name bindings = some value) : IsPlain value := by
  induction bindings with
  | nil => cases hf
  | cons e rest ih =>
    obtain ⟨other, old⟩ := e
    rw [NameTable.find?, lookup_cons] at hf
    split at hf
    · obtain rfl := Option.some.inj hf
      exact h _ mem_cons_self
    · exact ih (fun e he => h e (mem_cons_of_mem _ he)) hf

theorem insert (name : String) (hv : IsPlain value) :
    Bindings.Plain (NameTable.insert name value bindings) := by
  induction bindings with
  | nil => exact forall_mem_singleton.2 hv
  | cons e rest ih =>
    obtain ⟨other, old⟩ := e
    have hrest : Bindings.Plain rest := fun e he => h e (mem_cons_of_mem _ he)
    rw [NameTable.insert]
    split
    · exact forall_mem_cons.2 ⟨hv, hrest⟩
    · split
      · exact forall_mem_cons.2 ⟨hv, h⟩
      · exact forall_mem_cons.2 ⟨h _ mem_cons_self, ih hrest⟩

theorem erase (name : String) : Bindings.Plain (NameTable.erase name bindings) :=
  fun e he => h e (mem_filter.1 he).1

end Bindings.Plain

/-! ## Steps of evaluation -/

/-- An error of evaluation or, if `unscoped`, that of a block without a record of its names. -/
def Error.IsEval (unscoped : Prop) (e : Error) : Prop :=
  (∃ error, e.cause = .eval error) ∨ unscoped ∧ e.cause = .scope .missingScope

/-- Evaluation keeps variables bound to plain trees, and its results satisfy `post`. -/
abbrev Leaves {α : Type} (unscoped : Prop) (m : Evaluation α) (post : α → Prop) : Prop :=
  Ensures Bindings.Plain (Error.IsEval unscoped) m post

theorem Evaluation.leaves_fail {α : Type} {error : EvalError} {post : α → Prop} :
    Leaves unscoped (Evaluation.fail s line error : Evaluation α) post :=
  .of_error fun _ => ⟨_, rfl, .inl ⟨error, rfl⟩⟩

theorem Evaluation.leaves_ofResult {α : Type} {result : Except EvalError α} :
    Leaves unscoped (Evaluation.ofResult s line result) fun a => result = .ok a := by
  cases result with
  | ok a => exact .pure rfl
  | error e => exact Evaluation.leaves_fail

theorem Evaluation.leaves_bindName (name : String) (hv : IsPlain value) :
    Leaves unscoped (Evaluation.bindName name value) fun _ => True :=
  .modify fun _ h => h.insert name hv

/-- A variable that is assigned to gets a plain tree. -/
theorem isPlain_assigned {operator : Option AssignOp} {current : Option Node}
    (hc : ∀ n ∈ current, IsPlain n) (hv : IsPlain value)
    (h : assigned name operator line current value = .ok result) : IsPlain result := by
  unfold assigned at h
  split at h
  · cases h
    exact hv
  · cases h
    exact hv
  · split at h
    · cases h
      exact hv
    · cases h
      exact hc _ rfl
  · cases h
  · split at h
    · cases h
      exact Value.isPlain_toNode _ _
    · cases h

theorem isPlain_commandResult {value : CommandValue} {type : ResultType}
    (h : commandResult name line value type = .ok result) : IsPlain result := by
  unfold commandResult at h
  dsimp only at h
  split at h
  · split at h
    · cases h
      exact .literal rfl
    · cases h
  · split at h
    · cases h
      exact .literal rfl
    · cases h
  · cases h
    exact .function rfl rfl rfl (forall_mem_singleton.2 (.literal rfl))
  · cases h
    exact .literal rfl

/-- What a command gives is plain. -/
theorem isPlain_runCommand {commands : CommandHost} {arguments : List Node}
    (h : runCommand commands name line arguments = .ok result) : IsPlain result := by
  unfold runCommand at h
  split at h
  · cases h
  · split at h
    · cases h
    · cases h
    · exact isPlain_commandResult h

namespace Node

variable {s : Surroundings}

theorem evaluateAll_leaves (h : ∀ c ∈ cs, Leaves unscoped (c.evaluate s) fun m =>
      IsPlain m ∧ m.relation = c.relation) :
    Leaves unscoped (evaluateAll s cs) fun ms =>
      List.Forall₂ (fun c m => IsPlain m ∧ m.relation = c.relation) cs ms := by
  induction cs with
  | nil => exact .pure .nil
  | cons c cs ih =>
    rw [evaluateAll]
    refine (h c mem_cons_self).bind fun m hm => ?_
    exact (ih fun d hd => h d (mem_cons_of_mem _ hd)).bind fun ms hms => .pure (.cons hm hms)

/-- The only child, in the place of an initializer, is what is assigned. -/
theorem evaluateInitializer_singleton {a : Node} (h : a.relation = some .initializer) :
    evaluateInitializer s line [a] = evaluate s a := by
  obtain ⟨l, cs⟩ := a
  rw [evaluateInitializer]
  exact if_pos h

theorem evaluateArguments_singleton {lp : Label} (h : lp.relation = some .params) :
    evaluateArguments s [mk lp cs] = (do pure [mk lp (← evaluateAll s cs)]) := by
  rw [evaluateArguments, if_pos h]

theorem evaluate_literal {l : Label} (h : l.kind.isLiteral = true) :
    (mk l []).evaluate s = pure (mk l []) := by
  unfold evaluate
  split <;> simp_all [Kind.isLiteral]

end Node

/-- **The value of an expression is plain**, and it stands in the place of the expression. -/
theorem IsValue.evaluate (hn : IsValue n) :
    Leaves unscoped (n.evaluate s) fun m => IsPlain m ∧ m.relation = n.relation := by
  induction hn with
  | @atom l h =>
    by_cases hlit : l.kind.isLiteral = true
    · rw [evaluate_literal hlit]
      exact .pure ⟨.literal hlit, rfl⟩
    · obtain ⟨name, hk⟩ : ∃ name, l.kind = .reference name := by
        unfold Kind.form at h
        split at h <;> simp_all [Kind.isLiteral]
      unfold Node.evaluate
      simp only [hk]
      refine .bind_get fun bindings hb => ?_
      split
      · rename_i value hv
        exact .pure ⟨(hb.find? hv).copied.withRelation _, rfl⟩
      · exact Evaluation.leaves_fail
  | @series l cs h _ _ _ ih =>
    have hk : l.kind = .list ∨ l.kind = .comma := by
      unfold Kind.form at h
      split at h <;> simp_all [Form.looseness]
    have group : l.kind = .list ∨ l.kind = .comma ∨ l.kind = .slash := hk.imp_right .inl
    unfold Node.evaluate
    rcases hk with hk | hk <;> simp only [hk] <;>
      exact (evaluateAll_leaves ih).bind fun ms hms => .pure
        ⟨.group group (forall_mem_of_forall₂ hms (fun _ _ => trivial) fun _ _ _ h _ => h.1), rfl⟩
  | @pair l a b h _ _ iha ihb =>
    rcases h with h | h
    · have hk : l.kind = .slash := Kind.of_form h
      unfold Node.evaluate
      simp only [hk]
      refine (evaluateAll_leaves (forall_mem_cons.2
        ⟨iha, forall_mem_singleton.2 ihb⟩)).bind fun ms hms => .pure ⟨.group ?_ ?_, rfl⟩
      · exact .inr (.inr hk)
      · exact forall_mem_of_forall₂ hms (fun _ _ => trivial) fun _ _ _ h _ => h.1
    · obtain ⟨op, hk⟩ := Kind.of_form h
      unfold Node.evaluate
      simp only [hk]
      have hleft : Leaves unscoped (Value.ofNode <$> a.evaluate s) fun _ => True :=
        iha.map fun _ _ => trivial
      have hright : Leaves unscoped (Value.ofNode <$> b.evaluate s) fun _ => True :=
        ihb.map fun _ _ => trivial
      have hnull : Leaves unscoped (pure Value.null : Evaluation Value) fun _ => True :=
        .pure trivial
      refine .bind_get fun bindings _ => .ite (fun _ => ?_) fun _ => ?_
      · exact hnull.bind fun _ _ => hright.bind fun _ _ =>
          Evaluation.leaves_ofResult.bind fun _ _ =>
            .pure ⟨(Value.isPlain_toNode _ _).withRelation _, rfl⟩
      · exact hleft.bind fun _ _ => hright.bind fun _ _ =>
          Evaluation.leaves_ofResult.bind fun _ _ =>
            .pure ⟨(Value.isPlain_toNode _ _).withRelation _, rfl⟩
  | @unary l a h _ iha =>
    obtain ⟨op, hk⟩ := Kind.of_form h
    have hoperand : Leaves unscoped (Value.ofNode <$> a.evaluate s) fun _ => True :=
      iha.map fun _ _ => trivial
    unfold Node.evaluate
    simp only [hk]
    exact hoperand.bind fun _ _ => Evaluation.leaves_ofResult.bind fun _ _ =>
      .pure ⟨(Value.isPlain_toNode _ _).withRelation _, rfl⟩
  | @assign l a h hr _ iha =>
    obtain ⟨name, op, hk⟩ := Kind.of_form h
    unfold Node.evaluate
    simp only [hk, evaluateInitializer_singleton hr]
    refine iha.bind fun value hvalue => .bind_get fun bindings hb => ?_
    refine Evaluation.leaves_ofResult.bind fun result hresult => ?_
    have hplain := isPlain_assigned (fun n hn => hb.find? hn) hvalue.1 hresult
    exact (Evaluation.leaves_bindName name hplain).bind fun _ _ =>
      .pure ⟨hplain.copied.withRelation _, rfl⟩
  | @application l lp cs h hkp hr _ _ ih =>
    have hkp := Kind.eq_params hkp
    have hargs := evaluateAll_leaves ih
    unfold Node.evaluate
    obtain ⟨name, hk⟩ | ⟨name, hk⟩ := Kind.of_form h
    · simp only [hk, evaluateArguments_singleton hr, bind_assoc, pure_bind]
      refine hargs.bind fun ms hms => .ite (fun _ => ?_) fun _ => ?_
      · have hplain := forall_mem_of_forall₂ hms (fun _ _ => trivial) fun _ _ _ h _ => h.1
        exact .pure ⟨.function rfl hkp hr hplain, rfl⟩
      · exact Evaluation.leaves_ofResult.bind fun result hresult =>
          .pure ⟨(isPlain_runCommand hresult).withRelation _, rfl⟩
    · simp only [hk, evaluateArguments_singleton hr, bind_assoc, pure_bind]
      refine hargs.bind fun ms hms => ?_
      have hplain := forall_mem_of_forall₂ hms (fun _ _ => trivial) fun _ _ _ h _ => h.1
      exact .pure ⟨.function hk hkp hr hplain, rfl⟩

/-! ## Values are final -/

theorem Node.evaluateAll_eq_pure (h : ∀ c ∈ cs, c.evaluate s = pure c) :
    evaluateAll s cs = pure cs := by
  induction cs with
  | nil => rfl
  | cons c cs ih =>
    rw [evaluateAll, h c mem_cons_self, ih fun d hd => h d (mem_cons_of_mem _ hd),
      pure_bind, pure_bind]

/-- **A plain tree is its own value.** -/
theorem IsPlain.evaluate (h : IsPlain n) : n.evaluate s = pure n := by
  induction h with
  | literal h => exact evaluate_literal h
  | group h _ ih =>
    unfold Node.evaluate
    rcases h with h | h | h <;> simp only [h, evaluateAll_eq_pure ih, pure_bind]
  | function h _ hr _ ih =>
    unfold Node.evaluate
    simp only [h, evaluateArguments_singleton hr, evaluateAll_eq_pure ih, pure_bind]

end Cascade
