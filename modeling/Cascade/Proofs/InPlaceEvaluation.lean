import Cascade.Document.Evaluation
import Cascade.Proofs.Copies
import Cascade.Proofs.Removal

/-!
# Evaluation in place

An expression of a document is evaluated where it stands: operands give way to their values under
their parents, variables to copies of what they are bound to, and commands become functions.  This
file shows that such an evaluation gives the value that the evaluator of trees gives for the tree
that is there, or fails as it does, and that it never touches what variables are bound to.

The two evaluators run in step.  All that the one in place may do to the document is to change what
is below the expression and to put another node in its place; the trees that variables are bound to
are detached, so that nothing of this reaches them.
-/

set_option autoImplicit false

namespace Cascade

open Document List

variable {before after : List Key}

namespace Document

variable {d d' d'' : Document} {key key' k p q a : Key} {n : Nat} {tree : Node}

/-! ## Changes below a node -/

/-- `d'` differs from `d` below `p` alone, and `p` keeps its label and its parent. -/
structure Changes (d d' : Document) (p : Key) : Prop where
  linked : d'.Linked
  file_eq : d'.file = d.file
  size_le : d.cells.size ≤ d'.cells.size
  label?_eq : d'.label? p = d.label? p
  parent?_eq : d'.parent? p = d.parent? p
  cells_eq : ∀ k < d.cells.size, ¬ d.Above p k → d'.cells[k]? = d.cells[k]?

/-- `key'` stands in the place of `key` below `p`, and nothing else has changed but what was below
`key`. -/
structure Replaced (d d' : Document) (p key key' : Key) : Prop where
  linked : d'.Linked
  file_eq : d'.file = d.file
  size_le : d.cells.size ≤ d'.cells.size
  label?_eq : d'.label? p = d.label? p
  parent?_eq : d'.parent? p = d.parent? p
  parent?_new : d'.parent? key' = some p
  childKeys_eq : d'.childKeys p = (d.childKeys p).replace key key'
  cells_eq : ∀ k < d.cells.size, k ≠ p → ¬ d.Above key k → d'.cells[k]? = d.cells[k]?

theorem reads_congr (h : d'.cells[k]? = d.cells[k]?) :
    d'.label? k = d.label? k ∧ d'.childKeys k = d.childKeys k := by
  rw [label?, label?, childKeys, childKeys, h]
  exact ⟨rfl, rfl⟩

namespace Changes

theorem refl (hd : d.Linked) (p : Key) : Changes d d p :=
  ⟨hd, rfl, le_rfl, rfl, rfl, fun _ _ _ => rfl⟩

/-- Above a node that is not below `p`, nothing has changed. -/
theorem above (h : Changes d d' p) (hd : d.Linked) (hk : k < d.cells.size) (hp : ¬ d.Above p k)
    (ha : d'.Above a k) : d.Above a k := by
  induction ha with
  | self => exact .self
  | @step k q hq _ ih =>
    rw [parent?, h.cells_eq k hk hp] at hq
    exact .step hq (ih (hd.lt_size_of_parent? hq) fun habove => hp (.step hq habove))

theorem trans (h : Changes d d' p) (hd : d.Linked) (h' : Changes d' d'' p) : Changes d d'' p where
  linked := h'.linked
  file_eq := h'.file_eq.trans h.file_eq
  size_le := h.size_le.trans h'.size_le
  label?_eq := h'.label?_eq.trans h.label?_eq
  parent?_eq := h'.parent?_eq.trans h.parent?_eq
  cells_eq k hk hp := by
    rw [h'.cells_eq k (hk.trans_le h.size_le) fun ha => hp (h.above hd hk hp ha),
      h.cells_eq k hk hp]

/-- Changes below a child come before it is replaced. -/
theorem replaced (h : Changes d d' key) (hd : d.Linked) (hp : d.parent? key = some p)
    (h' : Replaced d' d'' p key key') : Replaced d d'' p key key' := by
  have hcell := h.cells_eq p (hd.lt_size_of_parent? hp) (hd.not_above_of_parent? hp)
  refine ⟨h'.linked, h'.file_eq.trans h.file_eq, h.size_le.trans h'.size_le, ?_, ?_,
    h'.parent?_new, ?_, ?_⟩
  · rw [h'.label?_eq, label?, hcell, label?]
  · rw [h'.parent?_eq, parent?, hcell, parent?]
  · rw [h'.childKeys_eq, childKeys, hcell, childKeys]
  · intro k hk hkp hnot
    rw [h'.cells_eq k (hk.trans_le h.size_le) hkp fun ha => hnot (h.above hd hk hnot ha),
      h.cells_eq k hk hnot]

end Changes

namespace Replaced

theorem self (hd : d.Linked) (hp : d.parent? key = some p) : Replaced d d p key key := by
  refine ⟨hd, rfl, le_rfl, rfl, rfl, hp, ?_, fun _ _ _ _ => rfl⟩
  obtain ⟨before, after, h, -, hmem, -⟩ := hd.exists_position hp
  rw [h, append_assoc, replace_append_right (fun hb => hmem (mem_append_left _ hb)),
    singleton_append, replace_cons_self]

theorem changes (h : Replaced d d' p key key') (hp : d.parent? key = some p) : Changes d d' p :=
  ⟨h.linked, h.file_eq, h.size_le, h.label?_eq, h.parent?_eq, fun k hk hnot =>
    h.cells_eq k hk (fun heq => hnot (heq ▸ .self)) fun ha => hnot ((Above.parent hp).trans ha)⟩

/-- **The other children are as they were.** -/
theorem others (h : Replaced d d' p key key') (hd : d.Linked)
    (hkeys : d.childKeys p = before ++ key :: after) :
    d'.childKeys p = before ++ key' :: after ∧ ∀ q ∈ before ++ after, d'.view q = d.view q := by
  have hnodup : (key :: (before ++ after)).Nodup := perm_middle.nodup_iff.1 (hkeys ▸ hd.nodup p)
  rw [nodup_cons] at hnodup
  refine ⟨?_, fun q hq => ?_⟩
  · rw [h.childKeys_eq, hkeys, replace_append_right, replace_cons_self]
    exact fun hmem => hnodup.1 (mem_append_left _ hmem)
  have hparent {c : Key} (hc : c ∈ key :: (before ++ after)) : d.parent? c = some p :=
    hd.mem_childKeys.1 (hkeys ▸ perm_middle.mem_iff.2 hc)
  have hapart {a b : Key} (ha : d.parent? a = some p) (hb : d.parent? b = some p) (hne : b ≠ a) :
      ¬ d.Above b a := fun habove => by
    cases habove with
    | self => exact hne rfl
    | step ha' habove =>
      rw [ha] at ha'
      cases ha'
      exact hd.not_above_of_parent? hb habove
  have hp := hparent mem_cons_self
  have hq' := hparent (mem_cons_of_mem _ hq)
  have hne : q ≠ key := fun heq => hnodup.1 (heq ▸ hq)
  have hcells (k : Key) (hk : d.Above q k) : d'.cells[k]? = d.cells[k]? := by
    refine h.cells_eq k (hk.lt_size (lt_size_of_parent? hq')) ?_ fun ha => ?_
    · rintro rfl
      exact hd.not_above_of_parent? hq' hk
    · exact (ha.total hk).elim (hapart hq' hp hne.symm) (hapart hp hq' hne)
  exact hd.view_congr h.size_le fun k hk => reads_congr (hcells k hk)

end Replaced

/-- What has changed below a child has changed below its parent. -/
theorem Changes.lift (h : Changes d d' key) (hd : d.Linked) (hp : d.parent? key = some p) :
    Changes d d' p :=
  (h.replaced hd hp (.self h.linked (h.parent?_eq.trans hp))).changes hp

theorem file_replace (d : Document) (old new : Key) : (d.replace old new).file = d.file := by
  have hremove : (d.remove new).file = d.file := by
    rw [remove]
    split <;> rfl
  rw [Document.replace]
  split
  · rfl
  · dsimp only
    split
    · simp only [setParent, setRelation, relabel, setChildren, update, hremove]
    · exact hremove

/-- The cells of the old node, the new one and their parent are all that changes. -/
theorem Linked.cells_replace (hd : d.Linked) (hp : d.parent? key = some p)
    (hnone : d.parent? key' = none) (hnot : ¬ d.Above key' key) (k : Key) :
    (d.replace key key').cells[k]? =
      if k = p then
        d.cells[k]?.map fun cell => { cell with children := (d.childKeys p).replace key key' }
      else if k = key then d.cells[k]?.map fun cell => { cell with parent := none }
      else if k = key' then d.cells[k]?.map fun cell =>
        { cell with label.relation := d.relation? key, parent := some p }
      else d.cells[k]? := by
  have hne : key ≠ key' := fun heq => hnot (heq ▸ .self)
  have hpk : p ≠ key := fun heq => hd.not_above_of_parent? hp (heq ▸ .self)
  have hpk' : p ≠ key' := fun heq => hnot (.step hp (heq ▸ .self))
  obtain ⟨before, after, hchildren, -, hmem, hindex⟩ := hd.exists_position hp
  have hset : (d.childKeys p).set before.length key' = (d.childKeys p).replace key key' := by
    rw [hchildren, append_assoc, replace_append_right (fun hb => hmem (mem_append_left _ hb))]
    simp
  rw [Document.replace, if_neg hne, remove_of_parent?_eq_none hnone]
  simp only [hp, hindex, hset]
  have hrelation : ((d.setChildren p ((d.childKeys p).replace key key')).setParent key'
      (some p)).relation? key = d.relation? key := by
    rw [relation?, label?_setParent, label?_setChildren, relation?]
  rw [hrelation]
  simp only [setParent, setRelation, relabel, setChildren, cells_update, @eq_comm _ _ k]
  by_cases hkp : k = p
  · subst hkp
    simp [hpk, hpk']
  · by_cases hk : k = key
    · simp [hk, hne, hpk.symm]
    · by_cases hk' : k = key'
      · subst hk'
        simp [hk, hkp, Function.comp_def]
      · simp [hk, hkp, hk']

/-- **A new tree in the place of a node** takes over the relation of the node. -/
theorem Planted.replaced (hnew : Planted d d' key' tree) (hd : d.Linked)
    (hp : d.parent? key = some p) :
    Replaced d (d'.replace key key') p key key' ∧
      (d'.replace key key').view key' = tree.withRelation (d.labelAt key).relation := by
  have hkey := lt_size_of_parent? hp
  have hlt := hd.lt_size_of_parent? hp
  have hold {k : Key} (hk : k < d.cells.size) : k ≠ key' := by
    rw [hnew.key_eq]
    exact hk.ne
  have hp' : d'.parent? key = some p := by rw [parent?, hnew.cells_eq key hkey, ← hp, parent?]
  have hnot : ¬ d'.Above key' key := hnew.fresh.not_above hd hkey (mem_singleton_self key')
  have hcells := hnew.linked.cells_replace hp' hnew.parent?_key hnot
  have hreplace := hnew.linked.replace key hnew.key_lt hnot
  have hcell := hcells key'
  rw [if_neg (hold hlt).symm, if_neg (hold hkey).symm, if_pos rfl] at hcell
  refine ⟨⟨hreplace.linked, ?_, ?_, ?_, ?_, ?_, ?_, fun k hk hkp hk' => ?_⟩, ?_⟩
  · rw [file_replace, hnew.file_eq]
  · rw [hreplace.size_eq]
    exact hnew.toExtends.size_le
  · rw [label?, hcells, if_pos rfl, Option.map_map, hnew.cells_eq p hlt]
    rfl
  · rw [parent?, hcells, if_pos rfl, Option.bind_map, hnew.cells_eq p hlt]
    rfl
  · rw [parent?, hcell, Array.getElem?_eq_getElem hnew.key_lt]
    rfl
  · simp [childKeys, hcells, hnew.cells_eq p hlt, Array.getElem?_eq_getElem hlt]
  · have hne : k ≠ key := fun heq => hk' (heq ▸ .self)
    rw [hcells, if_neg hkp, if_neg hne, if_neg (hold hk), hnew.cells_eq k hk]
  · have hview := hnew.view_key
    rw [hnew.linked.view_eq] at hview
    have hrelation : d'.relation? key = (d.labelAt key).relation := by
      rw [relation?, label?, hnew.cells_eq key hkey, labelAt, label?,
        Array.getElem?_eq_getElem hkey]
      rfl
    have hlabel : (d'.replace key key').labelAt key' =
        { d'.labelAt key' with relation := (d.labelAt key).relation } := by
      rw [labelAt, label?, hcell, labelAt, label?, Array.getElem?_eq_getElem hnew.key_lt, hrelation]
      rfl
    have hkeys : (d'.replace key key').childKeys key' = d'.childKeys key' := by
      rw [childKeys, hcell, childKeys, Option.map_map]
      rfl
    rw [hreplace.linked.view_eq, ← hview, hlabel, hkeys]
    refine congrArg _ (map_congr_left fun c hc => ?_)
    have hc' := hnew.linked.mem_childKeys.1 hc
    refine hnew.linked.view_congr hreplace.size_eq.ge fun k hk => ?_
    have hold' (x : Key) (hx : x < d.cells.size) : k ≠ x := fun heq =>
      hnew.fresh.not_above hd hx (mem_singleton_self key') (heq ▸ (Above.parent hc').trans hk)
    have hne : k ≠ key' := fun heq => hnew.linked.not_above_of_parent? hc' (heq ▸ hk)
    have heq : (d'.replace key key').cells[k]? = d'.cells[k]? := by
      rw [hcells, if_neg (hold' p hlt), if_neg (hold' key hkey), if_neg hne]
    exact reads_congr heq

/-- The trees that variables are bound to. -/
def trees (d : Document) (values : KeyBindings) : Bindings :=
  values.map fun (name, key) => (name, d.view key)

/-- Expressions below `p` can be evaluated: variables are bound to detached trees, none of which
holds the node at `p`. -/
structure Ready (s : Surroundings) (d : Document) (values : KeyBindings) (bindings : Bindings)
    (p : Key) : Prop where
  linked : d.Linked
  file_eq : d.file = s.file
  trees_eq : d.trees values = bindings
  lt_size : ∀ entry ∈ values, entry.2 < d.cells.size
  detached : ∀ entry ∈ values, d.parent? entry.2 = none
  not_above : ∀ entry ∈ values, ¬ d.Above entry.2 p

namespace Ready

variable {s : Surroundings} {values : KeyBindings} {bindings : Bindings}

variable (h : Ready s d values bindings p)

include h

theorem child (hp : d.parent? key = some p) : Ready s d values bindings key := by
  refine ⟨h.linked, h.file_eq, h.trees_eq, h.lt_size, h.detached, fun entry he ha => ?_⟩
  cases ha with
  | self => exact absurd (h.detached entry he) (by rw [hp]; exact nofun)
  | step hq ha =>
    rw [hp] at hq
    cases hq
    exact h.not_above entry he ha

/-- No node belongs to both. -/
theorem apart : ∀ entry ∈ values, ∀ k, ¬ (d.Above entry.2 k ∧ d.Above p k) := by
  rintro entry he k ⟨hk, hk'⟩
  refine h.not_above entry he ((hk.total hk').elim id fun ha => ?_)
  rw [ha.eq_of_parent?_eq_none (h.detached entry he)]
  exact .self

/-- **Changes do not reach what variables are bound to.** -/
theorem changes (hc : Changes d d' p) : Ready s d' values bindings p := by
  have hd := h.linked
  have hcells : ∀ entry ∈ values, ∀ k, d.Above entry.2 k → d'.cells[k]? = d.cells[k]? := by
    exact fun entry he k hk =>
      hc.cells_eq k (hk.lt_size (h.lt_size entry he)) fun hp => h.apart entry he k ⟨hk, hp⟩
  refine ⟨hc.linked, hc.file_eq.trans h.file_eq, ?_,
    fun entry he => (h.lt_size entry he).trans_le hc.size_le, fun entry he => ?_,
    fun entry he ha => h.not_above entry he ?_⟩
  · rw [← h.trees_eq]
    exact map_congr_left fun entry he => congrArg _ <|
      hd.view_congr hc.size_le fun k hk => reads_congr (hcells entry he k hk)
  · rw [parent?, hcells entry he _ .self]
    exact h.detached entry he
  · cases ha with
    | self => exact .self
    | step hq ha =>
      rw [hc.parent?_eq] at hq
      exact .step hq (hc.above hd (hd.lt_size_of_parent? hq) (hd.not_above_of_parent? hq) ha)

theorem find?_eq (name : String) :
    NameTable.find? name bindings = (NameTable.find? name values).map d.view := by
  rw [← h.trees_eq, trees]
  clear h
  induction values with
  | nil => rfl
  | cons entry rest ih =>
    obtain ⟨other, key⟩ := entry
    simp only [map_cons, NameTable.find?_cons, ih]
    split <;> rfl

end Ready

end Document

/-! ## Two evaluators in step -/

/-- Run on `d'`, a computation in place ends as a pure one does, which leaves the bindings as they
are.  If they fail, then after changes of `d` below `q` alone. -/
def InStep {α β : Type} (d : Document) (q : Key) (bindings : Bindings)
    (post : α → β → Document → Prop) (x : Evaluation α) (m : Editing β) (d' : Document) : Prop :=
  (∃ a b d'', x bindings = .ok (a, bindings) ∧ m d' = (.ok b, d'') ∧ post a b d'') ∨
    ∃ e d'', x bindings = .error e ∧ m d' = (.error e, d'') ∧ Changes d d'' q

namespace InStep

variable {α β γ δ : Type} {d d' : Document} {p q key : Key} {bindings : Bindings}
  {x : Evaluation α} {f : α → Evaluation γ} {m : Editing β} {g : β → Editing δ}
  {mid : α → β → Document → Prop} {post : γ → δ → Document → Prop}

theorem pure {a : α} {b : β} (h : mid a b d') :
    InStep d q bindings mid (Pure.pure a) (Pure.pure b) d' :=
  .inl ⟨a, b, d', rfl, rfl, h⟩

theorem bind (h : InStep d q bindings mid x m d')
    (hf : ∀ a b d'', mid a b d'' → InStep d q bindings post (f a) (g b) d'') :
    InStep d q bindings post (x >>= f) (m >>= g) d' := by
  have hx : (x >>= f) bindings = (x bindings >>= fun r => f r.1 r.2) := rfl
  have hm : (m >>= g) d' = ExceptT.bindCont g (m d').1 (m d').2 := rfl
  rw [InStep, hx, hm]
  obtain ⟨a, b, d'', hx, hm, h⟩ | ⟨e, d'', hx, hm, h⟩ := h
  · rw [hx, hm]
    exact hf a b d'' h
  · rw [hx, hm]
    exact .inr ⟨e, d'', rfl, rfl, h⟩

theorem look_bind {read : Document → δ} {g : δ → Editing β}
    (h : InStep d q bindings mid x (g (read d')) d') :
    InStep d q bindings mid x (Editing.look read >>= g) d' := h

/-- The pure computation may go on. -/
theorem map {post : γ → β → Document → Prop} (f : α → γ) (h : InStep d q bindings mid x m d')
    (hf : ∀ a b d'', mid a b d'' → post (f a) b d'') :
    InStep d q bindings post (x >>= fun a => Pure.pure (f a)) m d' := by
  rw [← bind_pure m]
  exact h.bind fun a b d'' h => .pure (hf a b d'' h)

theorem imp {d₀ : Document} {mid' : α → β → Document → Prop} (h : InStep d key bindings mid x m d')
    (hok : ∀ a b d'', mid a b d'' → mid' a b d'')
    (herror : ∀ d'', Changes d d'' key → Changes d₀ d'' q) : InStep d₀ q bindings mid' x m d' :=
  Or.imp (fun ⟨a, b, d'', hx, hm, h⟩ => ⟨a, b, d'', hx, hm, hok a b d'' h⟩)
    (fun ⟨e, d'', hx, hm, h⟩ => ⟨e, d'', hx, hm, herror d'' h⟩) h

theorem ofResult {s : Surroundings} {line : Nat} {result : Except EvalError α}
    (hchanges : Changes d d' q) (hline : d'.location q = ⟨s.file, line⟩) :
    InStep d q bindings (fun a b d'' => b = a ∧ d'' = d') (Evaluation.ofResult s line result)
      (Editing.ofResult q result) d' := by
  cases result with
  | ok a => exact .pure ⟨rfl, rfl⟩
  | error e => exact .inr ⟨⟨.eval e, ⟨s.file, line⟩⟩, d', rfl, by rw [← hline]; rfl, hchanges⟩

end InStep

open Editing

/-- What holds after the evaluation of the expression at `key`. -/
def Evaluates (d : Document) (p key : Key) (values : KeyBindings) (value : Node)
    (result : Key × KeyBindings) (d' : Document) : Prop :=
  result.2 = values ∧ Replaced d d' p key result.1 ∧ d'.view result.1 = value

/-- An expression of up to `n` levels, without assignments. -/
def Node.Bounded : Nat → Node → Prop
  | 0, _ => False
  | n + 1, .mk l cs => l.kind.form ≠ .assign ∧ ∀ c ∈ cs, Bounded n c

theorem Node.Bounded.succ {n : Nat} {tree : Node} (h : tree.Bounded n) : tree.Bounded (n + 1) := by
  induction n generalizing tree with
  | zero => exact h.elim
  | succ n ih =>
    obtain ⟨l, cs⟩ := tree
    exact ⟨h.1, fun c hc => ih (h.2 c hc)⟩

theorem Document.Linked.bounded_child {d : Document} {n : Nat} {key : Key} (hd : d.Linked)
    (h : (d.view key).Bounded (n + 1)) : (d.kindAt key).form ≠ .assign ∧
      ∀ {c : Key}, c ∈ d.childKeys key → (d.view c).Bounded n := by
  rw [hd.view_eq] at h
  exact ⟨h.1, fun hc => h.2 _ (mem_map_of_mem hc)⟩

/-- An evaluator that evaluates expressions of up to `n` levels as the pure one does. -/
def Faithful (s : Surroundings) (n : Nat) (evaluate : Evaluator) : Prop :=
  ∀ {d : Document} {key p : Key} {values : KeyBindings} {bindings : Bindings},
    (d.view key).Bounded n → d.parent? key = some p → Ready s d values bindings p →
      InStep d key bindings (Evaluates d p key values) ((d.view key).evaluate s)
        (evaluate key values) d

section Faithful

variable {s : Surroundings} {n : Nat} {evaluate : Evaluator} {d d' : Document} {p key c : Key}
  {values : KeyBindings} {bindings : Bindings}

section

variable (h : Faithful s n evaluate) (hr : Ready s d values bindings key)

include h hr

theorem Faithful.child (hchanges : Changes d d' key) (hc : d'.parent? c = some key)
    (hn : (d'.view c).Bounded n) :
    InStep d key bindings (fun value result d'' => Changes d d'' key ∧
        Evaluates d' key c values value result d'')
      ((d'.view c).evaluate s) (evaluate c values) d' :=
  (h hn hc (hr.changes hchanges)).imp
    (fun _ _ _ he => ⟨hchanges.trans hr.linked (he.2.1.changes hc), he⟩)
    fun _ hchanges' => hchanges.trans hr.linked (hchanges'.lift hchanges.linked hc)

omit h hr in
theorem evaluateAll_cons (evaluate : Evaluator) (key : Key) (rest : List Key)
    (values : KeyBindings) : evaluateAll evaluate (key :: rest) values =
      evaluate key values >>= fun result => evaluateAll evaluate rest result.2 := by
  simp [evaluateAll, foldlM_cons]

/-- Expressions that stand side by side. -/
theorem Faithful.evaluateAll {keys : List Key} (hkeys : d.childKeys key = before ++ keys)
    (hn : ∀ c ∈ keys, (d.view c).Bounded n) :
    InStep d key bindings (fun nodes result d' => result = values ∧ Changes d d' key ∧
        (d'.childKeys key).map d'.view = before.map d.view ++ nodes)
      (Node.evaluateAll s (keys.map d.view)) (evaluateAll evaluate keys values) d := by
  induction keys generalizing d before with
  | nil => exact .pure ⟨rfl, .refl hr.linked key, by rw [hkeys, append_nil, append_nil]⟩
  | cons first rest ih =>
    have hd := hr.linked
    rw [forall_mem_cons] at hn
    rw [map_cons, Node.evaluateAll, evaluateAll_cons]
    refine (h.child hr (.refl hd key) (hd.mem_childKeys.1 (by simp [hkeys])) hn.1).bind ?_
    rintro _ ⟨first', _⟩ d₁ ⟨hchanges, rfl, hreplaced, rfl⟩
    obtain ⟨hkeys₁, hothers⟩ := hreplaced.others hd hkeys
    rw [append_cons] at hkeys₁
    have hrest : rest.map d.view = rest.map d₁.view :=
      map_congr_left fun c hc => (hothers c (mem_append_right _ hc)).symm
    have hn₁ : ∀ c ∈ rest, (d₁.view c).Bounded n := fun c hc =>
      (hothers c (mem_append_right _ hc)).symm ▸ hn.2 c hc
    rw [hrest]
    refine .map _ ((ih (hr.changes hchanges) hkeys₁ hn₁).imp (fun _ _ _ => id)
      fun _ => hchanges.trans hd) ?_
    rintro nodes _ d₂ ⟨rfl, hchanges₂, hviews⟩
    refine ⟨rfl, hchanges.trans hd hchanges₂, ?_⟩
    rw [hviews, map_append, append_assoc]
    exact congrArg (· ++ _) (map_congr_left fun c hc => hothers c (mem_append_left _ hc))

/-- The value of an operand is all that its evaluation leaves behind. -/
theorem Faithful.operand (hchanges : Changes d d' key)
    (hkeys : d'.childKeys key = before ++ c :: after) (hn : (d'.view c).Bounded n) :
    InStep d key bindings (fun value result d'' => result = (value, values) ∧ Changes d d'' key ∧
        ∃ c', d''.childKeys key = before ++ c' :: after ∧
          ∀ q ∈ before ++ after, d''.view q = d'.view q)
      (Value.ofNode <$> (d'.view c).evaluate s) (operand evaluate c values) d' := by
  rw [map_eq_pure_bind]
  refine (h.child hr hchanges (hchanges.linked.mem_childKeys.1 (by simp [hkeys])) hn).bind ?_
  rintro _ ⟨c', _⟩ d'' ⟨hchanges'', rfl, hreplaced, rfl⟩
  exact .look_bind (.pure ⟨rfl, hchanges'', c', hreplaced.others hchanges.linked hkeys⟩)

omit h in
theorem isUnset_view (c : Key) : isUnset bindings (d.view c).kind = d.isUnsetAt values c := by
  have hkind : (d.view c).kind = d.kindAt c := by
    rw [hr.linked.view_eq]
    rfl
  rw [hkind]
  unfold isUnset isUnsetAt
  cases d.kindAt c with
  | reference name => simp only [NameTable.contains, hr.find?_eq, Option.isSome_map]
  | _ => rfl

/-- An operand that is missing is null. -/
theorem Faithful.leftOperand (hkeys : d.childKeys key = before ++ c :: after)
    (hn : (d.view c).Bounded n) (operator : BinaryOp) :
    InStep d key bindings (fun value result d' => result = (value, values) ∧ Changes d d' key ∧
        ∃ c', d'.childKeys key = before ++ c' :: after ∧
          ∀ q ∈ before ++ after, d'.view q = d.view q)
      (if operator == .default && isUnset bindings (d.view c).kind then pure .null
        else Value.ofNode <$> (d.view c).evaluate s)
      (leftOperand evaluate operator c values) d := by
  rw [isUnset_view hr]
  refine .look_bind ?_
  by_cases hunset : (operator == .default && d.isUnsetAt values c) = true
  · rw [if_pos hunset, if_pos hunset]
    exact .pure ⟨rfl, .refl hr.linked key, c, hkeys, fun _ _ => rfl⟩
  · rw [if_neg hunset, if_neg hunset]
    exact h.operand hr (.refl hr.linked key) hkeys hn

end

theorem Document.Linked.relation_view (hd : d.Linked) (key : Key) :
    (d.view key).relation = d.relation? key := by
  rw [hd.view_eq, relation?]
  show ((d.label? key).getD default).relation = _
  cases d.label? key <;> rfl

namespace Node

variable {cs before after : List Node} {m : Node}

theorem evaluateArguments_of_forall (h : ∀ c ∈ cs, c.relation ≠ some .params) :
    evaluateArguments s cs = pure cs := by
  induction cs with
  | nil => rw [evaluateArguments]
  | cons c cs ih =>
    obtain ⟨l, ds⟩ := c
    rw [forall_mem_cons] at h
    rw [evaluateArguments, if_neg (c := l.relation = some .params) h.1, ih h.2, pure_bind]

theorem evaluateArguments_append (hm : m.relation = some .params)
    (h : ∀ c ∈ before, c.relation ≠ some .params) :
    evaluateArguments s (before ++ m :: after) =
      evaluateAll s m.children >>= fun ms => pure (before ++ mk m.label ms :: after) := by
  induction before with
  | nil =>
    obtain ⟨l, ds⟩ := m
    rw [nil_append, evaluateArguments, if_pos (c := l.relation = some .params) hm]
    rfl
  | cons c cs ih =>
    obtain ⟨l, ds⟩ := c
    rw [forall_mem_cons] at h
    rw [cons_append, evaluateArguments, if_neg (c := l.relation = some .params) h.1, ih h.2,
      bind_assoc]
    simp only [pure_bind, cons_append]

end Node

/-- The expression itself stays in its place. -/
theorem Document.Changes.stays (hchanges : Changes d d' key) (hd : d.Linked)
    (hp : d.parent? key = some p) {nodes : List Node}
    (hview : (d'.childKeys key).map d'.view = nodes) (values : KeyBindings) :
    Evaluates d p key values (.mk (d.labelAt key) nodes) (key, values) d' := by
  have hself := Replaced.self hchanges.linked (hchanges.parent?_eq.trans hp)
  refine ⟨rfl, hchanges.replaced hd hp hself, ?_⟩
  rw [hchanges.linked.view_eq, hview, labelAt, hchanges.label?_eq, labelAt]

theorem Faithful.evaluateArguments (h : Faithful s n evaluate) (hr : Ready s d values bindings key)
    (hn : ∀ c ∈ d.childKeys key, (d.view c).Bounded n) :
    InStep d key bindings (fun nodes result d' => result = values ∧ Changes d d' key ∧
        (d'.childKeys key).map d'.view = nodes)
      (Node.evaluateArguments s ((d.childKeys key).map d.view))
      (evaluateArguments evaluate key values) d := by
  have hd := hr.linked
  refine .look_bind ?_
  rw [argumentKeys, Document.child?]
  cases hparams : (d.childKeys key).find? fun child => d.relation? child == some .params with
  | none =>
    rw [find?_eq_none] at hparams
    rw [Node.evaluateArguments_of_forall]
    · exact .pure ⟨rfl, .refl hd key, rfl⟩
    · refine forall_mem_map.2 fun c hc => ?_
      rw [hd.relation_view]
      simpa using hparams c hc
  | some c =>
    obtain ⟨hc, before, after, hkeys, hbefore⟩ := find?_eq_some_iff_append.1 hparams
    have hmem : c ∈ d.childKeys key := by simp [hkeys]
    have hkey := hd.mem_childKeys.1 hmem
    rw [hkeys, map_append, map_cons, Node.evaluateArguments_append, hd.view_eq c]
    · have hall := h.evaluateAll (hr.child hkey) (nil_append (d.childKeys c)).symm fun c' hc' =>
        (hd.bounded_child (hn c hmem).succ).2 hc'
      refine .map _ (hall.imp (fun _ _ _ => id) fun _ hchanges => hchanges.lift hd hkey) ?_
      rintro nodes _ d' ⟨rfl, hchanges, hviews⟩
      refine ⟨rfl, hchanges.lift hd hkey, ?_⟩
      obtain ⟨-, hreplaced, hview⟩ := hchanges.stays hd hkey hviews []
      obtain ⟨hkeys', hothers⟩ := hreplaced.others hd hkeys
      rw [hkeys', map_append, map_cons, hview]
      congr 1
      · exact map_congr_left fun c' hc' => hothers c' (mem_append_left _ hc')
      · exact congrArg _ (map_congr_left fun c' hc' =>
          hothers c' (mem_append_right _ hc'))
    · rw [hd.relation_view]
      simpa using hc
    · refine forall_mem_map.2 fun c hc => ?_
      rw [hd.relation_view]
      simpa using hbefore c hc

/-- A command may be put in its own place as a function. -/
theorem Document.Replaced.relabel (hd : d.Linked) (hp : d.parent? key = some p)
    (change : Label → Label) :
    Replaced d (d.relabel key change) p key key ∧ (d.relabel key change).view key =
      .mk (change (d.labelAt key)) ((d.childKeys key).map d.view) := by
  have hlinked := hd.of_eq (parent?_relabel d key change) (childKeys_relabel d key change)
  have hcells {k : Key} (hk : k ≠ key) : (d.relabel key change).cells[k]? = d.cells[k]? := by
    rw [Document.relabel, cells_update, if_neg hk.symm]
  have hpk : p ≠ key := fun heq => hd.not_above_of_parent? hp (heq ▸ .self)
  refine ⟨⟨hlinked, rfl, (size_relabel ..).ge, (reads_congr (hcells hpk)).1,
    parent?_relabel .., (parent?_relabel ..).trans hp, ?_,
    fun k _ _ hk => hcells fun heq => hk (heq ▸ .self)⟩, ?_⟩
  · rw [childKeys_relabel, ← (self hd hp).childKeys_eq]
  · have hlabel : (d.relabel key change).labelAt key = change (d.labelAt key) := by
      rw [labelAt, label?, Document.relabel, cells_update, if_pos rfl, labelAt, label?,
        Array.getElem?_eq_getElem (lt_size_of_parent? hp)]
      rfl
    rw [hlinked.view_eq, hlabel, childKeys_relabel]
    refine congrArg _ (map_congr_left fun c hc => ?_)
    refine hd.view_congr (size_relabel ..).ge fun k hk => reads_congr (hcells ?_)
    rintro rfl
    exact hd.not_above_of_parent? (hd.mem_childKeys.1 hc) hk

end Faithful

end Cascade
