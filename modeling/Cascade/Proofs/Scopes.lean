import Cascade.Scope.Unused
import Cascade.Proofs.Lookups
import Mathlib.Algebra.GroupWithZero.Nat

/-!
# What counting names finds

Counting goes through a tree from left to right, with the record of the block around it in hand.
What the record holds in the end can be said without any order.  Call a block with names of its own
a scope.  The names that are declared in a scope are those of all nodes to which a path leads that
enters no other scope, and a name is read there as often as nodes read it to which a path leads that
enters no scope with a declaration or a parameter of that name.
-/

set_option autoImplicit false

namespace Cascade

open List

variable {s t u scope : Scope} {x name : String}

/-! ## Tables of counts -/

/-- What a table says about a name after it has been counted `count` more times. -/
def raised (old : Option Nat) (count : Nat) : Option Nat :=
  if count = 0 then old else some (old.getD 0 + count)

theorem raised_raised (old : Option Nat) (i j : Nat) :
    raised (raised old i) j = raised old (i + j) := by
  unfold raised
  split <;> split <;> simp_all [Nat.add_assoc]

theorem isSome_raised {old : Option Nat} {count : Nat} :
    (raised old count).isSome = true ↔ old.isSome = true ∨ count ≠ 0 := by
  unfold raised
  split <;> simp_all

namespace Tally

variable {tally : Tally} {count : Nat}

/-- A table in order, in which every name has been counted. -/
structure Proper (tally : Tally) : Prop where
  ordered : tally.Ordered
  positive : ∀ entry ∈ tally, 0 < entry.2

theorem find?_add (tally : Tally) (h : 0 < count) : NameTable.find? x (tally.add name count) =
    raised (tally.find? x) (if name = x then count else 0) := by
  rw [add, NameTable.find?_insert, raised]
  by_cases hx : name = x
  · simp [hx, Nat.ne_of_gt h]
  · simp [hx, Ne.symm hx]

theorem Proper.insert {value : Nat} (h : tally.Proper) (hvalue : 0 < value) :
    Proper (NameTable.insert name value tally) :=
  ⟨h.ordered.insert, fun entry hentry =>
    (NameTable.mem_insert hentry).elim (fun heq => heq ▸ hvalue) (h.positive entry)⟩

theorem Proper.add (h : tally.Proper) (hcount : 0 < count) : (tally.add name count).Proper :=
  h.insert (Nat.add_pos_right _ hcount)

/-- The counts of a table are added to those of another one. -/
theorem Proper.foldl {inner : Tally} (h : inner.Proper) (outer : Tally) :
    let sum := inner.foldl (fun tally entry => Tally.add entry.1 entry.2 tally) outer
    (∀ x, NameTable.find? x sum =
      raised (outer.find? x) ((NameTable.find? x inner).getD 0)) ∧ (outer.Proper → sum.Proper) := by
  obtain ⟨hordered, hpositive⟩ := h
  induction inner generalizing outer with
  | nil => exact ⟨fun _ => rfl, id⟩
  | cons entry rest ih =>
    obtain ⟨hentry, hordered⟩ := pairwise_cons.1 hordered
    obtain ⟨hcount, hpositive⟩ := forall_mem_cons.1 hpositive
    obtain ⟨hfind, hproper⟩ := ih (outer.add entry.1 entry.2) hordered hpositive
    refine ⟨fun x => ?_, fun houter => hproper (houter.add hcount)⟩
    rw [foldl_cons, hfind, find?_add outer hcount, raised_raised, NameTable.find?_cons]
    by_cases hx : entry.1 = x
    · have hrest : NameTable.find? x rest = none := lookup_eq_none_iff.2 fun e he => by
        have hlt : x < e.1 := hx ▸ hentry e he
        simpa using fun heq : x = e.1 => String.lt_irrefl x (heq ▸ hlt)
      simp [hx, hrest]
    · simp [hx, Ne.symm hx]

end Tally

/-! ## Single nodes -/

/-- The name of the variable or the mixin that a node declares. -/
def Kind.declares : Kind → List String
  | .mixin name _ _ | .declaration name => [name]
  | _ => []

/-- The names that a node itself reads, as often as it does: variables and mixins, and with a name in
a package the package. -/
def Kind.accesses (kind : Kind) : List String :=
  (match kind with
    | .call name _ => [name]
    | kind => kind.reads).flatMap fun name => name :: (Text.package? name).toList

theorem Kind.mem_accesses_of_reads {kind : Kind} (h : x ∈ kind.reads) : x ∈ kind.accesses := by
  refine mem_flatMap.2 ⟨x, ?_, mem_cons_self⟩
  cases kind <;> first | exact h | cases h

namespace Scope

/-- **What has been counted between two states of a record**: the names that nodes declare and those
that they set, and the reads of each name. -/
structure Counts (s t : Scope) (names : (Kind → List String) → List String)
    (reads : String → Nat) : Prop where
  params : t.params = s.params
  owner : t.owner = s.owner
  declared : ∀ x, x ∈ t.declared ↔ x ∈ s.declared ∨ x ∈ names Kind.declares
  modified : ∀ x, x ∈ t.modified ↔ x ∈ s.modified ∨ x ∈ names Kind.settings
  accessed : ∀ x, t.accessed.find? x = raised (s.accessed.find? x) (reads x)
  proper : s.accessed.Proper → t.accessed.Proper

namespace Counts

variable {names names' : (Kind → List String) → List String} {reads reads' : String → Nat}

theorem refl (s : Scope) : s.Counts s (fun _ => []) fun _ => 0 :=
  ⟨rfl, rfl, by simp, by simp, fun _ => rfl, id⟩

theorem trans (h : s.Counts t names reads) (h' : t.Counts u names' reads') :
    s.Counts u (fun f => names f ++ names' f) fun x => reads x + reads' x :=
  ⟨h'.params.trans h.params, h'.owner.trans h.owner,
    fun x => by rw [h'.declared, h.declared, mem_append, or_assoc],
    fun x => by rw [h'.modified, h.modified, mem_append, or_assoc],
    fun x => by rw [h'.accessed, h.accessed, raised_raised], h'.proper ∘ h.proper⟩

/-- Reading alone neither declares nor sets anything. -/
theorem of_reads (h : s.Counts t (fun _ => []) reads) (hdeclares : names Kind.declares = [])
    (hsettings : names Kind.settings = []) : s.Counts t names reads :=
  ⟨h.params, h.owner, hdeclares ▸ h.declared, hsettings ▸ h.modified, h.accessed, h.proper⟩

theorem isAccessed_iff (h : s.Counts t names reads) :
    t.isAccessed x = true ↔ s.isAccessed x = true ∨ reads x ≠ 0 := by
  rw [isAccessed, NameTable.contains, h.accessed]
  exact isSome_raised

end Counts

theorem counts_access (name : String) (s : Scope) : s.Counts (s.access name) (fun _ => [])
    fun x => count x (name :: (Text.package? name).toList) := by
  rw [access]
  split
  · rename_i hnone
    rw [hnone]
    refine ⟨rfl, rfl, by simp, by simp, fun x => ?_, (·.add Nat.one_pos)⟩
    rw [Tally.find?_add _ Nat.one_pos, Option.toList_none, count_singleton']
  · rename_i package hsome
    rw [hsome]
    refine ⟨rfl, rfl, by simp, by simp, fun x => ?_, fun h => (h.add Nat.one_pos).add Nat.one_pos⟩
    rw [Tally.find?_add _ Nat.one_pos, Tally.find?_add _ Nat.one_pos, raised_raised, count_cons,
      Option.toList_some, count_singleton', Nat.add_comm]
    simp only [beq_iff_eq]

theorem counts_foldl (names : List String) (s : Scope) :
    s.Counts (names.foldl (fun scope name => scope.access name) s) (fun _ => [])
      fun x => count x (names.flatMap fun name => name :: (Text.package? name).toList) := by
  induction names generalizing s with
  | nil => exact .refl s
  | cons name names ih =>
    have h := (counts_access name s).trans (ih (s.access name))
    simpa only [flatMap_cons, count_append, foldl_cons, nil_append] using h

/-- **What one node adds to a record.** -/
theorem counts_record (kind : Kind) (s : Scope) :
    s.Counts (s.record kind) (fun f => f kind) fun x => count x kind.accesses := by
  cases kind with
  | mixin | declaration =>
    refine ⟨rfl, rfl, fun x => ?_, fun x => ?_, fun _ => rfl, id⟩ <;>
      simp [record, declare, modify, Kind.declares, Kind.settings, or_comm]
  | assign name operator =>
    have hmodify : s.Counts (s.modify name) (fun f => f (.assign name operator)) fun _ => 0 :=
      ⟨rfl, rfl, by simp [modify, Kind.declares], by simp [modify, Kind.settings, or_comm],
        fun _ => rfl, id⟩
    cases operator with
    | none => exact hmodify
    | some op =>
      have h := hmodify.trans (counts_foldl [name] _)
      simp only [append_nil, Nat.zero_add] at h
      exact h
  | reference name | call name extend => exact (counts_foldl [name] s).of_reads rfl rfl
  | _ => exact (counts_foldl _ s).of_reads rfl rfl

end Scope

/-! ## Names in a scope -/

namespace Node

/-- Whether a node is a scope: a block that is not a branch of a conditional. -/
def isScope (n : Node) : Bool :=
  n.kind.isBlock && !n.label.isBranch

theorem isScope_mk {l : Label} {cs : List Node} :
    (mk l cs).isScope = true ↔ l.kind = .block ∧ ¬ l.isBranch = true := by
  unfold isScope Kind.isBlock
  rw [kind_mk]
  split <;> simp_all

/-- The nodes to which a path leads on which every step from parent to child is allowed. -/
def reachable (allowed : Node → Node → Prop) [DecidableRel allowed] (b : Node) : List Node :=
  (b.places.filter fun place => (b.chain place.1).IsChain allowed).map (·.2)

/-- The names that nodes of a scope itself, not of the scopes inside it, declare or set. -/
def namesIn (b : Node) (f : Kind → List String) : List String :=
  (b.reachable fun _ c => ¬ c.isScope).flatMap (f ·.kind)

/-- The parameters that the body of a mixin has from it. -/
def bodyParams (p : Node) : List String :=
  if p.kind.isMixin then p.paramNames else []

/-- The name of a mixin. -/
def mixinName? (p : Node) : Option String :=
  match p.kind with
  | .mixin name _ _ => some name
  | _ => none

/-- A scope `c` in `p` has the name among its declarations or parameters. -/
abbrev Hides (x : String) (p c : Node) : Prop :=
  c.isScope ∧ (x ∈ c.namesIn Kind.declares ∨ x ∈ p.bodyParams)

/-- How often a name is read in a scope, or in scopes inside it that do not hide it. -/
def readCount (b : Node) (x : String) : Nat :=
  ((b.reachable fun p c => ¬ Hides x p c).flatMap (·.kind.accesses)).count x

/-- The reads of a name that a tree passes on to the scope around it, as a child of `p`. -/
def passedOn (c p : Node) (x : String) : Nat :=
  if Hides x p c then 0 else c.readCount x

theorem mem_preorder_of_mem_reachable {allowed : Node → Node → Prop} [DecidableRel allowed]
    {m n : Node} (h : m ∈ n.reachable allowed) : m ∈ n.preorder := by
  obtain ⟨place, hplace, rfl⟩ := mem_map.1 h
  obtain ⟨q, -, hget⟩ := mem_placesFrom.1 (mem_filter.1 hplace).1
  exact mem_preorder.2 ⟨q, hget⟩

theorem exists_of_mem_namesIn {f : Kind → List String} {b : Node} (h : x ∈ b.namesIn f) :
    ∃ m ∈ b.preorder, x ∈ f m.kind := by
  obtain ⟨m, hm, hx⟩ := mem_flatMap.1 h
  exact ⟨m, mem_preorder_of_mem_reachable hm, hx⟩

theorem placesFrom_eq_map (n : Node) (path : Path) :
    n.placesFrom path = n.places.map fun place => (path ++ place.1, place.2) := by
  induction n using ind generalizing path with
  | mk l cs ih =>
    rw [places, placesFrom, placesFrom, placesFromAll_eq_flatMap, placesFromAll_eq_flatMap,
      map_cons, append_nil, map_flatMap]
    refine congrArg _ (flatMap_congr fun c hc => ?_)
    have hmem : c.1 ∈ cs := fst_mem_of_mem_zipIdx hc
    rw [ih _ hmem, nil_append, ih _ hmem [c.2], map_map]
    simp [Function.comp_def]

/-- A path leads nowhere or into one of the children. -/
theorem reachable_mk (allowed : Node → Node → Prop) [DecidableRel allowed] (l : Label)
    (cs : List Node) : (mk l cs).reachable allowed =
      mk l cs :: cs.flatMap fun c => if allowed (mk l cs) c then c.reachable allowed else [] := by
  have hstep {c : Node} {i : Nat} (hc : cs[i]? = some c) (path : Path) :
      ((mk l cs).chain (i :: path)).IsChain allowed ↔
        allowed (mk l cs) c ∧ (c.chain path).IsChain allowed := by
    rw [chain, children_mk, hc]
    cases path <;> exact isChain_cons_cons
  rw [reachable, places, placesFrom, placesFromAll_eq_flatMap,
    filter_cons_of_pos (by exact decide_eq_true (.singleton _)), map_cons, filter_flatMap,
    map_flatMap]
  conv_rhs => rw [← zipIdx_map_fst 0 cs, flatMap_map, zipIdx_map_fst]
  refine congrArg _ (flatMap_congr fun c hc => ?_)
  rw [nil_append, placesFrom_eq_map, filter_map, map_map]
  simp only [Function.comp_def, singleton_append, hstep (mem_zipIdx_iff_getElem?.1 hc)]
  split <;> simp_all [reachable]

section Unfolding

variable (l : Label) (cs : List Node)

theorem namesIn_mk (f : Kind → List String) : (mk l cs).namesIn f =
    f l.kind ++ cs.flatMap fun c => if c.isScope then [] else c.namesIn f := by
  rw [namesIn, reachable_mk, flatMap_cons, flatMap_assoc]
  refine congrArg _ (flatMap_congr fun c _ => ?_)
  rw [ite_not, apply_ite (flatMap _)]
  rfl

theorem readCount_mk (x : String) : (mk l cs).readCount x =
    count x l.kind.accesses + (cs.map (·.passedOn (mk l cs) x)).sum := by
  rw [readCount, reachable_mk, flatMap_cons, count_append, flatMap_assoc, count_flatMap]
  refine congrArg _ (congrArg _ (map_congr_left fun c _ => ?_))
  rw [Function.comp_apply, ite_not, apply_ite (flatMap _), apply_ite (count x)]
  rfl

end Unfolding

theorem passedOn_eq {c : Node} (h : c.isScope = false) (p : Node) :
    c.passedOn p = c.readCount := by
  funext x
  simp [passedOn, h]

end Node

open Node

/-! ## Records of scopes -/

namespace Scope

variable {p b : Node}

/-- A block starts with the parameters and the name of its mixin. -/
theorem opening_spec (p : Node) : (opening p).declared = [] ∧ (opening p).modified = [] ∧
    (opening p).accessed = [] ∧ (opening p).owner = p.mixinName? ∧
    ∀ x, x ∈ (opening p).params ↔ x ∈ p.bodyParams := by
  unfold opening bodyParams mixinName?
  cases p.kind <;> simp [Kind.isMixin, NameSet.mem_ofList]

theorem find?_shared_finish (s : Scope) : s.finish.shared.find? x =
    if x ∈ s.declared ∨ x ∈ s.params then none else s.accessed.find? x := by
  have h := NameTable.find?_filter x
    (fun name => decide (name ∉ s.declared ∧ name ∉ s.params)) s.accessed
  rw [finish, h]
  grind

theorem not_isAccessed_of_unused (h : x ∈ s.finish.unused) : s.isAccessed x = false := by
  have hx := of_decide_eq_true (mem_filter.1 h).2
  exact Bool.eq_false_iff.2 hx.1

/-- The record of a scope in `p`, before it is finished. -/
structure Records (b p : Node) (s : Scope) : Prop where
  declared : ∀ x, x ∈ s.declared ↔ x ∈ b.namesIn Kind.declares
  params : ∀ x, x ∈ s.params ↔ x ∈ p.bodyParams
  owner : s.owner = p.mixinName?
  accessed : ∀ x, s.accessed.find? x = raised none (b.readCount x)
  proper : s.accessed.Proper

theorem Counts.records (h : (opening p).Counts s b.namesIn b.readCount) : Records b p s := by
  obtain ⟨hdeclared, -, haccessed, howner, hparams⟩ := opening_spec p
  refine ⟨fun x => ?_, fun x => ?_, h.owner.trans howner, fun x => ?_,
    h.proper (haccessed ▸ ⟨.nil, by simp⟩)⟩
  · rw [h.declared, hdeclared]
    exact or_iff_right not_mem_nil
  · rw [h.params, hparams]
  · rw [h.accessed, haccessed]
    rfl

/-- **What a scope shares with the scope around it** is read there as well. -/
theorem Records.absorb (h : Records b p s) (hb : b.isScope = true) (scope : Scope) :
    scope.Counts (s.finish.absorb scope) (fun _ => []) (b.passedOn p) := by
  have hshared : s.finish.shared.Proper :=
    ⟨h.proper.ordered.filter _, fun e he => h.proper.positive e (mem_of_mem_filter he)⟩
  have hfold := hshared.foldl scope.accessed
  refine ⟨rfl, rfl, by simp [Scope.absorb], by simp [Scope.absorb], fun x => ?_, hfold.2⟩
  refine (hfold.1 x).trans (congrArg _ ?_)
  refine (congrArg (·.getD 0) s.find?_shared_finish).trans ?_
  simp only [h.declared, h.params, h.accessed, passedOn, Hides, hb, true_and]
  split
  · rfl
  · unfold raised
    split <;> simp_all

/-- Two records of which the variables with `A` are changed in both or in none. -/
def ChangeAlike (A : String → Prop) (s t : Scope) : Prop :=
  ∀ x, A x → (x ∈ s.modified ↔ x ∈ t.modified)

/-- Counting the same makes no difference between records. -/
theorem ChangeAlike.counts {A : String → Prop} {s' t' : Scope}
    {names : (Kind → List String) → List String} {reads reads' : String → Nat}
    (h : ChangeAlike A s s') (ht : s.Counts t names reads) (ht' : s'.Counts t' names reads') :
    ChangeAlike A t t' := by
  intro x hx
  rw [ht.modified, ht'.modified, h x hx]

end Scope

/-! ## Counting a tree -/

namespace Node

section Scan

variable {opening : Scope} {l : Label} {cs : List Node}

theorem scanScopes_branch (hk : l.kind = .block) (hb : l.isBranch = true) :
    (mk l cs).scanScopes opening scope =
      (mk { l with scope := some {} } (scanScopesAll {} scope cs).1,
        (scanScopesAll {} scope cs).2) := by
  simp only [scanScopes, hk, hb, if_true]

theorem scanScopes_block (hk : l.kind = .block) (hb : ¬ l.isBranch = true) :
    (mk l cs).scanScopes opening scope =
      (mk { l with scope := some (scanScopesAll {} opening cs).2.finish }
        (scanScopesAll {} opening cs).1,
        (scanScopesAll {} opening cs).2.finish.absorb scope) := by
  simp only [scanScopes, hk, hb]
  rfl

theorem scanScopes_other (hk : l.kind ≠ .block) :
    (mk l cs).scanScopes opening scope =
      (mk l (scanScopesAll (.opening (mk l cs)) (scope.record l.kind) cs).1,
        (scanScopesAll (.opening (mk l cs)) (scope.record l.kind) cs).2) := by
  unfold scanScopes
  split
  · exact absurd ‹_› hk
  · rfl

end Scan

variable {l : Label} {cs : List Node} {n p : Node}

/-- Counting `c` as a child of `p` adds to a record what it has to. -/
abbrev Counted (c p : Node) : Prop :=
  ∀ scope : Scope, scope.Counts (c.scanScopes (.opening p) scope).2
    (fun f => if c.isScope then [] else c.namesIn f) (c.passedOn p)

theorem counts_scanScopesAll (hcs : ∀ c ∈ cs, c.Counted p) (scope : Scope) :
    scope.Counts (scanScopesAll (.opening p) scope cs).2
      (fun f => cs.flatMap fun c => if c.isScope then [] else c.namesIn f)
      fun x => (cs.map (·.passedOn p x)).sum := by
  induction cs generalizing scope with
  | nil => exact .refl scope
  | cons c cs ih =>
    obtain ⟨hc, hcs⟩ := forall_mem_cons.1 hcs
    exact (hc scope).trans (ih hcs _)

theorem opening_of_isBlockLike (hl : l.kind.isBlockLike = true) (cs : List Node) :
    Scope.opening (mk l cs) = {} ∧ l.kind.declares = [] ∧ l.kind.settings = [] ∧
      l.kind.accesses = [] := by
  rw [Scope.opening]
  revert hl
  simp only [kind_mk]
  cases l.kind with
  | sheet | block => exact fun _ => ⟨rfl, rfl, rfl, rfl⟩
  | _ => exact nofun

/-- A block or a stylesheet does nothing with names itself. -/
theorem counts_block (hl : l.kind.isBlockLike = true) (hcs : ∀ c ∈ cs, c.Counted (mk l cs))
    (scope : Scope) : scope.Counts (scanScopesAll {} scope cs).2 (mk l cs).namesIn
      (mk l cs).readCount := by
  obtain ⟨hopening, hdeclares, hsettings, haccesses⟩ := opening_of_isBlockLike hl cs
  obtain ⟨hparams, howner, hdeclared, hmodified, haccessed, hproper⟩ :=
    counts_scanScopesAll hcs scope
  rw [hopening] at *
  refine ⟨hparams, howner, ?_, ?_, fun x => ?_, hproper⟩
  · rwa [namesIn_mk, hdeclares]
  · rwa [namesIn_mk, hsettings]
  · rw [haccessed, readCount_mk, haccesses, count_nil, Nat.zero_add]

/-- **What counting a tree adds to the record of the scope around it.** -/
theorem counts_scanScopes (c p : Node) : c.Counted p := by
  intro scope
  induction c using Node.ind generalizing p scope with
  | mk l cs ih =>
    have hcs : ∀ c ∈ cs, c.Counted (mk l cs) := fun c hc => ih c hc (mk l cs)
    by_cases hk : l.kind = .block
    · have hlike : l.kind.isBlockLike = true := hk ▸ rfl
      by_cases hb : l.isBranch = true
      · have hscope : (mk l cs).isScope = false := by simp [← Bool.not_eq_true, isScope_mk, hb]
        rw [scanScopes_branch hk hb, hscope, passedOn_eq hscope]
        exact counts_block hlike hcs scope
      · have hscope : (mk l cs).isScope = true := isScope_mk.2 ⟨hk, hb⟩
        rw [scanScopes_block hk hb, hscope]
        exact (counts_block hlike hcs (.opening p)).records.absorb hscope scope
    · have hscope : (mk l cs).isScope = false := by simp [← Bool.not_eq_true, isScope_mk, hk]
      rw [scanScopes_other hk, hscope, passedOn_eq hscope, funext (readCount_mk l cs),
        funext (namesIn_mk l cs)]
      exact (Scope.counts_record l.kind scope).trans (counts_scanScopesAll hcs _)

theorem records_scope (hl : l.kind.isBlockLike = true) (cs : List Node) (p : Node) :
    Scope.Records (mk l cs) p (scanScopesAll {} (.opening p) cs).2 :=
  (counts_block hl (fun c _ => c.counts_scanScopes _) _).records

/-! ## Places in a counted tree -/

@[simp] theorem kind_scanScopes (opening scope : Scope) (n : Node) :
    (n.scanScopes opening scope).1.kind = n.kind := by
  obtain ⟨l, cs⟩ := n
  unfold scanScopes
  split
  · split <;> rfl
  · rfl

@[simp] theorem relation_scanScopes (opening scope : Scope) (n : Node) :
    (n.scanScopes opening scope).1.relation = n.relation := by
  obtain ⟨l, cs⟩ := n
  unfold scanScopes
  split
  · split <;> rfl
  · rfl

theorem getElem?_scanScopesAll (opening scope : Scope) (cs : List Node) (i : Nat) :
    ∃ scope', (scanScopesAll opening scope cs).1[i]? =
      cs[i]?.map fun c => (c.scanScopes opening scope').1 := by
  induction cs generalizing scope i with
  | nil => exact ⟨scope, rfl⟩
  | cons c cs ih =>
    cases i with
    | zero => exact ⟨scope, rfl⟩
    | succ i => exact ih _ i

/-- Counted statements come from statements. -/
theorem exists_of_mem_scanScopesAll {opening : Scope} {m : Node}
    (h : m ∈ (scanScopesAll opening scope cs).1) :
    ∃ c ∈ cs, ∃ scope', m = (c.scanScopes opening scope').1 := by
  obtain ⟨i, hi⟩ := getElem?_of_mem h
  obtain ⟨scope', hget⟩ := getElem?_scanScopesAll opening scope cs i
  obtain ⟨c, hc, rfl⟩ := Option.map_eq_some_iff.1 (hget.symm.trans hi)
  exact ⟨c, mem_of_getElem? hc, scope', rfl⟩

theorem children_scanScopes (n : Node) (opening scope : Scope) :
    ∃ scope', (n.scanScopes opening scope).1.children =
      (scanScopesAll (.opening n) scope' n.children).1 := by
  obtain ⟨l, cs⟩ := n
  by_cases hk : l.kind = .block
  · obtain ⟨hopening, -⟩ := opening_of_isBlockLike (l := l) (hk ▸ rfl) cs
    by_cases hb : l.isBranch = true
    · exact ⟨scope, by rw [scanScopes_branch hk hb, hopening]; rfl⟩
    · exact ⟨opening, by rw [scanScopes_block hk hb, hopening]; rfl⟩
  · exact ⟨scope.record l.kind, by rw [scanScopes_other hk]; rfl⟩

/-- Below a node whose children have been counted, every child has been counted as one of its
parent. -/
theorem get?_of_counted (n' : Node) {c : Node} {path : Path} {i : Nat} {opening : Scope}
    (hchildren : n'.children = (scanScopesAll opening scope n.children).1)
    (hp : n.get? path = some p) (hc : p.children[i]? = some c) :
    ∃ opening' scope', (opening' = .opening p ∨ path = [] ∧ opening' = opening) ∧
      n'.get? (path ++ [i]) = some (c.scanScopes opening' scope').1 := by
  induction path generalizing n n' opening scope with
  | nil =>
    obtain rfl := Option.some.inj hp
    obtain ⟨scope', hget⟩ := getElem?_scanScopesAll opening scope n.children i
    exact ⟨opening, scope', .inr ⟨rfl, rfl⟩, by rw [nil_append, get?, hchildren, hget, hc]; rfl⟩
  | cons j path ih =>
    rw [get?] at hp
    split at hp
    · rename_i d hd
      obtain ⟨scope', hget⟩ := getElem?_scanScopesAll opening scope n.children j
      obtain ⟨_, hd'⟩ := d.children_scanScopes opening scope'
      obtain ⟨opening', scope', hopening, h⟩ := ih _ hd' hp
      refine ⟨opening', scope', .inl (hopening.elim id ?_), ?_⟩
      · rintro ⟨rfl, rfl⟩
        rw [Option.some.inj hp]
      · rw [cons_append, get?, hchildren, hget, hd]
        exact h
    · cases hp

end Node

/-! ## The record of every scope -/

/-- **The record of a scope `b` that its paths call for**, if it stands in `p` or, as a stylesheet,
in nothing. -/
structure Scope.IsLexical (s : Scope) (b : Node) (p : Option Node) : Prop where
  declared : ∀ x, x ∈ s.declared ↔ x ∈ b.namesIn Kind.declares
  params : ∀ x, x ∈ s.params ↔ ∃ m ∈ p, x ∈ m.bodyParams
  accessed : ∀ x, s.isAccessed x = true ↔ ∃ path r, b.get? path = some r ∧
    (b.chain path).IsChain (fun p c => ¬ Hides x p c) ∧ x ∈ r.kind.accesses
  counts : ∀ x, (s.accessed.find? x).getD 0 = b.readCount x
  shared : ∀ x, s.shared.find? x =
    if x ∈ s.declared ∨ x ∈ s.params then none else s.accessed.find? x
  unused : ∀ x, x ∈ s.unused ↔ (x ∈ s.declared ∨ x ∈ s.params) ∧ s.isAccessed x = false ∧
    p.bind mixinName? ≠ some x

theorem Node.readCount_ne_zero {b : Node} : b.readCount x ≠ 0 ↔ ∃ path r, b.get? path = some r ∧
    (b.chain path).IsChain (fun p c => ¬ Hides x p c) ∧ x ∈ r.kind.accesses := by
  rw [readCount, ne_eq, count_eq_zero, not_not, mem_flatMap]
  constructor
  · rintro ⟨r, hr, hx⟩
    obtain ⟨place, hplace, rfl⟩ := mem_map.1 hr
    obtain ⟨hplace, hchain⟩ := mem_filter.1 hplace
    obtain ⟨q, hq, hget⟩ := mem_placesFrom.1 hplace
    exact ⟨place.1, place.2, hq ▸ hget, of_decide_eq_true hchain, hx⟩
  · rintro ⟨path, r, hget, hchain, hx⟩
    refine ⟨r, mem_map.2 ⟨(path, r), mem_filter.2 ⟨?_, decide_eq_true hchain⟩, rfl⟩, hx⟩
    exact mem_placesFrom.2 ⟨path, rfl, hget⟩

theorem Scope.Records.isLexical {b p : Node} (h : Records b p s) {p? : Option Node}
    (hparams : p.bodyParams = p?.elim [] bodyParams) (howner : p.mixinName? = p?.bind mixinName?) :
    s.finish.IsLexical b p? := by
  have haccessed (x : String) : s.isAccessed x = true ↔ b.readCount x ≠ 0 := by
    rw [isAccessed, NameTable.contains, h.accessed, isSome_raised]
    simp
  refine ⟨h.declared, fun x => ?_, fun x => ?_, fun x => ?_, fun x => s.find?_shared_finish,
    fun x => ?_⟩
  · refine (h.params x).trans ?_
    rw [hparams]
    cases p? <;> simp
  · exact (haccessed x).trans readCount_ne_zero
  · refine (congrArg (·.getD 0) (h.accessed x)).trans ?_
    unfold raised
    split <;> simp_all
  · refine mem_filter.trans (and_congr NameSet.mem_union ?_)
    rw [decide_eq_true_iff, h.owner, howner, Bool.not_eq_true]
    rfl

/-- **Counting names finds what is lexically there.**  The record of a stylesheet and of every block
that is not a branch of a conditional holds the names declared in it, the parameters of its mixin,
how often every name is read from it, which of these names belong to the scopes around it, and which
of its own nobody reads. -/
theorem scanScopes_isLexical (sheet : Sheet) (hroot : sheet.root.kind = .sheet) :
    (∃ s, sheet.scanScopes.root.scope = some s ∧ s.IsLexical sheet.root none) ∧
      ∀ path i p b, sheet.root.get? path = some p → p.children[i]? = some b → b.isScope = true →
        ∃ b' s, sheet.scanScopes.root.get? (path ++ [i]) = some b' ∧ b'.scope = some s ∧
          s.IsLexical b (some p) := by
  obtain ⟨⟨l, cs⟩, file, expansions⟩ := sheet
  replace hroot : l.kind = .sheet := hroot
  have hlike : l.kind.isBlockLike = true := hroot ▸ rfl
  obtain ⟨hopening, -⟩ := opening_of_isBlockLike hlike cs
  have hrecords := records_scope hlike cs (mk l cs)
  rw [hopening] at hrecords
  refine ⟨⟨_, rfl, hrecords.isLexical ?_ ?_⟩, fun path i p b hp hb hscope => ?_⟩
  · simp [bodyParams, hroot, Kind.isMixin]
  · simp [mixinName?, hroot]
  · replace hp : (mk l cs).get? path = some p := hp
    let counted := (Sheet.scanScopes ⟨mk l cs, file, expansions⟩).root
    obtain ⟨opening, scope, ho, hget⟩ := get?_of_counted counted rfl hp hb
    obtain rfl : opening = .opening p := by
      refine ho.elim id ?_
      rintro ⟨rfl, rfl⟩
      rw [← hopening, Option.some.inj hp]
    obtain ⟨lb, bs⟩ := b
    obtain ⟨hkind, hbranch⟩ := isScope_mk.1 hscope
    rw [scanScopes_block hkind hbranch] at hget
    exact ⟨_, _, hget, rfl, (records_scope (hkind ▸ rfl) bs p).isLexical rfl rfl⟩

/-- A mixin whose parameter is never read and has a default from a package, and a branch of a
conditional that declares a variable of the body and reads the package twice. -/
def packageMixin : Node :=
  .make (.mixin "m" none 0) 2
    [(make .params 2 [.make (.param "x") 2 [(make (.reference "a.b") 2).placed .initializer]]).placed
        .params,
      (make .block 2 [.make .conditional 3
        [(make .block 3 [.make (.declaration "y") 3, .make (.reference "a.b") 4,
          .make (.property "p-a" ["a"] false) 5]).placed .thenPart]]).placed .rules]

theorem scanScopes_isLexical_packageMixin :
    ∃ body counted s, packageMixin.children[1]? = some body ∧ body.isScope = true ∧
      body.readCount "a" = 2 ∧ body.namesIn Kind.declares = ["y"] ∧
      (Sheet.scanScopes ⟨.make .sheet 1 [packageMixin], none, 0⟩).root.get? [0, 1] = some counted ∧
      counted.scope = some s ∧ s.IsLexical body (some packageMixin) := by
  obtain ⟨counted, s, hget, hs, h⟩ :=
    (scanScopes_isLexical ⟨.make .sheet 1 [packageMixin], none, 0⟩ rfl).2 [0] 1 _ _ rfl rfl rfl
  exact ⟨_, counted, s, rfl, rfl, by decide, by decide, hget, hs, h⟩

/-! ## Trees without blocks -/

namespace Node

variable {n m : Node}

/-- Where no mixin is around, a block starts from nothing. -/
theorem counts_scanScopes_empty (n : Node) (scope : Scope) :
    scope.Counts (n.scanScopes {} scope).2 (fun f => if n.isScope then [] else n.namesIn f)
      (n.passedOn (make .sheet 0)) :=
  n.counts_scanScopes (make .sheet 0) scope

theorem isAccessed_scanScopesAll (ns : List Node) (h : scope.isAccessed x = true) :
    (scanScopesAll {} scope ns).2.isAccessed x = true :=
  (counts_scanScopesAll (p := make .sheet 0) (fun c _ => c.counts_scanScopes _)
    scope).isAccessed_iff.2 (.inl h)

/-- Counting the same tree makes no difference between records. -/
theorem changeAlike_scanScopes {A : String → Prop} (n : Node) {scope' : Scope}
    (h : Scope.ChangeAlike A scope scope') :
    Scope.ChangeAlike A (n.scanScopes {} scope).2 (n.scanScopes {} scope').2 :=
  h.counts (n.counts_scanScopes_empty scope) (n.counts_scanScopes_empty scope')

/-- A variable that the tree does not set is changed after it only if it was before. -/
theorem modified_scanScopes (h : ∀ m ∈ n.preorder, x ∉ m.kind.settings) (scope : Scope) :
    x ∈ (n.scanScopes {} scope).2.modified ↔ x ∈ scope.modified := by
  rw [(n.counts_scanScopes_empty scope).modified]
  refine or_iff_left fun hx => ?_
  split at hx
  · cases hx
  · obtain ⟨m, hm, hx⟩ := exists_of_mem_namesIn hx
    exact h m hm hx

section WithoutBlocks

variable (hn : ∀ m ∈ n.preorder, m.kind ≠ .block)
include hn

/-- There is nothing to attach a scope to. -/
theorem scanScopes_self (opening scope : Scope) : (n.scanScopes opening scope).1 = n := by
  induction n using Node.ind generalizing opening scope with
  | mk l cs ih =>
    have hk : l.kind ≠ .block := hn _ (self_mem_preorder _)
    have hall : ∀ o s : Scope, (scanScopesAll o s cs).1 = cs := by
      have ih : ∀ c ∈ cs, ∀ o s : Scope, (c.scanScopes o s).1 = c := fun c hc =>
        ih c hc fun m hm => hn m (mem_preorder_of_mem hc hm)
      clear hn
      intro o s
      induction cs generalizing s with
      | nil => rfl
      | cons c cs ihcs =>
        obtain ⟨hc, hcs⟩ := forall_mem_cons.1 ih
        rw [scanScopesAll]
        exact congrArg₂ List.cons (hc o s) (ihcs (fun d hd _ => hcs d hd) hcs _)
    rw [scanScopes_other hk]
    exact congrArg (Node.mk l) (hall _ _)

/-- **What is read in the tree is counted.** -/
theorem isAccessed_of_reads (hm : m ∈ n.preorder) (hx : x ∈ m.kind.reads) (scope : Scope) :
    (n.scanScopes {} scope).2.isAccessed x = true := by
  have hscope : ∀ m ∈ n.preorder, m.isScope = false := by
    rintro ⟨l, cs⟩ hm
    exact Bool.eq_false_iff.2 fun h => hn _ hm (isScope_mk.1 h).1
  obtain ⟨path, hpath⟩ := mem_preorder.1 hm
  refine (n.counts_scanScopes_empty scope).isAccessed_iff.2 (.inr ?_)
  rw [passedOn_eq (hscope n n.self_mem_preorder)]
  refine readCount_ne_zero.2 ⟨path, m, hpath, ?_, Kind.mem_accesses_of_reads hx⟩
  refine (pairwise_of_forall_mem_list fun p _ c hc => ?_).isChain
  simp [Hides, hscope c (mem_preorder_of_mem_chain hc)]

end WithoutBlocks

end Node

end Cascade
