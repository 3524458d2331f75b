import Cascade.Proofs.InclusionGrammar
import Mathlib.Data.Finset.Card
import Mathlib.Logic.Relation

/-!
# Inclusions resolved

The paths of a library include one another, and resolving the inclusions of a tree walks along this
graph.  What comes out is said without the walk: `Inlined` replaces every inclusion by the statements
of the stylesheet at its path, once its own inclusions have been replaced.

The walk remembers the paths it came along, none of them twice.  Each of them leads to every path
that is included where the walk stands, so a path met again lies on a cycle.  As the library
holds no more stylesheets than it allows steps, the walk never stops for want of them: `Chained` is
the invariant that says so.
-/

set_option autoImplicit false

open Relation (TransGen ReflTransGen)

namespace Cascade

open Node List

variable {path text : String} {root node : Node} {sharing : Prop} {label : Label}

/-! ## The inclusions of a tree -/

namespace Node

/-- The path that a node includes itself. -/
def inclusion? (node : Node) : Option String :=
  match node.kind with
  | .inclusion path => some path
  | _ => none

theorem inclusion?_eq_some : node.inclusion? = some path ↔ node.kind = .inclusion path := by
  rw [inclusion?]
  split <;> simp_all

theorem mem_inclusions :
    path ∈ node.inclusions ↔ ∃ m ∈ node.preorder, m.kind = .inclusion path := by
  rw [show node.inclusions = node.preorder.filterMap inclusion? from rfl, mem_filterMap]
  simp only [inclusion?_eq_some]

theorem mem_inclusions_mk {children : List Node} :
    path ∈ (mk label children).inclusions ↔
      label.kind = .inclusion path ∨ path ∈ children.flatMap inclusions := by
  simp only [mem_inclusions, mem_preorder_mk, mem_flatMap]
  constructor
  · rintro ⟨m, rfl | ⟨c, hc, hm⟩, hk⟩
    · exact .inl hk
    · exact .inr ⟨c, hc, m, hm, hk⟩
  · rintro (hk | ⟨c, hc, m, hm, hk⟩)
    · exact ⟨_, .inl rfl, hk⟩
    · exact ⟨m, .inr ⟨c, hc, hm⟩, hk⟩

theorem mem_inclusions_of_children (h : path ∈ node.children.flatMap inclusions) :
    path ∈ node.inclusions := by
  cases node
  exact mem_inclusions_mk.2 (.inr h)

theorem mem_inclusions_of_copied (h : path ∈ node.copied.inclusions) : path ∈ node.inclusions := by
  induction node using Node.ind with
  | mk label children ih =>
    rw [copied, mem_inclusions_mk, copiedAll_eq_map, flatMap_map] at h
    refine mem_inclusions_mk.2 (h.imp_right fun h => ?_)
    obtain ⟨c, hc, h⟩ := mem_flatMap.1 h
    exact mem_flatMap.2 ⟨c, hc, ih c hc h⟩

/-- Nothing is below an inclusion. -/
def HasBareInclusions (node : Node) : Prop :=
  ∀ m ∈ node.preorder, ∀ path, m.kind = .inclusion path → m.children = []

theorem HasBareInclusions.child (h : node.HasBareInclusions) :
    ∀ c ∈ node.children, c.HasBareInclusions := by
  obtain ⟨label, children⟩ := node
  exact fun _ hc m hm => h m (mem_preorder_of_mem hc hm)

variable {resolve resolve' : String → Nat → Except Error (List Node)}

/-- What becomes of several trees when the inclusions in them are replaced. -/
theorem expandInclusionsAll_of_inclusion (h : label.kind = .inclusion path)
    (children rest : List Node) :
    expandInclusionsAll resolve (mk label children :: rest) = (do
      let statements ← resolve path label.line
      let rest ← expandInclusionsAll resolve rest
      pure (statements ++ rest)) := by
  rw [expandInclusionsAll, h]

theorem expandInclusionsAll_of_ne (h : ∀ path, label.kind ≠ .inclusion path)
    (children rest : List Node) :
    expandInclusionsAll resolve (mk label children :: rest) = (do
      let children ← expandInclusionsAll resolve children
      let rest ← expandInclusionsAll resolve rest
      pure (mk label children :: rest)) := by
  rw [expandInclusionsAll]
  split
  · rename_i path hk
    exact absurd hk (h path)
  · rw [expandInclusions, bind_assoc]
    rfl

/-- A failure to replace inclusions is a failure for one of their paths. -/
theorem exists_of_expandInclusionsAll_error {nodes : List Node} {error : Error}
    (h : expandInclusionsAll resolve nodes = .error error) :
    ∃ path ∈ nodes.flatMap inclusions, ∃ line, resolve path line = .error error := by
  induction nodes using forest_ind with
  | nil => cases h
  | cons label children rest ihchildren ihrest =>
    simp only [flatMap_cons, mem_append, mem_inclusions_mk]
    by_cases hk : ∃ path, label.kind = .inclusion path
    · obtain ⟨path, hk⟩ := hk
      rw [expandInclusionsAll_of_inclusion hk] at h
      obtain h | ⟨_, -, h⟩ := bind_eq_error.1 h
      · exact ⟨path, .inl (.inl hk), label.line, h⟩
      obtain h | ⟨_, -, h⟩ := bind_eq_error.1 h
      · obtain ⟨path, hp, hline⟩ := ihrest h
        exact ⟨path, .inr hp, hline⟩
      · cases h
    · rw [expandInclusionsAll_of_ne (not_exists.1 hk)] at h
      obtain h | ⟨_, -, h⟩ := bind_eq_error.1 h
      · obtain ⟨path, hp, hline⟩ := ihchildren h
        exact ⟨path, .inl (.inr hp), hline⟩
      obtain h | ⟨_, -, h⟩ := bind_eq_error.1 h
      · obtain ⟨path, hp, hline⟩ := ihrest h
        exact ⟨path, .inr hp, hline⟩
      · cases h

/-- Two ways to resolve paths that agree on the paths of trees give the same trees. -/
theorem expandInclusionsAll_congr {nodes : List Node}
    (h : ∀ path ∈ nodes.flatMap inclusions, resolve path = resolve' path) :
    expandInclusionsAll resolve nodes = expandInclusionsAll resolve' nodes := by
  induction nodes using forest_ind with
  | nil => rfl
  | cons label children rest ihchildren ihrest =>
    simp only [flatMap_cons, mem_append, mem_inclusions_mk] at h
    have hrest := ihrest fun path hp => h path (.inr hp)
    by_cases hk : ∃ path, label.kind = .inclusion path
    · obtain ⟨path, hk⟩ := hk
      rw [expandInclusionsAll_of_inclusion hk, expandInclusionsAll_of_inclusion hk, hrest,
        h path (.inl (.inl hk))]
    · rw [expandInclusionsAll_of_ne (not_exists.1 hk), expandInclusionsAll_of_ne (not_exists.1 hk),
        hrest, ihchildren fun path hp => h path (.inl (.inr hp))]

end Node

theorem IsSheet.hasBareInclusions (h : IsSheet sharing root) : root.HasBareInclusions := by
  intro m hm path hk
  have hform : m.kind.form = .marker := hk ▸ rfl
  have hitem := h.orderly.item (h.kind ▸ rfl) hm (hform ▸ rfl)
  cases hitem.isStatement with
  | marker => rfl
  | _ => simp_all [Kind.form]

/-- A stylesheet is no inclusion itself. -/
theorem IsSheet.kind_ne_inclusion (h : IsSheet sharing root) (path : String) :
    root.kind ≠ .inclusion path := fun hk => by
  have hform := h.kind
  rw [hk] at hform
  cases hform

theorem IsSheet.mem_inclusions (h : IsSheet sharing root) :
    path ∈ root.inclusions ↔ path ∈ root.children.flatMap inclusions := by
  obtain ⟨l, cs⟩ := root
  rw [mem_inclusions_mk, children_mk]
  exact or_iff_right (h.kind_ne_inclusion path)

/-! ## The graph of inclusions -/

namespace Library

variable {library : Library} {paths : Finset String} {path next : String}

/-- The stylesheet at `path` includes the one at `next`. -/
def Includes (library : Library) (path next : String) : Prop :=
  ∃ text root, library.load path = .ok text ∧ parse { text, file := some path } = .ok root ∧
    next ∈ root.inclusions

/-- A tree includes a path, or one that leads to it. -/
def Reaches (library : Library) (root : Node) (path : String) : Prop :=
  ∃ first ∈ root.inclusions, ReflTransGen library.Includes first path

/-- A library whose stylesheets are at the given paths, no more of them than its bound says.  All of
them can be parsed. -/
structure Stocks (library : Library) (paths : Finset String) : Prop where
  mem : ∀ path text, library.load path = .ok text → path ∈ paths
  parses : ∀ path text, library.load path = .ok text →
    ∃ root, parse { text, file := some path } = .ok root
  card_le : paths.card ≤ library.depth

theorem Includes.mem (h : library.Includes path next) (hload : library.load path = .ok text)
    (hparse : parse { text, file := some path } = .ok root) : next ∈ root.inclusions := by
  obtain ⟨text', root', hload', hparse', hmem⟩ := h
  obtain rfl : text = text' := Except.ok.inj (hload.symm.trans hload')
  obtain rfl : root = root' := Except.ok.inj (hparse.symm.trans hparse')
  exact hmem

theorem Reaches.of_mem (h : path ∈ root.inclusions) : library.Reaches root path :=
  ⟨path, h, .refl⟩

/-- What an included stylesheet reaches is reached. -/
theorem Reaches.head {included : Node} (hpath : path ∈ root.inclusions)
    (hload : library.load path = .ok text)
    (hparse : parse { text, file := some path } = .ok included) (h : library.Reaches included next) :
    library.Reaches root next := by
  obtain ⟨first, hfirst, h⟩ := h
  exact ⟨path, hpath, .head ⟨text, included, hload, hparse, hfirst⟩ h⟩

/-- A path that loads, as does every path it leads to, and from which every way ends. -/
inductive Settled (library : Library) : String → Prop
  | mk {path text : String} {root : Node} (hload : library.load path = .ok text)
      (hparse : parse { text, file := some path } = .ok root)
      (hnext : ∀ next ∈ root.inclusions, Settled library next) : Settled library path

theorem Settled.reaches (h : library.Settled path) (hr : ReflTransGen library.Includes path next) :
    library.Settled next := by
  induction hr with
  | refl => exact h
  | tail _ hi ih =>
    obtain ⟨hload, hparse, hnext⟩ := ih
    exact hnext _ (hi.mem hload hparse)

theorem Settled.not_transGen (h : library.Settled path) :
    ¬ TransGen library.Includes path path := by
  induction h with
  | @mk path text root hload hparse hnext ih =>
    intro hcycle
    -- The second path of a cycle lies on the cycle too.
    obtain ⟨next, hi, hback⟩ := TransGen.head'_iff.1 hcycle
    exact ih next (hi.mem hload hparse) (TransGen.tail' hback hi)

end Library

/-! ## Inlined trees -/

/-- **Trees with their inclusions replaced.**  An inclusion gives way to the statements of the
stylesheet at its path, with the inclusions of that stylesheet replaced; all other nodes stay as they
are.  Comments are not taken over from one stylesheet into another. -/
inductive Inlined (library : Library) : List Node → List Node → Prop
  | nil : Inlined library [] []
  | inclusion {label : Label} {children : List Node} {path text : String} {root : Node}
      {statements rest rest' : List Node} (hkind : label.kind = .inclusion path)
      (hload : library.load path = .ok text)
      (hparse : parse { text, file := some path } = .ok root)
      (hstatements : Inlined library root.children statements)
      (hrest : Inlined library rest rest') :
      Inlined library (.mk label children :: rest) (statements.map copied ++ rest')
  | node {label : Label} {children children' rest rest' : List Node}
      (hkind : ∀ path, label.kind ≠ .inclusion path)
      (hchildren : Inlined library children children') (hrest : Inlined library rest rest') :
      Inlined library (.mk label children :: rest) (.mk label children' :: rest')

namespace Inlined

variable {library : Library} {nodes nodes' : List Node}

/-- No inclusion is left. -/
theorem not_mem_inclusions (h : Inlined library nodes nodes') :
    ∀ m ∈ nodes', ∀ path, path ∉ m.inclusions := by
  induction h with
  | nil => simp
  | inclusion hkind hload hparse _ _ ihstatements ihrest =>
    rw [forall_mem_append, forall_mem_map]
    exact ⟨fun m hm path hp => ihstatements m hm path (mem_inclusions_of_copied hp), ihrest⟩
  | node hkind _ _ ihchildren ihrest =>
    rw [forall_mem_cons]
    refine ⟨fun path hp => ?_, ihrest⟩
    obtain hk | hp := mem_inclusions_mk.1 hp
    · exact hkind path hk
    · obtain ⟨m, hm, hp⟩ := mem_flatMap.1 hp
      exact ihchildren m hm path hp

/-- All that is included has been loaded, and no way along it was endless. -/
theorem settled (h : Inlined library nodes nodes') (hbare : ∀ n ∈ nodes, n.HasBareInclusions) :
    ∀ path ∈ nodes.flatMap inclusions, library.Settled path := by
  induction h with
  | nil => simp
  | @inclusion label children path text root _ _ _ hkind hload hparse _ _ ihstatements ihrest =>
    obtain ⟨hhead, hbare⟩ := forall_mem_cons.1 hbare
    have hroot : IsSheet False root := parse_isSheet hparse
    intro next hnext
    rw [flatMap_cons, mem_append] at hnext
    obtain hnext | hnext := hnext
    · obtain rfl : children = [] := hhead _ (self_mem_preorder _) path hkind
      obtain hk | hnext := mem_inclusions_mk.1 hnext
      · obtain rfl : path = next := by simpa [hkind] using hk
        exact .mk hload hparse fun next hnext => ihstatements hroot.hasBareInclusions.child
          next (hroot.mem_inclusions.1 hnext)
      · cases hnext
    · exact ihrest hbare next hnext
  | node hkind _ _ ihchildren ihrest =>
    obtain ⟨hhead, hbare⟩ := forall_mem_cons.1 hbare
    intro next hnext
    rw [flatMap_cons, mem_append] at hnext
    obtain hnext | hnext := hnext
    · obtain hk | hnext := mem_inclusions_mk.1 hnext
      · exact absurd hk (hkind next)
      · exact ihchildren hhead.child next hnext
    · exact ihrest hbare next hnext

/-- All that a stylesheet reaches has been loaded. -/
theorem settled_of_reaches (hroot : IsSheet False root) (h : Inlined library root.children nodes')
    (hpath : library.Reaches root path) : library.Settled path := by
  obtain ⟨first, hfirst, hpath⟩ := hpath
  exact (h.settled hroot.hasBareInclusions.child first (hroot.mem_inclusions.1 hfirst)).reaches
    hpath

theorem inclusions_eq_nil (hroot : IsSheet False root) (h : Inlined library root.children nodes') :
    (root.withChildren nodes').inclusions = [] := by
  rw [eq_nil_iff_forall_not_mem]
  intro path hp
  obtain hk | hp := mem_inclusions_mk.1 hp
  · exact hroot.kind_ne_inclusion path hk
  · obtain ⟨m, hm, hp⟩ := mem_flatMap.1 hp
    exact h.not_mem_inclusions m hm path hp

/-- Trees whose inclusions are replaced by inlined statements are inlined. -/
theorem of_expandInclusionsAll {resolve : String → Nat → Except Error (List Node)}
    (hresolve : ∀ path ∈ nodes.flatMap inclusions, ∀ line statements,
      resolve path line = .ok statements → ∃ text root inlined, library.load path = .ok text ∧
        parse { text, file := some path } = .ok root ∧ Inlined library root.children inlined ∧
        statements = inlined.map copied)
    (h : expandInclusionsAll resolve nodes = .ok nodes') : Inlined library nodes nodes' := by
  induction nodes using Node.forest_ind generalizing nodes' with
  | nil =>
    cases h
    exact .nil
  | cons label children rest ihchildren ihrest =>
    simp only [flatMap_cons, mem_append, mem_inclusions_mk] at hresolve
    have hrest {rest'} := @ihrest rest' fun path hp => hresolve path (.inr hp)
    by_cases hk : ∃ path, label.kind = .inclusion path
    · obtain ⟨path, hk⟩ := hk
      rw [expandInclusionsAll_of_inclusion hk] at h
      obtain ⟨statements, hs, h⟩ := bind_eq_ok.1 h
      obtain ⟨rest', hr, h⟩ := bind_eq_ok.1 h
      cases h
      obtain ⟨text, root, inlined, hload, hparse, hinlined, rfl⟩ :=
        hresolve path (.inl (.inl hk)) _ _ hs
      exact .inclusion hk hload hparse hinlined (hrest hr)
    · rw [expandInclusionsAll_of_ne (not_exists.1 hk)] at h
      obtain ⟨children', hc, h⟩ := bind_eq_ok.1 h
      obtain ⟨rest', hr, h⟩ := bind_eq_ok.1 h
      cases h
      exact .node (not_exists.1 hk)
        (ihchildren (fun path hp => hresolve path (.inl (.inr hp))) hc) (hrest hr)

end Inlined

/-! ## The walk along the graph -/

namespace Library

variable {library : Library} {paths : Finset String} {path : String} {root root' : Node}
  {chain : List String} {depth : Nat} {file : Option String}

/-- What is known of the paths being included when `depth` more of them may follow and the
inclusions of `root` are resolved. -/
structure Chained (library : Library) (paths : Finset String) (depth : Nat) (chain : List String)
    (root : Node) : Prop where
  nodup : chain.Nodup
  mem : ∀ path ∈ chain, path ∈ paths
  card_le : paths.card ≤ depth + chain.length
  leads : ∀ path ∈ chain, ∀ next ∈ root.inclusions, TransGen library.Includes path next

/-- When no more paths may follow, all of them are being included. -/
theorem Chained.mem_of_zero (h : library.Chained paths 0 chain root) (hpath : path ∈ paths) :
    path ∈ chain := by
  have hsub : chain.toFinset ⊆ paths := fun p hp => h.mem p (mem_toFinset.1 hp)
  have hcard : paths.card ≤ chain.toFinset.card := by
    rw [toFinset_card_of_nodup h.nodup]
    simpa using h.card_le
  rw [← Finset.eq_of_subset_of_card_le hsub hcard] at hpath
  exact mem_toFinset.1 hpath

theorem Chained.step (h : library.Chained paths (depth + 1) chain root)
    (hstock : library.Stocks paths) (hpath : path ∈ root.inclusions) (hchain : path ∉ chain)
    (hload : library.load path = .ok text) (hparse : parse { text, file := some path } = .ok root') :
    library.Chained paths depth (path :: chain) root' where
  nodup := nodup_cons.2 ⟨hchain, h.nodup⟩
  mem := forall_mem_cons.2 ⟨hstock.mem path text hload, h.mem⟩
  card_le := by
    have := h.card_le
    rw [length_cons]
    omega
  leads := by
    have hlast : ∀ next ∈ root'.inclusions, library.Includes path next :=
      fun next hnext => ⟨text, root', hload, hparse, hnext⟩
    refine forall_mem_cons.2 ⟨fun next hnext => .single (hlast next hnext), ?_⟩
    exact fun p hp next hnext => .tail (h.leads p hp path hpath) (hlast next hnext)

/-- What the inclusion of a path gives way to. -/
def included (library : Library) (file : Option String) (chain : List String) (depth : Nat)
    (path : String) (line : Nat) : Except Error (List Node) :=
  let failure (error : ResolveError) : Error := ⟨.resolve error, ⟨file, line⟩⟩
  if path ∈ chain then .error (failure (.includeCycle path))
  else
    match library.load path with
    | .error reason => .error (failure (.includeFailed path reason))
    | .ok text =>
      match depth with
      | 0 => .error (failure (.includeCycle path))
      | depth + 1 => do
        let included ← parse { text, file := some path }
        let resolved ← library.resolve depth (some path) (path :: chain) included
        pure (resolved.children.map fun statement => statement.copied.plain)

theorem resolve_eq : library.resolve depth file chain root =
    (expandInclusionsAll (library.included file chain depth) root.children).map
      root.withChildren := by
  cases root
  rw [resolve, expandInclusions]
  rfl

/-- **What becomes of a path that a tree includes.**  It is met again; or it does not load; or it
loads, and then there is a step left to resolve the stylesheet there. -/
theorem included_cases (hstock : library.Stocks paths) (chain : List String) (path : String) :
    (path ∈ chain ∧ ∀ depth file line, library.included file chain depth path line =
      .error ⟨.resolve (.includeCycle path), ⟨file, line⟩⟩) ∨
    (∃ reason, library.load path = .error reason ∧
      ∀ depth file line, library.included file chain depth path line =
        .error ⟨.resolve (.includeFailed path reason), ⟨file, line⟩⟩) ∨
    ∃ text root', library.load path = .ok text ∧ parse { text, file := some path } = .ok root' ∧
      ∀ depth root, library.Chained paths depth chain root → path ∈ root.inclusions →
        ∃ fewer, depth = fewer + 1 ∧ library.Chained paths fewer (path :: chain) root' ∧
          ∀ file line, library.included file chain depth path line =
            (library.resolve fewer (some path) (path :: chain) root').map fun resolved =>
              resolved.children.map fun statement => statement.copied.plain := by
  by_cases hchain : path ∈ chain
  · exact .inl ⟨hchain, fun depth file line => by rw [included, if_pos hchain]⟩
  cases hload : library.load path with
  | error reason =>
    refine .inr (.inl ⟨reason, rfl, fun depth file line => ?_⟩)
    rw [included, if_neg hchain, hload]
  | ok text =>
    obtain ⟨root', hparse⟩ := hstock.parses path text hload
    refine .inr (.inr ⟨text, root', rfl, hparse, fun depth root hc hpath => ?_⟩)
    cases depth with
    | zero => exact absurd (hc.mem_of_zero (hstock.mem path text hload)) hchain
    | succ fewer =>
      refine ⟨fewer, rfl, hc.step hstock hpath hchain hload hparse, fun file line => ?_⟩
      rw [included, if_neg hchain, hload]
      dsimp only
      rw [hparse]
      rfl

/-- A library made from a table holds the stylesheets of the table. -/
theorem stocks_ofTable {table : NameTable String} (reason : String)
    (h : ∀ entry ∈ table, ∃ root, parse { text := entry.2, file := some entry.1 } = .ok root) :
    (ofTable table reason).Stocks (NameTable.names table).toFinset := by
  have hmem : ∀ path text, (ofTable table reason).load path = .ok text → (path, text) ∈ table := by
    intro path text hload
    rw [ofTable] at hload
    dsimp only at hload
    split at hload
    · rename_i found hfound
      obtain rfl : found = text := Except.ok.inj hload
      obtain ⟨before, after, rfl, -⟩ := lookup_eq_some_iff.1 hfound
      simp
    · cases hload
  constructor
  case mem =>
    exact fun path text hload => mem_toFinset.2 (mem_map_of_mem (hmem path text hload))
  case parses => exact fun path text hload => h (path, text) (hmem path text hload)
  case card_le =>
    exact (toFinset_card_le (NameTable.names table)).trans_eq (length_map Prod.fst)

variable (hstock : library.Stocks paths) (hc : library.Chained paths depth chain root)

include hstock hc

/-- **What is resolved is inlined.** -/
theorem resolve_inlined (h : library.resolve depth file chain root = .ok root') :
    root' = root.withChildren root'.children ∧ Inlined library root.children root'.children := by
  induction depth using Nat.strongRecOn generalizing file chain root root' with
  | ind depth ih =>
    rw [resolve_eq] at h
    obtain ⟨children, hall, rfl⟩ := map_eq_ok.1 h
    refine ⟨rfl, .of_expandInclusionsAll (fun path hp line statements hs => ?_) hall⟩
    obtain ⟨-, heq⟩ | ⟨reason, -, heq⟩ | ⟨text, included, hload, hparse, hstep⟩ :=
      included_cases hstock chain path
    · rw [heq] at hs
      cases hs
    · rw [heq] at hs
      cases hs
    · obtain ⟨fewer, rfl, hc', heq⟩ := hstep depth root hc (mem_inclusions_of_children hp)
      rw [heq] at hs
      obtain ⟨resolved, hresolved, rfl⟩ := map_eq_ok.1 hs
      have hsheet : IsSheet False resolved := (parse_isSheet hparse).resolve hresolved
      refine ⟨text, included, resolved.children, hload, hparse,
        (ih fewer (by omega) hc' hresolved).2, ?_⟩
      -- The statements take no place of their own in the stylesheet they come from.
      exact map_congr_left fun c hcmem =>
        plain_eq (hsheet.item c hcmem).copied.isMember.1

/-- The reason why the inclusions of a tree are not resolved: a path that does not load, or one that
leads back to itself. -/
def Blames (library : Library) (root : Node) (error : Error) : Prop :=
  ∃ path, library.Reaches root path ∧
    ((∃ reason, library.load path = .error reason ∧
        error.cause = .resolve (.includeFailed path reason)) ∨
      TransGen library.Includes path path ∧ error.cause = .resolve (.includeCycle path))

/-- **A tree that is not resolved** leads to a path that does not load, or to a cycle. -/
theorem resolve_blames {error : Error}
    (h : library.resolve depth file chain root = .error error) : library.Blames root error := by
  induction depth using Nat.strongRecOn generalizing file chain root with
  | ind depth ih =>
    rw [resolve_eq] at h
    obtain ⟨path, hp, line, hs⟩ := exists_of_expandInclusionsAll_error (map_eq_error.1 h)
    have hpath := mem_inclusions_of_children hp
    obtain ⟨hchain, heq⟩ | ⟨reason, hload, heq⟩ | ⟨text, included, hload, hparse, hstep⟩ :=
      included_cases hstock chain path
    · rw [heq] at hs
      cases hs
      exact ⟨path, .of_mem hpath, .inr ⟨hc.leads path hchain path hpath, rfl⟩⟩
    · rw [heq] at hs
      cases hs
      exact ⟨path, .of_mem hpath, .inl ⟨reason, hload, rfl⟩⟩
    · obtain ⟨fewer, rfl, hc', heq⟩ := hstep depth root hc hpath
      rw [heq] at hs
      obtain ⟨next, hnext, hreason⟩ := ih fewer (by omega) hc' (map_eq_error.1 hs)
      exact ⟨next, hnext.head hpath hload hparse, hreason⟩

/-- A bound that suffices is as good as any other. -/
theorem resolve_congr {depth' : Nat} (hc' : library.Chained paths depth' chain root) :
    library.resolve depth file chain root = library.resolve depth' file chain root := by
  induction depth using Nat.strongRecOn generalizing depth' file chain root with
  | ind depth ih =>
    rw [resolve_eq, resolve_eq]
    refine congrArg _ (expandInclusionsAll_congr fun path hp => funext fun line => ?_)
    have hpath := mem_inclusions_of_children hp
    obtain ⟨-, heq⟩ | ⟨reason, -, heq⟩ | ⟨text, included, -, -, hstep⟩ :=
      included_cases hstock chain path
    · rw [heq, heq]
    · rw [heq, heq]
    · obtain ⟨fewer, rfl, hfewer, heq⟩ := hstep depth root hc hpath
      obtain ⟨fewer', rfl, hfewer', heq'⟩ := hstep depth' root hc' hpath
      rw [heq, heq', ih fewer (by omega) hfewer hfewer']

/-- **Resolving succeeds if every path that is reached loads and lies on no cycle**, and only
then. -/
theorem exists_resolve_iff (hroot : IsSheet False root) :
    (∃ root', library.resolve depth file chain root = .ok root') ↔
      (∀ path, library.Reaches root path → ∃ text, library.load path = .ok text) ∧
        ∀ path, library.Reaches root path → ¬ TransGen library.Includes path path := by
  constructor
  · rintro ⟨root', h⟩
    have hsettled : ∀ path, library.Reaches root path → library.Settled path := fun path hpath =>
      (resolve_inlined hstock hc h).2.settled_of_reaches hroot hpath
    refine ⟨fun path hpath => ?_, fun path hpath => (hsettled path hpath).not_transGen⟩
    obtain ⟨hload, -, -⟩ := hsettled path hpath
    exact ⟨_, hload⟩
  · rintro ⟨hloads, hacyclic⟩
    cases hresolve : library.resolve depth file chain root with
    | ok root' => exact ⟨root', rfl⟩
    | error error =>
      obtain ⟨path, hpath, ⟨reason, hload, -⟩ | ⟨hcycle, -⟩⟩ := resolve_blames hstock hc hresolve
      · obtain ⟨text, hok⟩ := hloads path hpath
        rw [hload] at hok
        cases hok
      · exact absurd hcycle (hacyclic path hpath)

/-- A cycle is named if nothing fails to load. -/
theorem resolve_cycle (hroot : IsSheet False root)
    (hloads : ∀ path, library.Reaches root path → ∃ text, library.load path = .ok text)
    (hcycle : ∃ path, library.Reaches root path ∧ TransGen library.Includes path path) :
    ∃ path location, library.Reaches root path ∧ TransGen library.Includes path path ∧
      library.resolve depth file chain root =
        .error ⟨.resolve (.includeCycle path), location⟩ := by
  cases hresolve : library.resolve depth file chain root with
  | ok root' =>
    obtain ⟨path, hpath, hcycle⟩ := hcycle
    exact absurd hcycle (((exists_resolve_iff hstock hc hroot).1 ⟨root', hresolve⟩).2 path hpath)
  | error error =>
    obtain ⟨cause, location⟩ := error
    obtain ⟨path, hpath, ⟨reason, hload, -⟩ | ⟨hcycle, rfl⟩⟩ := resolve_blames hstock hc hresolve
    · obtain ⟨text, hok⟩ := hloads path hpath
      rw [hload] at hok
      cases hok
    · exact ⟨path, location, hpath, hcycle, rfl⟩

end Library

/-! ## Stylesheets -/

/-- **Inclusions are inlined completely, and cycles are found exactly.**  The inclusions of a parsed
stylesheet are resolved if every path that it reaches loads and none of them leads back to itself,
and otherwise they are not.  What is resolved has no inclusion left: each has given way to the
statements of its stylesheet.  If all paths load and there is a cycle, the failure names a path on
one.  None of this depends on the bound of the library. -/
theorem inclusions_inlined_iff_acyclic {library : Library} {paths : Finset String}
    {source : Source} {sheet : Sheet} (hstock : library.Stocks paths)
    (hsheet : Sheet.parse source = .ok sheet) :
    ((∃ resolved, sheet.resolveInclusions library = .ok resolved) ↔
      (∀ path, library.Reaches sheet.root path → ∃ text, library.load path = .ok text) ∧
        ∀ path, library.Reaches sheet.root path → ¬ TransGen library.Includes path path) ∧
    (∀ resolved, sheet.resolveInclusions library = .ok resolved →
      resolved.root.inclusions = [] ∧ ∃ statements,
        Inlined library sheet.root.children statements ∧
          resolved = sheet.withRoot (sheet.root.withChildren statements)) ∧
    ((∀ path, library.Reaches sheet.root path → ∃ text, library.load path = .ok text) →
      (∃ path, library.Reaches sheet.root path ∧ TransGen library.Includes path path) →
      ∃ path location, library.Reaches sheet.root path ∧ TransGen library.Includes path path ∧
        sheet.resolveInclusions library = .error ⟨.resolve (.includeCycle path), location⟩) ∧
    ∀ depth, paths.card ≤ depth →
      (library.resolve depth sheet.file [] sheet.root).map sheet.withRoot =
        sheet.resolveInclusions library := by
  have hroot : IsSheet False sheet.root := by
    obtain ⟨root, hparse, rfl⟩ := map_eq_ok.1 hsheet
    exact parse_isSheet hparse
  have hchained : library.Chained paths library.depth [] sheet.root :=
    ⟨.nil, by simp, hstock.card_le, by simp⟩
  refine ⟨?_, fun resolved h => ?_, fun hloads hcycle => ?_, fun depth hdepth => ?_⟩
  · rw [← Library.exists_resolve_iff hstock hchained hroot]
    constructor
    · rintro ⟨resolved, h⟩
      obtain ⟨root', hroot', -⟩ := map_eq_ok.1 h
      exact ⟨root', hroot'⟩
    · rintro ⟨root', h⟩
      exact ⟨_, map_eq_ok.2 ⟨root', h, rfl⟩⟩
  · obtain ⟨root', hroot', rfl⟩ := map_eq_ok.1 h
    obtain ⟨heq, hinlined⟩ := Library.resolve_inlined hstock hchained hroot'
    rw [heq]
    exact ⟨hinlined.inclusions_eq_nil hroot, _, hinlined, rfl⟩
  · obtain ⟨path, location, hpath, hself, herror⟩ :=
      Library.resolve_cycle hstock hchained hroot hloads hcycle
    exact ⟨path, location, hpath, hself, map_eq_error.2 herror⟩
  · have hchained' : library.Chained paths depth [] sheet.root :=
      { hchained with card_le := hdepth }
    rw [Library.resolve_congr hstock hchained' hchained]
    rfl

/-- Two stylesheets, the first of which includes the second one in a rule. -/
def pairedTable : NameTable String :=
  [("frame", "p \x7b @include \"shade\"; \x7d"), ("shade", "q \x7b r: s; \x7d")]

/-- A stylesheet that reaches one path on two ways is resolved, for it reaches no cycle. -/
theorem inclusions_inlined_twice :
    ∃ sheet resolved, Sheet.parse { text := "@include \"frame\"; @include \"shade\";" } = .ok sheet ∧
      (Library.ofTable pairedTable "missing").Stocks (NameTable.names pairedTable).toFinset ∧
      sheet.resolveInclusions (.ofTable pairedTable "missing") = .ok resolved ∧
      resolved.root.inclusions = [] ∧
      ∀ path, (Library.ofTable pairedTable "missing").Reaches sheet.root path →
        ¬ TransGen (Library.ofTable pairedTable "missing").Includes path path := by
  have hrun : (do
      let sheet ← Sheet.parse { text := "@include \"frame\"; @include \"shade\";" }
      let resolved ← sheet.resolveInclusions (.ofTable pairedTable "missing")
      pure resolved.root.size) = .ok 11 := by
    decide +kernel
  have hparses : ∀ entry ∈ pairedTable,
      (parse { text := entry.2, file := some entry.1 }).map Node.line = .ok 1 := by
    decide +kernel
  have hstock := Library.stocks_ofTable "missing" fun entry hentry =>
    (map_eq_ok.1 (hparses entry hentry)).imp fun _ h => h.1
  obtain ⟨sheet, hsheet, hrun⟩ := bind_eq_ok.1 hrun
  obtain ⟨resolved, hresolved, -⟩ := bind_eq_ok.1 hrun
  obtain ⟨hiff, hinlined, -, -⟩ := inclusions_inlined_iff_acyclic hstock hsheet
  exact ⟨sheet, resolved, hsheet, hstock, hresolved, (hinlined resolved hresolved).1,
    (hiff.1 ⟨resolved, hresolved⟩).2⟩

end Cascade
