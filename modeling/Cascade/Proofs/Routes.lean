import Cascade.Proofs.Layers

/-!
# Where statements apply

A statement applies in the context of the nodes on the way down to it.  This file lists the
statements of a stylesheet that are reached through blocks and through rules that are written out,
each with its context.
-/

set_option autoImplicit false

namespace Cascade

open Node List

variable {xs : List (Node × Context)} {d : Descent} {cs : List Node}

/-! ## Routes -/

/-- Whether statements below a node of this kind are reached: stylesheets, blocks, and the rules
that are written out, but not animations and fonts. -/
def Kind.isPassage : Kind → Bool
  | sheet | block | selector .. | media .. | supports _ | root | mixin _ (some _) _ => true
  | _ => false

namespace Node

mutual

/-- **The nodes that are reached** in a tree, in document order, each with the nodes on the way.
`above` are the nodes on the way to the tree itself. -/
def routes (above : List Node) : Node → List (List Node × Node)
  | mk label children =>
    (above, mk label children) ::
      if label.kind.isPassage then routesAll (above ++ [mk label children]) children else []

/-- The nodes that are reached in several trees. -/
def routesAll (above : List Node) : List Node → List (List Node × Node)
  | [] => []
  | node :: rest => routes above node ++ routesAll above rest

end

end Node

/-- Of the nodes that are reached, those of the kinds that `p` selects, with their contexts. -/
def located (file : Option String) (p : Kind → Bool) (routes : List (List Node × Node)) :
    Except Error (List (Node × Context)) :=
  (routes.filter fun r => p r.2.kind).mapM fun r =>
    (contextOf file false (r.1 ++ [r.2])).map fun context => (r.2, context)

/-- The nodes of a stylesheet that `p` selects, with their contexts. -/
def Sheet.located (sheet : Sheet) (p : Kind → Bool) :
    Except Error (List (Node × Context)) :=
  Cascade.located sheet.file p (sheet.root.routes [])

/-! ## On the way down -/

namespace Node

mutual

/-- The nodes of a tree that `p` selects, with their contexts.  `d` is what is known on the way to the
tree. -/
def under (file : Option String) (p : Kind → Bool) (d : Descent) :
    Node → Except Error (List (Node × Context))
  | mk label children => do
    let d ← d.enter file false (mk label children)
    let below := if label.kind.isPassage then underAll file p d children else .ok []
    below.map fun below =>
      (if p label.kind then [(mk label children, d.context)] else []) ++ below

/-- The nodes of several trees that `p` selects. -/
def underAll (file : Option String) (p : Kind → Bool) (d : Descent) :
    List Node → Except Error (List (Node × Context))
  | [] => pure []
  | node :: rest => do
    let first ← under file p d node
    let rest ← underAll file p d rest
    pure (first ++ rest)

end

end Node

section Under

variable {file : Option String} {p : Kind → Bool} {rs : List (List Node × Node)}

theorem located_append {ss : List (List Node × Node)} {ys : List (Node × Context)}
    (hr : located file p rs = .ok xs) (hs : located file p ss = .ok ys) :
    located file p (rs ++ ss) = .ok (xs ++ ys) := by
  rw [located, filter_append, mapM_append]
  rw [located] at hr hs
  rw [hr, hs]
  rfl

/-- A narrower selection. -/
theorem located_filter {q : Kind → Bool} (h : located file p rs = .ok xs) :
    located file (fun kind => p kind && q kind) rs =
      .ok (xs.filter fun x => q x.1.kind) := by
  induction rs generalizing xs with
  | nil =>
    cases h
    rfl
  | cons r rs ih =>
    rw [located, filter_cons] at h ⊢
    cases hp : p r.2.kind with
    | false =>
      rw [hp] at h
      exact ih h
    | true =>
      rw [hp, if_pos rfl, mapM_cons] at h
      obtain ⟨y, hy, h⟩ := bind_eq_ok.1 h
      obtain ⟨ys, hys, h⟩ := bind_eq_ok.1 h
      cases h
      obtain ⟨context, hcontext, rfl⟩ := map_eq_ok.1 hy
      have ih := ih hys
      rw [located] at ih
      cases hq : q r.2.kind with
      | false => simpa [hq] using ih
      | true =>
        rw [Bool.true_and, if_pos rfl, mapM_cons, hy, ih, filter_cons, if_pos hq]
        rfl

/-- What is found at the root of a tree and below it. -/
theorem Node.under_eq_ok {l : Label} (h : (Node.mk l cs).under file p d = .ok xs) :
    ∃ d' below, d.enter file false (.mk l cs) = .ok d' ∧
      (if l.kind.isPassage then underAll file p d' cs = .ok below else below = []) ∧
      xs = (if p l.kind then [(.mk l cs, d'.context)] else []) ++ below := by
  rw [under] at h
  obtain ⟨d', hd', h⟩ := bind_eq_ok.1 h
  obtain ⟨below, hbelow, rfl⟩ := map_eq_ok.1 h
  refine ⟨d', below, hd', ?_, rfl⟩
  split
  · rename_i hp
    rwa [if_pos hp] at hbelow
  · rename_i hp
    rw [if_neg hp] at hbelow
    cases hbelow
    rfl

theorem Node.under_of_passage {d' : Descent} {l : Label} {below : List (Node × Context)}
    (hd : d.enter file false (.mk l cs) = .ok d') (hp : l.kind.isPassage = true)
    (h : underAll file p d' cs = .ok below) :
    (Node.mk l cs).under file p d =
      .ok ((if p l.kind then [(.mk l cs, d'.context)] else []) ++ below) := by
  rw [under, hd]
  show Except.map _ _ = _
  rw [if_pos hp, h]
  rfl

theorem Node.under_of_not_passage {d' : Descent} {n : Node} (hd : d.enter file false n = .ok d')
    (hp : n.kind.isPassage = false) :
    n.under file p d = .ok (if p n.kind then [(n, d'.context)] else []) := by
  obtain ⟨l, cs⟩ := n
  rw [kind_mk] at hp
  rw [under, hd]
  show Except.map _ _ = _
  rw [hp, kind_mk]
  simp [Except.map]

theorem Node.underAll_cons {c : Node} {first rest : List (Node × Context)}
    (hc : c.under file p d = .ok first) (hcs : underAll file p d cs = .ok rest) :
    underAll file p d (c :: cs) = .ok (first ++ rest) := by
  rw [underAll, hc, hcs]
  rfl

theorem Node.underAll_cons_eq_ok {c : Node} (h : underAll file p d (c :: cs) = .ok xs) :
    ∃ first rest, c.under file p d = .ok first ∧
      underAll file p d cs = .ok rest ∧ xs = first ++ rest := by
  rw [underAll] at h
  obtain ⟨first, hfirst, h⟩ := bind_eq_ok.1 h
  obtain ⟨rest, hrest, h⟩ := bind_eq_ok.1 h
  cases h
  exact ⟨first, rest, hfirst, hrest, rfl⟩

/-- **The contexts worked out on the way down are those of the routes.** -/
theorem located_of_under {n : Node} {above : List Node}
    (hd : above.foldlM (Descent.enter file false) {} = .ok d) (h : n.under file p d = .ok xs) :
    located file p (n.routes above) = .ok xs := by
  induction n using ind generalizing above d xs with
  | mk l cs ih =>
    have all : ∀ (ds : List Node), (∀ c ∈ ds, c ∈ cs) → ∀ {above : List Node} {d : Descent}
        {xs : List (Node × Context)}, above.foldlM (Descent.enter file false) {} = .ok d →
        underAll file p d ds = .ok xs →
        located file p (routesAll above ds) = .ok xs := by
      intro ds hds above d xs hd h
      induction ds generalizing xs with
      | nil => exact h
      | cons c ds ihds =>
        obtain ⟨hc, hds⟩ := forall_mem_cons.1 hds
        obtain ⟨first, rest, hfirst, hrest, rfl⟩ := underAll_cons_eq_ok h
        exact located_append (ih c hc hd hfirst) (ihds hds hrest)
    obtain ⟨d', below, hd', hbelow, rfl⟩ := under_eq_ok h
    have hchain : (above ++ [Node.mk l cs]).foldlM (Descent.enter file false) {} = .ok d' := by
      rw [foldlM_append, hd]
      show [Node.mk l cs].foldlM (Descent.enter file false) d = _
      rw [foldlM_cons, hd']
      rfl
    rw [routes, ← singleton_append]
    refine located_append ?_ ?_
    · cases hp : p l.kind with
      | false => simp [located, kind_mk, hp, pure, Except.pure]
      | true =>
        simp only [located, filter_cons, filter_nil, kind_mk, hp, if_true]
        rw [mapM_cons, mapM_nil, contextOf, hchain]
        rfl
    · split at hbelow
      · rename_i hp
        rw [if_pos hp]
        exact all cs (fun _ h => h) hchain hbelow
      · rename_i hp
        rw [if_neg hp, hbelow]
        rfl

end Under

end Cascade
