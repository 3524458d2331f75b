import Cascade.Mixin.Lookup
import Cascade.Proofs.Grammar
import Mathlib.Data.List.Perm.Basic

/-!
# Places after an edit

The stages that move statements around find them by their paths, and list the paths before they
change anything.  This file says what such a list looks like, and what a tree looks like from its
paths after a node has been replaced: either a path leads into what is new, or it leads where it led
before.
-/

set_option autoImplicit false

namespace Cascade

open Node List

variable {n m c root : Node} {p r q : Path} {t : List Kind} {k : Kind} {i : Nat} {sharing : Prop}

/-! ## The order of paths -/

/-- The first path turns off to the left of the second. -/
def Path.Precedes : Path → Path → Prop
  | i :: p, j :: q => i < j ∨ i = j ∧ Path.Precedes p q
  | _, _ => False

namespace Path

@[simp] theorem precedes_cons {j : Nat} :
    Precedes (i :: p) (j :: q) ↔ i < j ∨ i = j ∧ Precedes p q := Iff.rfl

@[simp] theorem not_precedes_nil (p : Path) : ¬ Precedes p [] := by
  cases p <;> exact id

@[simp] theorem not_nil_precedes (p : Path) : ¬ Precedes [] p := by
  exact id

@[simp] theorem precedes_append : Precedes (r ++ p) (r ++ q) ↔ Precedes p q := by
  induction r with
  | nil => rfl
  | cons i r ih => simp [ih]

theorem not_precedes_self (p : Path) : ¬ Precedes p p := by
  induction p with
  | nil => exact id
  | cons i p ih => simp [ih]

/-- What turns off to the left of a path, turns off to the left of all that is below it. -/
theorem Precedes.append (h : Precedes p q) (s t : Path) : Precedes (p ++ s) (q ++ t) := by
  induction p generalizing q with
  | nil => exact absurd h (not_nil_precedes q)
  | cons i p ih =>
    cases q with
    | nil => exact absurd h (not_precedes_nil _)
    | cons j q =>
      rcases h with h | ⟨rfl, h⟩
      · exact .inl h
      · exact .inr ⟨rfl, ih h⟩

/-- What stands to the right of another place is not below it. -/
theorem Precedes.not_prefix (h : Precedes p q) : ¬ p <+: q := by
  rintro ⟨s, rfl⟩
  have := precedes_append (r := p) (p := []) (q := s)
  rw [append_nil] at this
  exact not_nil_precedes _ (this.1 h)

/-- What is below a path is not above it, and turns off to neither side of it. -/
theorem below_append (p q : Path) (i : Nat) :
    ¬ p ++ i :: q <+: p ∧ ¬ Precedes (p ++ i :: q) p ∧ ¬ Precedes p (p ++ i :: q) := by
  induction p with
  | nil => simp
  | cons j p ih => simpa using ih

/-- What is below a child stands to the left of what is below a later one. -/
theorem apart_append {j : Nat} (h : i < j) : ¬ p ++ i :: q <+: p ++ j :: r ∧
    ¬ p ++ j :: r <+: p ++ i :: q ∧ ¬ Precedes (p ++ j :: r) (p ++ i :: q) := by
  simp only [prefix_append_right_inj, cons_prefix_cons, precedes_append, precedes_cons]
  omega

end Path

/-! ## The node at a path -/

namespace Node

theorem get?_append (p q : Path) (n : Node) : n.get? (p ++ q) = (n.get? p).bind (get? q) := by
  induction p generalizing n with
  | nil => rfl
  | cons i p ih =>
    simp only [cons_append, get?]
    cases n.children[i]? with
    | none => rfl
    | some c => exact ih c

theorem get?_append_singleton :
    n.get? (r ++ [i]) = some m ↔ ∃ p, n.get? r = some p ∧ p.children[i]? = some m := by
  rw [get?_append]
  cases n.get? r with
  | none => simp
  | some p =>
    simp only [Option.bind_some, get?, Option.some.injEq, exists_eq_left']
    cases p.children[i]? <;> simp

/-- The nodes of a tree are those at its paths. -/
theorem mem_preorder : m ∈ n.preorder ↔ ∃ p, n.get? p = some m := by
  induction n using ind generalizing m with
  | mk l cs ih =>
    rw [mem_preorder_mk]
    constructor
    · rintro (rfl | ⟨c, hc, hm⟩)
      · exact ⟨[], rfl⟩
      · obtain ⟨p, hp⟩ := (ih c hc).1 hm
        obtain ⟨i, hi⟩ := getElem?_of_mem hc
        exact ⟨i :: p, by simp [get?, hi, hp]⟩
    · rintro ⟨_ | ⟨i, p⟩, hp⟩
      · exact .inl (Option.some.inj hp).symm
      · simp only [get?, children_mk] at hp
        split at hp
        · rename_i c hi
          have hc := mem_of_getElem? hi
          exact .inr ⟨c, hc, (ih c hc).2 ⟨p, hp⟩⟩
        · cases hp

/-- What a path leads through is in the tree. -/
theorem mem_preorder_of_mem_chain {path : Path} (h : m ∈ n.chain path) : m ∈ n.preorder := by
  induction path generalizing n with
  | nil =>
    rw [chain, mem_singleton] at h
    exact h ▸ n.self_mem_preorder
  | cons i path ih =>
    obtain ⟨l, cs⟩ := n
    rw [chain, mem_cons, children_mk] at h
    rcases h with rfl | h
    · exact self_mem_preorder _
    · split at h
      · rename_i c hc
        exact mem_preorder_of_mem (mem_of_getElem? hc) (ih h)
      · cases h

end Node

/-- A loose node of an orderly tree stands in a block or a stylesheet. -/
theorem Orderly.parent (h : Orderly sharing root) (hc : root.get? (r ++ [i]) = some c)
    (hl : c.kind.form.isLoose = true) :
    ∃ p, root.get? r = some p ∧ p.children[i]? = some c ∧ p.kind.form.isBlockLike = true ∧
      IsItem sharing c := by
  obtain ⟨p, hp, hi⟩ := get?_append_singleton.1 hc
  obtain ⟨hstatement, hloose⟩ := h p (mem_preorder.2 ⟨r, hp⟩)
  obtain ⟨hb, hm⟩ := hloose c (mem_of_getElem? hi) hl
  exact ⟨p, hp, hi, hb, hm, hstatement hb c (mem_of_getElem? hi)⟩

/-- The loose nodes of a tree are statements among others. -/
theorem Orderly.item (h : Orderly sharing root) (hr : root.kind.form.isLoose = false)
    (hc : c ∈ root.preorder) (hl : c.kind.form.isLoose = true) : IsItem sharing c := by
  obtain ⟨p, hp⟩ := mem_preorder.1 hc
  rcases eq_nil_or_concat p with rfl | ⟨r, i, rfl⟩
  · obtain rfl := Option.some.inj hp
    rw [hr] at hl
    cases hl
  · rw [concat_eq_append] at hp
    obtain ⟨-, -, -, -, hitem⟩ := h.parent hp hl
    exact hitem

theorem IsSheet.item_of_get? (h : IsSheet sharing root) (hc : root.get? p = some c)
    (hl : c.kind.form.isLoose = true) : IsItem sharing c :=
  h.orderly.item (h.kind ▸ rfl) (mem_preorder.2 ⟨p, hc⟩) hl

namespace Node

variable {cs : List Node} (path : Path)

/-! ## Lists of places -/

theorem placesFromAll_eq_flatMap (i : Nat) (cs : List Node) :
    placesFromAll path i cs = (cs.zipIdx i).flatMap fun c => placesFrom (path ++ [c.2]) c.1 := by
  induction cs generalizing i with
  | nil => rfl
  | cons c cs ih => rw [placesFromAll, ih, zipIdx_cons, flatMap_cons]

theorem placesUpFromAll_eq_flatMap (i : Nat) (cs : List Node) : placesUpFromAll path i cs =
      (cs.zipIdx i).flatMap fun c => placesUpFrom (path ++ [c.2]) c.1 := by
  induction cs generalizing i with
  | nil => rfl
  | cons c cs ih => rw [placesUpFromAll, ih, zipIdx_cons, flatMap_cons]

theorem mem_placesFrom {path : Path} :
    (p, m) ∈ n.placesFrom path ↔ ∃ q, p = path ++ q ∧ n.get? q = some m := by
  induction n using ind generalizing path p m with
  | mk l cs ih =>
    rw [placesFrom, placesFromAll_eq_flatMap, mem_cons, mem_flatMap]
    constructor
    · rintro (h | ⟨⟨c, i⟩, hc, h⟩)
      · cases h
        exact ⟨[], by simp, rfl⟩
      · rw [mem_zipIdx_iff_getElem?] at hc
        obtain ⟨q, rfl, hq⟩ := (ih c (mem_of_getElem? hc)).1 h
        exact ⟨i :: q, by simp, by simp [get?, hc, hq]⟩
    · rintro ⟨_ | ⟨i, q⟩, rfl, hq⟩
      · cases hq
        exact .inl (by simp)
      · simp only [get?, children_mk] at hq
        split at hq
        · rename_i c hc
          refine .inr ⟨(c, i), mem_zipIdx_iff_getElem?.2 hc, ?_⟩
          exact (ih c (mem_of_getElem? hc)).2 ⟨q, by simp, hq⟩
        · cases hq

/-- The two orders list the same places. -/
theorem placesUpFrom_perm (n : Node) (path : Path) :
    (n.placesUpFrom path).Perm (n.placesFrom path) := by
  induction n using ind generalizing path with
  | mk l cs ih =>
    rw [placesUpFrom, placesFrom, placesFromAll_eq_flatMap, placesUpFromAll_eq_flatMap]
    refine (perm_append_singleton _ _).trans (.cons _ (.flatMap_left _ fun c hc => ?_))
    exact ih c.1 (fst_mem_of_mem_zipIdx hc) _

theorem mem_placesUpFrom {path : Path} :
    (p, m) ∈ n.placesUpFrom path ↔ ∃ q, p = path ++ q ∧ n.get? q = some m :=
  (placesUpFrom_perm n path).mem_iff.trans mem_placesFrom

/-- The places below the children of a node, listed child by child, are in an order `r` if the
places of each child are. -/
theorem pairwise_flatMap_zipIdx {r : Path → Path → Prop} {list : Path → Node → List (Path × Node)}
    (hlist : ∀ {path c entry}, entry ∈ list path c → ∃ q, entry.1 = path ++ q)
    (hr : ∀ {i j q q'}, i < j → r (path ++ i :: q) (path ++ j :: q'))
    (h : ∀ c ∈ cs, ∀ path, (list path c).Pairwise fun a b => r a.1 b.1) :
    (cs.zipIdx.flatMap fun c => list (path ++ [c.2]) c.1).Pairwise (fun a b => r a.1 b.1) ∧
      ∀ b ∈ cs.zipIdx.flatMap fun c => list (path ++ [c.2]) c.1, ∃ i q, b.1 = path ++ i :: q := by
  have hindex : cs.zipIdx.Pairwise fun c d => c.2 < d.2 := by
    rw [← pairwise_map (f := Prod.snd) (R := (· < ·)), zipIdx_map_snd]
    exact pairwise_lt_range'
  have hbelow {c : Node} {i : Nat} {b : Path × Node} (hb : b ∈ list (path ++ [i]) c) :
      ∃ q, b.1 = path ++ i :: q := by
    obtain ⟨q, hq⟩ := hlist hb
    exact ⟨q, by rw [hq, append_assoc]; rfl⟩
  refine ⟨pairwise_flatMap.2 ⟨fun c hc => h c.1 (fst_mem_of_mem_zipIdx hc) _, hindex.imp ?_⟩, ?_⟩
  · intro c d hlt a ha b hb
    obtain ⟨q, ha⟩ := hbelow ha
    obtain ⟨q', hb⟩ := hbelow hb
    rw [ha, hb]
    exact hr hlt
  · intro b hb
    obtain ⟨c, -, hb⟩ := mem_flatMap.1 hb
    exact ⟨c.2, hbelow hb⟩

/-- In document order no place comes after one that is below it or to the right of it. -/
theorem pairwise_placesFrom (n : Node) (path : Path) :
    (n.placesFrom path).Pairwise fun a b => ¬ b.1 <+: a.1 ∧ ¬ Path.Precedes b.1 a.1 := by
  induction n using ind generalizing path with
  | mk l cs ih =>
    obtain ⟨hpair, hform⟩ := pairwise_flatMap_zipIdx path
      (r := fun a b => ¬ b <+: a ∧ ¬ Path.Precedes b a)
      (fun h => (mem_placesFrom.1 h).imp fun q hq => hq.1) (fun h => (Path.apart_append h).2) ih
    rw [placesFrom, placesFromAll_eq_flatMap]
    refine pairwise_cons.2 ⟨fun b hb => ?_, hpair⟩
    obtain ⟨i, q, hb⟩ := hform b hb
    obtain ⟨habove, hleft, -⟩ := Path.below_append path q i
    rw [hb]
    exact ⟨habove, hleft⟩

/-- With children first, no place comes after one that is above it or to the right of it. -/
theorem pairwise_placesUpFrom (n : Node) (path : Path) :
    (n.placesUpFrom path).Pairwise fun a b => ¬ a.1 <+: b.1 ∧ ¬ Path.Precedes b.1 a.1 := by
  induction n using ind generalizing path with
  | mk l cs ih =>
    obtain ⟨hpair, hform⟩ := pairwise_flatMap_zipIdx path
      (r := fun a b => ¬ a <+: b ∧ ¬ Path.Precedes b a)
      (fun h => (mem_placesUpFrom.1 h).imp fun q hq => hq.1)
      (fun h => ⟨(Path.apart_append h).1, (Path.apart_append h).2.2⟩) ih
    rw [placesUpFrom, placesUpFromAll_eq_flatMap]
    refine pairwise_append.2 ⟨hpair, pairwise_singleton _ _, fun a ha => ?_⟩
    obtain ⟨i, q, ha⟩ := hform a ha
    obtain ⟨habove, -, hright⟩ := Path.below_append path q i
    rw [ha]
    exact forall_mem_singleton.2 ⟨habove, hright⟩

/-! ## What is at a path -/

/-- The node at a path is of the kind `kind`, and `trail` are the kinds of the nodes above it, from
the root down. -/
def Found : Path → List Kind → Kind → Node → Prop
  | [], trail, kind, n => trail = [] ∧ n.kind = kind
  | i :: path, trail, kind, n =>
    ∃ c rest, n.children[i]? = some c ∧ trail = n.kind :: rest ∧ Found path rest kind c

theorem found_of_get? (h : n.get? p = some m) : ∃ trail, Found p trail m.kind n := by
  induction p generalizing n with
  | nil => exact ⟨[], rfl, by rw [Option.some.inj h]⟩
  | cons i p ih =>
    simp only [get?] at h
    split at h
    · rename_i c hc
      obtain ⟨trail, ht⟩ := ih h
      exact ⟨n.kind :: trail, c, trail, hc, rfl, ht⟩
    · cases h

theorem Found.get? {trail : List Kind} {kind : Kind} (h : Found p trail kind n) :
    ∃ m, n.get? p = some m ∧ m.kind = kind := by
  induction p generalizing n trail with
  | nil => exact ⟨n, rfl, h.2⟩
  | cons i p ih =>
    obtain ⟨c, rest, hc, -, h⟩ := h
    obtain ⟨m, hm, hk⟩ := ih h
    exact ⟨m, by simp [get?, hc, hm], hk⟩

/-- What is found at a path is determined by it. -/
theorem Found.unique {t' : List Kind} {k' : Kind} (h : Found p t k n) (h' : Found p t' k' n) :
    t = t' ∧ k = k' := by
  induction p generalizing n t t' with
  | nil => exact ⟨h.1.trans h'.1.symm, h.2.symm.trans h'.2⟩
  | cons i p ih =>
    obtain ⟨c, rest, hc, rfl, h⟩ := h
    obtain ⟨c', rest', hc', rfl, h'⟩ := h'
    obtain rfl : c = c' := Option.some.inj (hc.symm.trans hc')
    obtain ⟨rfl, rfl⟩ := ih h h'
    exact ⟨rfl, rfl⟩

theorem found_append {k' : Kind} {t' : List Kind} (hp : Found p t k n) (hm : n.get? p = some m)
    (hq : Found q t' k' m) : Found (p ++ q) (t ++ t') k' n := by
  induction p generalizing n t with
  | nil =>
    obtain ⟨rfl, -⟩ := hp
    cases hm
    exact hq
  | cons i p ih =>
    obtain ⟨c, rest, hc, rfl, hp⟩ := hp
    simp only [get?, hc] at hm
    exact ⟨c, rest ++ t', hc, rfl, ih hp hm⟩

/-- A place is inside a mixin if a mixin is found above it. -/
theorem Found.isInsideMixin {trail : List Kind} {kind : Kind} (h : Found p trail kind n) :
    n.isInsideMixin p = trail.any Kind.isMixin := by
  have key : ((n.chain p).dropLast).map Node.kind = trail ∧ n.chain p ≠ [] := by
    induction p generalizing n trail with
    | nil => exact ⟨h.1.symm, by simp [chain]⟩
    | cons i p ih =>
      obtain ⟨c, rest, hc, rfl, h⟩ := h
      obtain ⟨hmap, hne⟩ := ih h
      simp only [chain, hc]
      exact ⟨by rw [dropLast_cons_of_ne_nil hne, map_cons, hmap], by simp⟩
  rw [Node.isInsideMixin, ← key.1, any_map]
  rfl

/-! ## Replacing a node -/

theorem getElem?_modify_eq_some {f : Node → Node} {j : Nat} :
    (cs.modify i f)[j]? = some c ↔ ∃ d, cs[j]? = some d ∧ (if i = j then f d else d) = c := by
  rw [getElem?_modify]
  exact Option.map_eq_some_iff

/-- **The nodes of a tree in which one node was replaced**: those of the new node, and those that
are not below the place of the old one. -/
theorem Found.of_update {b : Node} (h : Found q t k (n.update (fun _ => b) p)) :
    (∃ r t₁ t₂ k₁, q = p ++ r ∧ t = t₁ ++ t₂ ∧ Found p t₁ k₁ n ∧ Found r t₂ k b) ∨
      (¬ p <+: q ∧ Found q t k n) := by
  induction p generalizing n q t with
  | nil => exact .inl ⟨q, [], t, n.kind, rfl, rfl, ⟨rfl, rfl⟩, h⟩
  | cons i p ih =>
    cases q with
    | nil => exact .inr ⟨by simp, h⟩
    | cons j q =>
      obtain ⟨c, rest, hc, rfl, h⟩ := h
      obtain ⟨d, hd, rfl⟩ := getElem?_modify_eq_some.1 hc
      by_cases hij : i = j
      · subst hij
        rw [if_pos rfl] at h
        obtain ⟨r, t₁, t₂, k₁, rfl, rfl, hp, hr⟩ | ⟨hpre, h⟩ := ih h
        · exact .inl ⟨r, n.kind :: t₁, t₂, k₁, rfl, rfl, ⟨d, t₁, hd, rfl, hp⟩, hr⟩
        · exact .inr ⟨by simpa using hpre, d, rest, hd, rfl, h⟩
      · rw [if_neg hij] at h
        exact .inr ⟨by simp [hij], d, rest, hd, rfl, h⟩

/-- **The nodes of a tree in which one node was replaced by several**: those of the new nodes, those
that are neither below the place of the old one nor after it, and those after it, which moved. -/
theorem Found.of_splice {new : List Node} (hi : (n.get? (r ++ [i])).isSome)
    (h : Found q t k (n.splice new (r ++ [i]))) :
    (∃ c ∈ new, ∃ q' t₁ t₂ k₁ s, q = r ++ s :: q' ∧ t = t₁ ++ k₁ :: t₂ ∧ Found r t₁ k₁ n ∧
        Found q' t₂ k c) ∨
      (¬ r ++ [i] <+: q ∧ ¬ Path.Precedes (r ++ [i]) q ∧ Found q t k n) ∨
      ∃ q₀, Path.Precedes (r ++ [i]) q₀ ∧ Found q₀ t k n := by
  induction r generalizing n q t with
  | nil =>
    cases q with
    | nil => exact .inr (.inl ⟨by simp, by simp, h⟩)
    | cons j q =>
      obtain ⟨c, rest, hc, rfl, h⟩ := h
      simp only [nil_append, splice, withChildren, children_mk] at hc
      have hlen : i < n.children.length := by
        simp only [nil_append, Node.get?] at hi
        split at hi
        · rename_i hd
          exact (List.getElem?_eq_some_iff.1 hd).1
        · cases hi
      rcases Nat.lt_or_ge j i with hj | hj
      · -- Before the old node nothing has changed.
        rw [append_assoc, getElem?_append_left (by simp; omega),
          getElem?_take_of_lt hj] at hc
        exact .inr (.inl ⟨by simp; omega, by simp; omega, c, rest, hc, rfl, h⟩)
      · rcases Nat.lt_or_ge (j - i) new.length with hj' | hj'
        · rw [append_assoc, getElem?_append_right (by simp; omega),
            getElem?_append_left (by simp; omega)] at hc
          exact .inl ⟨c, mem_of_getElem? hc, q, [], rest, n.kind, j, rfl, rfl, ⟨rfl, rfl⟩, h⟩
        · rw [getElem?_append_right (by simp; omega), getElem?_drop] at hc
          exact .inr (.inr ⟨_ :: q, .inl (by simp; omega), c, rest, hc, rfl, h⟩)
  | cons m r ih =>
    cases q with
    | nil =>
      refine .inr (.inl ⟨by simp, by simp, h.1, ?_⟩)
      rw [← h.2]
      cases r <;> rfl
    | cons j q =>
      obtain ⟨c, rest, hc, ht, h⟩ := h
      have hstep : n.splice new (m :: r ++ [i]) =
          n.withChildren (n.children.modify m (splice new (r ++ [i]))) := by
        cases r <;> rfl
      rw [hstep] at hc ht
      obtain rfl : t = n.kind :: rest := ht
      obtain ⟨d, hd, rfl⟩ := getElem?_modify_eq_some.1 hc
      by_cases hmj : m = j
      · subst hmj
        rw [if_pos rfl] at h
        have hi' : (d.get? (r ++ [i])).isSome := by
          simpa [Node.get?, hd] using hi
        obtain ⟨c, hc, q', t₁, t₂, k₁, s, rfl, rfl, hr, hq⟩ | ⟨hpre, hprec, h⟩ | ⟨q₀, hprec, h⟩ :=
          ih hi' h
        · exact .inl ⟨c, hc, q', n.kind :: t₁, t₂, k₁, s, rfl, rfl, ⟨d, t₁, hd, rfl, hr⟩, hq⟩
        · exact .inr (.inl ⟨by simpa using hpre, by simpa using hprec, d, rest, hd, rfl, h⟩)
        · exact .inr (.inr ⟨m :: q₀, by simpa using hprec, d, rest, hd, rfl, h⟩)
      · rw [if_neg hmj] at h
        rcases Nat.lt_or_ge m j with hlt | hge
        · exact .inr (.inr ⟨j :: q, .inl hlt, d, rest, hd, rfl, h⟩)
        · exact .inr (.inl ⟨by simp [hmj], by simp; omega, d, rest, hd, rfl, h⟩)

/-- A place that is not below the replaced node is still what it was. -/
theorem Found.update {f : Node → Node} (h : Found q t k n) (hpq : ¬ p <+: q) :
    Found q t k (n.update f p) := by
  induction p generalizing n q t with
  | nil => exact absurd nil_prefix hpq
  | cons i p ih =>
    cases q with
    | nil => exact h
    | cons j q =>
      obtain ⟨c, rest, hc, rfl, h⟩ := h
      refine ⟨_, rest, getElem?_modify_eq_some.2 ⟨c, hc, rfl⟩, rfl, ?_⟩
      by_cases hij : i = j
      · subst hij
        rw [if_pos rfl]
        exact ih h (by simpa using hpq)
      · rw [if_neg hij]
        exact h

variable {Fresh : Node → Prop}

/-- A node replaced by several edits the tree, if it stands among statements. -/
theorem edited_splice {p : Node} {new : List Node} (hp : n.get? r = some p)
    (hc : p.children[i]? = some c) (hb : p.kind.form.isBlockLike = true) (hf : c.kind.form ≠ .frame)
    (hnew : ∀ m ∈ new, Fresh m) : Edited Fresh n (n.splice new (r ++ [i])) := by
  induction r generalizing n with
  | nil =>
    obtain rfl : n = p := Option.some.inj hp
    cases n
    exact ⟨rfl, .inl ⟨rfl, .splice hc (.inl ⟨hb, hf, hnew⟩)⟩⟩
  | cons j r ih =>
    have hstep : n.splice new (j :: r ++ [i]) =
        n.withChildren (n.children.modify j (splice new (r ++ [i]))) := by
      cases r <;> rfl
    rw [hstep]
    cases n with
    | mk l cs =>
      refine ⟨rfl, .inl ⟨rfl, .modify fun d hd => ih ?_⟩⟩
      simpa [get?, hd] using hp

/-- A node replaced by another one edits the tree, if it stands among statements. -/
theorem edited_update {p b : Node} (hp : n.get? r = some p) (hc : p.children[i]? = some c)
    (hb : p.kind.form.isBlockLike = true) (hf : c.kind.form ≠ .frame) (hnew : Fresh b) :
    Edited Fresh n (n.update (fun _ => b) (r ++ [i])) := by
  induction r generalizing n with
  | nil =>
    obtain rfl : n = p := Option.some.inj hp
    have hlen := (List.getElem?_eq_some_iff.1 hc).1
    have hone : Form.Permits Fresh n.kind.form c [b] := .inl ⟨hb, hf, by simpa using hnew⟩
    cases n with
    | mk l cs =>
      refine ⟨rfl, .inl ⟨rfl, ?_⟩⟩
      rw [modify_eq_take_cons_drop hlen, ← singleton_append, ← append_assoc]
      exact .splice hc hone
  | cons j r ih =>
    cases n with
    | mk l cs =>
      refine ⟨rfl, .inl ⟨rfl, .modify fun d hd => ih ?_⟩⟩
      simpa [get?, hd] using hp

/-! ## What occurs in a tree -/

/-- A node of the kind `kind` occurs in the tree, below nodes of the kinds in `trail`. -/
def Occurs (kind : Kind) (trail : List Kind) (n : Node) : Prop :=
  ∃ p, Found p trail kind n

theorem occurs_mk {l : Label} : Occurs k t (mk l cs) ↔
      (t = [] ∧ l.kind = k) ∨ ∃ c ∈ cs, ∃ rest, t = l.kind :: rest ∧ Occurs k rest c := by
  constructor
  · rintro ⟨_ | ⟨i, p⟩, h⟩
    · exact .inl h
    · obtain ⟨c, rest, hc, rfl, h⟩ := h
      exact .inr ⟨c, mem_of_getElem? hc, rest, rfl, p, h⟩
  · rintro (h | ⟨c, hc, rest, rfl, p, h⟩)
    · exact ⟨[], h⟩
    · obtain ⟨i, hi⟩ := getElem?_of_mem hc
      exact ⟨i :: p, c, rest, hi, rfl, h⟩

theorem exists_occurs_iff : (∃ t, Occurs k t n) ↔ ∃ m ∈ n.preorder, m.kind = k := by
  constructor
  · rintro ⟨t, p, h⟩
    obtain ⟨m, hm, hk⟩ := h.get?
    exact ⟨m, mem_preorder.2 ⟨p, hm⟩, hk⟩
  · rintro ⟨m, hm, rfl⟩
    obtain ⟨p, hp⟩ := mem_preorder.1 hm
    obtain ⟨t, ht⟩ := found_of_get? hp
    exact ⟨t, p, ht⟩

end Node

end Cascade
