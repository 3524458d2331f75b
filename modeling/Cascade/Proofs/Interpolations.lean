import Cascade.Proofs.Expansions

/-!
# Variables written into texts

A text with variables in it is a sequence of pieces: characters that stand for themselves, and
variables in braces.  The renaming of a mixin goes through such a text once for every local name
that is written into it.  This file shows that all these passes together do what they are meant to
do: every piece that is a local variable gets the mark, once, and all other pieces stay.

The passes can only disturb each other if a name that is written into the text has the mark of this
very copy already, since then a later pass takes the result of an earlier one for a name of the
text.
-/

set_option autoImplicit false

namespace Cascade

open List

variable {x : String}

/-! ## Pieces -/

/-- A piece of a text: characters that stand for themselves, or a variable. -/
inductive Piece where
  | plain (chars : List Char)
  | inserted (name : String)
  deriving Inhabited

namespace Piece

/-- How a piece is written. -/
def chars : Piece → List Char
  | plain chars => chars
  | inserted name => (interpolation name).toList

/-- The text that pieces make up. -/
def render (pieces : List Piece) : String :=
  String.ofList (pieces.flatMap chars)

/-- A piece that is what it looks like: plain characters start no variable, and a name ends where
its brace closes. -/
def Clear : Piece → Prop
  | plain chars => '$' ∉ chars
  | inserted name => '$' ∉ name.toList ∧ '\x7d' ∉ name.toList

/-- The piece with its name changed. -/
def mapName (f : String → String) : Piece → Piece
  | plain chars => plain chars
  | inserted x => inserted (f x)

@[simp] theorem mapName_id : mapName (fun x => x) = id := by
  funext p
  cases p <;> rfl

theorem mapName_mapName (f g : String → String) (p : Piece) :
    (p.mapName f).mapName g = p.mapName fun x => g (f x) := by
  cases p <;> rfl

/-- The piece is a variable in `names`, or no variable at all. -/
def NameIn (names : List String) : Piece → Prop
  | plain _ => True
  | inserted x => x ∈ names

end Piece

theorem toList_interpolation (name : String) :
    (interpolation name).toList = '$' :: '\x7b' :: (name.toList ++ ['\x7d']) := by
  simp [interpolation]

namespace Text

variable {pattern replacement : List Char}

/-- An occurrence that has been replaced is passed over. -/
theorem replaceAfter_skip (cs rest : List Char) :
    replaceAfter pattern replacement cs.length (cs ++ rest) =
      replaceAfter pattern replacement 0 rest := by
  induction cs with
  | nil => rfl
  | cons c cs ih => exact ih

/-- An occurrence at the start of a text is replaced. -/
theorem replaceAfter_occurrence (h : pattern ≠ []) (rest : List Char) :
    replaceAfter pattern replacement 0 (pattern ++ rest) =
      replacement ++ replaceAfter pattern replacement 0 rest := by
  obtain ⟨c, cs, rfl⟩ := exists_cons_of_ne_nil h
  have hyes : c :: cs ≠ [] ∧ (c :: cs).isPrefixOf (c :: (cs ++ rest)) = true :=
    ⟨h, isPrefixOf_iff_prefix.2 (prefix_append (c :: cs) rest)⟩
  rw [cons_append, replaceAfter, if_pos hyes, length_cons, Nat.add_sub_cancel,
    replaceAfter_skip]

/-- Where a pattern cannot start, nothing is replaced. -/
theorem replaceAfter_plain {d : Char} {ds cs : List Char} (h : d ∉ cs) (rest : List Char) :
    replaceAfter (d :: ds) replacement 0 (cs ++ rest) =
      cs ++ replaceAfter (d :: ds) replacement 0 rest := by
  induction cs with
  | nil => rfl
  | cons c cs ih =>
    obtain ⟨hc, hcs⟩ := not_or.1 (mem_cons.not.1 h)
    have hno : ¬ (d :: ds ≠ [] ∧ (d :: ds).isPrefixOf (c :: (cs ++ rest)) = true) := by
      simp [List.isPrefixOf, beq_eq_false_iff_ne.2 hc]
    rw [cons_append, replaceAfter, if_neg hno, ih hcs, cons_append]

end Text

/-- Names that end at the same brace are the same. -/
theorem eq_of_append_brace {xs ys rest : List Char} {d : Char} (hx : d ∉ xs) (hy : d ∉ ys)
    (h : xs ++ [d] <+: ys ++ d :: rest) : xs = ys := by
  induction xs generalizing ys with
  | nil =>
    cases ys with
    | nil => rfl
    | cons y ys =>
      obtain ⟨rfl, -⟩ := cons_prefix_cons.1 h
      exact absurd mem_cons_self hy
  | cons x xs ih =>
    cases ys with
    | nil =>
      obtain ⟨rfl, -⟩ := cons_prefix_cons.1 h
      exact absurd mem_cons_self hx
    | cons y ys =>
      obtain ⟨rfl, hrest⟩ := cons_prefix_cons.1 h
      have hx : d ∉ xs := fun hd => hx (mem_cons_of_mem _ hd)
      have hy : d ∉ ys := fun hd => hy (mem_cons_of_mem _ hd)
      rw [ih hx hy hrest]

/-- Another variable is left as it is. -/
theorem replaceAfter_other {z : String} (y : String) (hx : (Piece.inserted x).Clear)
    (hz : (Piece.inserted z).Clear) (hne : x ≠ z) (rest : List Char) :
    Text.replaceAfter (interpolation x).toList (interpolation y).toList 0
        ((interpolation z).toList ++ rest) =
      (interpolation z).toList ++
        Text.replaceAfter (interpolation x).toList (interpolation y).toList 0 rest := by
  have hno : ¬ (interpolation x).toList <+: (interpolation z).toList ++ rest := by
    intro h
    simp only [toList_interpolation, cons_append, cons_prefix_cons, true_and,
      append_assoc, nil_append] at h
    exact hne (String.toList_injective (eq_of_append_brace hx.2 hz.2 h))
  rw [toList_interpolation z, cons_append] at hno ⊢
  rw [Text.replaceAfter, if_neg fun h => hno ( isPrefixOf_iff_prefix.1 h.2),
    toList_interpolation x, Text.replaceAfter_plain (by simp [hz.1])]
  rfl

variable {pieces : List Piece}

/-- **One pass over a text** changes one name, wherever it is written. -/
theorem replaced_render (y : String) (hx : (Piece.inserted x).Clear)
    (hclear : ∀ p ∈ pieces, p.Clear) :
    Text.replaced (interpolation x) (interpolation y) (Piece.render pieces) =
      Piece.render (pieces.map (Piece.mapName fun z => if z = x then y else z)) := by
  refine congrArg String.ofList ?_
  rw [Piece.render, String.toList_ofList, Text.replaceAll]
  induction pieces with
  | nil => rfl
  | cons p pieces ih =>
    obtain ⟨hp, hclear⟩ := forall_mem_cons.1 hclear
    have ih := ih hclear
    rw [flatMap_cons, map_cons, flatMap_cons, ← ih]
    cases p with
    | plain cs =>
      rw [toList_interpolation x]
      exact Text.replaceAfter_plain (show '$' ∉ cs from hp) _
    | inserted z =>
      change Text.replaceAfter _ _ 0 ((interpolation z).toList ++ _) =
        (interpolation (if z = x then y else z)).toList ++ _
      by_cases hz : z = x
      · rw [if_pos hz, hz]
        exact Text.replaceAfter_occurrence (by simp [toList_interpolation]) _
      · rw [if_neg hz]
        exact replaceAfter_other y hx hp (Ne.symm hz) _

/-! ## Marks -/

namespace Renaming

variable {r : Renaming} {names : List String}

/-- The name already has the mark of the copy. -/
def HasMark (r : Renaming) (name : String) : Prop :=
  ∃ original, name = r.marked original

/-- The mark can be written into texts. -/
def Clear (r : Renaming) : Prop :=
  '$' ∉ r.mark.toList ∧ '\x7d' ∉ r.mark.toList

theorem clear_marked (hr : r.Clear) (hx : (Piece.inserted x).Clear) :
    (Piece.inserted (r.marked x)).Clear := by
  obtain ⟨hdollar, hbrace⟩ := hr
  obtain ⟨hxdollar, hxbrace⟩ := hx
  constructor <;> simp [marked, *]

/-- **All passes together** give a mark to every piece that is one of the names. -/
theorem renameIn_render (hr : r.Clear) (hnames : ∀ x ∈ names, ¬ r.HasMark x)
    (hclear : ∀ x ∈ names, (Piece.inserted x).Clear) (hpieces : ∀ p ∈ pieces, p.Clear) :
    r.renameIn names (Piece.render pieces) =
      Piece.render (pieces.map (Piece.mapName fun z => if z ∈ names then r.marked z else z)) := by
  induction names generalizing pieces with
  | nil => simp [renameIn]
  | cons x names ih =>
    obtain ⟨hx, hnames⟩ := forall_mem_cons.1 hnames
    obtain ⟨hxclear, hclear⟩ := forall_mem_cons.1 hclear
    have hpieces' : ∀ p ∈ pieces.map (Piece.mapName fun z => if z = x then r.marked x else z),
        p.Clear := by
      intro p hp
      obtain ⟨q, hq, rfl⟩ := mem_map.1 hp
      cases q with
      | plain cs => exact hpieces _ hq
      | inserted z =>
        by_cases hz : z = x
        · simpa only [Piece.mapName, hz, if_true] using clear_marked hr hxclear
        · simpa only [Piece.mapName, hz, if_false] using hpieces _ hq
    have hstep : r.renameIn (x :: names) (Piece.render pieces) =
        r.renameIn names
          (Text.replaced (interpolation x) (interpolation (r.marked x)) (Piece.render pieces)) :=
      rfl
    rw [hstep, replaced_render _ hxclear hpieces, ih hnames hclear hpieces', map_map]
    refine congrArg _ (map_congr_left fun p _ => ?_)
    rw [Function.comp, Piece.mapName_mapName]
    congr 1
    funext z
    -- What got the mark in this pass is none of the names of the later ones.
    have hmarked : r.marked x ∉ names := fun h => hnames _ h ⟨x, rfl⟩
    by_cases hz : z = x <;> simp [hz, hmarked]

/-! ## Sets of names -/

theorem count_insert {name : String} (h : x ≠ name) (set : NameSet) :
    (NameSet.insert name set).count x = set.count x := by
  induction set with
  | nil => simp [NameSet.insert, h.symm]
  | cons other rest ih =>
    rw [NameSet.insert]
    split
    · rfl
    · split
      · rw [count_cons_of_ne h.symm]
      · rw [count_cons, count_cons, ih]

/-- The names of a text after all passes. -/
def renamedNames (r : Renaming) (names : List String) (set : NameSet) : NameSet :=
  names.foldl (fun set name => NameSet.insert (r.marked name) (set.erase name)) set

theorem count_renamedNames (hx : ¬ r.HasMark x) (set : NameSet) :
    (r.renamedNames names set).count x = set.count x - names.count x := by
  induction names generalizing set with
  | nil => rfl
  | cons name names ih =>
    have hne : x ≠ r.marked name := fun h => hx ⟨name, h⟩
    rw [renamedNames, foldl_cons, ← renamedNames, ih, count_insert hne, count_erase,
      count_cons]
    by_cases h : name = x <;> simp [h]
    omega

theorem mem_renamedNames_of_hasMark (hnames : ∀ x ∈ names, ¬ r.HasMark x) {y : String}
    (hy : r.HasMark y) (set : NameSet) :
    y ∈ r.renamedNames names set ↔ y ∈ set ∨ ∃ x ∈ names, y = r.marked x := by
  induction names generalizing set with
  | nil => simp [renamedNames]
  | cons name names ih =>
    obtain ⟨hname, hnames⟩ := forall_mem_cons.1 hnames
    have hne : y ≠ name := fun h => hname (h ▸ hy)
    rw [renamedNames, foldl_cons, ← renamedNames, ih hnames, NameSet.mem_insert,
      mem_erase_of_ne hne]
    simp only [mem_cons, exists_eq_or_imp]
    tauto

/-- **The names of a text after all passes**: those that belong to the mixin have got the mark, and
the others are as before. -/
theorem mem_renamedNames {set : NameSet} (hset : ∀ x ∈ set, ¬ r.HasMark x) {y : String} :
    y ∈ r.renamedNames (set.filter r.isLocal) set ↔ ∃ x ∈ set, y = r.rename x := by
  have hnames : ∀ x ∈ set.filter r.isLocal, ¬ r.HasMark x := fun x hx =>
    hset x (mem_of_mem_filter hx)
  by_cases hy : r.HasMark y
  · rw [mem_renamedNames_of_hasMark hnames hy, or_iff_right fun h => hset y h hy]
    constructor
    · rintro ⟨x, hx, rfl⟩
      obtain ⟨hx, hlocal⟩ := mem_filter.1 hx
      exact ⟨x, hx, by rw [rename, if_pos hlocal]⟩
    · rintro ⟨x, hx, rfl⟩
      by_cases hlocal : r.isLocal x = true
      · exact ⟨x, mem_filter.2 ⟨hx, hlocal⟩, by rw [rename, if_pos hlocal]⟩
      · rw [rename, if_neg hlocal] at hy
        exact absurd hy (hset x hx)
  · have hself (x : String) (h : y = r.rename x) : ¬ r.isLocal x = true ∧ y = x := by
      rw [rename] at h
      split at h
      · exact absurd ⟨x, h⟩ hy
      · exact ⟨‹_›, h⟩
    rw [← count_pos_iff, count_renamedNames hy]
    by_cases hlocal : r.isLocal y = true
    · rw [count_filter hlocal, Nat.sub_self]
      refine iff_of_false (Nat.lt_irrefl 0) ?_
      rintro ⟨x, -, hx⟩
      obtain ⟨hnot, rfl⟩ := hself x hx
      exact hnot hlocal
    · have hnone : (set.filter r.isLocal).count y = 0 :=
        count_eq_zero.2 fun h => hlocal (mem_filter.1 h).2
      rw [hnone, Nat.sub_zero, count_pos_iff]
      constructor
      · intro h
        exact ⟨y, h, by rw [rename, if_neg hlocal]⟩
      · rintro ⟨x, hx, h⟩
        exact (hself x h).2 ▸ hx

end Renaming

/-! ## Kinds -/

namespace Kind

/-- The variables that a node itself reads. -/
def reads : Kind → List String
  | reference name => [name]
  | assign name (some _) => [name]
  | kind => kind.dynamic

/-- The texts of a node that variables may be written into. -/
def texts : Kind → List String
  | selector texts _ | media texts _ => texts
  | property text _ _ => [text]
  | _ => []

/-- A kind in which the variables that it reads have other names, in the list of its names and in
its texts. -/
structure RenamedBy (rename : String → String) (kind copy : Kind) : Prop where
  reads : ∀ y, y ∈ copy.reads ↔ ∃ x ∈ kind.reads, y = rename x
  texts : (∀ x ∈ kind.dynamic, (Piece.inserted x).Clear) →
    List.Forall₂ (fun text text' => ∀ pieces : List Piece,
      (∀ p ∈ pieces, p.Clear ∧ p.NameIn kind.dynamic) → text = Piece.render pieces →
        text' = Piece.render (pieces.map (Piece.mapName rename))) kind.texts copy.texts

/-- A kind without texts reads at most one variable. -/
theorem RenamedBy.of_reads {rename : String → String} {kind copy : Kind}
    (hreads : copy.reads = kind.reads.map rename) (htexts : kind.texts = [])
    (htexts' : copy.texts = []) : kind.RenamedBy rename copy where
  reads y := by simp [hreads, eq_comm]
  texts _ := by
    rw [htexts, htexts']
    exact .nil

end Kind

/-- One text of a copy. -/
theorem Renaming.renameIn_pieces {r : Renaming} (hr : r.Clear) {dynamic : NameSet}
    (hmark : ∀ x ∈ dynamic, ¬ r.HasMark x) (hclear : ∀ x ∈ dynamic, (Piece.inserted x).Clear)
    (hpieces : ∀ p ∈ pieces, p.Clear ∧ p.NameIn dynamic) :
    r.renameIn (dynamic.filter r.isLocal) (Piece.render pieces) =
      Piece.render (pieces.map (Piece.mapName r.rename)) := by
  rw [renameIn_render hr (fun x hx => hmark x (mem_of_mem_filter hx))
    (fun x hx => hclear x (mem_of_mem_filter hx)) fun p hp => (hpieces p hp).1]
  refine congrArg _ (map_congr_left fun p hp => ?_)
  cases p with
  | plain cs => rfl
  | inserted x =>
    have hx : x ∈ dynamic := (hpieces _ hp).2
    simp only [Piece.mapName, mem_filter, hx, true_and, rename]

/-- **What a copy reads.**  The variables that belong to the mixin have got the mark, and all others
have kept their names. -/
theorem Renaming.renameKind_renamed {r : Renaming} (hr : r.Clear) {kind : Kind}
    (hmark : ∀ x ∈ kind.dynamic, ¬ r.HasMark x) :
    kind.RenamedBy r.rename (r.renameKind kind) := by
  cases kind with
  | selector texts dynamic =>
    refine ⟨fun y => mem_renamedNames hmark, fun hclear => ?_⟩
    refine forall₂_map_right_iff.2 (forall₂_same.2 ?_)
    rintro text - pieces hpieces rfl
    exact renameIn_pieces hr hmark hclear hpieces
  | media texts dynamic =>
    refine ⟨fun y => mem_renamedNames hmark, fun hclear => ?_⟩
    refine forall₂_map_right_iff.2 (forall₂_same.2 ?_)
    rintro text - pieces hpieces rfl
    exact renameIn_pieces hr hmark hclear hpieces
  | property text dynamic important =>
    refine ⟨fun y => mem_renamedNames hmark, fun hclear => .cons ?_ .nil⟩
    rintro pieces hpieces rfl
    exact renameIn_pieces hr hmark hclear hpieces
  | assign name operator => cases operator <;> exact .of_reads rfl rfl rfl
  | _ => exact .of_reads rfl rfl rfl

end Cascade
