import Mathlib.Data.List.Basic
import Mathlib.Data.List.Infix
import Mathlib.Data.List.Nodup

/-!
# Prefix trees

Trees whose edges are labelled with words.  A node that carries a value defines the word that is
spelled on the way to it.

* `Maps tree word value` — what the tree defines.
* `WellFormed` — no edge is empty, and no two edges of a node begin alike.
* `WellFormed.edge_unique` — so that at most one edge of a node goes on with a given word.
* `WellFormed.maps_nil`, `WellFormed.maps_edge`, `not_maps` — what a walk down the tree
  learns at a node.
-/

set_option autoImplicit false

/-- A tree with values at its nodes and words on its edges. -/
inductive PrefixTree (α β : Type) where
  | node (value : Option β) (edges : List (List α × PrefixTree α β))

namespace PrefixTree

variable {α β : Type}

/-- The value at the root. -/
def value : PrefixTree α β → Option β
  | node value _ => value

/-- The edges that leave the root. -/
def edges : PrefixTree α β → List (List α × PrefixTree α β)
  | node _ edges => edges

/-- The tree gives the word this value. -/
inductive Maps : PrefixTree α β → List α → β → Prop where
  | here {tree : PrefixTree α β} {v : β} (h : tree.value = some v) : Maps tree [] v
  | edge {tree child : PrefixTree α β} {label rest : List α} {v : β}
      (h : (label, child) ∈ tree.edges) (below : Maps child rest v) : Maps tree (label ++ rest) v

theorem maps_iff {tree : PrefixTree α β} {word : List α} {v : β} :
    tree.Maps word v ↔ (word = [] ∧ tree.value = some v) ∨
      ∃ label child rest, (label, child) ∈ tree.edges ∧ word = label ++ rest ∧
        child.Maps rest v := by
  constructor
  · rintro (h | ⟨h, below⟩)
    · exact .inl ⟨rfl, h⟩
    · exact .inr ⟨_, _, _, h, rfl, below⟩
  · rintro (⟨rfl, h⟩ | ⟨label, child, rest, h, rfl, below⟩)
    · exact .here h
    · exact .edge h below

/-- Every edge is labelled, and the edges of a node differ in their first letter. -/
inductive WellFormed : PrefixTree α β → Prop where
  | node {tree : PrefixTree α β}
      (labelled : ∀ label child, (label, child) ∈ tree.edges → label ≠ [])
      (apart : (tree.edges.map fun edge ↦ edge.1.head?).Nodup)
      (below : ∀ label child, (label, child) ∈ tree.edges → WellFormed child) : WellFormed tree

/-- No way down has more than so many edges. -/
def DepthAtMost : Nat → PrefixTree α β → Prop
  | 0, tree => tree.edges = []
  | n + 1, tree => ∀ label child, (label, child) ∈ tree.edges → DepthAtMost n child

namespace WellFormed

variable {tree : PrefixTree α β} (h : tree.WellFormed)

include h

theorem label_ne_nil {label : List α} {child : PrefixTree α β}
    (hmem : (label, child) ∈ tree.edges) : label ≠ [] := by
  cases h with
  | node labelled apart below => exact labelled label child hmem

theorem child {label : List α} {child : PrefixTree α β} (hmem : (label, child) ∈ tree.edges) :
    child.WellFormed := by
  cases h with
  | node labelled apart below => exact below label child hmem

/-- **Only one edge goes on with a given word.** -/
theorem edge_unique {label label' word : List α} {child child' : PrefixTree α β}
    (hmem : (label, child) ∈ tree.edges) (hmem' : (label', child') ∈ tree.edges)
    (hpre : label <+: word) (hpre' : label' <+: word) :
    (label, child) = (label', child') := by
  have hne := h.label_ne_nil hmem
  have hne' := h.label_ne_nil hmem'
  cases h with
  | node labelled apart below =>
    refine List.inj_on_of_nodup_map apart hmem hmem' ?_
    -- both labels begin like the word
    obtain ⟨c, rest, rfl⟩ := List.exists_cons_of_ne_nil hne
    obtain ⟨c', rest', rfl⟩ := List.exists_cons_of_ne_nil hne'
    obtain ⟨s, rfl⟩ := hpre
    obtain ⟨s', hs'⟩ := hpre'
    injection hs' with hc
    exact congrArg some hc.symm

/-- The empty word is defined by the root. -/
theorem maps_nil {v : β} : tree.Maps [] v ↔ tree.value = some v := by
  refine ⟨fun hmaps ↦ ?_, .here⟩
  generalize hword : ([] : List α) = word at hmaps
  cases hmaps with
  | here hvalue => exact hvalue
  | edge hmem below =>
    have hlabel := (List.append_eq_nil_iff.mp hword.symm).1
    exact absurd hlabel (h.label_ne_nil hmem)

/-- A word that goes on along an edge is defined below it. -/
theorem maps_edge {label rest : List α} {child : PrefixTree α β} {v : β}
    (hmem : (label, child) ∈ tree.edges) : tree.Maps (label ++ rest) v ↔ child.Maps rest v := by
  refine ⟨fun hmaps ↦ ?_, .edge hmem⟩
  generalize hword : label ++ rest = word at hmaps
  cases hmaps with
  | here =>
    have hlabel := (List.append_eq_nil_iff.mp hword).1
    exact absurd hlabel (h.label_ne_nil hmem)
  | @edge _ child' label' rest' _ hmem' below =>
    have heq := h.edge_unique hmem hmem' (hword ▸ List.prefix_append label rest)
      (List.prefix_append label' rest')
    injection heq with hlabel hchild
    subst hlabel hchild
    rwa [List.append_cancel_left hword]

end WellFormed

/-- A word that goes on along no edge is defined at the root or not at all. -/
theorem not_maps {tree : PrefixTree α β} {word : List α} {v : β} (hword : word ≠ [])
    (hno : ∀ label child, (label, child) ∈ tree.edges → ¬ label <+: word) : ¬ tree.Maps word v := by
  intro hmaps
  cases hmaps with
  | here => exact hword rfl
  | edge hmem below => exact hno _ _ hmem (List.prefix_append _ _)

end PrefixTree
