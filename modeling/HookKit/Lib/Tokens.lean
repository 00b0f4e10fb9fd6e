import Mathlib.Data.List.TakeWhile

/-!
# The words of a text

A text is cut at every separator, and the pieces that are not empty are its words.

* `words` — the words, by `List.splitOnP`.
* `words_of_skip_nil`, `words_of_skip_cons` — a scanner that skips separators and then takes what is
  not one reads the words one after the other.
-/

set_option autoImplicit false

namespace Tokens

variable {α : Type*} {isSep : α → Bool} {c : α} {text : List α}

/-- The pieces of the text between separators, less the empty ones. -/
def words (isSep : α → Bool) (text : List α) : List (List α) :=
  (text.splitOnP isSep).filter fun piece ↦ !piece.isEmpty

@[simp]
theorem words_nil : words isSep [] = [] := rfl

theorem words_separator (h : isSep c = true) : words isSep (c :: text) = words isSep text := by
  rw [words, List.splitOnP_cons_eq_if_modifyHead, if_pos h]
  rfl

/-- Skipping separators. -/
theorem words_skip (text : List α) : words isSep (text.dropWhile isSep) = words isSep text := by
  induction text with
  | nil => rfl
  | cons c rest ih =>
    cases h : isSep c with
    | true => rw [List.dropWhile_cons_of_pos h, ih, words_separator h]
    | false => rw [List.dropWhile_cons_of_neg (by simp [h])]

/-- A text that is one word, and what follows it. -/
theorem words_append {word rest : List α} (hne : word ≠ []) (hword : ∀ c ∈ word, isSep c = false)
    (hrest : ∀ c ∈ rest.head?, isSep c = true) :
    words isSep (word ++ rest) = word :: words isSep rest := by
  have hkeep : (!word.isEmpty) = true := by simpa using hne
  cases rest with
  | nil =>
    have hone : word.splitOnP isSep = [word] := List.splitOnP_eq_singleton hword
    simp [words, hone, hkeep]
  | cons c rest =>
    have hc : isSep c = true := hrest c rfl
    rw [words_separator hc, words, List.splitOnP_append_cons_of_forall_mem hword c hc,
      List.filter_cons, if_pos hkeep]
    rfl

/-- Taking what is not a separator. -/
theorem words_word (h : isSep c = false) :
    words isSep (c :: text) = (c :: text).takeWhile (fun x ↦ !isSep x) ::
      words isSep ((c :: text).dropWhile fun x ↦ !isSep x) := by
  have hcut := List.takeWhile_append_dropWhile (p := fun x ↦ !isSep x) (l := c :: text)
  refine (congrArg (words isSep) hcut.symm).trans (words_append ?_ (fun x hx ↦ ?_) fun x hx ↦ ?_)
  · simp [h]
  · simpa using List.mem_takeWhile_imp hx
  · have := List.head?_dropWhile_not (fun x ↦ !isSep x) (c :: text)
    cases hd : ((c :: text).dropWhile fun x ↦ !isSep x).head? with
    | none => rw [hd] at hx; cases hx
    | some y =>
      rw [hd] at hx this
      cases hx
      simpa using this

/-! ## A scanner -/

section Scanner

variable {p rest : List α}

theorem skip_head (h : p.dropWhile isSep = c :: rest) : isSep c = false := by
  have hhead := List.head?_dropWhile_not isSep p
  rwa [h] at hhead

/-- After a word, less of the text is left. -/
theorem skip_shorter (h : p.dropWhile isSep = c :: rest) :
    ((c :: rest).dropWhile fun x ↦ !isSep x).length < p.length := by
  have hle : (c :: rest).length ≤ p.length := h ▸ (List.dropWhile_suffix _).length_le
  rw [List.dropWhile_cons_of_pos (by simp [skip_head h])]
  exact ((List.dropWhile_suffix _).length_le.trans_lt (Nat.lt_succ_self _)).trans_le hle

/-- Only separators are left. -/
theorem words_of_skip_nil (h : p.dropWhile isSep = []) : words isSep p = [] := by
  rw [← words_skip, h, words_nil]

/-- The next word. -/
theorem words_of_skip_cons (h : p.dropWhile isSep = c :: rest) :
    words isSep p = (c :: rest).takeWhile (fun x ↦ !isSep x) ::
      words isSep ((c :: rest).dropWhile fun x ↦ !isSep x) := by
  rw [← words_skip, h]
  exact words_word (skip_head h)

end Scanner

end Tokens
