/-
# `LexicalAutomata.Proofs.Text.Blank` — what trimming leaves

Trimming takes white space off both ends of a text and leaves a text that neither begins nor ends with
any.  No other part of the text is left when that is done (`trims_iff`).
-/
import Mathlib.Data.List.TakeWhile
import LexicalAutomata.Text.Blank

namespace LexicalAutomata.Text

variable {text core : List Char}

/-- `core` is the text without the white space at its ends. -/
structure Trims (text core : List Char) : Prop where
  split : ∃ before after, text = before ++ core ++ after ∧ (∀ c ∈ before, isBlank c) ∧
    ∀ c ∈ after, isBlank c
  head : ∀ c ∈ core.head?, ¬ isBlank c
  last : ∀ c ∈ core.getLast?, ¬ isBlank c

theorem not_blank_of_head?_dropWhile {c : Char} (h : c ∈ (text.dropWhile isBlank).head?) :
    ¬ isBlank c := by
  have := List.head?_dropWhile_not isBlank text
  rw [Option.mem_def.mp h] at this
  exact Bool.eq_false_iff.mp this

theorem trims_trim (text : List Char) : Trims text (trim text) := by
  have hfront := @List.takeWhile_append_dropWhile _ isBlank text
  have hback := congrArg List.reverse
    (@List.takeWhile_append_dropWhile _ isBlank (text.dropWhile isBlank).reverse)
  rw [List.reverse_append, List.reverse_reverse] at hback
  refine ⟨⟨text.takeWhile isBlank,
    ((text.dropWhile isBlank).reverse.takeWhile isBlank).reverse, ?_, ?_, ?_⟩, ?_, ?_⟩
  · rw [List.append_assoc, trim, hback, hfront]
  · exact fun c hc => List.mem_takeWhile_imp hc
  · exact fun c hc => List.mem_takeWhile_imp (List.mem_reverse.mp hc)
  · -- what is left begins as the text does behind its leading white space
    intro c hc
    refine @not_blank_of_head?_dropWhile text c ?_
    rw [← hback, List.head?_append]
    exact Option.or_eq_some_iff.mpr (.inl hc)
  · intro c hc
    rw [trim, List.getLast?_reverse] at hc
    exact not_blank_of_head?_dropWhile hc

theorem dropWhile_isBlank_eq_self (h : ∀ c ∈ text.head?, ¬ isBlank c) :
    text.dropWhile isBlank = text := by
  cases text with
  | nil => rfl
  | cons c cs => exact List.dropWhile_cons_of_neg (h c rfl)

theorem Trims.eq_trim (h : Trims text core) : core = trim text := by
  obtain ⟨before, after, rfl, hbefore, hafter⟩ := h.split
  have hafter : ∀ c ∈ after.reverse, isBlank c := fun c hc => hafter c (List.mem_reverse.mp hc)
  have hlast : core.reverse.dropWhile isBlank = core.reverse :=
    dropWhile_isBlank_eq_self fun c hc => h.last c (List.head?_reverse ▸ hc)
  rw [trim, List.append_assoc, List.dropWhile_append_of_pos hbefore]
  cases core with
  | nil =>
      rw [List.nil_append, List.dropWhile_eq_nil_iff.mpr fun c hc => hafter c (List.mem_reverse.mpr hc)]
      rfl
  | cons c cs =>
      rw [@dropWhile_isBlank_eq_self (c :: cs ++ after) fun d hd => h.head d hd, List.reverse_append,
        List.dropWhile_append_of_pos hafter, hlast, List.reverse_reverse]

theorem trims_iff : Trims text core ↔ core = trim text := by
  refine ⟨Trims.eq_trim, ?_⟩
  rintro rfl
  exact trims_trim text

end LexicalAutomata.Text
