/-
# `LexicalAutomata.Counting` — fewer members satisfy a stronger condition

A search ends because what it has not seen yet becomes less.  The fact behind each such argument: if
every member that satisfies `p` satisfies `q`, and one satisfies `q` alone, then fewer satisfy `p`.
-/

namespace LexicalAutomata

variable {α : Type} {p q : α → Bool} {xs : List α}

theorem length_filter_le_of_imp (h : ∀ x ∈ xs, p x → q x) :
    (xs.filter p).length ≤ (xs.filter q).length := by
  rw [← List.countP_eq_length_filter, ← List.countP_eq_length_filter]
  exact List.countP_mono_left h

theorem length_filter_lt_of_imp {x : α} (h : ∀ x ∈ xs, p x → q x) (hx : x ∈ xs) (hq : q x)
    (hp : ¬ p x) : (xs.filter p).length < (xs.filter q).length := by
  have e : xs.filter p = (xs.filter q).filter p := by
    rw [List.filter_filter]
    refine List.filter_congr fun y hy => ?_
    have := h y hy
    cases hpy : p y <;> simp_all
  rw [e]
  exact List.length_filter_lt_length_iff_exists.mpr ⟨x, List.mem_filter.mpr ⟨hx, hq⟩, hp⟩

end LexicalAutomata
