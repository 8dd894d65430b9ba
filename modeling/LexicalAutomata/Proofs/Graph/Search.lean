/-
# `LexicalAutomata.Proofs.Graph.Search` — what a search lists, and in which order

A search lists each number once, and no node but the ones it was given and the ends of links.  The
order of the list depends only on which nodes follow which: if the nodes of two graphs correspond one
to one, and the successors of nodes that correspond do so too, in their order, then the searches list
nodes that correspond, in the same order (`forall₂_visit`), as where a function gives the nodes of one graph
to those of another (`map_visit`).
-/
import Mathlib.Data.List.Forall2
import LexicalAutomata.Graph.Search

namespace LexicalAutomata.Graph

variable {ν : Type} {number : ν → Nat} {links : List (ν × ν)} {f : Frontier}

theorem forall_mem_visit {P : ν → Prop} (hl : ∀ l ∈ links, P l.2) {pending visited : List ν}
    (hp : ∀ x ∈ pending, P x) (hv : ∀ x ∈ visited, P x) :
    ∀ x ∈ visit number links f pending visited, P x := by
  fun_induction visit number links f pending visited with
  | case1 => exact hv
  | case2 y pending visited _ ih => exact ih (fun x hx => hp x (List.mem_cons_of_mem _ hx)) hv
  | case3 y pending visited _ ih =>
      refine ih (fun x hx => ?_) (fun x hx => ?_)
      · rcases Frontier.mem_add.mp hx with hx | hx
        · obtain ⟨l, hl', -, rfl⟩ := mem_successors.mp hx
          exact hl l hl'
        · exact hp x (List.mem_cons_of_mem _ hx)
      · rcases List.mem_append.mp hx with hx | hx
        · exact hv x hx
        · obtain rfl := List.mem_singleton.mp hx
          exact hp x List.mem_cons_self

/-- A search goes on from what is visited. -/
theorem visit_eq_append {pending : List ν} (visited : List ν) :
    ∃ rest, visit number links f pending visited = visited ++ rest := by
  fun_induction visit number links f pending visited with
  | case1 visited => exact ⟨[], (List.append_nil _).symm⟩
  | case2 _ _ _ _ ih => exact ih
  | case3 x _ visited _ ih =>
      obtain ⟨rest, e⟩ := ih
      exact ⟨x :: rest, by rw [e, List.append_assoc]; rfl⟩

theorem nodup_map_visit {pending visited : List ν} (h : (visited.map number).Nodup) :
    ((visit number links f pending visited).map number).Nodup := by
  fun_induction visit number links f pending visited with
  | case1 => exact h
  | case2 _ _ _ _ ih => exact ih h
  | case3 y pending visited hy ih =>
      refine ih ?_
      rw [List.map_append, List.map_singleton, List.nodup_append]
      refine ⟨h, List.pairwise_singleton _ _, ?_⟩
      rintro i hi j hj rfl
      obtain ⟨x, hx, e⟩ := List.mem_map.mp hi
      rw [List.mem_singleton.mp hj] at e
      exact hy (seen_iff.mpr ⟨x, hx, e⟩)

/-- Paths among nodes are paths among their numbers. -/
theorem leads_map_iff {i j : Nat} :
    Leads id (links.map fun l => (number l.1, number l.2)) i j ↔ Leads number links i j := by
  constructor
  · intro h
    induction h with
    | stay i => exact .stay i
    | step hm _ ih =>
        obtain ⟨l, hl, rfl⟩ := List.mem_map.mp hm
        exact .step hl ih
  · intro h
    induction h with
    | stay i => exact .stay i
    | @step l j hl _ ih =>
        have hm : (number l.1, number l.2) ∈ links.map fun l => (number l.1, number l.2) :=
          List.mem_map.mpr ⟨l, hl, rfl⟩
        exact @Leads.step Nat id _ (number l.1, number l.2) j hm ih

/-! ## Graphs that correspond -/

section Corresponding
variable {μ : Type} {number' : μ → Nat} {links' : List (μ × μ)} {R : ν → μ → Prop}

theorem seen_eq
    (hnumber : ∀ x y x' y', R x x' → R y y' → (number x = number y ↔ number' x' = number' y'))
    {visited : List ν} {visited' : List μ} (hv : List.Forall₂ R visited visited') {x : ν} {x' : μ}
    (hx : R x x') : seen number visited x = seen number' visited' x' := by
  induction hv with
  | nil => rfl
  | @cons y y' ys ys' hy _ ih =>
      have e : (number y == number x) = (number' y' == number' x') := by
        rw [Bool.eq_iff_iff, beq_iff_eq, beq_iff_eq]
        exact hnumber _ _ _ _ hy hx
      show (number y == number x || seen number ys x) =
        (number' y' == number' x' || seen number' ys' x')
      rw [e, ih]

/-- Nodes that correspond, and whose successors correspond in their order, are visited in the same
order. -/
theorem forall₂_visit
    (hnumber : ∀ x y x' y', R x x' → R y y' → (number x = number y ↔ number' x' = number' y'))
    (hsucc : ∀ x x', R x x' →
      List.Forall₂ R (successors number links x) (successors number' links' x'))
    {pending visited : List ν} {pending' visited' : List μ} (hp : List.Forall₂ R pending pending')
    (hv : List.Forall₂ R visited visited') :
    List.Forall₂ R (visit number links f pending visited)
      (visit number' links' f pending' visited') := by
  fun_induction visit number links f pending visited generalizing pending' visited' with
  | case1 visited =>
      cases hp
      rw [visit]
      exact hv
  | case2 x pending visited hx ih =>
      cases hp with
      | cons hxx' hp =>
          rw [visit, if_pos (seen_eq hnumber hv hxx' ▸ hx)]
          exact ih hp hv
  | case3 x pending visited hx ih =>
      cases hp with
      | cons hxx' hp =>
          rw [visit, if_neg (seen_eq hnumber hv hxx' ▸ hx)]
          refine ih ?_ (List.rel_append hv (.cons hxx' .nil))
          cases f with
          | stack => exact List.rel_append (List.rel_reverse (hsucc _ _ hxx')) hp
          | queue => exact List.rel_append hp (hsucc _ _ hxx')

/-- A function that keeps different numbers different keeps the order of the visits. -/
theorem map_visit {g : ν → μ} (hg : ∀ x y, number' (g x) = number' (g y) ↔ number x = number y)
    (pending visited : List ν) : (visit number links f pending visited).map g =
      visit number' (links.map (Prod.map g g)) f (pending.map g) (visited.map g) := by
  have hmap : ∀ xs : List ν, List.Forall₂ (fun x y => g x = y) xs (xs.map g) := fun xs => by
    rw [List.forall₂_map_right_iff, List.forall₂_same]
    exact fun _ _ => rfl
  have hsucc : ∀ x, (successors number links x).map g =
      successors number' (links.map (Prod.map g g)) (g x) := fun x => by
    have hnumber : ∀ l : ν × ν, (number' (g l.1) == number' (g x)) = (number l.1 == number x) :=
      fun l => by rw [Bool.eq_iff_iff, beq_iff_eq, beq_iff_eq, hg]
    simp only [successors, List.filter_map, List.map_map, Function.comp_def, Prod.map_fst,
      Prod.map_snd, hnumber]
  have hvisit : List.Forall₂ (fun x y => g x = y) (visit number links f pending visited)
      (visit number' (links.map (Prod.map g g)) f (pending.map g) (visited.map g)) := by
    refine forall₂_visit ?_ ?_ (hmap pending) (hmap visited)
    · rintro x y _ _ rfl rfl
      exact (hg x y).symm
    · rintro x _ rfl
      exact hsucc x ▸ hmap _
  rwa [← List.forall₂_map_left_iff, List.forall₂_eq_eq_eq] at hvisit

end Corresponding

end LexicalAutomata.Graph
