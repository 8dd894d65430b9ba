/-
# `LexicalAutomata.Proofs.Nfa.EmptyMoves` — a closure found with the help of others is the same closure

One empty move leads along one arc, and a closure holds what any number of them lead to
(`ClosureOf.mem_iff_emptyMoves`).  This fixes the members, so a search that takes over closures that are
known finds the list that a search without any help would find (`search_eq`), whatever cycles of empty
moves there are and in whatever order the closures were found.
-/
import Mathlib.Logic.Relation
import LexicalAutomata.Proofs.Automaton.Built
import LexicalAutomata.Proofs.Nfa.Elimination

namespace LexicalAutomata.Nfa

open Automaton Relation

variable {tags : Tags} {n : Nfa} {known : Closures} {s t : State} {members : List State}

/-- One empty move leads from `s` to `t`. -/
def EmptyMove (n : Nfa) (s t : State) : Prop := ⟨s, .epsilon, t⟩ ∈ n.arcs

/-! ## Empty moves are the paths that spell nothing -/

theorem reads_of_emptyMoves (h : ReflTransGen n.EmptyMove s t) : Reads n s.id [] t.id := by
  induction h using ReflTransGen.head_induction_on with
  | refl => exact .stay _
  | head he _ ih => exact .empty he rfl ih

theorem mem_of_emptyMoves (hw : n.WellFormed tags) (hs : s ∈ n.states)
    (h : ReflTransGen n.EmptyMove s t) : t ∈ n.states := by
  cases h with
  | refl => exact hs
  | tail _ he => exact hw.target_mem _ he

theorem emptyMoves_of_reads (hw : n.WellFormed tags) {i j : Nat} {w : List Char}
    (h : Reads n i w j) (hnil : w = []) (hs : s ∈ n.states) (hi : s.id = i) :
    ∃ t ∈ n.states, t.id = j ∧ ReflTransGen n.EmptyMove s t := by
  induction h generalizing s with
  | stay i => exact ⟨s, hs, hi, .refl⟩
  | @empty e w j he hx _ ih =>
      obtain rfl := hw.eq_of_id hs (hw.source_mem e he) hi
      obtain ⟨t, ht, hj, r⟩ := ih hnil (hw.target_mem e he) rfl
      have hmove : n.EmptyMove e.source e.target := by
        rw [EmptyMove, ← hx]
        exact he
      exact ⟨t, ht, hj, .head hmove r⟩
  | char => cases hnil

/-! ## Closures by empty moves -/

/-- The members of a closure are what some number of empty moves lead to, none included. -/
theorem ClosureOf.mem_iff_emptyMoves (h : ClosureOf n s members) (hw : n.WellFormed tags)
    (hs : s ∈ n.states) : t ∈ members ↔ ReflTransGen n.EmptyMove s t := by
  rw [h.mem_iff]
  constructor
  · intro h'
    obtain ⟨ht, r⟩ := h'
    obtain ⟨u, hu, hid, r⟩ := emptyMoves_of_reads hw r rfl hs rfl
    exact hw.eq_of_id hu ht hid ▸ r
  · exact fun r => ⟨mem_of_emptyMoves hw hs r, reads_of_emptyMoves r⟩

theorem ClosureOf.unique {members' : List State} (h : ClosureOf n s members)
    (h' : ClosureOf n s members') : members = members' :=
  h.ascending.ext h'.ascending fun t => (h.mem_iff t).trans (h'.mem_iff t).symm

/-- Whichever closures are known, provided that they are closures, the search finds the same list. -/
theorem search_eq (hw : n.WellFormed tags) (hs : s ∈ n.states) (hk : Closures.Exact n known) :
    n.search known [s] [] = n.search [] [s] [] :=
  (closureOf_search hw hk (.init hs)).unique
    (closureOf_search hw (fun _ hc => (by cases hc)) (.init hs))

theorem exists_closure? (hw : n.WellFormed tags) (hs : s ∈ n.states) :
    ∃ members, n.closure? s = some members ∧ ClosureOf n s members := by
  obtain ⟨hexact, hstates⟩ := closures_exact hw
  obtain ⟨c, hc, hcs⟩ := List.mem_map.mp (hstates ▸ hs)
  cases hf : n.closure? s with
  | some members => exact ⟨members, rfl, hexact.closureOf hf⟩
  | none =>
      have := List.find?_eq_none.mp (Option.map_eq_none_iff.mp hf) c hc
      rw [hcs] at this
      exact absurd (beq_self_eq_true s.id) this

/-- Every carried state has a closure: the list that a search finds which knows no other closure.  It
ascends, and holds exactly the states that empty moves lead to from there, the state itself among them. -/
theorem closure?_exact (tags : Tags) (n : Nfa) (hb : n.Built tags) (s : State) (hs : s ∈ n.states) :
    n.closure? s = some (n.search [] [s] []) ∧
      Ordered.Ascending State.order (n.search [] [s] []) ∧
      ∀ t, t ∈ n.search [] [s] [] ↔ ReflTransGen n.EmptyMove s t := by
  have hw := hb.wellFormed
  have hplain : ClosureOf n s (n.search [] [s] []) :=
    closureOf_search hw (fun _ hc => (by cases hc)) (.init hs)
  obtain ⟨members, hmembers, hclosure⟩ := exists_closure? hw hs
  exact ⟨hmembers.trans (congrArg some (hclosure.unique hplain)), hplain.ascending,
    fun t => hplain.mem_iff_emptyMoves hw hs⟩

theorem closure?_exact_circling :
    circling.closure? (.ofTags circlingTags 1) =
      some [.ofTags circlingTags 0, .ofTags circlingTags 1] ∧
    ReflTransGen circling.EmptyMove (.ofTags circlingTags 1) (.ofTags circlingTags 0) ∧
    ¬ ReflTransGen circling.EmptyMove (.ofTags circlingTags 1) (.ofTags circlingTags 2) := by
  obtain ⟨hclosure, -, hmem⟩ := closure?_exact circlingTags circling built_circling
    (.ofTags circlingTags 1) (by decide)
  have hfound : circling.search [] [.ofTags circlingTags 1] [] =
      [.ofTags circlingTags 0, .ofTags circlingTags 1] := by decide +kernel
  rw [hfound] at hclosure hmem
  exact ⟨hclosure, (hmem _).mp (by decide), fun r => absurd ((hmem _).mpr r) (by decide)⟩

end LexicalAutomata.Nfa
