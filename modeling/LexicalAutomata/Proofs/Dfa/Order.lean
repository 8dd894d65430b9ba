/-
# `LexicalAutomata.Proofs.Dfa.Order` — states are listed in the order in which they were issued

Whatever operations build, its order lists each carried state once: the start first, then what can be
reached, breadth first, and the others by ascending numbers (`Numbered`).  In a deterministic automaton,
breadth first is by the least words that lead to a state (`ByAccess`).

Determinization and minimization issue states in just that order.  So the order of what they make is that
of the numbers, whatever numbers were issued before, and the rows of a table follow the states as they
were issued (`InIssueOrder`).
-/
import LexicalAutomata.Proofs.Dfa.QuotientOrder
import LexicalAutomata.Proofs.Dfa.SubsetOrder
import LexicalAutomata.Proofs.Table.Flatten

namespace LexicalAutomata

open Automaton

variable {d m : Dfa} {n : Nfa} {σ τ : Session}

namespace Dfa

/-- The states that can be reached come in the order of the least words that lead to them, shorter words
first and words of one length by their symbols.  Without empty moves, words are those of characters. -/
structure ByAccess (d : Dfa) : Prop where
  symbols : ∃ words, List.Forall₂ (fun w s => d.Least w s.id) words d.found ∧
    words.Pairwise Symbol.Before
  characters : d.EpsilonFree → ∃ words : List (List Char),
    List.Forall₂ (fun w s => d.LeastRun w s.id) words d.found ∧
      words.Pairwise (List.Shortlex (· < ·))

theorem Made.byAccess (h : d.Made) : d.ByAccess where
  symbols := exists_access h.arcs_ascending h.deterministic
  characters := exists_access_run h.arcs_ascending h.deterministic

/-- The states of an automaton were issued between two sessions, and its order is that of their
numbers. -/
structure InIssueOrder (σ τ : Session) (d : Dfa) : Prop where
  made : d.Made
  ordered_eq : d.ordered = d.states
  ascending : (d.states.map State.id).Pairwise (· < ·)
  issued : ∀ s ∈ d.states, σ.supply.issued ≤ s.id ∧ s.id < τ.supply.issued
  rows : ∀ names skippable ρ t, ((d.flatten names skippable).run ρ).1 = .ok t →
    List.Forall₂ (fun s r => d.rowOf names skippable d.states s = .ok r) d.states t.rows

/-- What is found in the order in which it is carried is in the order of the numbers. -/
theorem Made.inIssueOrder (h : d.Made) (hfound : d.found = d.states)
    (hissued : ∀ s ∈ d.states, σ.supply.issued ≤ s.id ∧ s.id < τ.supply.issued) :
    InIssueOrder σ τ d where
  made := h
  ordered_eq := ordered_eq_states hfound
  ascending := h.closed.ids_ascending
  issued := hissued
  rows names skippable ρ t ht := by
    have hrows := rows_of_toTable (fst_run_flatten_eq_ok_iff.mp ht).1
    rwa [ordered_eq_states hfound] at hrows

end Dfa

/-! ## The stages -/

theorem Nfa.inIssueOrder_of_run (h : n.determinize.run σ = (.ok d, τ)) : d.InIssueOrder σ τ := by
  obtain ⟨hok, hissued⟩ := of_run_determinize h
  refine (made_of_subsetAutomaton hok).inIssueOrder (found_of_subsetAutomaton hok) fun s hs => ?_
  have hid : s.id ∈ d.states.map State.id := List.mem_map.mpr ⟨s, hs, rfl⟩
  rw [states_of_subsetAutomaton hok, ids_subsetStates (nodup_members_subsets n), List.mem_range'_1] at hid
  rwa [hissued]

theorem Dfa.Made.inIssueOrder_of_run (hd : d.Made) (h : d.minimize.run σ = (.ok m, τ)) :
    m.InIssueOrder σ τ := by
  obtain ⟨hok, hissued⟩ := of_run_minimize h
  have hm := hd.merged hok
  refine hm.made.inIssueOrder (hm.found_eq hd) ?_
  rw [hissued]
  exact hm.issued

/-! ## All together -/

/-- Every automaton that operations build, of states of one supply or of several, lists the carried
states once, the start first, those that can be reached before the others, and the others ascending; where
one supply issued all states, these are the carried states themselves.  A deterministic one lists the
states that can be reached by the least words that lead to them.  And what determinization and
minimization make, in whatever session, is listed as its states were issued, and so are the rows of its
tables. -/
theorem ordered_shortlex :
    (∀ n : Nfa, n.Made → n.Numbered) ∧ (∀ d : Dfa, d.Made → d.Numbered ∧ d.ByAccess) ∧
    (∀ tags, (∀ n, Nfa.Built tags n → n.ordered.Perm n.states) ∧
      ∀ d, Dfa.Built tags d → d.ordered.Perm d.states) ∧
    (∀ (n : Nfa) σ d τ, n.determinize.run σ = (.ok d, τ) → d.InIssueOrder σ τ) ∧
    ∀ (d : Dfa) σ m τ, d.Made → d.minimize.run σ = (.ok m, τ) → m.InIssueOrder σ τ :=
  ⟨fun _ h => h.closed.numbered, fun _ h => ⟨h.closed.numbered, h.byAccess⟩,
    fun _ => ⟨fun _ h => h.wellFormed.perm_ordered, fun _ h => h.wellFormed.perm_ordered⟩,
    fun _ _ _ _ h => Nfa.inIssueOrder_of_run h, fun _ _ _ _ hd h => hd.inIssueOrder_of_run h⟩

/-- The tags of states of which three accept, two of them the same token. -/
def crossedTags : Tags := fun i =>
  if i = 2 ∨ i = 7 then some ⟨"A", 0⟩ else if i = 5 then some ⟨"B", 1⟩ else none

/-- An automaton whose states were issued in another order than they are found, and one more state. -/
def crossed : Dfa :=
  (Dfa.setArc
    (Dfa.setArc
      (Dfa.setArc (Automaton.new (.ofTags crossedTags 4))
        (.ofTags crossedTags 4) (.char 'c') (.ofTags crossedTags 5))
      (.ofTags crossedTags 4) (.char 'b') (.ofTags crossedTags 2))
    (.ofTags crossedTags 4) (.char 'a') (.ofTags crossedTags 7)).addState (.ofTags crossedTags 1)

theorem built_crossed : crossed.Built crossedTags :=
  .addState 1 (.setArc 4 _ 7 (.setArc 4 _ 2 (.setArc 4 _ 5 (.new 4))))

/-- A nondeterministic automaton of two arcs, of which the later one reads the smaller character. -/
def forked : Nfa :=
  Nfa.addArc (Nfa.addArc (Automaton.new (.ofTags crossedTags 4)) (.ofTags crossedTags 4) (.char 'b')
    (.ofTags crossedTags 2)) (.ofTags crossedTags 4) (.char 'a') (.ofTags crossedTags 5)

theorem ordered_shortlex_crossed :
    (forked.Numbered ∧ ∃ d τ, forked.determinize.run ⟨⟨3⟩, []⟩ = (.ok d, τ) ∧
      d.InIssueOrder ⟨⟨3⟩, []⟩ τ ∧ d.ordered.map State.id = [3, 4, 5]) ∧
    (crossed.Numbered ∧ crossed.ByAccess ∧ crossed.ordered.Perm crossed.states ∧
      crossed.ordered.map State.id = [4, 7, 2, 5, 1]) ∧
    ∃ m τ, crossed.minimize.run ⟨⟨10⟩, []⟩ = (.ok m, τ) ∧ m.InIssueOrder ⟨⟨10⟩, []⟩ τ ∧
      m.ordered.map State.id = [10, 11, 12] := by
  obtain ⟨hn, hd, hbuilt, hdeterminize, hminimize⟩ := ordered_shortlex
  obtain ⟨d, τ, hrun, hids⟩ := Stage.exists_run_of_toOption forked.determinize ⟨⟨3⟩, []⟩
    (fun d => d.ordered.map State.id) [3, 4, 5] (by decide +kernel)
  obtain ⟨m, ρ, hrun', hids'⟩ := Stage.exists_run_of_toOption crossed.minimize ⟨⟨10⟩, []⟩
    (fun m => m.ordered.map State.id) [10, 11, 12] (by decide +kernel)
  obtain ⟨hnumbered, haccess⟩ := hd crossed built_crossed.made
  refine ⟨⟨hn forked (.addArc _ _ _ (.addArc _ _ _ (.new _))), d, τ, hrun,
    hdeterminize _ _ _ _ hrun, hids⟩, ⟨hnumbered, haccess, ?_, by decide +kernel⟩,
    m, ρ, hrun', hminimize _ _ _ _ built_crossed.made hrun', hids'⟩
  exact (hbuilt crossedTags).2 crossed built_crossed

end LexicalAutomata
