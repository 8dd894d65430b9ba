/-
# `LexicalAutomata.Proofs.Dfa.Fewest` — minimization leaves as few states as possible

States of two automata `Meet` where one word leads to both.  If every state of the one meets a state of
the other, and no two of them meet the same one, then the other has at least as many states
(`length_le_of_meet`).  That is the case for a reduced automaton and any automaton that does the same:
a word that leads somewhere in the one leads somewhere in the other too, and words to one state of the
other lead to states that nothing tells apart (`Reduced.length_le_of_same`).  Nothing is asked of the
other automaton: it may have dead ends, states that cannot be reached, and empty moves, which no run
takes.

With what minimization makes of an automaton, this gives its specification (`minimize_optimal`).
-/
import Mathlib.Combinatorics.Enumerative.DoubleCounting
import LexicalAutomata.Proofs.Automaton.Built
import LexicalAutomata.Proofs.Dfa.Reduced

namespace LexicalAutomata.Dfa

open Automaton

variable {tags : Tags} {d e : Dfa} {s s' t : State} {w : List Char}

/-! ## Counting states -/

/-- Some word leads to the one state in the one automaton, and to the other in the other. -/
def Meet (d e : Dfa) (s t : State) : Prop := ∃ w, d.run w = some s ∧ e.run w = some t

/-- Wherever the words lead in an automaton that each state meets apart from the others, they lead to as
many states. -/
theorem length_le_of_meet (hw : d.WellFormed tags) {states : List State}
    (hstates : ∀ w t, e.run w = some t → t ∈ states) (hmeet : ∀ s ∈ d.states, ∃ t, Meet d e s t)
    (hunique : ∀ s ∈ d.states, ∀ s' ∈ d.states, ∀ t, Meet d e s t → Meet d e s' t → s = s') :
    d.states.length ≤ states.length := by
  have hcard : d.states.toFinset.card ≤ states.toFinset.card := by
    refine Finset.card_le_card_of_forall_subsingleton (Meet d e) (fun s hs => ?_) fun t _ => ?_
    · obtain ⟨t, w, hrun, ht⟩ := hmeet s (List.mem_toFinset.mp hs)
      exact ⟨t, List.mem_toFinset.mpr (hstates w t ht), w, hrun, ht⟩
    · intro s hs s' hs'
      exact hunique s (List.mem_toFinset.mp hs.1) s' (List.mem_toFinset.mp hs'.1) t hs.2 hs'.2
  rw [List.toFinset_card_of_nodup hw.states_ascending.nodup] at hcard
  exact Nat.le_trans hcard states.toFinset_card_le

/-! ## Where the words lead -/

theorem runFrom_eq_or_target (h : d.runFrom s w = some t) : t = s ∨ ∃ e ∈ d.arcs, e.target = t := by
  induction w generalizing s with
  | nil => exact .inl (Option.some_inj.mp h).symm
  | cons c w ih =>
      rw [runFrom_cons, Option.bind_eq_some_iff] at h
      obtain ⟨u, hu, hr⟩ := h
      obtain ⟨e, he, -, -, rfl⟩ := mem_targets.mp (List.mem_of_head? hu)
      rcases ih hr with rfl | htarget
      · exact .inr ⟨e, he, rfl⟩
      · exact .inr htarget

/-- The different states that occur in an automaton.  Where all states come from one supply these are the
carried ones; otherwise one number may stand for several states, which differ in their tags. -/
def occurring (d : Dfa) : List State := (d.start :: d.states ++ d.arcs.map Arc.target).dedup

theorem run_mem_occurring (h : d.run w = some t) : t ∈ d.occurring := by
  rw [occurring, List.mem_dedup, List.mem_append]
  rcases runFrom_eq_or_target h with rfl | ⟨e, he, rfl⟩
  · exact .inl List.mem_cons_self
  · exact .inr (List.mem_map.mpr ⟨e, he, rfl⟩)

theorem run_mem_states (hw : d.WellFormed tags) (h : d.run w = some t) : t ∈ d.states := by
  rcases runFrom_eq_or_target h with rfl | ⟨e, he, rfl⟩
  · exact hw.start_mem
  · exact hw.target_mem e he

/-! ## Automata that do the same -/

theorem seenAfter_append {u v : List Char} (h : d.runFrom s u = some t) :
    d.seenAfter s (u ++ v) = d.seenAfter t v := by
  rw [seenAfter, runFrom_append, h]
  rfl

theorem Same.of_runFrom {u v : List Char} {s₁ s₂ : State} (h : Same d s e t)
    (h₁ : d.runFrom s u = some s₁) (h₂ : d.runFrom s v = some s₂)
    (ht : e.runFrom t u = e.runFrom t v) (hsome : ∃ t', e.runFrom t u = some t') :
    Same d s₁ d s₂ := by
  obtain ⟨t', hu⟩ := hsome
  intro w
  calc d.seenAfter s₁ w = d.seenAfter s (u ++ w) := (seenAfter_append h₁).symm
    _ = e.seenAfter t' w := (h _).trans (seenAfter_append hu)
    _ = d.seenAfter s (v ++ w) := ((h _).trans (seenAfter_append (ht ▸ hu))).symm
    _ = d.seenAfter s₂ w := seenAfter_append h₂

/-- An automaton that does the same as a reduced one leads to as many states. -/
theorem Reduced.length_le_of_same (h : d.Reduced) (hsame : Same d d.start e e.start)
    {states : List State} (hstates : ∀ w t, e.run w = some t → t ∈ states) :
    d.states.length ≤ states.length := by
  obtain ⟨tags, hw⟩ := h.wellFormed
  refine length_le_of_meet hw hstates (fun s hs => ?_) fun s hs s' hs' t hst hst' => ?_
  · obtain ⟨w, hrun⟩ :=
      (reaches_iff_run hw h.deterministic h.epsilonFree hs).mp (h.connected s hs)
    have hseen := hsame w
    rw [seenAfter_start, seenAfter_start, hrun] at hseen
    obtain ⟨t, ht, -⟩ := Option.map_eq_some_iff.mp hseen.symm
    exact ⟨t, w, hrun, ht⟩
  · obtain ⟨u, hu, hut⟩ := hst
    obtain ⟨v, hv, hvt⟩ := hst'
    exact h.minimal s hs s' hs' (hsame.of_runFrom hu hv (hut.trans hvt.symm) ⟨t, hut⟩)

/-! ## The specification of minimization -/

theorem MinimalOf.exists_word {m : Dfa} (h : MinimalOf d m) (hs : s ∈ m.states) (ht : t ∈ m.states)
    (hne : s ≠ t) :
    ∃ w, (m.runFrom s w).map State.token ≠ (m.runFrom t w).map State.token :=
  not_forall.mp fun hsame => hne (h.reduced.minimal s hs t ht hsame)

/-- Minimization of an automaton without empty moves fails exactly where no accepting state can be
reached, and says so.  Otherwise its outcome reads the same words to the same tokens, any two of its
states are told apart by some word, and no automaton that reads the same words to the same tokens has
fewer states. -/
theorem minimize_optimal (tags : Tags) (d : Dfa) (hb : d.Built tags) (he : d.EpsilonFree)
    (σ : Session) :
    ((∃ τ, d.minimize.run σ = (.error .noFinalState, τ)) ↔
      ¬ ∃ s ∈ d.states, s.accepting ∧ Reaches d s.id) ∧
    ((∃ s ∈ d.states, s.accepting ∧ Reaches d s.id) →
      ∃ m τ, d.minimize.run σ = (.ok m, τ) ∧
        (∀ w, (m.run w).map State.token = (d.run w).map State.token) ∧
        (∀ s ∈ m.states, ∀ t ∈ m.states, s ≠ t →
          ∃ w, (m.runFrom s w).map State.token ≠ (m.runFrom t w).map State.token) ∧
        (∀ tags' (e : Dfa), e.Built tags' →
          (∀ w, (e.run w).map State.token = (d.run w).map State.token) →
          m.states.length ≤ e.states.length) ∧
        ∀ e : Dfa, (∀ w, (e.run w).map State.token = (d.run w).map State.token) →
          m.states.length ≤ e.occurring.length) := by
  have hw := hb.wellFormed
  have hd := hb.made.deterministic
  obtain ⟨m, τ, hm, hrun⟩ := run_minimize_minimalOf hw hd he σ
  rw [hrun, ← hm.hasFinal_iff hw hd he]
  refine ⟨⟨fun hfail hf => ?_, fun hf => ⟨τ, ?_⟩⟩, fun hf => ⟨m, τ, ?_, hm.same, ?_, ?_, ?_⟩⟩
  · rw [hm.reduced.checkDfa_eq_ok hf] at hfail
    obtain ⟨τ', hfail⟩ := hfail
    cases hfail
  · rw [checkDfa_eq_noFinalState hf]
    rfl
  · rw [hm.reduced.checkDfa_eq_ok hf]
    rfl
  · exact fun s hs t ht hne => hm.exists_word hs ht hne
  · intro tags' e hbe heq
    exact hm.reduced.length_le_of_same (hm.same.trans fun w => (heq w).symm)
      fun w t ht => run_mem_states hbe.wellFormed ht
  · intro e heq
    exact hm.reduced.length_le_of_same (hm.same.trans fun w => (heq w).symm)
      fun w t ht => run_mem_occurring ht

/-- The tags of an automaton whose second state accepts. -/
def strayTags : Tags := fun i => if i = 1 then some ⟨"A", 1⟩ else none

/-- An automaton of one letter, with a state that cannot be reached. -/
def stray : Dfa :=
  setArc (setArc (Automaton.new (.ofTags strayTags 0)) (.ofTags strayTags 0) (.char 'a')
    (.ofTags strayTags 1)) (.ofTags strayTags 2) (.char 'b') (.ofTags strayTags 1)

theorem built_stray : stray.Built strayTags := .setArc 2 _ 1 (.setArc 0 _ 1 (.new 0))

theorem epsilonFree_stray : stray.EpsilonFree := by
  unfold EpsilonFree
  decide

theorem minimize_optimal_stray :
    ∃ m τ, stray.minimize.run .empty = (.ok m, τ) ∧ m.states.length ≤ 2 := by
  have hw := built_stray.wellFormed
  have hd := built_stray.made.deterministic
  have hreach : Reaches stray 1 :=
    ⟨['a'], .char (e := ⟨.ofTags strayTags 0, .char 'a', .ofTags strayTags 1⟩) (by decide) rfl
      (.stay 1)⟩
  obtain ⟨m, τ, hrun, -, -, hfewest, -⟩ :=
    (minimize_optimal strayTags stray built_stray epsilonFree_stray .empty).2
      ⟨.ofTags strayTags 1, by decide, rfl, hreach⟩
  refine ⟨m, τ, hrun, ?_⟩
  calc m.states.length
      ≤ (Automaton.states stray.prune).length :=
        hfewest strayTags stray.prune (.prune built_stray) fun w => by
          rw [run_prune]
    _ = 2 := by decide +kernel

end LexicalAutomata.Dfa
