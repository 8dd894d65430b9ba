/-
# `LexicalAutomata.Proofs.Dfa.Canonical` — what a reduced automaton does decides its form

In a `Reduced` automaton every state can be reached and no two states are the same.  If nothing tells
the starts of two such automata apart, then their states come in pairs of `Twins`: the arcs of twins
read the same characters, in the same order, and lead to twins (`Twins.arcs`).  So twins correspond to
each other (`correspondence_twins`), and both automata have the same table and the same drawing, whatever
numbers their states have.
-/
import LexicalAutomata.Proofs.Dfa.Correspondence
import LexicalAutomata.Proofs.Dfa.Same

namespace LexicalAutomata.Dfa

open Automaton

variable {d e : Dfa} {s s' t t' : State}

/-- Every state can be reached, and no two are the same. -/
structure Reduced (d : Dfa) : Prop where
  wellFormed : ∃ tags, d.WellFormed tags
  deterministic : d.Deterministic
  epsilonFree : d.EpsilonFree
  connected : d.Connected
  minimal : ∀ s ∈ d.states, ∀ t ∈ d.states, Same d s d t → s = t

/-- A state of one automaton and a state of another that nothing tells apart. -/
structure Twins (d e : Dfa) (s t : State) : Prop where
  left_mem : s ∈ d.states
  right_mem : t ∈ e.states
  same : Same d s e t

/-! ## Twins come in pairs -/

namespace Twins

theorem symm (h : Twins d e s t) : Twins e d t s := ⟨h.right_mem, h.left_mem, h.same.symm⟩

theorem right_eq (he : e.Reduced) (h : Twins d e s t) (h' : Twins d e s t') : t = t' :=
  he.minimal t h.right_mem t' h'.right_mem (h.same.symm.trans h'.same)

theorem id_eq (hd : d.Reduced) (he : e.Reduced) (h : Twins d e s t) (h' : Twins d e s' t')
    (hid : s.id = s'.id) : t.id = t'.id := by
  obtain ⟨tags, hw⟩ := hd.wellFormed
  obtain rfl := hw.eq_of_id h.left_mem h'.left_mem hid
  rw [h.right_eq he h']

theorem id_eq_iff (hd : d.Reduced) (he : e.Reduced) (h : Twins d e s t) (h' : Twins d e s' t') :
    s.id = s'.id ↔ t.id = t'.id :=
  ⟨h.id_eq hd he h', h.symm.id_eq he hd h'.symm⟩

/-! ## Arcs -/

/-- Arcs of twins that read the same lead to twins. -/
theorem target (hd : d.Reduced) (he : e.Reduced) (h : Twins d e s t) {f f' : Arc}
    (hf : f ∈ d.arcsFrom s) (hf' : f' ∈ e.arcsFrom t) (hx : f.symbol = f'.symbol) :
    Twins d e f.target f'.target := by
  obtain ⟨tags, hw⟩ := hd.wellFormed
  obtain ⟨tags', hw'⟩ := he.wellFormed
  have hs := target?_of_mem hd.deterministic hf
  have ht := target?_of_mem he.deterministic hf'
  have hfm := (mem_arcsFrom.mp hf).1
  rw [← hx] at ht
  refine ⟨hw.target_mem f hfm, hw'.target_mem f' (mem_arcsFrom.mp hf').1, ?_⟩
  cases hc : f.symbol with
  | epsilon => exact absurd hc (hd.epsilonFree f hfm)
  | char c =>
      have hstep := h.same.step c
      rw [hc] at hs ht
      rw [step, step, hs, ht] at hstep
      cases hstep with
      | some hsame => exact hsame

theorem mem_symbols (hd : d.Reduced) (he : e.Reduced) (h : Twins d e s t) {x : Symbol}
    (hx : x ∈ (d.arcsFrom s).map Arc.symbol) : x ∈ (e.arcsFrom t).map Arc.symbol := by
  obtain ⟨f, hf, rfl⟩ := List.mem_map.mp hx
  have hs := target?_of_mem hd.deterministic hf
  refine (mem_symbolsFrom he.deterministic).mpr ?_
  cases hc : f.symbol with
  | epsilon => exact absurd hc (hd.epsilonFree f (mem_arcsFrom.mp hf).1)
  | char c =>
      have hstep := h.same.step c
      rw [hc] at hs
      rw [step, hs] at hstep
      cases ht : e.step t c with
      | none =>
          rw [ht] at hstep
          cases hstep
      | some u => exact ⟨u, ht⟩

/-- The arcs of twins read the same, in the same order, and lead to twins. -/
theorem arcs (hd : d.Reduced) (he : e.Reduced) (h : Twins d e s t) :
    List.Forall₂ (fun f f' => f.symbol = f'.symbol ∧ Twins d e f.target f'.target) (d.arcsFrom s)
      (e.arcsFrom t) := by
  obtain ⟨tags, hw⟩ := hd.wellFormed
  obtain ⟨tags', hw'⟩ := he.wellFormed
  exact forall₂_arcsFrom hw hd.deterministic hw' he.deterministic
    (fun x => ⟨h.mem_symbols hd he, h.symm.mem_symbols he hd⟩)
    fun f hf f' hf' hx => h.target hd he hf hf' hx

end Twins

/-- Twins correspond to each other. -/
theorem correspondence_twins (hd : d.Reduced) (he : e.Reduced) (h : Same d d.start e e.start) :
    Correspondence d e (Twins d e) where
  wellFormed := ⟨hd.wellFormed, he.wellFormed⟩
  connected := ⟨hd.connected, he.connected⟩
  mem hst := ⟨hst.left_mem, hst.right_mem⟩
  start := by
    obtain ⟨tags, hw⟩ := hd.wellFormed
    obtain ⟨tags', hw'⟩ := he.wellFormed
    exact ⟨hw.start_mem, hw'.start_mem, h⟩
  id_eq_iff hst hst' := hst.id_eq_iff hd he hst'
  token hst := hst.same.token
  arcs hst := hst.arcs hd he

theorem tableOf_eq (hd : d.Reduced) (he : e.Reduced) (h : Same d d.start e e.start)
    (names skippable : List String) : d.tableOf names skippable = e.tableOf names skippable :=
  (correspondence_twins hd he h).tableOf_eq names skippable

theorem drawing?_eq (hd : d.Reduced) (he : e.Reduced) (h : Same d d.start e e.start) :
    d.drawing? = e.drawing? :=
  (correspondence_twins hd he h).drawing?_eq

theorem sameForm (hd : d.Reduced) (he : e.Reduced) (h : Same d d.start e e.start) : SameForm d e :=
  (correspondence_twins hd he h).sameForm hd.epsilonFree

end LexicalAutomata.Dfa
