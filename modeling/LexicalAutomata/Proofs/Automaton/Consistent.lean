/-
# `LexicalAutomata.Proofs.Automaton.Consistent` — one number, one tag

States are compared by their numbers, so a copy with another tag would go unnoticed, and would decide
whether a word is accepted.  In a consistent automaton no two occurrences of a number have different tags,
wherever they occur, and whatever occurs is carried (`Consistent`).

The operations on states of one supply build consistent automata.  Nothing else is well-formed: every
well-formed automaton is what the operations build from its own states and arcs, added one after the other
(`Nfa.built_iff`); for a deterministic one, the arcs must not replace each other (`Dfa.built_iff`).  So what
is known to be well-formed, as the results of the stages are, can be built further like any other automaton.
-/
import Mathlib.Data.List.Induction
import LexicalAutomata.Proofs.Automaton.Built

namespace LexicalAutomata

namespace Automaton

variable {k : Kind} {tags : Tags} {a b : Automaton k} {s t : State}

/-! ## Occurrences -/

/-- The state is the start, or carried, or an end of an arc. -/
def Occurs (a : Automaton k) (s : State) : Prop :=
  s = a.start ∨ s ∈ a.states ∨ ∃ e ∈ a.arcs, s = e.source ∨ s = e.target

/-- What occurs is carried, a number has the same tag wherever it occurs, and where there are arcs they lead
somewhere. -/
structure Consistent (a : Automaton k) : Prop where
  /-- The start is carried. -/
  start_mem : a.start ∈ a.states
  /-- Sources are carried. -/
  source_mem : ∀ e ∈ a.arcs, e.source ∈ a.states
  /-- Targets are carried. -/
  target_mem : ∀ e ∈ a.arcs, e.target ∈ a.states
  /-- Occurrences of one number have one tag. -/
  accept_eq : ∀ s t, a.Occurs s → a.Occurs t → s.id = t.id → s.accept = t.accept
  /-- The targets listed for a symbol are some. -/
  targets_ne_nil : ∀ s, ∀ m ∈ a.neighbors s, m.2 ≠ []

theorem WellFormed.mem_of_occurs (h : a.WellFormed tags) (hs : a.Occurs s) : s ∈ a.states := by
  rcases hs with rfl | hs | ⟨e, he, rfl | rfl⟩
  · exact h.start_mem
  · exact hs
  · exact h.source_mem e he
  · exact h.target_mem e he

theorem neighbors_ne_nil {m : Symbol × List State} (hm : m ∈ a.neighbors s) : m.2 ≠ [] := by
  obtain ⟨x, hx, rfl⟩ := List.mem_map.mp hm
  obtain ⟨e, he, hsymbol⟩ := List.mem_map.mp (List.mem_eraseDups.mp hx)
  exact List.ne_nil_of_mem
    (List.mem_map.mpr ⟨e, List.mem_filter.mpr ⟨he, beq_iff_eq.mpr hsymbol⟩, rfl⟩)

theorem WellFormed.consistent (h : a.WellFormed tags) : a.Consistent where
  start_mem := h.start_mem
  source_mem := h.source_mem
  target_mem := h.target_mem
  accept_eq _ _ hs ht hid :=
    congrArg State.accept (h.eq_of_id (h.mem_of_occurs hs) (h.mem_of_occurs ht) hid)
  targets_ne_nil _ _ := neighbors_ne_nil

/-! ## Building a well-formed automaton again -/

/-- Well-formed automata are told apart by the start, the states carried and the arcs. -/
theorem WellFormed.eq_of_extended (h : a.WellFormed tags)
    (hb : Extended tags (Automaton.new a.start) a.states a.arcs b) : b = a := by
  have harcs : b.arcs = a.arcs := by
    refine hb.wellFormed.arcs_ascending.ext h.arcs_ascending fun e => ?_
    rw [hb.mem_arcs]
    exact or_iff_right List.not_mem_nil
  have hstates : b.states = a.states := by
    refine hb.wellFormed.states_ascending.ext h.states_ascending fun s => ?_
    rw [hb.mem_states]
    constructor
    · intro hs
      rcases hs with hs | hs | hs
      · exact h.mem_of_occurs (.inl (List.mem_singleton.mp hs))
      · exact hs
      · exact h.mem_of_occurs (.inr (.inr hs))
    · exact fun hs => .inr (.inl hs)
  obtain ⟨start, states, arcs⟩ := a
  obtain ⟨start', states', arcs'⟩ := b
  obtain rfl : start' = start := hb.start
  obtain rfl : states' = states := hstates
  obtain rfl : arcs' = arcs := harcs
  rfl

/-- What the new automaton has, and every state and every arc more keeps, every well-formed automaton has.
The arcs come in order, so those that are there when one is added are the ones before it. -/
theorem WellFormed.rebuild (h : a.WellFormed tags) {P : Automaton k → Prop}
    (new : P (Automaton.new a.start)) (addState : ∀ s ∈ a.states, ∀ b, P b → P (b.addState s))
    (arc : ∀ done e, (∀ f ∈ done ++ [e], f ∈ a.arcs) → ∀ b, P b →
      Extended tags (Automaton.new a.start) a.states done b →
      ∃ c, P c ∧ Extended tags (Automaton.new a.start) a.states (done ++ [e]) c) : P a := by
  have hnew : WellFormed tags (Automaton.new a.start : Automaton k) := .new (h.tagged _ h.start_mem)
  have hstates : P (a.states.foldl Automaton.addState (Automaton.new a.start)) :=
    a.states.foldlRecOn _ new fun b hb s hs => addState s hs b hb
  have harcs : ∀ done : List Arc, (∀ e ∈ done, e ∈ a.arcs) →
      ∃ b, P b ∧ Extended tags (Automaton.new a.start) a.states done b := by
    intro done
    induction done using List.reverseRecOn with
    | nil => exact fun _ => ⟨_, hstates, hnew.extended.addStates _ h.tagged⟩
    | append_singleton done e ih =>
        intro hall
        obtain ⟨b, hb, hext⟩ := ih fun f hf => hall f (List.mem_append_left _ hf)
        exact arc done e hall b hb hext
  obtain ⟨b, hb, hext⟩ := harcs a.arcs fun _ he => he
  exact h.eq_of_extended hext ▸ hb

end Automaton

open Automaton

theorem Nfa.built_iff {tags : Tags} {n : Nfa} : n.Built tags ↔ n.WellFormed tags := by
  refine ⟨Nfa.Built.wellFormed, fun h => h.rebuild ?_ ?_ ?_⟩
  · rw [h.tagged _ h.start_mem]
    exact .new _
  · intro s hs b hb
    rw [h.tagged s hs]
    exact .addState _ hb
  · intro done e hall b hb hext
    have he := hall e (List.mem_append_right _ List.mem_cons_self)
    have hs := h.tagged _ (h.source_mem e he)
    have ht := h.tagged _ (h.target_mem e he)
    refine ⟨Nfa.addArc b e.source e.symbol e.target, ?_, hext.addArc hs ht⟩
    rw [hs, ht]
    exact .addArc _ _ _ hb

theorem Dfa.built_iff {tags : Tags} {d : Dfa} :
    d.Built tags ↔ d.WellFormed tags ∧ d.Deterministic := by
  refine ⟨fun h => ⟨h.wellFormed, h.made.deterministic⟩, fun ⟨h, hd⟩ => h.rebuild ?_ ?_ ?_⟩
  · rw [h.tagged _ h.start_mem]
    exact .new _
  · intro s hs b hb
    rw [h.tagged s hs]
    exact .addState _ hb
  · intro done e hall b hb hext
    have he := hall e (List.mem_append_right _ List.mem_cons_self)
    have hs := h.tagged _ (h.source_mem e he)
    have ht := h.tagged _ (h.target_mem e he)
    -- No arc is replaced: of those that are there, none leaves the source on the symbol but the arc itself.
    have honly : ∀ f ∈ b.arcs, f.source.id = e.source.id → f.symbol = e.symbol → f = e := by
      intro f hf hid hx
      rcases (hext.mem_arcs f).mp hf with hf | hf
      · cases hf
      · exact hd f (hall f (List.mem_append_left _ hf)) e he hid hx
    refine ⟨Dfa.setArc b e.source e.symbol e.target, ?_, hext.setArc hs ht honly⟩
    rw [hs, ht]
    exact .setArc _ _ _ hb

end LexicalAutomata
