/-
# `LexicalAutomata.Proofs.Dfa.Renumbering` — subsets and classes under numbers further on

Which subsets there are, and which states are alike, is found out among the states of the automaton that is
given, before any state is issued.  Then subsets and classes are numbered from the first number that is left.
From a number further on they are the same subsets and classes further on, and no step asks how new states
compare with those given; so the automaton made of them is the same one further on, or the step fails in the
same way.
-/
import LexicalAutomata.Dfa.Minimal
import LexicalAutomata.Dfa.Subset
import LexicalAutomata.Proofs.Graph.Renumbering

namespace LexicalAutomata

open Automaton

variable {distance : Nat} {d e : Dfa} {s s' t t' : State}

/-! ## Subsets -/

namespace Nfa

theorem ahead_subsetState {ids : List Nat} (subsets : List (Subset ids)) (first : Nat)
    (s : Subset ids) : State.Ahead distance (subsetState subsets first s)
      (subsetState subsets (first + distance) s) := by
  simp only [State.Ahead, subsetState, State.renumber, Nat.add_right_comm first]

theorem tandem_setNewArc (h : d.Ahead distance e) (hs : s.Ahead distance s') (x : Symbol)
    (ht : t.Ahead distance t') :
    Tandem (Ahead distance) (d.setNewArc s x t) (e.setNewArc s' x t') := by
  have htarget : (e.target? s' x).isSome = (d.target? s x).isSome := by
    rw [h, hs, Dfa.target?_renumber (strictMono_add distance), Option.isSome_map]
  simp only [Dfa.setNewArc, htarget]
  split
  · exact .error (by rw [hs]; rfl)
  · exact .ok (h.setArc hs x ht)

theorem tandem_addSubset (n : Nfa) (subsets : List (Subset n.memberIds)) (first : Nat)
    (h : d.Ahead distance e) (s : Subset n.memberIds) :
    Tandem (Ahead distance) (n.addSubset subsets first d s)
      (n.addSubset subsets (first + distance) e s) := by
  have hstate (t : Subset n.memberIds) : State.Ahead distance (subsetState subsets first t)
      (subsetState subsets (first + distance) t) := ahead_subsetState subsets first t
  exact .foldlM_same (fun _ _ (m : Char × Subset n.memberIds) hab =>
    tandem_setNewArc hab (hstate s) (.char m.1) (hstate m.2)) _ (h.addState (hstate s))

theorem tandem_subsetAutomaton (n : Nfa) (subsets : List (Subset n.memberIds)) (first : Nat) :
    Tandem (Ahead distance) (n.subsetAutomaton subsets first)
      (n.subsetAutomaton subsets (first + distance)) :=
  .foldlM_same (fun _ _ s hab => tandem_addSubset n subsets first hab s) _
    (ahead_subsetState subsets first n.startSubset).new

theorem tandem_determinize (n : Nfa) :
    Stage.Tandem distance (Ahead distance) n.determinize n.determinize := by
  refine Stage.tandem_make tandem_checkDfa (tandem_subsetAutomaton n n.subsets) fun h => ?_
  rw [h.length_states, h.length_arcs]

end Nfa

/-! ## Classes -/

namespace Dfa

namespace Classes

variable (c : Classes)

theorem ahead_state (first i : Nat) :
    State.Ahead distance (c.state first i) (c.state (first + distance) i) := by
  simp only [State.Ahead, state, State.renumber, Nat.add_right_comm first]

theorem tandem_stateOf (first : Nat) (s : State) :
    Tandem (State.Ahead distance) (c.stateOf first s) (c.stateOf (first + distance) s) := by
  refine (Tandem.refl (placeOf c.order s)).bind fun i _ hi => ?_
  subst hi
  cases c.classOf[i]? with
  | some j => exact .ok (c.ahead_state first j)
  | none => exact .error rfl

theorem states_shift (first : Nat) :
    c.states (first + distance) = (c.states first).map (State.renumber (· + distance)) := by
  simp only [states, List.map_map]
  exact List.map_congr_left fun i _ => c.ahead_state first i

end Classes

theorem tandem_setClassArc (c : Classes) (first : Nat) (h : d.Ahead distance e) (a : Arc) :
    Tandem (Ahead distance) (setClassArc c first d a) (setClassArc c (first + distance) e a) := by
  refine (c.tandem_stateOf first a.source).bind fun s s' hs => ?_
  refine (c.tandem_stateOf first a.target).bind fun t t' ht => ?_
  have htarget : e.target? s' a.symbol = (d.target? s a.symbol).map (State.renumber (· + distance)) := by
    rw [h, hs, target?_renumber (strictMono_add distance)]
  rw [htarget]
  cases d.target? s a.symbol with
  | none => exact .ok (h.setArc hs _ ht)
  | some old =>
      have hid : (old.renumber (· + distance)).id = t'.id ↔ old.id = t.id := by
        rw [ht]
        exact Nat.add_right_cancel_iff
      simp only [Option.map_some, hid]
      split
      · exact .ok (h.setArc hs _ ht)
      · exact .error (by rw [hs]; rfl)

theorem ahead_foldl_addState (states : List State) (h : d.Ahead distance e) :
    Ahead distance (states.foldl addState d)
      ((states.map (State.renumber (· + distance))).foldl addState e) := by
  induction states generalizing d e with
  | nil => exact h
  | cons s states ih => exact ih (h.addState rfl)

theorem tandem_quotient (d : Dfa) (c : Classes) (first : Nat) :
    Tandem (Ahead distance) (d.quotient c first) (d.quotient c (first + distance)) := by
  refine (c.tandem_stateOf first d.start).bind fun _ _ hs => ?_
  rw [c.states_shift]
  exact (Tandem.foldlM_same (fun _ _ a hab => tandem_setClassArc c first hab a) d.arcs
    (ahead_foldl_addState (c.states first) hs.new)).bind fun _ _ hab => .ok hab.prune

theorem tandem_minimize (d : Dfa) :
    Stage.Tandem distance (Ahead distance) d.minimize d.minimize := by
  refine (Stage.tandem_ofExcept (Tandem.refl d.classes)).bind fun c _ hc => ?_
  subst hc
  refine Stage.tandem_make tandem_checkDfa (tandem_quotient d c) fun h => ?_
  rw [h.length_states, h.length_arcs]

end Dfa

end LexicalAutomata
