/-
# `LexicalAutomata.Proofs.Automaton.Renumbering` — other numbers in the same order

Renumbering gives states other numbers, and keeps their tags.  Where the new numbers are in the order of the
old ones, states and arcs compare as before, so what an operation on automata asks has the same answer, and
what it does to the renumbered automaton is what it did, renumbered (`addArc_renumber`, `setArc_renumber`,
`prune_renumber`).  No automaton has to be well-formed for that, nor need a number have one tag only.
-/
import Mathlib.Order.Monotone.Basic
import LexicalAutomata.Automaton.Basic
import LexicalAutomata.Proofs.Graph.Search
import LexicalAutomata.Proofs.Ordered

namespace LexicalAutomata

variable {f g : Nat → Nat}

/-! ## States and arcs -/

/-- The state under another number. -/
def State.renumber (f : Nat → Nat) (s : State) : State := { s with id := f s.id }

/-- The arc with its ends under other numbers. -/
def Arc.renumber (f : Nat → Nat) (e : Arc) : Arc :=
  ⟨e.source.renumber f, e.symbol, e.target.renumber f⟩

theorem compare_strictMono (hf : StrictMono f) (i j : Nat) : compare (f i) (f j) = compare i j := by
  simp only [Nat.compare_eq_ite_lt, hf.lt_iff_lt]

theorem beq_strictMono (hf : StrictMono f) (i j : Nat) : (f i == f j) = (i == j) :=
  hf.injective.beq_eq

namespace State

@[simp]
theorem id_renumber (s : State) : (s.renumber f).id = f s.id := rfl

theorem order_renumber (hf : StrictMono f) (s t : State) :
    order (s.renumber f) (t.renumber f) = order s t :=
  compare_strictMono hf s.id t.id

theorem isIn_renumber (hf : StrictMono f) (s : State) (states : List State) :
    (s.renumber f).isIn (states.map (renumber f)) = s.isIn states := by
  simp only [isIn, List.any_map, Function.comp_def, id_renumber, beq_strictMono hf]

end State

namespace Arc

@[simp]
theorem source_renumber (e : Arc) : (e.renumber f).source = e.source.renumber f := rfl

@[simp]
theorem symbol_renumber (e : Arc) : (e.renumber f).symbol = e.symbol := rfl

@[simp]
theorem target_renumber (e : Arc) : (e.renumber f).target = e.target.renumber f := rfl

theorem order_renumber (hf : StrictMono f) (d e : Arc) :
    order (d.renumber f) (e.renumber f) = order d e := by
  simp only [order, compareLex, compareOn, source_renumber, symbol_renumber, target_renumber,
    State.id_renumber, compare_strictMono hf]

end Arc

/-! ## Automata -/

namespace Automaton

variable {k : Kind}

/-- The automaton with its states under other numbers. -/
def renumber (f : Nat → Nat) (a : Automaton k) : Automaton k :=
  ⟨a.start.renumber f, a.states.map (State.renumber f), a.arcs.map (Arc.renumber f)⟩

@[simp]
theorem start_renumber (a : Automaton k) : (a.renumber f).start = a.start.renumber f := rfl

@[simp]
theorem states_renumber (a : Automaton k) :
    (a.renumber f).states = a.states.map (State.renumber f) := rfl

@[simp]
theorem arcs_renumber (a : Automaton k) : (a.renumber f).arcs = a.arcs.map (Arc.renumber f) := rfl

theorem renumber_renumber (a : Automaton k) : (a.renumber f).renumber g = a.renumber (g ∘ f) := by
  simp only [renumber, List.map_map]
  rfl

theorem renumber_mk (start : State) (states : List State) (arcs : List Arc) :
    (⟨start, states, arcs⟩ : Automaton k).renumber f =
      ⟨start.renumber f, states.map (State.renumber f), arcs.map (Arc.renumber f)⟩ := rfl

theorem links_renumber (a : Automaton k) : (a.renumber f).links =
    a.links.map (Prod.map (State.renumber f) (State.renumber f)) := by
  simp only [links, arcs_renumber, List.map_map, Function.comp_def, Arc.source_renumber,
    Arc.target_renumber, Prod.map_apply]

theorem new_renumber (s : State) : (new s : Automaton k).renumber f = new (s.renumber f) := rfl

section Order
variable (hf : StrictMono f) (a : Automaton k) (s t : State) (x : Symbol)
include hf

theorem arcsFrom_renumber :
    (a.renumber f).arcsFrom (s.renumber f) = (a.arcsFrom s).map (Arc.renumber f) := by
  simp only [arcsFrom, arcs_renumber, List.filter_map, Function.comp_def, Arc.source_renumber,
    State.id_renumber, beq_strictMono hf]

theorem targets_renumber :
    (a.renumber f).targets (s.renumber f) x = (a.targets s x).map (State.renumber f) := by
  simp only [targets, arcsFrom_renumber hf, List.filter_map, List.map_map, Function.comp_def,
    Arc.symbol_renumber, Arc.target_renumber]

theorem sourceOf_renumber : (a.renumber f).sourceOf (s.renumber f) = (a.sourceOf s).renumber f := by
  simp only [sourceOf, arcs_renumber, List.find?_map, Function.comp_def, Arc.source_renumber,
    State.id_renumber, beq_strictMono hf]
  cases a.arcs.find? fun e => e.source.id == s.id with
  | none => rfl
  | some e => rfl

theorem carryEnds_renumber : (a.renumber f).carryEnds (s.renumber f) (t.renumber f) =
    (a.carryEnds s t).map (State.renumber f) := by
  simp only [carryEnds, states_renumber, Ordered.map_insert (State.order_renumber hf)]

theorem addState_renumber :
    (a.addState s).renumber f = (a.renumber f).addState (s.renumber f) := by
  simp only [addState, renumber_mk, start_renumber, states_renumber, arcs_renumber,
    Ordered.map_insert (State.order_renumber hf)]

theorem reachable_renumber : (a.renumber f).reachable = a.reachable.map (State.renumber f) := by
  have hid : ∀ s t : State, (s.renumber f).id = (t.renumber f).id ↔ s.id = t.id := fun s t =>
    hf.injective.eq_iff
  rw [reachable, reachable, Ordered.map_ofList (State.order_renumber hf), Graph.map_visit hid,
    links_renumber]
  rfl

theorem prune_renumber : a.prune.renumber f = (a.renumber f).prune := by
  simp only [prune, reachable_renumber hf, arcs_renumber, start_renumber, List.filter_map,
    Function.comp_def, Arc.source_renumber, State.isIn_renumber hf, renumber_mk]

end Order

end Automaton

section Arcs
variable (hf : StrictMono f) (s t : State) (x : Symbol)
include hf

theorem Nfa.hasArc_renumber (n : Nfa) :
    Nfa.hasArc (n.renumber f) (s.renumber f) x (t.renumber f) = n.hasArc s x t := by
  rw [hasArc, hasArc, Automaton.targets_renumber hf, State.isIn_renumber hf]

theorem Nfa.addArc_renumber (n : Nfa) : (n.addArc s x t).renumber f =
    Nfa.addArc (n.renumber f) (s.renumber f) x (t.renumber f) := by
  simp only [addArc, Automaton.carryEnds_renumber hf, Automaton.sourceOf_renumber hf,
    Automaton.renumber_mk, Automaton.start_renumber, Automaton.arcs_renumber,
    Ordered.map_insert (Arc.order_renumber hf)]
  rfl

theorem Dfa.target?_renumber (d : Dfa) :
    Dfa.target? (d.renumber f) (s.renumber f) x = (d.target? s x).map (State.renumber f) := by
  rw [target?, target?, Automaton.targets_renumber hf, List.head?_map]

theorem Dfa.setArc_renumber (d : Dfa) : (d.setArc s x t).renumber f =
    Dfa.setArc (d.renumber f) (s.renumber f) x (t.renumber f) := by
  simp only [setArc, Automaton.carryEnds_renumber hf, Automaton.sourceOf_renumber hf,
    Automaton.renumber_mk, Automaton.start_renumber, Automaton.arcs_renumber,
    Ordered.map_insert (Arc.order_renumber hf), List.filter_map, Function.comp_def,
    Arc.source_renumber, Arc.symbol_renumber, State.id_renumber, beq_strictMono hf]
  rfl

end Arcs

/-! ## Numbers further on -/

/-- The second state has a number larger by a distance. -/
abbrev State.Ahead (distance : Nat) (s t : State) : Prop := t = s.renumber (· + distance)

/-- The second automaton has numbers larger by a distance. -/
abbrev Automaton.Ahead {k : Automaton.Kind} (distance : Nat) (a b : Automaton k) : Prop :=
  b = a.renumber (· + distance)

theorem strictMono_add (distance : Nat) : StrictMono (· + distance) :=
  fun _ _ h => Nat.add_lt_add_right h distance

section Ahead
variable {distance : Nat} {k : Automaton.Kind} {a b : Automaton k} {s s' t t' : State}

theorem State.Ahead.new (h : s.Ahead distance s') :
    (Automaton.new s : Automaton k).Ahead distance (Automaton.new s') := by
  rw [h, Automaton.Ahead, Automaton.new_renumber]

theorem Automaton.Ahead.length_states (h : a.Ahead distance b) : b.states.length = a.states.length := by
  rw [h, states_renumber, List.length_map]

theorem Automaton.Ahead.length_arcs (h : a.Ahead distance b) : b.arcs.length = a.arcs.length := by
  rw [h, arcs_renumber, List.length_map]

theorem Automaton.Ahead.addState (h : a.Ahead distance b) (hs : s.Ahead distance s') :
    (a.addState s).Ahead distance (b.addState s') := by
  rw [h, hs, Ahead, addState_renumber (strictMono_add distance)]

theorem Automaton.Ahead.prune (h : a.Ahead distance b) : a.prune.Ahead distance b.prune := by
  rw [h, Ahead, prune_renumber (strictMono_add distance)]

theorem Automaton.Ahead.addArc {n m : Nfa} (h : n.Ahead distance m) (hs : s.Ahead distance s')
    (x : Symbol) (ht : t.Ahead distance t') : Ahead distance (n.addArc s x t) (m.addArc s' x t') := by
  rw [h, hs, ht, Ahead, Nfa.addArc_renumber (strictMono_add distance)]

theorem Automaton.Ahead.setArc {d e : Dfa} (h : d.Ahead distance e) (hs : s.Ahead distance s')
    (x : Symbol) (ht : t.Ahead distance t') : Ahead distance (d.setArc s x t) (e.setArc s' x t') := by
  rw [h, hs, ht, Ahead, Dfa.setArc_renumber (strictMono_add distance)]

end Ahead

end LexicalAutomata
