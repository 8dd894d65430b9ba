/-
# `LexicalAutomata.Proofs.Graph.Renumbering` — a check finds the same fault under other numbers

The checks see numbers and labels.  Where the numbers of an automaton are replaced by others in the same
order, and the labels with them, vertices are examined in the same order and the same of them can be reached;
so a check passes as before, or fails in the same way, with the label of the same vertex.
-/
import LexicalAutomata.Automaton.Validity
import LexicalAutomata.Proofs.Tandem

namespace LexicalAutomata.Automaton

open LexicalAutomata.Graph

variable {k : Kind} {f : Nat → Nat} (hf : StrictMono f) (a : Automaton k) (s : State)

/-- A state as the checks see it. -/
def vertex (s : State) : Vertex := ⟨s.id, s.accepting, s.label⟩

theorem vertices_graph : a.graph.vertices = a.states.map vertex := rfl

theorem vertices_renumber : (a.renumber f).graph.vertices =
    a.states.map fun s => vertex (s.renumber f) :=
  List.map_map

theorem checkFinal_renumber : (a.renumber f).graph.checkFinal = a.graph.checkFinal := by
  have hany : (a.renumber f).graph.vertices.any Vertex.accepting =
      a.graph.vertices.any Vertex.accepting := by
    rw [vertices_renumber, vertices_graph, List.any_map, List.any_map]
    rfl
  rw [checkFinal, checkFinal, hany]

section Order
include hf

theorem reached_renumber : (a.renumber f).graph.reached = a.graph.reached.map f := by
  have hinj (i j : Nat) : id (f i) = id (f j) ↔ id i = id j := hf.injective.eq_iff
  rw [reached, reached, map_visit hinj]
  simp only [graph, arcs_renumber, List.map_map]
  rfl

theorem checkConnected_renumber :
    (a.renumber f).graph.checkConnected = a.graph.checkConnected := by
  have hcontains : ∀ s : State, (a.renumber f).graph.reached.contains (s.renumber f).id =
      a.graph.reached.contains s.id := by
    intro s
    rw [reached_renumber hf, Bool.eq_iff_iff, List.contains_iff_mem, List.contains_iff_mem,
      State.id_renumber, List.mem_map_of_injective hf.injective]
  have hlength : ((a.renumber f).graph.vertices.filter fun v =>
        !(a.renumber f).graph.reached.contains v.number).length =
      (a.graph.vertices.filter fun v => !a.graph.reached.contains v.number).length := by
    rw [vertices_renumber, vertices_graph, List.filter_map, List.filter_map, List.length_map,
      List.length_map]
    simp only [Function.comp_def, vertex, hcontains]
  simp only [checkConnected, hlength]

theorem symbolsFrom_renumber : (a.renumber f).graph.symbolsFrom (vertex (s.renumber f)) =
    a.graph.symbolsFrom (vertex s) := by
  simp only [symbolsFrom, graph, arcs_renumber, List.map_map, List.filter_map, Function.comp_def,
    vertex, Arc.source_renumber, Arc.symbol_renumber, State.id_renumber, beq_strictMono hf]

theorem tandem_checkEpsilonFree :
    Tandem Eq a.graph.checkEpsilonFree (a.renumber f).graph.checkEpsilonFree := by
  rw [checkEpsilonFree, checkEpsilonFree, vertices_renumber, vertices_graph, List.find?_map,
    List.find?_map]
  simp only [Function.comp_def, symbolsFrom_renumber hf]
  cases a.states.find? fun s => (a.graph.symbolsFrom (vertex s)).contains .epsilon with
  | none => exact .ok rfl
  | some s => exact .error rfl

theorem tandem_checkDeterministic :
    Tandem Eq a.graph.checkDeterministic (a.renumber f).graph.checkDeterministic := by
  rw [checkDeterministic, checkDeterministic, vertices_renumber, vertices_graph]
  refine .forM_map (fun s => ?_) a.states
  rw [repeatedChar?, repeatedChar?, symbolsFrom_renumber hf]
  cases firstRepeat [] ((a.graph.symbolsFrom (vertex s)).filterMap Symbol.toChar?) with
  | none => exact .ok rfl
  | some c => exact .error rfl

theorem tandem_checkEpsilonNfa :
    Tandem Eq a.graph.checkEpsilonNfa (a.renumber f).graph.checkEpsilonNfa := by
  rw [checkEpsilonNfa, checkEpsilonNfa, checkFinal_renumber, checkConnected_renumber hf]
  exact .refl _

theorem tandem_checkNfa : Tandem Eq a.graph.checkNfa (a.renumber f).graph.checkNfa :=
  (tandem_checkEpsilonNfa hf a).bind fun _ _ _ => tandem_checkEpsilonFree hf a

theorem tandem_checkDfa : Tandem Eq a.graph.checkDfa (a.renumber f).graph.checkDfa :=
  (tandem_checkNfa hf a).bind fun _ _ _ => tandem_checkDeterministic hf a

end Order

end LexicalAutomata.Automaton

namespace LexicalAutomata.Stage

variable {k : Automaton.Kind} {distance count : Nat} {check : Graph → Except Error Unit}
  (hcheck : ∀ {f : Nat → Nat}, StrictMono f → ∀ a : Automaton k,
    LexicalAutomata.Tandem Eq (check a.graph) (check (a.renumber f).graph))
include hcheck

/-- The same event is recorded for both automata, and the same check follows. -/
theorem tandem_finish {a b : Automaton k} {event event' : Event} (h : a.Ahead distance b)
    (hevent : event' = event) :
    Tandem distance (Automaton.Ahead distance) (finish a event check) (finish b event' check) := by
  subst h hevent
  refine (tandem_note event').bind fun _ _ _ => ?_
  refine (tandem_ofExcept (hcheck (strictMono_add distance) a)).bind fun _ _ _ => ?_
  exact tandem_pure rfl

/-- All numbers of an automaton are issued at once, before it is made of them, recorded and checked. -/
theorem tandem_make {make : Nat → Except Error (Automaton k)} {event : Automaton k → Event}
    (hmake : ∀ first, LexicalAutomata.Tandem (Automaton.Ahead distance) (make first)
      (make (first + distance)))
    (hevent : ∀ {a b : Automaton k}, a.Ahead distance b → event b = event a) :
    Tandem distance (Automaton.Ahead distance)
      (do let first ← issued
          setIssued (first + count)
          let a ← ofExcept (make first)
          finish a (event a) check)
      (do let first ← issued
          setIssued (first + count)
          let a ← ofExcept (make first)
          finish a (event a) check) := by
  refine tandem_issued.bind fun first _ hfirst => ?_
  rw [hfirst, Nat.add_right_comm]
  refine (tandem_setIssued _).bind fun _ _ _ => ?_
  refine (tandem_ofExcept (hmake first)).bind fun _ _ h => ?_
  exact tandem_finish hcheck h (hevent h)

end LexicalAutomata.Stage
