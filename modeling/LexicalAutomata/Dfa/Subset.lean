/-
# `LexicalAutomata.Dfa.Subset` — sets of states as the states of a deterministic automaton

A subset holds states of a nondeterministic automaton without empty moves; reading a character from
it leads to the states that arcs on this character lead to from its members.  The subsets that can be
reached from the start alone are numbered as a search that goes breadth first and through the
characters in ascending order discovers them, and each becomes one state.

A subset's numbers are a sublist of `memberIds`, of which there are finitely many: so the search ends.
-/
import LexicalAutomata.Counting
import LexicalAutomata.Stage

namespace LexicalAutomata

/-! ## The sublists of a list -/

/-- All sublists. -/
def sublists {α : Type} : List α → List (List α)
  | [] => [[]]
  | x :: xs => (sublists xs).map (x :: ·) ++ sublists xs

theorem mem_sublists {α : Type} {xs ys : List α} (h : List.Sublist xs ys) : xs ∈ sublists ys := by
  induction h with
  | slnil => simp [sublists]
  | cons y _ ih => simp [sublists, ih]
  | cons_cons y _ ih => simp [sublists, ih]

namespace Nfa

/-! ## Subsets -/

/-- The numbers of the states that a subset can hold, ascending. -/
def memberIds (n : Nfa) : List Nat :=
  Ordered.ofList compare (n.start.id :: n.arcs.map fun e => e.target.id)

theorem mem_memberIds_start (n : Nfa) : n.start.id ∈ n.memberIds := by
  change n.start.id ∈ Ordered.insertAll compare _ [n.start.id]
  exact Ordered.mem_insertAll_of_mem (by simp)

/-- A subset of the states of these numbers, ascending. -/
structure Subset (ids : List Nat) where
  /-- The members. -/
  states : List State
  /-- Their numbers are among those allowed. -/
  sublist : List.Sublist (states.map State.id) ids

/-- The numbers of the members, by which subsets are told apart. -/
def Subset.members {ids : List Nat} (s : Subset ids) : List Nat := s.states.map State.id

/-- The start alone. -/
def startSubset (n : Nfa) : Subset n.memberIds :=
  ⟨[n.start], List.singleton_sublist.mpr n.mem_memberIds_start⟩

/-- The state of this number that the arcs lead to; of several occurrences, the last one. -/
def lastTarget? (arcs : List Arc) (id : Nat) : Option State :=
  (arcs.filter fun e => e.target.id == id).getLast?.map Arc.target

theorem id_of_lastTarget? {arcs : List Arc} {id : Nat} {t : State}
    (h : lastTarget? arcs id = some t) : t.id = id := by
  obtain ⟨e, he, rfl⟩ := Option.map_eq_some_iff.mp h
  simpa using (List.mem_filter.mp (List.mem_of_getLast? he)).2

theorem sublist_filterMap_lastTarget? (arcs : List Arc) (ids : List Nat) :
    List.Sublist ((ids.filterMap (lastTarget? arcs)).map State.id) ids := by
  induction ids with
  | nil => simp
  | cons id ids ih =>
      rw [List.filterMap_cons]
      split
      · exact ih.cons id
      · next t h =>
        rw [List.map_cons, id_of_lastTarget? h]
        exact ih.cons_cons id

/-- The subset after reading a character. -/
def image (n : Nfa) (ids : List Nat) (s : Subset ids) (c : Char) : Subset ids :=
  let arcs := n.arcs.filter fun e => e.symbol == .char c && e.source.isIn s.states
  ⟨ids.filterMap (lastTarget? arcs), sublist_filterMap_lastTarget? arcs ids⟩

/-- The characters on which a subset leads to any states, ascending, with the subset it leads to. -/
def moves (n : Nfa) (ids : List Nat) (s : Subset ids) : List (Char × Subset ids) :=
  (n.alphabet.map fun c => (c, n.image ids s c)).filter fun m => !m.2.states.isEmpty

/-- A subset leads to at most one subset for each character. -/
theorem length_moves_le (n : Nfa) (ids : List Nat) (s : Subset ids) :
    (n.moves ids s).length ≤ n.alphabet.length := by
  rw [← List.length_map fun c => (c, n.image ids s c)]
  exact List.length_filter_le _ _

/-! ## The subsets that can be reached -/

/-- Whether a subset of the same members is among these. -/
def visited {ids : List Nat} (found : List (Subset ids)) (members : List Nat) : Bool :=
  found.any fun s => s.members == members

/-- How many sublists of the numbers are not visited. -/
def unvisited {ids : List Nat} (found : List (Subset ids)) : Nat :=
  ((sublists ids).filter fun members => !visited found members).length

theorem unvisited_append_lt {ids : List Nat} {found : List (Subset ids)} {s : Subset ids}
    (h : visited found s.members = false) : unvisited (found ++ [s]) < unvisited found := by
  refine length_filter_lt_of_imp (x := s.members) (fun members _ => ?_) (mem_sublists s.sublist)
    ?_ ?_
  · simp only [visited, List.any_append, Bool.not_eq_true', Bool.or_eq_false_iff]
    exact And.left
  · simpa using h
  · simp [visited]

/-- The subsets in the order of their discovery, when those pending are still to be looked at. -/
def explore (n : Nfa) (ids : List Nat) : (pending found : List (Subset ids)) → List (Subset ids)
  | [], found => found
  | s :: pending, found =>
      if visited found s.members then explore n ids pending found
      else explore n ids (pending ++ (n.moves ids s).map Prod.snd) (found ++ [s])
termination_by pending found => pending.length + unvisited found * (n.alphabet.length + 1)
decreasing_by
  · simp
  -- A visit uses up one sublist, and adds at most one subset for each character.
  · have hless := unvisited_append_lt (Bool.eq_false_iff.mpr ‹_›)
    have hmoves := n.length_moves_le ids s
    have hmul := Nat.mul_le_mul_right (n.alphabet.length + 1) hless
    rw [Nat.succ_mul] at hmul
    simp only [List.length_append, List.length_map, List.length_cons]
    omega

/-- The subsets that can be reached from the start alone, breadth first. -/
def subsets (n : Nfa) : List (Subset n.memberIds) := n.explore n.memberIds [n.startSubset] []

/-! ## The deterministic automaton -/

/-- The better of two tags: the one of lower rank, and the first of two of equal rank. -/
def better (best : Option Accept) (a : Accept) : Option Accept :=
  match best with
  | none => some a
  | some b => if a.priority < b.priority then some a else some b

/-- The tag of a subset: the best one of its members. -/
def winner (states : List State) : Option Accept :=
  (states.filterMap State.accept).foldl better none

/-- The fresh state of a subset; its number tells the subset's place in the list. -/
def subsetState {ids : List Nat} (subsets : List (Subset ids)) (first : Nat) (s : Subset ids) :
    State :=
  let place := subsets.findIdx fun t => t.members == s.members
  ⟨first + place, (subsets[place]?).bind fun t => winner t.states⟩

end Nfa

namespace Dfa

/-- Set an arc where none is on this symbol. -/
def setNewArc (d : Dfa) (s : State) (x : Symbol) (t : State) : Except Error Dfa :=
  if (d.target? s x).isSome then .error (.defect (.arcSetTwice s x)) else .ok (d.setArc s x t)

end Dfa

namespace Nfa

/-- Add the state of a subset and its arcs. -/
def addSubset (n : Nfa) (subsets : List (Subset n.memberIds)) (first : Nat) (d : Dfa)
    (s : Subset n.memberIds) : Except Error Dfa :=
  let state := subsetState subsets first
  (n.moves n.memberIds s).foldlM (fun (d : Dfa) m => d.setNewArc (state s) (.char m.1) (state m.2))
    (d.addState (state s))

/-- The automaton whose states are the subsets listed, numbered from `first`. -/
def subsetAutomaton (n : Nfa) (subsets : List (Subset n.memberIds)) (first : Nat) :
    Except Error Dfa :=
  subsets.foldlM (n.addSubset subsets first)
    (Automaton.new (subsetState subsets first n.startSubset))

/-- The deterministic automaton of one without empty moves. -/
def determinize (n : Nfa) : Stage Dfa := do
  let subsets := n.subsets
  let first ← Stage.issued
  Stage.setIssued (first + subsets.length)
  let d ← Stage.ofExcept (n.subsetAutomaton subsets first)
  Stage.finish d (.dfa d.states.length d.arcs.length) Graph.checkDfa

end Nfa

end LexicalAutomata
