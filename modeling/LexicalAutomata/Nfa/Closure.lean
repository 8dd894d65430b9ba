/-
# `LexicalAutomata.Nfa.Closure` — what empty moves reach

The closure of a state holds the states that empty moves lead to, the state itself among them.  The
closures of all carried states are computed in ascending order of the states; a search that comes
upon a state whose closure is known takes that closure over as a whole and looks no further there.
-/
import LexicalAutomata.Automaton.Basic
import LexicalAutomata.Counting

namespace LexicalAutomata.Nfa

/-- States with their closures. -/
abbrev Closures := List (State × List State)

/-- The closure of a state, if it is known. -/
def Closures.of? (known : Closures) (s : State) : Option (List State) :=
  (known.find? fun c => c.1.id == s.id).map Prod.snd

/-- Where the empty moves of a state lead. -/
def emptyTargets (n : Nfa) (s : State) : List State := n.targets s .epsilon

/-- How many arcs leave states that are not in `found`. -/
def unusedArcs (n : Nfa) (found : List State) : Nat :=
  (n.arcs.filter fun e => !e.source.isIn found).length

theorem unusedArcs_insertAll_le (n : Nfa) (ts found : List State) :
    n.unusedArcs (Ordered.insertAll State.order ts found) ≤ n.unusedArcs found :=
  length_filter_le_of_imp fun e _ => by
    cases h : e.source.isIn found
    · simp
    · simp [State.isIn_insertAll.mpr (.inr h)]

theorem unusedArcs_insert_add_le (n : Nfa) {s : State} {found : List State}
    (h : s.isIn found = false) :
    n.unusedArcs (Ordered.insert State.order s found) + (n.emptyTargets s).length ≤
      n.unusedArcs found := by
  unfold unusedArcs emptyTargets Automaton.targets Automaton.arcsFrom
  rw [List.length_map]
  induction n.arcs with
  | nil => simp
  | cons e es ih =>
      have hs : e.source.id = s.id → e.source.isIn found = false := fun heq => by
        simpa [State.isIn, heq] using h
      have hi : e.source.isIn (Ordered.insert State.order s found) =
          (e.source.id == s.id || e.source.isIn found) := by
        rw [Bool.eq_iff_iff]
        simp [State.isIn_insert]
      simp only [List.filter_cons, hi]
      by_cases heq : e.source.id = s.id
      · simp only [heq, hs heq, beq_self_eq_true, Bool.true_or, Bool.not_true, Bool.false_eq_true,
          if_false, if_true, Bool.not_false, List.filter_cons, List.length_cons]
        grind
      · simp only [beq_eq_false_iff_ne.mpr heq, Bool.false_or, Bool.false_eq_true, if_false]
        grind

/-- The states found from those on the stack, when some closures are known. -/
def search (n : Nfa) (known : Closures) : (stack found : List State) → List State
  | [], found => found
  | s :: stack, found =>
      match known.of? s with
      | some closure => search n known stack (Ordered.insertAll State.order closure found)
      | none =>
          if s.isIn found then search n known stack found
          else
            search n known ((n.emptyTargets s).reverse ++ stack) (Ordered.insert State.order s found)
termination_by stack found => stack.length + n.unusedArcs found
decreasing_by
  · have := n.unusedArcs_insertAll_le closure found
    simp only [List.length_cons]
    omega
  · simp
  · have := n.unusedArcs_insert_add_le (Bool.eq_false_iff.mpr ‹_›)
    simp only [List.length_append, List.length_reverse, List.length_cons]
    omega

/-- The closures of the carried states, each computed with the help of those before it. -/
def closures (n : Nfa) : Closures :=
  n.states.foldl (fun known s => known ++ [(s, n.search known [s] [])]) []

/-- The closure of a carried state. -/
def closure? (n : Nfa) (s : State) : Option (List State) := n.closures.of? s

end LexicalAutomata.Nfa
