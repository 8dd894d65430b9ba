/-
# `LexicalAutomata.Expr.Matching` — matching without an automaton

The reference matcher computes, for a set of positions in the input, the set of positions where a
match that began at one of them may end.  Sets of positions are ascending lists.  Repetition adds
the ends of one more match until nothing is new; as positions do not exceed the length of the input,
that happens.
-/
import LexicalAutomata.Counting
import LexicalAutomata.Ordered
import LexicalAutomata.Expr.Basic

namespace LexicalAutomata.Expr

/-- The positions of `fresh` put in among those of `found`. -/
abbrev joinPositions (fresh found : List Nat) : List Nat := Ordered.insertAll compare fresh found

/-- What `step` reaches from `frontier`, within the input, and not in `found`. -/
def newPositions (last : Nat) (step : List Nat → List Nat) (found frontier : List Nat) : List Nat :=
  (step frontier).filter fun p => decide (p ≤ last) && !found.contains p

/-- How many positions up to `last` are not in `found`. -/
def missing (last : Nat) (found : List Nat) : Nat :=
  ((List.range (last + 1)).filter fun p => !found.contains p).length

theorem mem_joinPositions_of_mem_fresh {p : Nat} {fresh found : List Nat} (h : p ∈ fresh) :
    p ∈ joinPositions fresh found := by
  induction fresh generalizing found with
  | nil => cases h
  | cons q qs ih =>
      rcases List.mem_cons.mp h with rfl | h
      · obtain ⟨r, hr, e⟩ := @Ordered.exists_eq_mem_insert _ compare _ p found
        rw [← Nat.compare_eq_eq.mp e] at hr
        exact show p ∈ joinPositions qs (Ordered.insert compare p found) from
          Ordered.mem_insertAll_of_mem hr
      · exact ih h

theorem missing_lt {last : Nat} {step : List Nat → List Nat} {found frontier : List Nat}
    (h : newPositions last step found frontier ≠ []) :
    missing last (joinPositions (newPositions last step found frontier) found) <
      missing last found := by
  obtain ⟨p, hp⟩ := List.exists_mem_of_ne_nil _ h
  have hp' := List.mem_filter.mp hp
  simp only [Bool.and_eq_true, decide_eq_true_eq, Bool.not_eq_true', List.contains_eq_mem,
    decide_eq_false_iff_not] at hp'
  have hkeep : ∀ q ∈ found, q ∈ joinPositions (newPositions last step found frontier) found :=
    fun q hq => Ordered.mem_insertAll_of_mem hq
  have hnew : p ∈ joinPositions (newPositions last step found frontier) found :=
    mem_joinPositions_of_mem_fresh hp
  refine length_filter_lt_of_imp (x := p) (fun q _ => ?_) ?_ ?_ ?_
  · simpa using fun hq hf => hq (hkeep q hf)
  · exact List.mem_range.mpr (by omega)
  · simpa using hp'.2.2
  · simpa using hnew

/-- The least set of positions that holds `found` and every position that `step` reaches from it;
`frontier` is the part of `found` that `step` has not been applied to. -/
def closure (last : Nat) (step : List Nat → List Nat) (found frontier : List Nat) : List Nat :=
  if newPositions last step found frontier = [] then found
  else
    closure last step (joinPositions (newPositions last step found frontier) found)
      (newPositions last step found frontier)
termination_by missing last found
decreasing_by exact missing_lt ‹_›

mutual

/-- Where a match of the expression that begins at one of `starts` may end. -/
def ends (input : List Char) : Expr → List Nat → List Nat
  | .literal text, starts =>
      (starts.filter fun p => text.toList.isPrefixOf (input.drop p)).map (· + text.toList.length)
  | .sequence items, starts => endsInTurn input items starts
  | .alternation choices, starts => endsOfAny input choices starts
  | .optional body, starts => joinPositions starts (ends input body starts)
  | .zeroOrMore body, starts => closure input.length (ends input body) starts starts
  | .oneOrMore body, starts =>
      closure input.length (ends input body) (ends input body starts) (ends input body starts)

/-- Where matches of the expressions, one after the other, may end. -/
def endsInTurn (input : List Char) : List Expr → List Nat → List Nat
  | [], starts => starts
  | e :: es, starts => endsInTurn input es (ends input e starts)

/-- Where a match of any of the expressions may end. -/
def endsOfAny (input : List Char) : List Expr → List Nat → List Nat
  | [], _ => []
  | e :: es, starts => joinPositions (endsOfAny input es starts) (ends input e starts)

end

/-- Whether a match that begins at the start of the input may end at its end. -/
def accepts (e : Expr) (input : String) : Bool :=
  (ends input.toList e [0]).contains input.toList.length

end LexicalAutomata.Expr
