/-
# `LexicalAutomata.Automaton.Path` — what the paths of an automaton spell

A path is a relation between numbers of states: it leads along arcs, and spells the characters that
these read, the empty moves left out.  Nothing here says how a path is found.  Runs of a
deterministic automaton and subsets of states are other views of the same paths.
-/
import LexicalAutomata.Automaton.Basic

namespace LexicalAutomata.Automaton

variable {k : Automaton.Kind}

/-- `Reads a i w j`: a path that spells `w` leads from number `i` to number `j`. -/
inductive Reads (a : Automaton k) : Nat → List Char → Nat → Prop
  | stay (i : Nat) : Reads a i [] i
  | empty {e : Arc} {w : List Char} {j : Nat} :
      e ∈ a.arcs → e.symbol = .epsilon → Reads a e.target.id w j → Reads a e.source.id w j
  | char {e : Arc} {c : Char} {w : List Char} {j : Nat} :
      e ∈ a.arcs → e.symbol = .char c → Reads a e.target.id w j → Reads a e.source.id (c :: w) j

/-- A path spells two words in turn if paths spell each and meet. -/
theorem Reads.append {a : Automaton k} {i j l : Nat} {u v : List Char} (h : Reads a i u j)
    (h' : Reads a j v l) : Reads a i (u ++ v) l := by
  induction h with
  | stay => exact h'
  | empty he hx _ ih => exact .empty he hx (ih h')
  | char he hx _ ih => exact .char he hx (ih h')

/-- Some path leads from the start to this number. -/
def Reaches (a : Automaton k) (i : Nat) : Prop := ∃ w, Reads a a.start.id w i

/-- No arc is an empty move. -/
def EpsilonFree (a : Automaton k) : Prop := ∀ e ∈ a.arcs, e.symbol ≠ .epsilon

end LexicalAutomata.Automaton
