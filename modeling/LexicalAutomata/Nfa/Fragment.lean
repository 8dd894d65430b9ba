/-
# `LexicalAutomata.Nfa.Fragment` — the arcs that spell out an expression

The fragment of an expression leads from a state `s` to a state `t` along exactly the words of its
language.  It adds arcs among `s`, `t` and fresh states only; fresh states are numbered from `next`,
and the fragment comes with the first number it has left.  A part that is repeated or alternative is
wrapped: it runs between two fresh states of its own, so that no loop leaks into `s` or `t`.
-/
import LexicalAutomata.Automaton.State
import LexicalAutomata.Expr.Basic

namespace LexicalAutomata

/-- A state without a tag. -/
def State.plain (id : Nat) : State := ⟨id, none⟩

/-- The empty move between two states. -/
def Arc.empty (s t : State) : Arc := ⟨s, .epsilon, t⟩

/-- Arcs in the order they are added, and the first number that is left. -/
abbrev Fragment := List Arc × Nat

namespace Fragment

/-- From `last` along the characters, then to `t`. -/
def spell (last t : State) : List Char → (next : Nat) → Fragment
  | [], next => ([.empty last t], next)
  | c :: cs, next =>
      let state := State.plain next
      let rest := spell state t cs (next + 1)
      (⟨last, .char c, state⟩ :: rest.1, rest.2)

/-- From `s` to `t` through `inner`, which runs between the fresh states `next` and `next + 1`. -/
def wrap (inner : State → State → Nat → Fragment) (s t : State) (next : Nat) : Fragment :=
  let a := State.plain next
  let b := State.plain (next + 1)
  let body := inner a b (next + 2)
  (.empty s a :: body.1 ++ [.empty b t], body.2)

/-- The arc that lets a wrapped part begin again. -/
def loop (next : Nat) : Arc := .empty (.plain (next + 1)) (.plain next)

end Fragment

namespace Expr

mutual

/-- The fragment of an expression. -/
def fragment : Expr → (s t : State) → (next : Nat) → Fragment
  | .literal text, s, t, next =>
      let first := State.plain next
      let rest := Fragment.spell first t text.toList (next + 1)
      (.empty s first :: rest.1, rest.2)
  | .sequence items, s, t, next => fragmentInTurn items s t next
  | .alternation choices, s, t, next => fragmentOfEach choices s t next
  | .optional body, s, t, next =>
      let inner := Fragment.wrap (fragment body) s t next
      (.empty s t :: inner.1, inner.2)
  | .zeroOrMore body, s, t, next =>
      let inner := Fragment.wrap (fragment body) s t next
      (.empty s t :: inner.1 ++ [Fragment.loop next], inner.2)
  | .oneOrMore body, s, t, next =>
      let inner := Fragment.wrap (fragment body) s t next
      (inner.1 ++ [Fragment.loop next], inner.2)

/-- The fragments of the expressions, one after the other, with a fresh state between two of them. -/
def fragmentInTurn : List Expr → (s t : State) → (next : Nat) → Fragment
  | [], s, t, next => ([.empty s t], next)
  | [e], s, t, next => fragment e s t next
  | e :: es, s, t, next =>
      let between := State.plain next
      let first := fragment e s between (next + 1)
      let rest := fragmentInTurn es between t first.2
      (first.1 ++ rest.1, rest.2)

/-- The fragments of the expressions side by side, each wrapped. -/
def fragmentOfEach : List Expr → (s t : State) → (next : Nat) → Fragment
  | [], _, _, next => ([], next)
  | e :: es, s, t, next =>
      let first := Fragment.wrap (fragment e) s t next
      let rest := fragmentOfEach es s t first.2
      (first.1 ++ rest.1, rest.2)

end

end Expr

end LexicalAutomata
