/-
# `LexicalAutomata.Proofs.Automaton.Drawing` — every well-formed automaton has a drawing

A drawing knows a state only by its place: it is the collection of the lines of the arcs and of the
accepting states (`drawing?_eq_some`), and nothing else decides what it is (`drawing?_eq_iff`).
-/
import LexicalAutomata.Automaton.Dot
import LexicalAutomata.Proofs.Automaton.Numbering
import LexicalAutomata.Proofs.Stage

namespace LexicalAutomata.Automaton

variable {k : Kind} {tags : Tags} {a : Automaton k}

deriving instance DecidableEq for Drawing

instance : Std.TransCmp Drawing.arcOrder :=
  inferInstanceAs (Std.TransCmp (compareLex (compareOn fun e : Nat × Symbol × Nat => e.1)
    (compareLex (compareOn fun e : Nat × Symbol × Nat => e.2.1.rank) (compareOn fun e => e.2.2))))

theorem Drawing.eq_of_arcOrder {x y : Nat × Symbol × Nat} (h : Drawing.arcOrder x y = .eq) :
    x = y := by
  obtain ⟨i, x, j⟩ := x
  obtain ⟨i', y, j'⟩ := y
  simp only [arcOrder, compareLex_eq_eq, compareOn, Nat.compare_eq_eq] at h
  obtain ⟨rfl, hrank, rfl⟩ := h
  rw [Symbol.rank_injective hrank]

/-- The line of an arc. -/
def lineOf (a : Automaton k) (e : Arc) : Nat × Symbol × Nat :=
  (a.place e.source, e.symbol, a.place e.target)

/-- The line of an accepting state. -/
def finalOf (a : Automaton k) (s : State) : Nat × String := (a.place s, s.token.getD "")

/-- Accepting states of one place are one state. -/
theorem finalOf_eq_of_compare (h : a.WellFormed tags) : ∀ x ∈ a.acceptingStates.map a.finalOf,
    ∀ y ∈ a.acceptingStates.map a.finalOf, compareOn Prod.fst x y = .eq → x = y := by
  intro x hx y hy hxy
  obtain ⟨s, hs, rfl⟩ := List.mem_map.mp hx
  obtain ⟨t, ht, rfl⟩ := List.mem_map.mp hy
  rw [place_injective h (List.mem_filter.mp hs).1 (List.mem_filter.mp ht).1
    (Nat.compare_eq_eq.mp hxy)]

theorem drawing?_eq_some (h : a.WellFormed tags) : a.drawing? =
    some ⟨Ordered.ofList Drawing.arcOrder (a.arcs.map a.lineOf), 0,
      Ordered.ofList (compareOn Prod.fst) (a.acceptingStates.map a.finalOf)⟩ := by
  have harcs : (a.arcs.mapM fun e => do
      return (← e.source.position? a.ordered, e.symbol, ← e.target.position? a.ordered)) =
      some (a.arcs.map a.lineOf) := by
    refine mapM_eq_pure fun e he => ?_
    rw [position?_ordered h (h.source_mem e he), position?_ordered h (h.target_mem e he)]
    rfl
  have hfinals : (a.acceptingStates.mapM fun s => do
      return (← s.position? a.ordered, s.token.getD "")) =
      some (a.acceptingStates.map a.finalOf) := by
    refine mapM_eq_pure fun s hs => ?_
    rw [position?_ordered h (List.mem_filter.mp hs).1]
    rfl
  rw [drawing?, harcs, position?_ordered h h.start_mem, place_start h, hfinals]
  rfl

theorem exists_dot (h : a.WellFormed tags) : ∃ text, a.dot? = some text := by
  rw [dot?, drawing?_eq_some h]
  exact ⟨_, rfl⟩

/-- Automata have the same drawing if they have the same lines. -/
theorem drawing?_eq_iff {b : Automaton k} {tags' : Tags} (ha : a.WellFormed tags)
    (hb : b.WellFormed tags') : a.drawing? = b.drawing? ↔
      (∀ x, x ∈ a.arcs.map a.lineOf ↔ x ∈ b.arcs.map b.lineOf) ∧
        ∀ x, x ∈ a.acceptingStates.map a.finalOf ↔ x ∈ b.acceptingStates.map b.finalOf := by
  rw [drawing?_eq_some ha, drawing?_eq_some hb, Option.some_inj, Drawing.mk.injEq,
    Ordered.ofList_eq_iff (fun _ _ _ _ => Drawing.eq_of_arcOrder) fun _ _ _ _ => Drawing.eq_of_arcOrder,
    Ordered.ofList_eq_iff (finalOf_eq_of_compare ha) (finalOf_eq_of_compare hb)]
  exact and_congr_right' (and_iff_right rfl)

/-- Where every line of an accepting state is one of another automaton, its tokens are too. -/
theorem token_of_finals {b : Automaton k} {tags' : Tags} {s t : State} {token : String}
    (hb : b.WellFormed tags')
    (hfinals : ∀ x ∈ a.acceptingStates.map a.finalOf, x ∈ b.acceptingStates.map b.finalOf)
    (hs : s ∈ a.states) (ht : t ∈ b.states) (hplace : a.place s = b.place t)
    (htoken : s.token = some token) : t.token = some token := by
  have ha : s.accepting := State.accepting_iff_token.mpr ⟨token, htoken⟩
  obtain ⟨t', ht', heq⟩ := List.mem_map.mp
    (hfinals _ (List.mem_map.mpr ⟨s, List.mem_filter.mpr ⟨hs, ha⟩, rfl⟩))
  obtain ⟨ht', ha'⟩ := List.mem_filter.mp ht'
  obtain ⟨hplace', htoken'⟩ := Prod.mk.inj heq
  obtain ⟨token', h'⟩ := State.accepting_iff_token.mp ha'
  rw [h', htoken] at htoken'
  rw [← place_injective hb ht' ht (hplace'.trans hplace), h']
  exact congrArg some htoken'

end LexicalAutomata.Automaton
