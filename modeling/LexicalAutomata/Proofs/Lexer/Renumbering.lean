/-
# `LexicalAutomata.Proofs.Lexer.Renumbering` — a session decides on the numbers of new states alone

Construction, the removal of empty moves, the subset construction and minimization draw states from the
session they run in.  Run in any two sessions, a stage makes the same automaton but for the numbers of its
states, which count from what the session has issued before; or it fails in the same way; and it issues as
many states and leaves the same records (`Stage.Shifts`).  This holds for all automata that a stage can be
given, also where the numbers of the given states and of the new ones are the same.

It is enough to compare with the session in which nothing was issued: what is made there has its numbers
shifted by what the other session has issued, and shifting keeps all numbers apart and in order.
-/
import LexicalAutomata.Proofs.Dfa.Renumbering
import LexicalAutomata.Proofs.Nfa.Renumbering

namespace LexicalAutomata

variable {k : Automaton.Kind}

/-- All numbers of states are at least this one. -/
structure Automaton.IssuedFrom (first : Nat) (a : Automaton k) : Prop where
  start : first ≤ a.start.id
  states : ∀ s ∈ a.states, first ≤ s.id
  source : ∀ e ∈ a.arcs, first ≤ e.source.id
  target : ∀ e ∈ a.arcs, first ≤ e.target.id

/-- In any two sessions, the stage issues as many states and leaves the same records; and it makes the same
automaton of the states issued, but for the different numbers that these have, or fails in the same way. -/
def Stage.Shifts (x : Stage (Automaton k)) : Prop :=
  ∀ σ τ : Session, ∃ issued events,
    (x.run σ).2 = ⟨⟨σ.supply.issued + issued⟩, σ.log ++ events⟩ ∧
    (x.run τ).2 = ⟨⟨τ.supply.issued + issued⟩, τ.log ++ events⟩ ∧
    LexicalAutomata.Tandem
      (fun a b => a.IssuedFrom σ.supply.issued ∧
        b = a.renumber fun i => i - σ.supply.issued + τ.supply.issued)
      (x.run σ).1 (x.run τ).1

theorem Automaton.issuedFrom_renumber (first : Nat) (a : Automaton k) :
    (a.renumber (· + first)).IssuedFrom first where
  start := Nat.le_add_left ..
  states := List.forall_mem_map.mpr fun _ _ => Nat.le_add_left ..
  source := List.forall_mem_map.mpr fun _ _ => Nat.le_add_left ..
  target := List.forall_mem_map.mpr fun _ _ => Nat.le_add_left ..

/-- What is made where nothing was issued, once shifted, is shifted from one number to another. -/
theorem Automaton.renumber_shifted (i j : Nat) (a : Automaton k) :
    (a.renumber (· + i)).renumber (fun n => n - i + j) = a.renumber (· + j) := by
  rw [renumber_renumber]
  refine congrArg (renumber · a) (funext fun n => ?_)
  simp only [Function.comp_apply, Nat.add_sub_cancel]

/-- What is ahead of one outcome by two distances is shifted from the one to the other. -/
theorem Tandem.shifted {i j : Nat} {r x y : Except Error (Automaton k)}
    (hx : Tandem (Automaton.Ahead i) r x) (hy : Tandem (Automaton.Ahead j) r y) :
    Tandem (fun a b => a.IssuedFrom i ∧ b = a.renumber fun n => n - i + j) x y := by
  cases hx with
  | error he =>
      cases hy with
      | error he' => exact .error (he.symm.trans he')
  | @ok a b hb =>
      cases hy with
      | ok hc =>
          subst hb hc
          exact .ok ⟨a.issuedFrom_renumber i, (a.renumber_shifted i j).symm⟩

/-- Compared with the empty session, what was issued and recorded before is added to the outcome. -/
theorem Stage.Tandem.run_eq {α : Type} {R : α → α → Prop} {x : Stage α} {σ : Session}
    (h : Tandem σ.supply.issued R x x) : (x.run σ).2 =
      ⟨⟨σ.supply.issued + (x.run .empty).2.supply.issued⟩, σ.log ++ (x.run .empty).2.log⟩ ∧
    LexicalAutomata.Tandem R (x.run .empty).1 (x.run σ).1 := by
  obtain ⟨hissued, ⟨events, hlog, hlog'⟩, hresult⟩ := h .empty σ (Nat.zero_add _).symm
  have hevents : (x.run .empty).2.log = events := hlog
  refine ⟨?_, hresult⟩
  rw [hevents]
  generalize (x.run σ).2 = ρ at hissued hlog'
  obtain ⟨⟨issued⟩, log⟩ := ρ
  obtain rfl : issued = _ := hissued.trans (Nat.add_comm ..)
  obtain rfl : log = _ := hlog'
  rfl

theorem Stage.shifts_of_tandem {x : Stage (Automaton k)}
    (h : ∀ distance, Tandem distance (Automaton.Ahead distance) x x) : x.Shifts := by
  intro σ τ
  obtain ⟨hσ, hresult⟩ := (h σ.supply.issued).run_eq
  obtain ⟨hτ, hresult'⟩ := (h τ.supply.issued).run_eq
  exact ⟨_, _, hσ, hτ, hresult.shifted hresult'⟩

/-- The stages from productions to the minimal automaton depend on what a session has issued by a shift of
the numbers of new states alone, for all productions and ranks, and for all automata. -/
theorem stages_shift :
    (∀ productions ranking, (Nfa.ofProductions productions ranking).Shifts) ∧
    (∀ n : Nfa, n.eliminateEpsilon.Shifts) ∧ (∀ n : Nfa, n.determinize.Shifts) ∧
    ∀ d : Dfa, d.minimize.Shifts :=
  ⟨fun productions ranking =>
      Stage.shifts_of_tandem fun _ => Nfa.tandem_ofProductions productions ranking,
    fun n => Stage.shifts_of_tandem fun _ => n.tandem_eliminateEpsilon,
    fun n => Stage.shifts_of_tandem fun _ => n.tandem_determinize,
    fun d => Stage.shifts_of_tandem fun _ => d.tandem_minimize⟩

end LexicalAutomata
