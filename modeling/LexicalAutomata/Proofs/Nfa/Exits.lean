/-
# `LexicalAutomata.Proofs.Nfa.Exits` — each production has an exit of its own

Productions with their ranks are added one after the other to an automaton that carries only a fresh
start, and the exits are collected on the way.  Nothing is asked of the productions: names may repeat,
ranks may be any numbers, and a body may have no words at all.

What the words are that lead to an exit is known from `Assembled`.  Here it is seen that an exit is
final in the strict sense: no arc leaves it, neither when it is added (`Branches.sink_exit`) nor
afterwards, for a later branch leaves the start or fresh states only (`Branches.sink`).
-/
import LexicalAutomata.Proofs.Expr.Matching
import LexicalAutomata.Proofs.Nfa.Construction

namespace LexicalAutomata.Nfa

open Automaton Fragment

variable {n m : Nfa} {next : Nat} {s entry exit : State} {f : Fragment}

/-- Add a production with its rank, and put its exit behind those collected. -/
def addWithExit (acc : Nfa × List State) (p : Production × Nat) : Stage (Nfa × List State) := do
  let (n, exit) ← acc.1.addProduction p.1 p.2
  return (n, acc.2 ++ [exit])

/-- Productions with their ranks added one after the other, and their exits in order. -/
def withExits (ps : List (Production × Nat)) : Stage (Nfa × List State) := do
  let n ← fresh
  ps.foldlM addWithExit (n, [])

theorem foldlM_addRanked {ranking : Ranking} {ps : List (Production × Nat)}
    (h : ∀ p ∈ ps, ranking.rank? p.1.name = some p.2) (n : Nfa) (exits : List State) :
    (ps.map Prod.fst).foldlM (addRanked ranking) n =
      Prod.fst <$> ps.foldlM addWithExit (n, exits) := by
  induction ps generalizing n exits with
  | nil => simp
  | cons p ps ih =>
      obtain ⟨hp, hps⟩ := List.forall_mem_cons.mp h
      simp only [List.map_cons, List.foldlM_cons, addRanked, hp, addWithExit, bind_assoc, pure_bind,
        map_bind, ← ih hps]

/-- Construction adds productions in the same way, at the ranks that it looks up. -/
theorem ofProductions_eq {ranking : Ranking} {ps : List (Production × Nat)}
    (h : ∀ p ∈ ps, ranking.rank? p.1.name = some p.2) :
    ofProductions (ps.map Prod.fst) ranking = withExits ps >>= fun built =>
      Stage.finish built.1 (.epsilonNfa built.1.states.length built.1.arcs.length)
        Graph.checkEpsilonNfa := by
  simp only [ofProductions, withExits, foldlM_addRanked h _ [], bind_assoc, bind_map_left]

/-! ## Sinks -/

/-- The state is not the start, and no arc leaves it. -/
def Sink (n : Nfa) (s : State) : Prop := s.id ≠ n.start.id ∧ ∀ e ∈ n.arcs, e.source.id ≠ s.id

theorem Branches.sink (hm : Branches n entry exit f.1 m) (hentry : entry.id = next)
    (hf : Spans entry exit (next + 2) f) (hs : Sink n s) (hlt : s.id < next) : Sink m s := by
  obtain ⟨hstart, hs⟩ := hs
  refine ⟨hm.start ▸ hstart, fun e he => ?_⟩
  rcases (hm.mem_arcs e).mp he with he | rfl | he
  · exact hs e he
  · exact hstart.symm
  · have := hf.source_id he
    omega

theorem Branches.sink_exit (h : n.Rooted next) (hm : Branches n entry exit f.1 m)
    (hentry : entry.id = next) (hexit : exit.id = next + 1) (hf : Spans entry exit (next + 2) f) :
    Sink m exit := by
  have hroot := h.start_lt
  have hne : exit.id ≠ n.start.id := by omega
  refine ⟨hm.start ▸ hne, fun e he => ?_⟩
  rcases (hm.mem_arcs e).mp he with he | rfl | he
  · have := h.source_lt he
    omega
  · exact hne.symm
  · have := hf.source_id he
    omega

/-! ## Collecting exits -/

/-- What is known while exits are collected. -/
structure Collecting (done : List (Production × Nat)) (acc : Nfa × List State) (σ : Session) :
    Prop where
  rooted : acc.1.Rooted σ.supply.issued
  sinks : ∀ s ∈ acc.2, Sink acc.1 s
  assembled : ∃ exits : List Exit, exits.map (fun x => (x.production, x.rank)) = done ∧
    exits.map Exit.state = acc.2 ∧ Assembled exits acc.1

theorem Collecting.init (i : Nat) (σ : Session) :
    Collecting [] (Automaton.new (.plain i), []) (σ.issue (i + 1)) :=
  ⟨rooted_new i, fun _ hs => (by cases hs), [], rfl, rfl, assembled_new (.plain i) Bool.false_ne_true⟩

theorem Collecting.add {done : List (Production × Nat)} {acc : Nfa × List State} {σ : Session}
    (h : Collecting done acc σ) (p : Production × Nat) :
    ∃ acc' τ, (addWithExit acc p).run σ = (.ok acc', τ) ∧ Collecting (done ++ [p]) acc' τ := by
  obtain ⟨exits, hps, hstates, ha⟩ := h.assembled
  obtain ⟨m, f, hrun, hb, hf, hroot⟩ := run_addProduction p.1 p.2 h.rooted
  refine ⟨(m, acc.2 ++ [⟨σ.supply.issued + 1, some ⟨p.1.name, p.2⟩⟩]), σ.issue f.2, ?_, hroot,
    forall_mem_snoc.mpr ⟨fun s hs => ?_, hb.sink_exit h.rooted rfl rfl hf.spans⟩, _, ?_, ?_,
    ha.branch h.rooted hb hf⟩
  · rw [addWithExit, Stage.run_bind_ok hrun]
    rfl
  · rw [← hstates] at hs
    obtain ⟨x, hx, rfl⟩ := List.mem_map.mp hs
    exact hb.sink rfl hf.spans (h.sinks _ (hstates ▸ hs)) (h.rooted.below _ (ha.mem_states x hx))
  · rw [List.map_append, hps, List.map_singleton]
  · rw [List.map_append, hstates, List.map_singleton]

/-! ## The exits of productions -/

/-- The state completes the production at its rank, is reached by the words that the production
matches, and is left by no arc. -/
structure ExitOf (n : Nfa) (p : Production × Nat) (s : State) : Prop where
  mem : s ∈ n.states
  accept : s.accept = some ⟨p.1.name, p.2⟩
  reads : ∀ w : String, Reads n n.start.id w.toList s.id ↔ p.1.body.accepts w
  sink : ∀ e ∈ n.arcs, e.source.id ≠ s.id

theorem Collecting.exitOf {done : List (Production × Nat)} {acc : Nfa × List State} {σ : Session}
    (h : Collecting done acc σ) : List.Forall₂ (ExitOf acc.1) done acc.2 := by
  obtain ⟨exits, rfl, hstates, ha⟩ := h.assembled
  rw [← hstates, List.forall₂_map_left_iff, List.forall₂_map_right_iff, List.forall₂_same]
  intro x hx
  refine ⟨ha.mem_states x hx, ha.accept x hx, fun w => ?_, ?_⟩
  · rw [ha.reads x hx, Expr.accepts_iff_lang]
  · exact (h.sinks _ (hstates ▸ List.mem_map.mpr ⟨x, hx, rfl⟩)).2

/-- Adding productions to a fresh start never fails.  Each production has an exit: a path that spells a
word leads there from the start exactly if the production matches the word, and no path leads on.  The
exits are different, and no other state accepts. -/
theorem withExits_exact (ps : List (Production × Nat)) (σ : Session) :
    ∃ n exits τ, (withExits ps).run σ = (.ok (n, exits), τ) ∧ List.Forall₂ (ExitOf n) ps exits ∧
      (exits.map State.id).Nodup ∧ ∀ s ∈ n.states, s.accepting ↔ s ∈ exits := by
  obtain ⟨⟨n, states⟩, τ, hrun, h⟩ := Stage.run_foldlM (Collecting.init σ.supply.issued σ)
    fun done p rest acc σ (_ : ps = done ++ p :: rest) h => h.add p
  have hexits := h.exitOf
  obtain ⟨exits, -, rfl, ha⟩ := h.assembled
  refine ⟨n, _, τ, (Stage.run_bind_ok run_fresh).trans hrun, hexits, ?_, fun s hs => ⟨?_, ?_⟩⟩
  · rw [List.map_map]
    exact (List.pairwise_map.mpr ha.ascending).imp Nat.ne_of_lt
  · intro hacc
    obtain ⟨x, hx, rfl⟩ := ha.accepting s hs hacc
    exact List.mem_map.mpr ⟨x, hx, rfl⟩
  · intro hmem
    obtain ⟨x, hx, rfl⟩ := List.mem_map.mp hmem
    exact accepting_of_accept (ha.accept x hx)

end LexicalAutomata.Nfa
