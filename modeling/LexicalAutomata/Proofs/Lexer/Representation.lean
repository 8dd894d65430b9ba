/-
# `LexicalAutomata.Proofs.Lexer.Representation` — what can be relied on of every automaton

However an automaton is built from the states of one supply, it is consistent, and nothing that occurs in it
is missing where a stage, a table or a drawing looks it up (`Nfa.Resolves`, `Dfa.Resolves`).  A stage replaces
all states: those of its result were issued while it ran, and the supply goes on giving tags to numbers as
before (`Automaton.Fresh`).  Images take the tags of members of closures, subsets and classes those of
representatives; still each number has one tag, and so the result could have been built by the operations.
Hence it can be given to the next stage, or be built further with states issued before or after.
-/
import LexicalAutomata.Proofs.Automaton.Consistent
import LexicalAutomata.Proofs.Automaton.Drawing
import LexicalAutomata.Proofs.Dfa.Order
import LexicalAutomata.Proofs.Lexer.Ranked
import LexicalAutomata.Proofs.Lexer.Renumbering
import LexicalAutomata.Proofs.Nfa.EmptyMoves
import LexicalAutomata.Proofs.Table.Exact

namespace LexicalAutomata

open Automaton

variable {k : Kind} {tags : Tags} {σ τ : Session}

/-! ## Looking up what occurs -/

/-- What occurs has a closure, an image wherever images are numbered from, and a place in the order.  So
removing the empty moves breaks no promise, and there is a drawing. -/
structure Nfa.Resolves (n : Nfa) : Prop where
  closure : ∀ s, n.Occurs s → ∃ members, n.closure? s = some members
  image : ∀ s, n.Occurs s → ∀ first, ∃ t, imageOf (n.merged first) s = .ok t
  place : ∀ s, n.Occurs s → ∃ i, s.position? n.ordered = some i
  eliminate : ∀ σ cause, (n.eliminateEpsilon.run σ).1 ≠ .error (.defect cause)
  drawing : ∃ text, n.dot? = some text

/-- What occurs has a place in the order, and a class wherever classes are numbered from.  So neither
minimizing nor flattening breaks a promise, and there is a drawing. -/
structure Dfa.Resolves (d : Dfa) : Prop where
  place : ∀ s, d.Occurs s → ∃ i, placeOf d.ordered s = .ok i
  classOf : ∃ c, d.classes = .ok c ∧ ∀ s, d.Occurs s → ∀ first, ∃ t, c.stateOf first s = .ok t
  minimize : ∀ σ cause, (d.minimize.run σ).1 ≠ .error (.defect cause)
  flatten : ∀ names skippable σ cause, ((d.flatten names skippable).run σ).1 ≠ .error (.defect cause)
  drawing : ∃ text, d.dot? = some text

theorem Nfa.Built.resolves {n : Nfa} (h : n.Built tags) : n.Resolves := by
  have hw := h.wellFormed
  have hmem : ∀ {s}, n.Occurs s → s ∈ n.states := hw.mem_of_occurs
  refine ⟨fun s hs => ?_, fun s hs first => ?_, fun s hs => ?_, ?_, exists_dot hw⟩
  · obtain ⟨members, hmembers, -⟩ := exists_closure? hw (hmem hs)
    exact ⟨members, hmembers⟩
  · exact ⟨_, (merging_merged hw first).imageOf_ok hw (hmem hs)⟩
  · exact ⟨_, position?_ordered hw (hmem hs)⟩
  · exact fst_run_eliminateEpsilon_ne_defect hw

theorem Dfa.Built.resolves {d : Dfa} (h : d.Built tags) : d.Resolves := by
  have hw := h.wellFormed
  have hmem : ∀ {s}, d.Occurs s → s ∈ d.states := hw.mem_of_occurs
  refine ⟨fun s hs => ?_, ⟨_, classes_eq_ok hw, fun s hs first => ?_⟩, ?_, ?_, exists_dot hw⟩
  · exact ⟨_, placeOf_ordered hw (hmem hs)⟩
  · exact ⟨_, stateOf_eq_ok hw (hmem hs)⟩
  · exact fst_run_minimize_ne_defect hw h.made.deterministic
  · exact fun _ _ _ => fst_run_flatten_ne_defect hw

/-! ## What stages give -/

/-- Consistent, and made of states that were issued between two sessions: operations build it from the states
of a supply that had given these tags before the first one. -/
structure Automaton.Fresh (Built : Tags → Automaton k → Prop) (tags : Tags) (σ τ : Session)
    (a : Automaton k) : Prop where
  consistent : a.Consistent
  issued : ∀ s, a.Occurs s → σ.supply.issued ≤ s.id ∧ s.id < τ.supply.issued
  built : ∃ tags' : Tags, (∀ i < σ.supply.issued, tags' i = tags i) ∧ Built tags' a

theorem Automaton.fresh_of_wellFormed {a : Automaton k} {Built : Tags → Automaton k → Prop}
    (hbuilt : ∀ tags, a.WellFormed tags → Built tags a) (h : ∃ later, a.WellFormed later)
    (hissued : ∀ s ∈ a.states, σ.supply.issued ≤ s.id ∧ s.id < τ.supply.issued) :
    a.Fresh Built tags σ τ := by
  obtain ⟨later, hw⟩ := h
  have hgoOn : a.WellFormed (tags.goOn σ.supply.issued later) :=
    hw.retag fun s hs => (hw.of_mem hs).goOn_of_le (hissued s hs).1 tags
  exact ⟨hw.consistent, fun s hs => hissued s (hw.mem_of_occurs hs), _, fun i hi => if_pos hi,
    hbuilt _ hgoOn⟩

namespace Nfa

variable {n m : Nfa} {d : Dfa}

theorem Resolves.of_fresh (h : n.Fresh Nfa.Built tags σ τ) : n.Resolves := by
  obtain ⟨_, -, hbuilt⟩ := h.built
  exact hbuilt.resolves

theorem fresh_of_run_ofProductions {productions : List Production} {ranking : Ranking}
    (h : (ofProductions productions ranking).run σ = (.ok n, τ)) : n.Fresh Nfa.Built tags σ τ := by
  have hroot := rooted_of_run h
  obtain ⟨-, -, -, -, htandem⟩ :=
    Stage.shifts_of_tandem (fun _ => tandem_ofProductions productions ranking) σ σ
  rw [h] at htandem
  cases htandem with
  | ok hfrom =>
      exact fresh_of_wellFormed (fun _ => built_iff.mpr) hroot.wellFormed
        fun s hs => ⟨hfrom.1.states s hs, hroot.below s hs⟩

theorem fresh_of_run_eliminateEpsilon {before : Tags} (hw : n.WellFormed before)
    (h : n.eliminateEpsilon.run σ = (.ok m, τ)) : m.Fresh Nfa.Built tags σ τ := by
  obtain ⟨c, himages, hrun⟩ := run_eliminateEpsilon hw σ
  rw [hrun, Prod.mk.injEq] at h
  obtain ⟨hok, rfl⟩ := h
  obtain ⟨-, -, rfl⟩ := exists_of_map hok
  obtain ⟨later, hc⟩ := himages.wellFormed
  refine fresh_of_wellFormed (fun _ => built_iff.mpr) ⟨later, hc.prune⟩ fun s hs => ?_
  obtain ⟨t, ht, rfl⟩ := (himages.mem_states s).mp (hc.mem_states_prune.mp hs).1
  obtain ⟨i, hi, hid⟩ := imageIn_merged_id hw ht
  rw [hid]
  exact ⟨Nat.le_add_right _ i, Nat.add_lt_add_left hi _⟩

end Nfa

namespace Dfa

variable {n : Nfa} {d m : Dfa}

theorem Resolves.of_fresh (h : d.Fresh Dfa.Built tags σ τ) : d.Resolves := by
  obtain ⟨_, -, hbuilt⟩ := h.built
  exact hbuilt.resolves

theorem InIssueOrder.fresh (h : d.InIssueOrder σ τ) (hw : ∃ later, d.WellFormed later) :
    d.Fresh Dfa.Built tags σ τ :=
  fresh_of_wellFormed (fun _ hw => built_iff.mpr ⟨hw, h.made.deterministic⟩) hw h.issued

theorem fresh_of_run_determinize (h : n.determinize.run σ = (.ok d, τ)) :
    d.Fresh Dfa.Built tags σ τ := by
  obtain ⟨hok, -⟩ := Nfa.of_run_determinize h
  exact (Nfa.inIssueOrder_of_run h).fresh ⟨_, (Nfa.extended_of_subsetAutomaton hok).wellFormed⟩

theorem Made.fresh_of_run_minimize (hd : d.Made) (h : d.minimize.run σ = (.ok m, τ)) :
    m.Fresh Dfa.Built tags σ τ := by
  obtain ⟨hok, -⟩ := of_run_minimize h
  exact (hd.inIssueOrder_of_run h).fresh (hd.merged hok).wellFormed

end Dfa

/-! ## All together -/

/-- Every automaton that operations build from the states of one supply is consistent, and what occurs in it
is found wherever it is looked up.  The same holds of what construction, the removal of empty moves,
determinization and minimization give: it has only states that were issued meanwhile, and operations could
have built it from states of the supply. -/
theorem automata_consistent :
    (∀ tags (n : Nfa), n.Built tags → n.Consistent ∧ n.Resolves) ∧
    (∀ tags (d : Dfa), d.Built tags → d.Consistent ∧ d.Resolves) ∧
    ∀ (tags : Tags) (σ τ : Session),
      (∀ productions ranking n, (Nfa.ofProductions productions ranking).run σ = (.ok n, τ) →
        n.Fresh Nfa.Built tags σ τ ∧ n.Resolves) ∧
      (∀ n m : Nfa, n.Built tags → n.eliminateEpsilon.run σ = (.ok m, τ) →
        m.Fresh Nfa.Built tags σ τ ∧ m.Resolves) ∧
      (∀ (n : Nfa) d, n.determinize.run σ = (.ok d, τ) → d.Fresh Dfa.Built tags σ τ ∧ d.Resolves) ∧
      ∀ d m : Dfa, d.Built tags → d.minimize.run σ = (.ok m, τ) →
        m.Fresh Dfa.Built tags σ τ ∧ m.Resolves := by
  refine ⟨fun tags n hn => ⟨hn.wellFormed.consistent, hn.resolves⟩,
    fun tags d hd => ⟨hd.wellFormed.consistent, hd.resolves⟩,
    fun tags σ τ => ⟨fun _ _ n h => ?_, fun n m hn h => ?_, fun n d h => ?_, fun d m hd h => ?_⟩⟩
  · have hfresh : n.Fresh Nfa.Built tags σ τ := Nfa.fresh_of_run_ofProductions h
    exact ⟨hfresh, .of_fresh hfresh⟩
  · have hfresh : m.Fresh Nfa.Built tags σ τ := Nfa.fresh_of_run_eliminateEpsilon hn.wellFormed h
    exact ⟨hfresh, .of_fresh hfresh⟩
  · have hfresh : d.Fresh Dfa.Built tags σ τ := Dfa.fresh_of_run_determinize h
    exact ⟨hfresh, .of_fresh hfresh⟩
  · have hfresh : m.Fresh Dfa.Built tags σ τ := hd.made.fresh_of_run_minimize h
    exact ⟨hfresh, .of_fresh hfresh⟩

/-- Handmade automata with states that cannot be reached, and all stages in turn. -/
theorem automata_consistent_againstRank :
    (Nfa.circling.Consistent ∧ Nfa.circling.Resolves) ∧ (crossed.Consistent ∧ crossed.Resolves) ∧
    ∃ n σ₁ nfa σ₂ d σ₃ m σ₄,
      ((Nfa.ofProductions Lexer.againstRank ⟨["A", "B"]⟩).run .empty = (.ok n, σ₁) ∧
        n.eliminateEpsilon.run σ₁ = (.ok nfa, σ₂) ∧ nfa.determinize.run σ₂ = (.ok d, σ₃) ∧
        d.minimize.run σ₃ = (.ok m, σ₄)) ∧
      n.Fresh Nfa.Built (fun _ => none) .empty σ₁ ∧
      (∃ tags, n.Built tags ∧ nfa.Fresh Nfa.Built tags σ₁ σ₂ ∧ nfa.Resolves) ∧
      (∃ tags, nfa.Built tags ∧ d.Fresh Dfa.Built tags σ₂ σ₃ ∧ d.Resolves) ∧
      (∃ tags, d.Built tags ∧ m.Fresh Dfa.Built tags σ₃ σ₄ ∧ m.Resolves) ∧
      m.states.map State.id = [28, 29] := by
  obtain ⟨hnfa, hdfa, hstages⟩ := automata_consistent
  refine ⟨hnfa _ _ Nfa.built_circling, hdfa _ _ built_crossed, ?_⟩
  obtain ⟨m, σ₄, hrun, hids⟩ := Stage.exists_run_of_toOption (do
    let n ← Nfa.ofProductions Lexer.againstRank ⟨["A", "B"]⟩
    let nfa ← n.eliminateEpsilon
    let d ← nfa.determinize
    d.minimize) .empty (fun m => m.states.map State.id) [28, 29] (by decide +kernel)
  obtain ⟨n, σ₁, hn, hrun⟩ := Stage.exists_of_run_bind hrun
  obtain ⟨nfa, σ₂, hnfa, hrun⟩ := Stage.exists_of_run_bind hrun
  obtain ⟨d, σ₃, hd, hm⟩ := Stage.exists_of_run_bind hrun
  obtain ⟨hfresh, -⟩ := (hstages (fun _ => none) .empty σ₁).1 _ _ n hn
  obtain ⟨tags₁, -, hbuilt⟩ := hfresh.built
  have hfresh₁ := (hstages tags₁ σ₁ σ₂).2.1 n nfa hbuilt hnfa
  obtain ⟨tags₂, -, hbuilt₂⟩ := hfresh₁.1.built
  have hfresh₂ := (hstages tags₂ σ₂ σ₃).2.2.1 nfa d hd
  obtain ⟨tags₃, -, hbuilt₃⟩ := hfresh₂.1.built
  have hfresh₃ := (hstages tags₃ σ₃ σ₄).2.2.2 d m hbuilt₃ hm
  exact ⟨n, σ₁, nfa, σ₂, d, σ₃, m, σ₄, ⟨hn, hnfa, hd, hm⟩, hfresh, ⟨tags₁, hbuilt, hfresh₁⟩,
    ⟨tags₂, hbuilt₂, hfresh₂⟩, ⟨tags₃, hbuilt₃, hfresh₃⟩, hids⟩

end LexicalAutomata
