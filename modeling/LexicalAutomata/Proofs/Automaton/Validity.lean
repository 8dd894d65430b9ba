/-
# `LexicalAutomata.Proofs.Automaton.Validity` — when the checks pass

Each check of a graph is described by what it looks for.  For an automaton that carries only what can
be reached, and has no empty moves or no two arcs on one symbol where that matters, a single question
is left: whether any carried state accepts.  All checks together say no more than these three things
(`Automaton.checkDfa_eq_ok_iff`), and none of them breaks a promise (`Graph.checkDfa_ne_defect`).
-/
import LexicalAutomata.Proofs.Automaton.WellFormed
import LexicalAutomata.Proofs.Stage

namespace LexicalAutomata

theorem Symbol.toChar?_injective (x y : Symbol) (c : Char) (hx : c ∈ x.toChar?)
    (hy : c ∈ y.toChar?) : x = y := by
  cases x with
  | epsilon => cases hx
  | char d =>
      cases y with
      | epsilon => cases hy
      | char d' =>
          cases hx
          cases hy
          rfl

/-! ## Graphs -/

namespace Graph

variable {g : Graph}

theorem checkFinal_eq_ok (h : ∃ v ∈ g.vertices, v.accepting) : g.checkFinal = .ok () :=
  if_pos (List.any_eq_true.mpr h)

theorem checkFinal_eq_error (h : ∀ v ∈ g.vertices, ¬ v.accepting) :
    g.checkFinal = .error .noFinalState := by
  refine if_neg fun ha => ?_
  obtain ⟨v, hv, e⟩ := List.any_eq_true.mp ha
  exact h v hv e

theorem mem_reached {i : Nat} :
    i ∈ g.reached ↔ Leads id (g.arcs.map fun e => (e.1, e.2.2)) g.start i := by
  have h : seen id g.reached i ↔ Leads id (g.arcs.map fun e => (e.1, e.2.2)) g.start i :=
    seen_visit_iff
  rw [← h, seen_iff]
  exact exists_eq_right.symm

theorem checkConnected_eq_ok (h : ∀ v ∈ g.vertices, v.number ∈ g.reached) :
    g.checkConnected = .ok () := by
  have e : (g.vertices.filter fun v => !g.reached.contains v.number) = [] := by
    refine List.filter_eq_nil_iff.mpr fun v hv => ?_
    simp [h v hv]
  simp only [checkConnected, e]
  rfl

theorem checkConnected_eq_error {v : Vertex} (hv : v ∈ g.vertices) (h : v.number ∉ g.reached) :
    ∃ n, g.checkConnected = .error (.disconnected (n + 1)) := by
  have hl : (g.vertices.filter fun v => !g.reached.contains v.number).length ≠ 0 := by
    intro e
    have := List.filter_eq_nil_iff.mp (List.length_eq_zero_iff.mp e) v hv
    simp [h] at this
  obtain ⟨n, e⟩ := Nat.exists_eq_succ_of_ne_zero hl
  refine ⟨n, ?_⟩
  simp only [checkConnected, e]

theorem checkEpsilonFree_eq_ok (h : ∀ e ∈ g.arcs, e.2.1 ≠ .epsilon) :
    g.checkEpsilonFree = .ok () := by
  have e : (g.vertices.find? fun v => (g.symbolsFrom v).contains .epsilon) = none := by
    refine List.find?_eq_none.mpr fun v _ => ?_
    simp only [symbolsFrom, List.contains_iff_mem, List.mem_map, List.mem_filter, not_exists,
      not_and, and_imp]
    intro e he _
    exact h e he
  simp only [checkEpsilonFree, e]

theorem forM_eq_ok {α ε : Type} {f : α → Except ε Unit} {xs : List α}
    (h : ∀ x ∈ xs, f x = .ok ()) : xs.forM f = .ok () := by
  induction xs with
  | nil => rfl
  | cons x xs ih =>
      obtain ⟨hx, hxs⟩ := List.forall_mem_cons.mp h
      rw [List.forM, hx]
      exact ih hxs

theorem checkDeterministic_eq_ok
    (h : ∀ v ∈ g.vertices, ((g.symbolsFrom v).filterMap Symbol.toChar?).Nodup) :
    g.checkDeterministic = .ok () := by
  refine forM_eq_ok fun v hv => ?_
  have hn : g.repeatedChar? v = none :=
    firstRepeat_eq_none_iff.mpr ⟨fun _ _ => List.not_mem_nil, h v hv⟩
  simp only [hn]

theorem checkDfa_eq_ok (hf : g.checkFinal = .ok ()) (hc : g.checkConnected = .ok ())
    (he : g.checkEpsilonFree = .ok ()) (hd : g.checkDeterministic = .ok ()) :
    g.checkDfa = .ok () := by
  simp only [checkDfa, checkNfa, checkEpsilonNfa, hf, hc, he, hd]
  rfl

theorem checkFinal_eq_ok_iff : g.checkFinal = .ok () ↔ ∃ v ∈ g.vertices, v.accepting := by
  refine ⟨fun h => ?_, checkFinal_eq_ok⟩
  by_contra hn
  rw [checkFinal_eq_error fun v hv ha => hn ⟨v, hv, ha⟩] at h
  cases h

theorem checkConnected_eq_ok_iff :
    g.checkConnected = .ok () ↔ ∀ v ∈ g.vertices, v.number ∈ g.reached := by
  refine ⟨fun h v hv => ?_, checkConnected_eq_ok⟩
  by_contra hn
  obtain ⟨n, e⟩ := checkConnected_eq_error hv hn
  rw [e] at h
  cases h

/-- The check of a deterministic automaton passes if all of its parts do. -/
theorem checkDfa_eq_ok_iff : g.checkDfa = .ok () ↔ g.checkFinal = .ok () ∧
    g.checkConnected = .ok () ∧ g.checkEpsilonFree = .ok () ∧ g.checkDeterministic = .ok () := by
  refine ⟨fun h => ?_, fun h => checkDfa_eq_ok h.1 h.2.1 h.2.2.1 h.2.2.2⟩
  obtain ⟨_, h, hd⟩ := exists_of_bind h
  obtain ⟨_, h, he⟩ := exists_of_bind h
  obtain ⟨_, hf, hc⟩ := exists_of_bind h
  exact ⟨hf, hc, he, hd⟩

/-! ### What the checks report is no defect -/

theorem forM_ne_error {α ε : Type} {f : α → Except ε Unit} {e : ε} (h : ∀ x, f x ≠ .error e)
    (xs : List α) : xs.forM f ≠ .error e := by
  induction xs with
  | nil => exact nofun
  | cons x xs ih => exact bind_ne_error (h x) fun _ => ih

/-- No check finds a promise broken. -/
theorem checkNfa_ne_defect (g : Graph) (cause : Defect) : g.checkNfa ≠ .error (.defect cause) := by
  have hfinal : g.checkFinal ≠ .error (.defect cause) := by
    unfold checkFinal
    split <;> exact nofun
  have hconnected : g.checkConnected ≠ .error (.defect cause) := by
    unfold checkConnected
    dsimp only
    split <;> exact nofun
  have hepsilonFree : g.checkEpsilonFree ≠ .error (.defect cause) := by
    unfold checkEpsilonFree
    split <;> exact nofun
  exact bind_ne_error (bind_ne_error hfinal fun _ => hconnected) fun _ => hepsilonFree

theorem checkDfa_ne_defect (g : Graph) (cause : Defect) : g.checkDfa ≠ .error (.defect cause) := by
  have hdeterministic : g.checkDeterministic ≠ .error (.defect cause) := by
    refine forM_ne_error (fun v => ?_) _
    split <;> exact nofun
  exact bind_ne_error (g.checkNfa_ne_defect cause) fun _ => hdeterministic

end Graph

/-! ## Automata -/

namespace Automaton

variable {k : Kind} {tags : Tags} {a : Automaton k}

theorem mem_reached_graph {i : Nat} : i ∈ a.graph.reached ↔ Reaches a i := by
  have e : a.graph.arcs.map (fun e => (e.1, e.2.2)) = a.links.map fun l => (l.1.id, l.2.id) := by
    simp [graph, links]
  rw [Graph.mem_reached, e, Graph.leads_map_iff]
  exact connects_iff_leads.symm

/-- Every carried state can be reached. -/
def Connected (a : Automaton k) : Prop := ∀ s ∈ a.states, Reaches a s.id

/-- Some carried state accepts. -/
def HasFinal (a : Automaton k) : Prop := ∃ s ∈ a.states, s.accepting

/-- From every carried state a path leads to an accepting one. -/
def NoDeadEnd (a : Automaton k) : Prop :=
  ∀ s ∈ a.states, ∃ t ∈ a.states, t.accepting ∧ Connects a s.id t.id

/-- A path that spells the word leads from the start to a state with this tag. -/
def Completes (a : Automaton k) (w : List Char) (tag : Accept) : Prop :=
  ∃ s ∈ a.states, Reads a a.start.id w s.id ∧ s.accept = some tag

theorem accepting_of_accept {s : State} {tag : Accept} (h : s.accept = some tag) : s.accepting := by
  rw [State.accepting, h]
  rfl

theorem NoDeadEnd.hasFinal (hn : a.NoDeadEnd) (h : a.WellFormed tags) : a.HasFinal := by
  obtain ⟨t, ht, ha, -⟩ := hn _ h.start_mem
  exact ⟨t, ht, ha⟩

theorem connected_prune (h : a.WellFormed tags) : a.prune.Connected := by
  intro s hs
  exact reaches_prune.mpr (h.mem_states_prune.mp hs).2

theorem NoDeadEnd.prune (hn : a.NoDeadEnd) (h : a.WellFormed tags) : a.prune.NoDeadEnd := by
  intro s hs
  obtain ⟨hs, hr⟩ := h.mem_states_prune.mp hs
  obtain ⟨t, ht, ha, w, r⟩ := hn s hs
  exact ⟨t, h.mem_states_prune.mpr ⟨ht, Connects.trans hr ⟨w, r⟩⟩, ha, w, (reads_prune hr).mpr r⟩

theorem completes_prune (h : a.WellFormed tags) {w : List Char} {tag : Accept} :
    a.prune.Completes w tag ↔ a.Completes w tag := by
  constructor
  · intro h'
    obtain ⟨s, hs, r, ha⟩ := h'
    exact ⟨s, (h.mem_states_prune.mp hs).1, (reads_prune (reaches_start a)).mp r, ha⟩
  · intro h'
    obtain ⟨s, hs, r, ha⟩ := h'
    exact ⟨s, h.mem_states_prune.mpr ⟨hs, w, r⟩, (reads_prune (reaches_start a)).mpr r, ha⟩

theorem checkFinal_graph_eq_ok (h : a.HasFinal) : a.graph.checkFinal = .ok () := by
  obtain ⟨s, hs, e⟩ := h
  exact Graph.checkFinal_eq_ok ⟨_, List.mem_map.mpr ⟨s, hs, rfl⟩, e⟩

theorem checkFinal_graph_eq_error (h : ¬ a.HasFinal) :
    a.graph.checkFinal = .error .noFinalState := by
  refine Graph.checkFinal_eq_error fun v hv e => ?_
  obtain ⟨s, hs, rfl⟩ := List.mem_map.mp hv
  exact h ⟨s, hs, e⟩

theorem checkConnected_graph_eq_ok (h : a.Connected) : a.graph.checkConnected = .ok () := by
  refine Graph.checkConnected_eq_ok fun v hv => ?_
  obtain ⟨s, hs, rfl⟩ := List.mem_map.mp hv
  exact mem_reached_graph.mpr (h s hs)

theorem checkConnected_graph_eq_error (h : ¬ a.Connected) :
    ∃ n, a.graph.checkConnected = .error (.disconnected (n + 1)) := by
  simp only [Connected, not_forall] at h
  obtain ⟨s, hs, hn⟩ := h
  exact Graph.checkConnected_eq_error (List.mem_map.mpr ⟨s, hs, rfl⟩) (mt mem_reached_graph.mp hn)

theorem checkEpsilonFree_graph_eq_ok (h : a.EpsilonFree) : a.graph.checkEpsilonFree = .ok () := by
  refine Graph.checkEpsilonFree_eq_ok fun x hx => ?_
  obtain ⟨e, he, rfl⟩ := List.mem_map.mp hx
  exact h e he

theorem epsilonFree_of_check (h : a.WellFormed tags) (hc : a.graph.checkEpsilonFree = .ok ()) :
    a.EpsilonFree := by
  intro e he hx
  have hmem : Symbol.epsilon ∈ a.graph.symbolsFrom ⟨e.source.id, e.source.accepting, e.source.label⟩ :=
    List.mem_map.mpr ⟨(e.source.id, e.symbol, e.target.id),
      List.mem_filter.mpr ⟨List.mem_map.mpr ⟨e, he, rfl⟩, beq_self_eq_true _⟩, hx⟩
  unfold Graph.checkEpsilonFree at hc
  split at hc
  · next hnone =>
      have := List.find?_eq_none.mp hnone _
        (List.mem_map.mpr ⟨e.source, h.source_mem e he, rfl⟩)
      exact this (List.contains_iff_mem.mpr hmem)
  · cases hc

theorem checkDeterministic_graph_eq_ok (h : a.WellFormed tags) (hd : a.Deterministic) :
    a.graph.checkDeterministic = .ok () := by
  refine Graph.checkDeterministic_eq_ok fun v _ => ?_
  have e : a.graph.symbolsFrom v =
      (a.arcs.filter fun e => e.source.id == v.number).map Arc.symbol := by
    simp [Graph.symbolsFrom, graph, List.filter_map, Function.comp_def]
  rw [e]
  refine List.Nodup.filterMap Symbol.toChar?_injective
    (List.Nodup.map_on ?_ (h.arcs_ascending.nodup.filter _))
  intro e he f hf hx
  obtain ⟨he, hs⟩ := List.mem_filter.mp he
  obtain ⟨hf, ht⟩ := List.mem_filter.mp hf
  simp only [beq_iff_eq] at hs ht
  exact hd e he f hf (hs.trans ht.symm) hx

/-! ## The checks of the stages -/

theorem checkEpsilonNfa_eq_ok (hf : a.HasFinal) (hc : a.Connected) :
    a.graph.checkEpsilonNfa = .ok () := by
  rw [Graph.checkEpsilonNfa, checkFinal_graph_eq_ok hf]
  exact checkConnected_graph_eq_ok hc

theorem checkNfa_eq_ok (hf : a.HasFinal) (hc : a.Connected) (he : a.EpsilonFree) :
    a.graph.checkNfa = .ok () := by
  rw [Graph.checkNfa, checkEpsilonNfa_eq_ok hf hc]
  exact checkEpsilonFree_graph_eq_ok he

theorem checkDfa_eq_ok (h : a.WellFormed tags) (hf : a.HasFinal) (hc : a.Connected)
    (he : a.EpsilonFree) (hd : a.Deterministic) : a.graph.checkDfa = .ok () :=
  Graph.checkDfa_eq_ok (checkFinal_graph_eq_ok hf) (checkConnected_graph_eq_ok hc)
    (checkEpsilonFree_graph_eq_ok he) (checkDeterministic_graph_eq_ok h hd)

theorem checkDfa_eq_ok_iff (h : a.WellFormed tags) (hd : a.Deterministic) :
    a.graph.checkDfa = .ok () ↔ a.HasFinal ∧ a.Connected ∧ a.EpsilonFree := by
  refine ⟨fun hcheck => ?_, fun h' => checkDfa_eq_ok h h'.1 h'.2.1 h'.2.2 hd⟩
  obtain ⟨hf, hc, he, -⟩ := Graph.checkDfa_eq_ok_iff.mp hcheck
  refine ⟨?_, fun s hs => ?_, epsilonFree_of_check h he⟩
  · obtain ⟨v, hv, ha⟩ := Graph.checkFinal_eq_ok_iff.mp hf
    obtain ⟨s, hs, rfl⟩ := List.mem_map.mp hv
    exact ⟨s, hs, ha⟩
  · exact mem_reached_graph.mp
      (Graph.checkConnected_eq_ok_iff.mp hc _ (List.mem_map.mpr ⟨s, hs, rfl⟩))

theorem checkEpsilonNfa_eq_noFinalState (hf : ¬ a.HasFinal) :
    a.graph.checkEpsilonNfa = .error .noFinalState := by
  rw [Graph.checkEpsilonNfa, checkFinal_graph_eq_error hf]
  rfl

theorem checkEpsilonNfa_eq_disconnected (hf : a.HasFinal) (hc : ¬ a.Connected) :
    ∃ n, a.graph.checkEpsilonNfa = .error (.disconnected (n + 1)) := by
  rw [Graph.checkEpsilonNfa, checkFinal_graph_eq_ok hf]
  exact checkConnected_graph_eq_error hc

theorem checkNfa_eq_noFinalState (hf : ¬ a.HasFinal) :
    a.graph.checkNfa = .error .noFinalState := by
  rw [Graph.checkNfa, checkEpsilonNfa_eq_noFinalState hf]
  rfl

theorem checkDfa_eq_noFinalState (hf : ¬ a.HasFinal) :
    a.graph.checkDfa = .error .noFinalState := by
  rw [Graph.checkDfa, checkNfa_eq_noFinalState hf]
  rfl

end Automaton

end LexicalAutomata
