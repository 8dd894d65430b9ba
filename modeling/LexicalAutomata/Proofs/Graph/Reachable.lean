/-
# `LexicalAutomata.Proofs.Graph.Reachable` — searches and checks agree on what can be reached

A search from the start collects states in order to prune an automaton, and another one collects numbers in
order to count the vertices it has not met.  Both find what paths lead to, in automata with or without
empty moves and in tables that were read from bytes.  So what the check counts is what pruning drops, and
behind pruning the check passes and another pruning changes nothing (`reachable_exact`).
-/
import Mathlib.Data.Set.Card
import LexicalAutomata.Proofs.Automaton.Built
import LexicalAutomata.Proofs.Automaton.Run
import LexicalAutomata.Proofs.Automaton.Validity
import LexicalAutomata.Proofs.Table.Codec
import LexicalAutomata.Proofs.Table.Flatten

namespace LexicalAutomata

/-- The check counts the vertices whose numbers are not reached. -/
theorem Graph.checkConnected_eq (g : Graph) {n : Nat}
    (h : ((g.vertices.map Vertex.number).filter fun i => !g.reached.contains i).length = n) :
    g.checkConnected = if n = 0 then .ok () else .error (.disconnected n) := by
  rw [List.filter_map, List.length_map] at h
  have hcount : (g.vertices.filter fun v => !g.reached.contains v.number).length = n := h
  simp only [checkConnected, hcount]
  cases n <;> rfl

/-! ## Automata -/

namespace Automaton

variable {k : Kind} {tags : Tags} {a : Automaton k}

/-- The carried states that the search does not find. -/
def unreachable (a : Automaton k) : List State := a.states.filter fun s => s ∉ a.reachable

/-- What holds of the search for states, the check and pruning. -/
structure Searched (tags : Tags) (a : Automaton k) : Prop where
  /-- The search finds the states at the end of some path from the start. -/
  mem_reachable : ∀ s, s ∈ a.reachable ↔ s = .ofTags tags s.id ∧ Reaches a s.id
  /-- All of them are carried. -/
  mem_states : ∀ s ∈ a.reachable, s ∈ a.states
  /-- The check passes if all carried states are found. -/
  checkConnected_ok : a.graph.checkConnected = .ok () ↔ ∀ s ∈ a.states, s ∈ a.reachable
  /-- Otherwise it tells how many are not found. -/
  checkConnected_error : ∀ error, a.graph.checkConnected = .error error ↔
    a.unreachable ≠ [] ∧ error = .disconnected a.unreachable.length
  /-- Pruning leaves the start. -/
  start_prune : a.prune.start = a.start
  /-- Pruning keeps the carried states that can be reached. -/
  mem_states_prune : ∀ s, s ∈ a.prune.states ↔ s ∈ a.states ∧ Reaches a s.id
  /-- It drops as many as the check counts. -/
  length_prune : a.prune.states.length + a.unreachable.length = a.states.length
  /-- It keeps the arcs that leave the states it keeps. -/
  mem_arcs_prune : ∀ e, e ∈ a.prune.arcs ↔ e ∈ a.arcs ∧ Reaches a e.source.id
  /-- Then the check passes. -/
  checkConnected_prune : a.prune.graph.checkConnected = .ok ()
  /-- There is nothing left to prune. -/
  prune_prune : a.prune.prune = a.prune

theorem WellFormed.checkConnected_eq (h : a.WellFormed tags) : a.graph.checkConnected =
    if a.unreachable.length = 0 then .ok () else .error (.disconnected a.unreachable.length) := by
  refine a.graph.checkConnected_eq ?_
  have hnumbers : a.graph.vertices.map Graph.Vertex.number = a.states.map State.id := by
    rw [graph, List.map_map]
    rfl
  rw [hnumbers, List.filter_map, List.length_map, unreachable]
  refine congrArg List.length (List.filter_congr fun s hs => ?_)
  show (!a.graph.reached.contains s.id) = decide (s ∉ a.reachable)
  rw [decide_not, Bool.not_inj_iff, Bool.eq_iff_iff, List.contains_iff_mem, decide_eq_true_iff,
    mem_reached_graph, h.mem_reachable, and_iff_right hs]

theorem unreachable_eq_nil_iff : a.unreachable = [] ↔ ∀ s ∈ a.states, s ∈ a.reachable := by
  simp only [unreachable, List.filter_eq_nil_iff, decide_eq_true_iff, not_not]

theorem WellFormed.length_prune (h : a.WellFormed tags) :
    a.prune.states.length + a.unreachable.length = a.states.length := by
  have hkept : a.prune.states.Perm (a.states.filter fun s => s ∈ a.reachable) := by
    refine (List.perm_ext_iff_of_nodup h.prune.states_ascending.nodup
      (h.states_ascending.nodup.filter _)).mpr fun s => ?_
    rw [List.mem_filter, decide_eq_true_iff, h.mem_reachable, h.mem_states_prune, and_self_left]
  rw [hkept.length_eq, unreachable, List.length_eq_length_filter_add (l := a.states)
    fun s => decide (s ∈ a.reachable)]
  simp only [decide_not]

theorem WellFormed.prune_prune (h : a.WellFormed tags) : a.prune.prune = a.prune := by
  have hstates : a.prune.prune.states = a.prune.states := by
    refine h.prune.prune.states_ascending.ext h.prune.states_ascending fun s => ?_
    rw [h.prune.mem_states_prune, reaches_prune, h.mem_states_prune, and_assoc, and_self]
  have harcs : a.prune.prune.arcs = a.prune.arcs := by
    refine List.filter_eq_self.mpr fun e he => ?_
    exact isIn_reachable_iff.mpr (reaches_prune.mpr (mem_arcs_prune.mp he).2)
  calc a.prune.prune = ⟨a.start, a.prune.prune.states, a.prune.prune.arcs⟩ := rfl
    _ = a.prune := by rw [hstates, harcs]; rfl

theorem WellFormed.searched (h : a.WellFormed tags) : a.Searched tags where
  mem_reachable s := by
    rw [h.mem_reachable]
    refine ⟨fun hs => ⟨h.tagged s hs.1, hs.2⟩, fun hs => ⟨?_, hs.2⟩⟩
    obtain ⟨t, ht, hid⟩ := h.exists_of_reaches hs.2
    exact State.Of.eq_of_id (h.tagged t ht) hs.1 hid ▸ ht
  mem_states s hs := (h.mem_reachable.mp hs).1
  checkConnected_ok := by
    rw [h.checkConnected_eq, ← unreachable_eq_nil_iff, ← List.length_eq_zero_iff]
    split <;> simp [*]
  checkConnected_error error := by
    rw [h.checkConnected_eq, ← List.length_pos_iff, Nat.pos_iff_ne_zero]
    by_cases hz : a.unreachable.length = 0 <;> simp [hz, eq_comm]
  start_prune := rfl
  mem_states_prune _ := h.mem_states_prune
  length_prune := h.length_prune
  mem_arcs_prune _ := Automaton.mem_arcs_prune
  checkConnected_prune := checkConnected_graph_eq_ok (connected_prune h)
  prune_prune := h.prune_prune

end Automaton

/-! ## Tables -/

namespace Table

variable {t : Table} {i j : Nat}

/-- Where the characters of the rows ascend, paths of the table are walks. -/
theorem leads_iff_follow (h : ∀ r ∈ t.rows, r.Sorted) :
    Graph.Leads id (t.graph.arcs.map fun e => (e.1, e.2.2)) i j ↔ ∃ w, t.follow i w = some j := by
  have harc : ∀ {i j : Nat} {c : Char},
      t.next? i c = some j ↔ (i, Symbol.char c, j) ∈ t.graph.arcs := by
    intro i j c
    rw [mem_arcs_graph, next?, Option.bind_eq_some_iff]
    constructor
    · rintro ⟨r, hr, hj⟩
      exact ⟨r, hr, c, rfl, (Row.next?_eq_some_iff (h r (List.mem_of_getElem? hr))).mp hj⟩
    · rintro ⟨r, hr, c', hc, hj⟩
      cases hc
      exact ⟨r, hr, (Row.next?_eq_some_iff (h r (List.mem_of_getElem? hr))).mpr hj⟩
  constructor
  · intro p
    induction p with
    | stay i => exact ⟨[], rfl⟩
    | step hl _ ih =>
        obtain ⟨⟨i, x, m⟩, he, rfl⟩ := List.mem_map.mp hl
        obtain ⟨r, hr, c, rfl, hedge⟩ := mem_arcs_graph.mp he
        obtain ⟨w, hw⟩ := ih
        refine ⟨c :: w, ?_⟩
        change t.follow i (c :: w) = _
        rw [follow_cons, harc.mpr he]
        exact hw
  · rintro ⟨w, hw⟩
    induction w generalizing i with
    | nil =>
        cases hw
        exact .stay _
    | cons c w ih =>
        rw [follow_cons] at hw
        obtain ⟨m, hm, hw⟩ := Option.bind_eq_some_iff.mp hw
        have hlink : (i, m) ∈ t.graph.arcs.map fun e => (e.1, e.2.2) :=
          List.mem_map.mpr ⟨_, harc.mp hm, rfl⟩
        exact @Graph.Leads.step Nat id _ (i, m) j hlink (ih hw)

theorem mem_reached_graph (h : ∀ r ∈ t.rows, r.Sorted) :
    i ∈ t.graph.reached ↔ ∃ w, t.follow 0 w = some i :=
  Graph.mem_reached.trans (leads_iff_follow h)

/-- The numbers of rows that no walk from the first row leads to. -/
def unreached (t : Table) : Set Nat := {i | i < t.stateCount ∧ ∀ w, t.follow 0 w ≠ some i}

theorem checkConnected_graph_eq (h : ∀ r ∈ t.rows, r.Sorted) : t.graph.checkConnected =
    if t.unreached.ncard = 0 then .ok () else .error (.disconnected t.unreached.ncard) := by
  refine t.graph.checkConnected_eq ?_
  have hnumbers : t.graph.vertices.map Graph.Vertex.number = List.range t.stateCount := by
    rw [graph, List.map_map, List.range_eq_range', stateCount, ← List.zipIdx_map_snd]
    rfl
  have hset : t.unreached =
      ((List.range t.stateCount).filter fun i => !t.graph.reached.contains i).toFinset := by
    ext i
    rw [List.coe_toFinset, Set.mem_ofPred_eq, List.mem_filter, List.mem_range, Bool.not_eq_true',
      Bool.eq_false_iff, ne_eq, List.contains_iff_mem, mem_reached_graph h, not_exists]
    rfl
  rw [hnumbers, hset, Set.ncard_coe_finset,
    List.toFinset_card_of_nodup (List.nodup_range.filter _)]

theorem unreached_finite (t : Table) : t.unreached.Finite :=
  (Set.finite_lt_nat t.stateCount).subset fun _ hi => hi.1

theorem unreached_ncard_eq_zero_iff :
    t.unreached.ncard = 0 ↔ ∀ i < t.stateCount, ∃ w, t.follow 0 w = some i := by
  rw [Set.ncard_eq_zero t.unreached_finite, Set.eq_empty_iff_forall_notMem]
  simp only [unreached, Set.mem_ofPred_eq, not_and, not_forall, not_not]

end Table

/-! ## Both together -/

/-- Whatever is built from the states of one supply, nondeterministic or deterministic: the search finds
what paths lead to, the check counts the rest, and pruning drops that rest and nothing else, which no run
of a deterministic automaton shows.  For a table that was read from bytes, the check counts the rows that
no walk from the first one leads to. -/
theorem reachable_exact :
    (∀ tags (n : Nfa), n.Built tags → n.Searched tags) ∧
    (∀ tags (d : Dfa), d.Built tags → d.Searched tags ∧ ∀ w, Dfa.run d.prune w = d.run w) ∧
    ∀ bytes t, Table.decode bytes = .ok t →
      (t.graph.checkConnected = .ok () ↔ ∀ i < t.stateCount, ∃ w, t.follow 0 w = some i) ∧
      ∀ error, t.graph.checkConnected = .error error ↔
        t.unreached.Nonempty ∧ error = .disconnected t.unreached.ncard := by
  refine ⟨fun tags n h => h.wellFormed.searched,
    fun tags d h => ⟨h.wellFormed.searched, d.run_prune⟩, fun bytes t h => ?_⟩
  obtain ⟨hwell, -, -⟩ := Table.decode_eq_ok_iff_encode.mp h
  rw [Table.checkConnected_graph_eq hwell.sorted, ← Table.unreached_ncard_eq_zero_iff,
    ← Set.ncard_pos t.unreached_finite, Nat.pos_iff_ne_zero]
  by_cases hz : t.unreached.ncard = 0 <;> simp [hz, eq_comm]

/-- An automaton of two states, and two further ones that cannot be reached. -/
def islands : Nfa :=
  Nfa.addArc (Nfa.addArc (Automaton.new (.ofTags (fun _ => none) 0)) (.ofTags (fun _ => none) 0)
    .epsilon (.ofTags (fun _ => none) 1)) (.ofTags (fun _ => none) 2) (.char 'x')
    (.ofTags (fun _ => none) 3)

/-- A table whose second row leads to the first one. -/
def islandTable : Table := ⟨[⟨some 0, false, []⟩, ⟨none, false, [('a', 0)]⟩]⟩

theorem reachable_exact_islands :
    islands.graph.checkConnected = .error (.disconnected 2) ∧
    islands.prune.graph.checkConnected = .ok () ∧
    islandTable.unreached.Nonempty ∧ islandTable.unreached.ncard = 1 := by
  have hn := reachable_exact.1 _ islands (.addArc 2 _ 3 (.addArc 0 _ 1 (.new 0)))
  have hdecode : Table.decode islandTable.encode = .ok islandTable :=
    Table.decode_eq_ok_iff_encode.mpr
      ⟨⟨by decide, by decide, by decide⟩, ⟨by decide, by decide, by decide⟩, rfl⟩
  have hcheck : islandTable.graph.checkConnected = .error (.disconnected 1) := by decide +kernel
  obtain ⟨hunreached, hcount⟩ := ((reachable_exact.2.2 _ _ hdecode).2 _).mp hcheck
  refine ⟨(hn.checkConnected_error _).mpr ⟨by decide +kernel, ?_⟩, hn.checkConnected_prune,
    hunreached, (Error.disconnected.inj hcount).symm⟩
  exact congrArg Error.disconnected (by decide +kernel)

end LexicalAutomata
