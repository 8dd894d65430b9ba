/-
# `LexicalAutomata.Proofs.Table.Flatten` — a table moves as its automaton does

The row at the place of a state holds what can be known of the state: its token by index, and for each
character the place of the state it leads to.  So places follow states through every word
(`next?_place`), a table passes the checks its automaton passes, and walking along a table gets stuck
where a run of the automaton would end (`walk_place`).  That a table is well-formed needs less: whatever
automaton can be flattened at all gives such a table (`Made.flatten_wellFormed`).
-/
import LexicalAutomata.Proofs.Automaton.Built
import LexicalAutomata.Proofs.Automaton.Numbering
import LexicalAutomata.Proofs.Automaton.Run
import LexicalAutomata.Proofs.Automaton.Validity
import LexicalAutomata.Proofs.Stage
import LexicalAutomata.Table.Flatten
import LexicalAutomata.Tokenizer

namespace LexicalAutomata

/-! ## Tables whose rows ascend are deterministic -/

namespace Table

variable {t : Table}

theorem mem_arcs_graph {i j : Nat} {x : Symbol} : (i, x, j) ∈ t.graph.arcs ↔
    ∃ r, t.rows[i]? = some r ∧ ∃ c, x = .char c ∧ (c, j) ∈ r.edges := by
  simp only [graph, List.mem_flatMap, List.mem_map, Prod.mk.injEq]
  constructor
  · intro h
    obtain ⟨⟨r, k⟩, hr, ⟨c, l⟩, he, rfl, rfl, rfl⟩ := h
    exact ⟨r, List.mem_zipIdx_iff_getElem?.mp hr, c, rfl, he⟩
  · intro h
    obtain ⟨r, hr, c, rfl, he⟩ := h
    exact ⟨(r, i), List.mem_zipIdx_iff_getElem?.mpr hr, (c, j), he, rfl, rfl, rfl⟩

/-- Arcs come by the numbers of their sources, and those of one source by their characters. -/
theorem arcs_graph_pairwise (h : ∀ r ∈ t.rows, r.Sorted) :
    t.graph.arcs.Pairwise fun e f => e.1 = f.1 → e.2.1 ≠ f.2.1 := by
  refine List.pairwise_flatMap.mpr ⟨?_, ?_⟩
  · intro h' hr
    obtain ⟨r, i⟩ := h'
    have hsorted := h r (List.mem_of_getElem? (List.mem_zipIdx_iff_getElem?.mp hr))
    refine List.pairwise_map.mpr (List.Pairwise.imp ?_ hsorted)
    intro x y hlt _ e
    exact absurd (Symbol.char.inj e ▸ hlt) (Std.lt_irrefl (a := y.1))
  · have hlt : t.rows.zipIdx.Pairwise fun x y => x.2 < y.2 := by
      have := List.pairwise_lt_range' (s := 0) (n := t.rows.length)
      rw [← List.zipIdx_map_snd, List.pairwise_map] at this
      exact this
    refine hlt.imp ?_
    rintro ⟨r, i⟩ ⟨r', j⟩ hij e he f hf heq
    obtain ⟨x, -, rfl⟩ := List.mem_map.mp he
    obtain ⟨y, -, rfl⟩ := List.mem_map.mp hf
    exact absurd heq (Nat.ne_of_lt hij)

/-- The number that the characters of a word lead to, if they can all be read. -/
def follow (t : Table) (s : Nat) (w : List Char) : Option Nat := w.foldlM t.next? s

theorem follow_cons {s : Nat} {c : Char} {w : List Char} :
    t.follow s (c :: w) = (t.next? s c).bind fun s' => t.follow s' w := by
  rw [follow, List.foldlM_cons]
  rfl

theorem checkDeterministic_graph_eq_ok (h : ∀ r ∈ t.rows, r.Sorted) :
    t.graph.checkDeterministic = .ok () := by
  refine Graph.checkDeterministic_eq_ok fun v _ => ?_
  have hnodup : (t.graph.symbolsFrom v).Nodup := by
    refine List.pairwise_map.mpr (List.Pairwise.imp_of_mem ?_
      ((arcs_graph_pairwise h).filter fun e => e.1 == v.number))
    intro e f he hf hne
    have he := (List.mem_filter.mp he).2
    have hf := (List.mem_filter.mp hf).2
    rw [beq_iff_eq] at he hf
    exact hne (he.trans hf.symm)
  exact hnodup.filterMap Symbol.toChar?_injective

/-- Where the characters of a row ascend, looking one up finds its only edge. -/
theorem Row.next?_eq_some_iff {r : Row} (h : r.Sorted) {c : Char} {j : Nat} :
    r.next? c = some j ↔ (c, j) ∈ r.edges := by
  have hnodup : (r.edges.map Prod.fst).Nodup := by
    refine List.pairwise_map.mpr (List.Pairwise.imp ?_ h)
    intro x y hlt e
    exact absurd (e ▸ hlt) (Std.lt_irrefl (a := y.1))
  rw [Row.next?, Option.map_eq_some_iff]
  constructor
  · intro h'
    obtain ⟨⟨c', j⟩, hf, rfl⟩ := h'
    have hc : c' = c := by simpa using List.find?_some hf
    exact hc ▸ List.mem_of_find?_eq_some hf
  · intro hm
    cases hf : r.edges.find? fun e => e.1 == c with
    | none => exact absurd (List.find?_eq_none.mp hf _ hm) (by simp)
    | some e =>
        have hc : e.1 = c := by simpa using List.find?_some hf
        have := List.inj_on_of_nodup_map hnodup (List.mem_of_find?_eq_some hf) hm hc
        exact ⟨e, rfl, congrArg Prod.snd this⟩

theorem checkEpsilonFree_graph_eq_ok (t : Table) : t.graph.checkEpsilonFree = .ok () := by
  refine Graph.checkEpsilonFree_eq_ok ?_
  intro h he
  obtain ⟨i, x, j⟩ := h
  obtain ⟨r, -, c, rfl, -⟩ := mem_arcs_graph.mp he
  exact Symbol.noConfusion

end Table

namespace Dfa

open Automaton

variable {tags : Tags} {d : Dfa} {names skippable : List String} {s t : State}

/-! ## Rows -/

/-- The edge of an arc that reads a character. -/
def edgeTo (d : Dfa) (e : Arc) : Char × Nat := (e.symbol.toChar?.getD default, d.place e.target)

/-- The row of a state whose token has a name. -/
def rowAt (d : Dfa) (names skippable : List String) (s : State) : Table.Row where
  token := s.token.map fun token => names.findIdx fun n => n == token
  skippable := s.token.any skippable.contains
  edges := (d.arcsFrom s).map d.edgeTo

theorem accepting_rowAt : (d.rowAt names skippable s).accepting = s.accepting :=
  Option.isSome_map.trans s.isSome_token

/-- The table of the rows. -/
def tableOf (d : Dfa) (names skippable : List String) : Table :=
  ⟨d.ordered.map (d.rowAt names skippable)⟩

/-- Every token of a carried state has a name. -/
def Named (d : Dfa) (names : List String) : Prop := ∀ s ∈ d.states, ∀ token ∈ s.token, token ∈ names

theorem findIdx?_of_mem {token : String} (h : token ∈ names) :
    (names.findIdx? fun n => n == token) = some (names.findIdx fun n => n == token) :=
  List.findIdx?_eq_some_iff_findIdx_eq.mpr
    ⟨List.findIdx_lt_length_of_exists ⟨token, h, beq_self_eq_true _⟩, rfl⟩

theorem tokenIndex_eq_ok (h : ∀ token ∈ s.token, token ∈ names) : tokenIndex names s =
    .ok (s.token.map fun token => names.findIdx fun n => n == token) := by
  unfold tokenIndex
  cases ht : s.token with
  | none => rfl
  | some token =>
      simp only [findIdx?_of_mem (h token ht)]
      rfl

theorem edgeOf_eq_ok (h : d.WellFormed tags) (he : d.EpsilonFree) {e : Arc} (hem : e ∈ d.arcs) :
    edgeOf d.ordered s e = .ok (d.edgeTo e) := by
  unfold edgeOf edgeTo
  cases hx : e.symbol with
  | epsilon => exact absurd hx (he e hem)
  | char c =>
      rw [position?_ordered h (h.target_mem e hem)]
      rfl

theorem toTable_eq_ok (h : d.WellFormed tags) (he : d.EpsilonFree) (hn : d.Named names) :
    d.toTable names skippable = .ok (d.tableOf names skippable) := by
  have hrow : ∀ s ∈ d.ordered,
      d.rowOf names skippable d.ordered s = .ok (d.rowAt names skippable s) := by
    intro s hs
    have hedges : (d.arcsFrom s).mapM (edgeOf d.ordered s) =
        .ok ((d.arcsFrom s).map d.edgeTo) :=
      mapM_eq_pure fun e hem => edgeOf_eq_ok h he (mem_arcsFrom.mp hem).1
    rw [rowOf, tokenIndex_eq_ok (hn s ((mem_ordered h).mp hs)), hedges]
    rfl
  rw [toTable, mapM_eq_pure hrow]
  rfl

theorem getElem?_rows (h : d.WellFormed tags) {i : Nat} {r : Table.Row} :
    (d.tableOf names skippable).rows[i]? = some r ↔
      ∃ s ∈ d.states, d.place s = i ∧ d.rowAt names skippable s = r := by
  rw [tableOf, List.getElem?_map, Option.map_eq_some_iff]
  simp only [getElem?_ordered_iff h, and_assoc]

theorem row?_place (h : d.WellFormed tags) (hs : s ∈ d.states) :
    (d.tableOf names skippable).row? (d.place s) = some (d.rowAt names skippable s) :=
  (getElem?_rows h).mpr ⟨s, hs, rfl, rfl⟩

theorem mem_edges_rowAt (he : d.EpsilonFree) {c : Char} {j : Nat} :
    (c, j) ∈ (d.rowAt names skippable s).edges ↔
      ∃ e ∈ d.arcs, e.source.id = s.id ∧ e.symbol = .char c ∧ d.place e.target = j := by
  simp only [rowAt, List.mem_map, mem_arcsFrom]
  constructor
  · intro h
    obtain ⟨e, ⟨hem, hs⟩, heq⟩ := h
    cases hx : e.symbol with
    | epsilon => exact absurd hx (he e hem)
    | char c' =>
        rw [edgeTo, hx] at heq
        obtain ⟨rfl, rfl⟩ := Prod.mk.inj heq
        exact ⟨e, hem, hs, hx, rfl⟩
  · intro h
    obtain ⟨e, hem, hs, hx, rfl⟩ := h
    refine ⟨e, ⟨hem, hs⟩, ?_⟩
    rw [edgeTo, hx]
    rfl

theorem sorted_rowAt (h : d.WellFormed tags) (hd : d.Deterministic) (he : d.EpsilonFree)
    (s : State) : (d.rowAt names skippable s).Sorted := by
  refine List.pairwise_map.mpr ((List.pairwise_map.mp
    (symbols_ascending h.arcs_ascending hd s)).imp_of_mem ?_)
  intro e f hem hfm hlt
  cases hx : e.symbol with
  | epsilon => exact absurd hx (he e (mem_arcsFrom.mp hem).1)
  | char c =>
      cases hy : f.symbol with
      | epsilon => exact absurd hy (he f (mem_arcsFrom.mp hfm).1)
      | char c' =>
          rw [hx, hy] at hlt
          rw [edgeTo, edgeTo, hx, hy]
          exact Char.lt_def.mpr (Nat.lt_of_succ_lt_succ (Nat.compare_eq_lt.mp hlt))

theorem tableOf_wellFormed (h : d.WellFormed tags) (hd : d.Deterministic) (he : d.EpsilonFree) :
    (d.tableOf names skippable).WellFormed where
  rows_ne_nil := List.ne_nil_of_mem (List.mem_of_getElem? (row?_place h h.start_mem))
  sorted r hr := by
    obtain ⟨s, -, rfl⟩ := List.mem_map.mp hr
    exact sorted_rowAt h hd he s
  inRange r hr := by
    obtain ⟨s, -, rfl⟩ := List.mem_map.mp hr
    intro h' hm
    obtain ⟨c, j⟩ := h'
    obtain ⟨e, hem, -, -, rfl⟩ := (mem_edges_rowAt he).mp hm
    rw [Table.stateCount, tableOf, List.length_map]
    exact place_lt h (h.target_mem e hem)

/-! ## Rows of whatever can be flattened

Any automaton whose arcs are set, also one that mixes states of different supplies, gives a well-formed
table if it gives one at all. -/

theorem rows_of_toTable {t : Table} (h : d.toTable names skippable = .ok t) :
    List.Forall₂ (fun s r => d.rowOf names skippable d.ordered s = .ok r) d.ordered t.rows := by
  rw [toTable] at h
  obtain ⟨rows, hrows, h⟩ := exists_of_bind h
  cases h
  exact mapM_eq_ok_iff.mp hrows

theorem edges_of_rowOf {order : List State} {r : Table.Row}
    (h : d.rowOf names skippable order s = .ok r) :
    List.Forall₂ (fun e f => edgeOf order s e = .ok f) (d.arcsFrom s) r.edges := by
  rw [rowOf] at h
  obtain ⟨token, -, h⟩ := exists_of_bind h
  obtain ⟨edges, hedges, h⟩ := exists_of_bind h
  cases h
  exact mapM_eq_ok_iff.mp hedges

theorem of_edgeOf {order : List State} {e : Arc} {f : Char × Nat}
    (h : edgeOf order s e = .ok f) : e.symbol = .char f.1 ∧ f.2 < order.length := by
  unfold edgeOf at h
  split at h
  · cases h
  · rename_i c i hx hp
    cases h
    exact ⟨hx, (List.findIdx?_eq_some_iff_getElem.mp hp).1⟩
  · cases h

/-- What flattening gives does not depend on the session. -/
theorem fst_run_flatten (d : Dfa) (names skippable : List String) (σ : Session) :
    ((d.flatten names skippable).run σ).1 =
      (d.toTable names skippable).bind fun t => t.graph.checkDfa.map fun _ => t := by
  rw [flatten]
  cases ht : d.toTable names skippable with
  | error e => rw [Stage.run_bind_error (Stage.run_ofExcept _)]; rfl
  | ok t =>
      rw [Stage.run_bind_ok (Stage.run_ofExcept _), Stage.run_bind_ok (Stage.run_note _)]
      show _ = t.graph.checkDfa.map fun _ => t
      cases hc : t.graph.checkDfa with
      | error e => rw [Stage.run_bind_error (Stage.run_ofExcept _)]; rfl
      | ok u => rw [Stage.run_bind_ok (Stage.run_ofExcept _)]; rfl

theorem fst_run_flatten_eq_ok_iff {t : Table} {σ : Session} :
    ((d.flatten names skippable).run σ).1 = .ok t ↔
      d.toTable names skippable = .ok t ∧ t.graph.checkDfa = .ok () := by
  rw [fst_run_flatten]
  cases d.toTable names skippable with
  | error e => exact ⟨nofun, fun h => nomatch h.1⟩
  | ok t' =>
      show (t'.graph.checkDfa.map fun _ => t') = _ ↔ _
      constructor
      · intro h
        cases hc : t'.graph.checkDfa with
        | error e =>
            rw [hc] at h
            cases h
        | ok u =>
            rw [hc] at h
            cases h
            exact ⟨rfl, hc⟩
      · rintro ⟨h, hc⟩
        cases h
        rw [hc]
        rfl

theorem toTable_of_run_flatten {t : Table} {σ τ : Session}
    (h : (d.flatten names skippable).run σ = (.ok t, τ)) : d.toTable names skippable = .ok t :=
  (fst_run_flatten_eq_ok_iff.mp (congrArg Prod.fst h)).1

theorem Made.flatten_wellFormed (h : d.Made) {t : Table} {σ τ : Session}
    (hrun : (d.flatten names skippable).run σ = (.ok t, τ)) : t.WellFormed := by
  have hrows := rows_of_toTable (toTable_of_run_flatten hrun)
  have hedges : ∀ r ∈ t.rows, ∃ s,
      List.Forall₂ (fun e f => edgeOf d.ordered s e = .ok f) (d.arcsFrom s) r.edges := by
    intro r hr
    obtain ⟨s, -, hs⟩ := exists_of_mem_forall₂ hrows hr
    exact ⟨s, edges_of_rowOf hs⟩
  refine ⟨?_, fun r hr => ?_, fun r hr f hf => ?_⟩
  · intro hnil
    rw [hnil, List.forall₂_nil_right_iff] at hrows
    have hhead := head?_ordered d
    rw [hrows] at hhead
    cases hhead
  · obtain ⟨s, hs⟩ := hedges r hr
    have hsymbols : (d.arcsFrom s).map Arc.symbol = r.edges.map fun f => .char f.1 := by
      rw [← List.forall₂_eq_eq_eq, List.forall₂_map_left_iff, List.forall₂_map_right_iff]
      exact hs.imp fun e f h => (of_edgeOf h).1
    have hascending := symbols_ascending h.arcs_ascending h.deterministic s
    rw [hsymbols] at hascending
    refine (List.pairwise_map.mp hascending).imp fun hlt => ?_
    exact Char.lt_def.mpr (Nat.lt_of_succ_lt_succ (Nat.compare_eq_lt.mp hlt))
  · obtain ⟨s, hs⟩ := hedges r hr
    obtain ⟨e, -, he⟩ := exists_of_mem_forall₂ hs hf
    rw [Table.stateCount, ← hrows.length_eq]
    exact (of_edgeOf he).2

/-! ## The checks -/

/-- Places follow the paths of states. -/
theorem leads_places (h : d.WellFormed tags) (he : d.EpsilonFree) {i j : Nat} {w : List Char}
    (r : Reads d i w j) : ∀ s ∈ d.states, ∀ t ∈ d.states, s.id = i → t.id = j →
      Graph.Leads id ((d.tableOf names skippable).graph.arcs.map fun e => (e.1, e.2.2)) (d.place s)
        (d.place t) := by
  induction r with
  | stay i =>
      intro s hs t ht hi hj
      rw [h.eq_of_id hs ht (hi.trans hj.symm)]
      exact .stay _
  | empty hem hx => exact absurd hx (he _ hem)
  | @char e c w j hem hx _ ih =>
      intro s hs t ht hi hj
      have harc : (d.place s, Symbol.char c, d.place e.target) ∈
          (d.tableOf names skippable).graph.arcs :=
        Table.mem_arcs_graph.mpr ⟨_, row?_place h hs, c, rfl,
          (mem_edges_rowAt he).mpr ⟨e, hem, hi.symm, hx, rfl⟩⟩
      have hlink : (d.place s, d.place e.target) ∈
          (d.tableOf names skippable).graph.arcs.map fun e => (e.1, e.2.2) :=
        List.mem_map.mpr ⟨_, harc, rfl⟩
      exact @Graph.Leads.step Nat id _ (d.place s, d.place e.target) _ hlink
        (ih e.target (h.target_mem e hem) t ht rfl hj)

theorem mem_vertices {v : Graph.Vertex} (hv : v ∈ (d.tableOf names skippable).graph.vertices) :
    ∃ s, d.ordered[v.number]? = some s ∧ v.accepting = s.accepting := by
  obtain ⟨⟨r, i⟩, hr, rfl⟩ := List.mem_map.mp hv
  have hget := List.mem_zipIdx_iff_getElem?.mp hr
  rw [tableOf, List.getElem?_map] at hget
  obtain ⟨s, hs, rfl⟩ := Option.map_eq_some_iff.mp hget
  exact ⟨s, hs, accepting_rowAt⟩

/-- A table passes the checks that its automaton passes. -/
theorem checkDfa_tableOf (h : d.WellFormed tags) (hd : d.Deterministic) (he : d.EpsilonFree)
    (hf : d.HasFinal) (hc : d.Connected) :
    (d.tableOf names skippable).graph.checkDfa = .ok () := by
  have hfinal : (d.tableOf names skippable).graph.checkFinal = .ok () := by
    obtain ⟨s, hs, ha⟩ := hf
    refine Graph.checkFinal_eq_ok ⟨⟨d.place s, (d.rowAt names skippable s).accepting, _⟩,
      List.mem_map.mpr ⟨(d.rowAt names skippable s, d.place s),
        List.mem_zipIdx_iff_getElem?.mpr (row?_place h hs), rfl⟩, accepting_rowAt.trans ha⟩
  have hconnected : (d.tableOf names skippable).graph.checkConnected = .ok () := by
    refine Graph.checkConnected_eq_ok fun v hv => Graph.mem_reached.mpr ?_
    obtain ⟨s, hget, -⟩ := mem_vertices hv
    obtain ⟨hs, hp⟩ := (getElem?_ordered_iff h).mp hget
    obtain ⟨w, r⟩ := hc s hs
    have hleads : Graph.Leads id ((d.tableOf names skippable).graph.arcs.map fun e => (e.1, e.2.2))
        (d.place d.start) (d.place s) := leads_places h he r d.start h.start_mem s hs rfl rfl
    rwa [place_start h, hp] at hleads
  refine Graph.checkDfa_eq_ok hfinal hconnected (Table.checkEpsilonFree_graph_eq_ok _)
    (Table.checkDeterministic_graph_eq_ok fun r hr => ?_)
  exact (tableOf_wellFormed h hd he).sorted r hr

/-- Flattening does not fail. -/
theorem run_flatten (h : d.WellFormed tags) (hd : d.Deterministic) (he : d.EpsilonFree)
    (hf : d.HasFinal) (hc : d.Connected) (hn : d.Named names) (σ : Session) :
    (d.flatten names skippable).run σ = (.ok (d.tableOf names skippable),
      σ.record (.table (d.tableOf names skippable).stateCount
        (d.tableOf names skippable).destinationCount)) := by
  rw [flatten, toTable_eq_ok h he hn, Stage.run_bind_ok (Stage.run_ofExcept _),
    Stage.run_bind_ok (Stage.run_note _), checkDfa_tableOf h hd he hf hc,
    Stage.run_bind_ok (Stage.run_ofExcept _)]
  rfl

/-! ## Moves -/

theorem next?_place (h : d.WellFormed tags) (hd : d.Deterministic) (he : d.EpsilonFree)
    (hs : s ∈ d.states) (c : Char) :
    (d.tableOf names skippable).next? (d.place s) c = (d.step s c).map d.place := by
  rw [Table.next?, row?_place h hs, Option.bind_some]
  ext j
  rw [Table.Row.next?_eq_some_iff (sorted_rowAt h hd he s), mem_edges_rowAt he,
    Option.map_eq_some_iff]
  simp only [step_eq_some_iff hd]
  constructor
  · intro h'
    obtain ⟨e, hem, hes, hx, hj⟩ := h'
    exact ⟨e.target, ⟨e, hem, hes, hx, rfl⟩, hj⟩
  · intro h'
    obtain ⟨_, ⟨e, hem, hes, hx, rfl⟩, hj⟩ := h'
    exact ⟨e, hem, hes, hx, hj⟩

/-- A walk reads as much as the automaton can: after what it has read, the automaton is in the state
of the place where the table got stuck, and the next character leads nowhere. -/
theorem walk_place (h : d.WellFormed tags) (hd : d.Deterministic) (he : d.EpsilonFree)
    (hs : s ∈ d.states) (cs : List Char) : ∃ t ∈ d.states, ∃ u v, cs = u ++ v ∧
      (d.tableOf names skippable).walk (d.place s) cs = ⟨d.place t, u, v⟩ ∧
      d.runFrom s u = some t ∧ ∀ c ∈ v.head?, d.step t c = none := by
  induction cs generalizing s with
  | nil => exact ⟨s, hs, [], [], rfl, rfl, rfl, fun c hc => (by cases hc)⟩
  | cons c cs ih =>
      rw [Table.walk, next?_place h hd he hs c]
      cases hstep : d.step s c with
      | none =>
          refine ⟨s, hs, [], c :: cs, rfl, rfl, rfl, ?_⟩
          intro c' hc'
          cases hc'
          exact hstep
      | some t =>
          obtain ⟨t', ht', u, v, rfl, hwalk, hrun, hstuck⟩ := ih (step_mem h hd hstep)
          refine ⟨t', ht', c :: u, v, rfl, ?_, ?_, hstuck⟩
          · simp only [Option.map_some, hwalk]
          · rw [runFrom_cons, hstep]
            exact hrun

/-- The places follow the states of a run, and there is none where the run gets stuck. -/
theorem follow_place (h : d.WellFormed tags) (hd : d.Deterministic) (he : d.EpsilonFree)
    (hs : s ∈ d.states) (w : List Char) :
    (d.tableOf names skippable).follow (d.place s) w = (d.runFrom s w).map d.place := by
  induction w generalizing s with
  | nil => rfl
  | cons c w ih =>
      rw [Table.follow_cons, runFrom_cons, next?_place h hd he hs]
      cases hstep : d.step s c with
      | none => rfl
      | some t => exact ih (step_mem h hd hstep)

end Dfa

end LexicalAutomata
