/-
# `LexicalAutomata.Proofs.Table.Exact` — when there is a table, and what it tells

Flattening looks up tokens and turns arcs into edges row by row, and only then are the checks made, and
they are made of the table.  Still the automaton alone decides whether that succeeds: it has to pass the
same checks, and its tokens need names (`fst_run_flatten_eq_ok_iff_valid`).  In one direction a fault of
the automaton is met while rows are made, or is a fault of the table too: a path of the table is one of
the automaton (`connects_of_leads`).

A row tells of its state all that a run can show of it (`Describes`), and nothing else: the edges are the
arcs, in their order.  So numbers follow states through every word (`flatten_exact`).
-/
import LexicalAutomata.Proofs.Table.Columns
import LexicalAutomata.Proofs.Table.Flatten

namespace LexicalAutomata.Dfa

open Automaton

variable {tags : Tags} {d : Dfa} {names skippable : List String} {s : State} {t : Table} {σ : Session}

/-! ## An automaton that has rows -/

theorem exists_rowOf (hw : d.WellFormed tags) (h : d.toTable names skippable = .ok t)
    (hs : s ∈ d.states) : ∃ r ∈ t.rows, d.rowOf names skippable d.ordered s = .ok r :=
  exists_of_mem_forall₂ (rows_of_toTable h).flip ((mem_ordered hw).mpr hs)

theorem epsilonFree_of_toTable (hw : d.WellFormed tags) (h : d.toTable names skippable = .ok t) :
    d.EpsilonFree := by
  intro e he hx
  obtain ⟨r, -, hr⟩ := exists_rowOf hw h (hw.source_mem e he)
  obtain ⟨f, -, hf⟩ := exists_of_mem_forall₂ (edges_of_rowOf hr).flip (mem_arcsFrom.mpr ⟨he, rfl⟩)
  rw [(of_edgeOf hf).1] at hx
  cases hx

theorem named_of_toTable (hw : d.WellFormed tags) (h : d.toTable names skippable = .ok t) :
    d.Named names := by
  intro s hs token ht
  obtain ⟨r, -, hr⟩ := exists_rowOf hw h hs
  obtain ⟨i, hi, -⟩ := exists_of_bind hr
  rw [Option.mem_def] at ht
  unfold tokenIndex at hi
  rw [ht] at hi
  cases hfind : names.findIdx? fun n => n == token with
  | none =>
      simp only [hfind] at hi
      cases hi
  | some i =>
      obtain ⟨hlt, heq, -⟩ := List.findIdx?_eq_some_iff_getElem.mp hfind
      exact beq_iff_eq.mp heq ▸ List.getElem_mem hlt

/-! ## A table that passes the checks -/

/-- Paths of the table are paths of the automaton. -/
theorem connects_of_leads (hw : d.WellFormed tags) (he : d.EpsilonFree) {i j : Nat}
    (p : Graph.Leads id ((d.tableOf names skippable).graph.arcs.map fun e => (e.1, e.2.2)) i j) :
    ∀ s ∈ d.states, d.place s = i → ∃ u ∈ d.states, d.place u = j ∧ Connects d s.id u.id := by
  induction p with
  | stay i => exact fun s hs hi => ⟨s, hs, hi, .refl _⟩
  | step hl _ ih =>
      intro s hs hi
      obtain ⟨⟨i, x, k⟩, harc, rfl⟩ := List.mem_map.mp hl
      obtain ⟨r, hr, c, rfl, hedge⟩ := Table.mem_arcs_graph.mp harc
      obtain ⟨s', hs', hi', rfl⟩ := (getElem?_rows hw).mp hr
      obtain ⟨e, hem, hsource, -, hk⟩ := (mem_edges_rowAt he).mp hedge
      obtain rfl := place_injective hw hs hs' (hi.trans hi'.symm)
      obtain ⟨u, hu, hj, hconnects⟩ := ih e.target (hw.target_mem e hem) hk
      exact ⟨u, hu, hj, hsource ▸ (Connects.of_arc hem).trans hconnects⟩

theorem checkDfa_tableOf_iff (hw : d.WellFormed tags) (hd : d.Deterministic) (he : d.EpsilonFree) :
    (d.tableOf names skippable).graph.checkDfa = .ok () ↔ d.HasFinal ∧ d.Connected := by
  refine ⟨fun h => ?_, fun h => checkDfa_tableOf hw hd he h.1 h.2⟩
  obtain ⟨hfinal, hconnected, -, -⟩ := Graph.checkDfa_eq_ok_iff.mp h
  constructor
  · obtain ⟨v, hv, ha⟩ := Graph.checkFinal_eq_ok_iff.mp hfinal
    obtain ⟨s, hs, hsa⟩ := mem_vertices hv
    exact ⟨s, ((getElem?_ordered_iff hw).mp hs).1, hsa ▸ ha⟩
  · intro s hs
    have hvertex := Graph.checkConnected_eq_ok_iff.mp hconnected _
      (List.mem_map.mpr ⟨(d.rowAt names skippable s, d.place s),
        List.mem_zipIdx_iff_getElem?.mpr (row?_place hw hs), rfl⟩)
    obtain ⟨u, hu, hplace, hreach⟩ :=
      connects_of_leads hw he (Graph.mem_reached.mp hvertex) d.start hw.start_mem (place_start hw)
    rwa [place_injective hw hu hs hplace] at hreach

/-- Flattening succeeds on the automata that pass the checks and whose tokens have names. -/
theorem fst_run_flatten_eq_ok_iff_valid (hw : d.WellFormed tags) (hd : d.Deterministic) :
    ((d.flatten names skippable).run σ).1 = .ok t ↔
      d.graph.checkDfa = .ok () ∧ d.Named names ∧ t = d.tableOf names skippable := by
  rw [fst_run_flatten_eq_ok_iff, checkDfa_eq_ok_iff hw hd]
  constructor
  · rintro ⟨ht, hcheck⟩
    have he := epsilonFree_of_toTable hw ht
    have hn := named_of_toTable hw ht
    rw [toTable_eq_ok hw he hn] at ht
    cases ht
    obtain ⟨hf, hc⟩ := (checkDfa_tableOf_iff hw hd he).mp hcheck
    exact ⟨⟨hf, hc, he⟩, hn, rfl⟩
  · rintro ⟨⟨hf, hc, he⟩, hn, rfl⟩
    exact ⟨toTable_eq_ok hw he hn, checkDfa_tableOf hw hd he hf hc⟩

/-! ## An automaton without a table -/

theorem tokenIndex_ne_defect (names : List String) (s : State) (cause : Defect) :
    tokenIndex names s ≠ .error (.defect cause) := by
  unfold tokenIndex
  split
  · exact nofun
  · split <;> exact nofun

/-- Every state that an arc leads to has a number. -/
theorem edgeOf_ne_defect (hw : d.WellFormed tags) {e : Arc} (he : e ∈ d.arcs) (cause : Defect) :
    edgeOf d.ordered s e ≠ .error (.defect cause) := by
  unfold edgeOf
  rw [position?_ordered hw (hw.target_mem e he)]
  cases e.symbol <;> exact nofun

/-- Where flattening fails, it is not for a broken promise. -/
theorem fst_run_flatten_ne_defect (hw : d.WellFormed tags) (cause : Defect) :
    ((d.flatten names skippable).run σ).1 ≠ .error (.defect cause) := by
  have hrow : ∀ s, d.rowOf names skippable d.ordered s ≠ .error (.defect cause) := fun s =>
    bind_ne_error (tokenIndex_ne_defect names s cause) fun _ =>
      bind_ne_error
        (mapM_ne_error fun _ he => edgeOf_ne_defect hw (mem_arcsFrom.mp he).1 cause) fun _ => nofun
  have htable : d.toTable names skippable ≠ .error (.defect cause) :=
    bind_ne_error (mapM_ne_error fun s _ => hrow s) fun _ => nofun
  rw [fst_run_flatten]
  exact bind_ne_error htable fun t => map_ne_error (t.graph.checkDfa_ne_defect cause)

/-! ## What a row tells -/

/-- A row tells of a state what its automaton tells: the edges are the arcs that leave it, by ascending
characters, and the index is that of its token. -/
structure Describes (d : Dfa) (names skippable : List String) (s : State) (r : Table.Row) : Prop where
  edges : List.Forall₂ (fun f e => e.symbol = .char f.1 ∧ d.ordered[f.2]? = some e.target) r.edges
    (d.arcsFrom s)
  sorted : r.Sorted
  accepting : r.accepting = s.accepting
  token : ∀ i, r.token = some i → ∃ token, names[i]? = some token ∧ s.token = some token
  skippable : r.skippable = true ↔ ∃ token ∈ skippable, s.token = some token

theorem getElem?_findIdx {token : String} (h : token ∈ names) :
    names[names.findIdx fun n => n == token]? = some token := by
  have hlt : (names.findIdx fun n => n == token) < names.length :=
    List.findIdx_lt_length_of_exists ⟨token, h, beq_self_eq_true _⟩
  rw [List.getElem?_eq_getElem hlt]
  exact congrArg some (beq_iff_eq.mp (List.findIdx_getElem (w := hlt)))

theorem describes_rowAt (hw : d.WellFormed tags) (hd : d.Deterministic) (he : d.EpsilonFree)
    (hn : d.Named names) (hs : s ∈ d.states) :
    Describes d names skippable s (d.rowAt names skippable s) where
  edges := by
    refine List.forall₂_map_left_iff.mpr (List.forall₂_same.mpr fun e hem => ?_)
    obtain ⟨hem, -⟩ := mem_arcsFrom.mp hem
    refine ⟨?_, getElem?_place hw (hw.target_mem e hem)⟩
    cases hx : e.symbol with
    | epsilon => exact absurd hx (he e hem)
    | char c => rw [edgeTo, hx]; rfl
  sorted := sorted_rowAt hw hd he s
  accepting := accepting_rowAt
  token i hi := by
    obtain ⟨token, ht, rfl⟩ := Option.map_eq_some_iff.mp hi
    exact ⟨token, getElem?_findIdx (hn s hs token ht), ht⟩
  skippable := by
    show s.token.any skippable.contains = true ↔ _
    cases s.token with
    | none => simp
    | some token => simp

/-! ## Numbers follow states -/

/-- Flattening an automaton gives a table exactly if the automaton passes the checks and its tokens are
among the names.  The rows of the table stand for the states in order, each state once and the start
first; each row describes its state; and along every word the table gets stuck where the automaton does,
or else ends at the number of the state where the automaton ends. -/
theorem flatten_exact (tags : Tags) (d : Dfa) (hb : d.Built tags) (names skippable : List String)
    (σ : Session) :
    ((∃ t, ((d.flatten names skippable).run σ).1 = .ok t) ↔
      d.graph.checkDfa = .ok () ∧ ∀ s ∈ d.states, ∀ token, s.token = some token → token ∈ names) ∧
    (∀ cause, ((d.flatten names skippable).run σ).1 ≠ .error (.defect cause)) ∧
    ∀ t, ((d.flatten names skippable).run σ).1 = .ok t →
      (t.stateCount = d.ordered.length ∧ d.ordered.Nodup ∧ (∀ s, s ∈ d.ordered ↔ s ∈ d.states) ∧
        d.ordered[0]? = some d.start) ∧
      (∀ i s, d.ordered[i]? = some s → ∃ r, t.row? i = some r ∧ t.columns.edges? i = some r.edges ∧
        Describes d names skippable s r) ∧
      ∀ w, Option.Rel (fun i s => d.ordered[i]? = some s) (t.follow 0 w) (d.run w) := by
  have hw := hb.wellFormed
  have hd := hb.made.deterministic
  simp only [fst_run_flatten_eq_ok_iff_valid hw hd]
  refine ⟨⟨fun ⟨_, hcheck, hn, _⟩ => ⟨hcheck, hn⟩, fun ⟨hcheck, hn⟩ => ⟨_, hcheck, hn, rfl⟩⟩,
    fst_run_flatten_ne_defect hw, ?_⟩
  rintro t ⟨hcheck, hn, rfl⟩
  obtain ⟨-, -, he⟩ := (checkDfa_eq_ok_iff hw hd).mp hcheck
  refine ⟨⟨?_, (nodup_map_ordered hw).of_map _, fun s => mem_ordered hw, ?_⟩, ?_, fun w => ?_⟩
  · rw [Table.stateCount, tableOf, List.length_map]
  · rw [← List.head?_eq_getElem?, head?_ordered]
  · intro i s hi
    obtain ⟨hs, rfl⟩ := (getElem?_ordered_iff hw).mp hi
    have hrow : (d.tableOf names skippable).row? (d.place s) = some (d.rowAt names skippable s) :=
      row?_place hw hs
    exact ⟨_, hrow, by rw [Table.edges?_columns, hrow]; rfl, describes_rowAt hw hd he hn hs⟩
  · rw [← place_start hw, follow_place hw hd he hw.start_mem]
    cases hr : d.runFrom d.start w with
    | none =>
        rw [run, hr]
        exact .none
    | some s =>
        rw [run, hr]
        exact .some (getElem?_place hw (runFrom_mem hw hd he hw.start_mem hr))

/-- The tags of three states, of which the second and the third accept. -/
def lettersOrBlankTags : Tags := fun i =>
  if i = 1 then some ⟨"WORD", 1⟩ else if i = 2 then some ⟨"BLANK", 2⟩ else none

/-- An automaton that reads a word of one letter repeated, or a blank. -/
def lettersOrBlank : Dfa :=
  Dfa.setArc
    (Dfa.setArc
      (Dfa.setArc (Automaton.new (.ofTags lettersOrBlankTags 0))
        (.ofTags lettersOrBlankTags 1) (.char 'a') (.ofTags lettersOrBlankTags 1))
      (.ofTags lettersOrBlankTags 0) (.char 'a') (.ofTags lettersOrBlankTags 1))
    (.ofTags lettersOrBlankTags 0) (.char ' ') (.ofTags lettersOrBlankTags 2)

theorem built_lettersOrBlank : lettersOrBlank.Built lettersOrBlankTags :=
  .setArc 0 _ 2 (.setArc 0 _ 1 (.setArc 1 _ 1 (.new 0)))

theorem flatten_exact_lettersOrBlank : ∃ t,
    ((lettersOrBlank.flatten ["BLANK", "NUMBER", "WORD"] ["BLANK"]).run .empty).1 = .ok t ∧
      t.stateCount = lettersOrBlank.ordered.length ∧ t.follow 0 [' ', 'a'] = none ∧
      ∃ i, t.follow 0 ['a', 'a'] = some i ∧
        lettersOrBlank.ordered[i]? = some (.ofTags lettersOrBlankTags 1) := by
  have hexact := flatten_exact lettersOrBlankTags lettersOrBlank built_lettersOrBlank
    ["BLANK", "NUMBER", "WORD"] ["BLANK"] .empty
  have hnamed : ∀ s ∈ lettersOrBlank.states, s.token.all (["BLANK", "NUMBER", "WORD"].contains ·) := by
    decide +kernel
  obtain ⟨t, ht⟩ := hexact.1.mpr ⟨by decide +kernel, fun s hs token h => by
    have hs := hnamed s hs
    rw [h] at hs
    exact List.contains_iff_mem.mp hs⟩
  obtain ⟨⟨hcount, -⟩, -, hfollow⟩ := hexact.2.2 t ht
  refine ⟨t, ht, hcount, ?_, ?_⟩
  · have hstuck := hfollow [' ', 'a']
    rw [show lettersOrBlank.run [' ', 'a'] = none by rfl] at hstuck
    revert hstuck
    cases t.follow 0 [' ', 'a'] with
    | none => exact fun _ => rfl
    | some i => exact nofun
  · have hends := hfollow ['a', 'a']
    rw [show lettersOrBlank.run ['a', 'a'] = some (.ofTags lettersOrBlankTags 1) by rfl] at hends
    revert hends
    cases t.follow 0 ['a', 'a'] with
    | none => exact nofun
    | some i => exact fun | .some h => ⟨i, rfl, h⟩

end LexicalAutomata.Dfa
