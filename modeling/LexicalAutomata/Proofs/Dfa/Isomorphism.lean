/-
# `LexicalAutomata.Proofs.Dfa.Isomorphism` — a drawing and a table each say what an automaton is

Automata are isomorphic if a bijection of their states keeps the start, the arcs with their symbols, and
the tokens (`Isomorphism`).  States that it maps to each other correspond, so isomorphic automata have one
drawing and one table.

In the other direction, a drawing and a table both give the lines and the tokens, place by place.  So two
automata with one drawing, or with one table, can be laid over each other (`Overlay`): each place is that
of one state here and of one state there.  That there are as many places on both sides is plain from the
tables; from the drawings it follows because every place but the first one is the target of some line.
-/
import Mathlib.Tactic.TFAE
import LexicalAutomata.Proofs.Automaton.DrawingText
import LexicalAutomata.Proofs.Dfa.Correspondence
import LexicalAutomata.Proofs.Table.Exact

namespace LexicalAutomata.Dfa

open Automaton

variable {tags tags' : Tags} {d e : Dfa} {s t : State} {f : State → State}
  {names skippable : List String}

/-! ## Isomorphic automata -/

/-- A bijection of the states that keeps the start, the arcs with their symbols, and the tokens. -/
structure Isomorphism (d e : Dfa) (f : State → State) : Prop where
  bijOn : Set.BijOn f {s | s ∈ d.states} {t | t ∈ e.states}
  start : f d.start = e.start
  arc_iff : ∀ s ∈ d.states, ∀ t ∈ d.states, ∀ x, ⟨s, x, t⟩ ∈ d.arcs ↔ ⟨f s, x, f t⟩ ∈ e.arcs
  token : ∀ s ∈ d.states, (f s).token = s.token

theorem source_eq (hw : d.WellFormed tags) (hs : s ∈ d.states) {a : Arc} (ha : a ∈ d.arcsFrom s) :
    a.source = s :=
  hw.eq_of_id (hw.source_mem a (mem_arcsFrom.mp ha).1) hs (mem_arcsFrom.mp ha).2

theorem mem_symbolsFrom_iff (hw : d.WellFormed tags) (hs : s ∈ d.states) {x : Symbol} :
    x ∈ (d.arcsFrom s).map Arc.symbol ↔ ∃ t ∈ d.states, ⟨s, x, t⟩ ∈ d.arcs := by
  rw [List.mem_map]
  constructor
  · rintro ⟨a, ha, rfl⟩
    obtain ⟨hm, -⟩ := mem_arcsFrom.mp ha
    exact ⟨a.target, hw.target_mem a hm, source_eq hw hs ha ▸ hm⟩
  · rintro ⟨t, -, ha⟩
    exact ⟨_, mem_arcsFrom.mpr ⟨ha, rfl⟩, rfl⟩

namespace Isomorphism

theorem exists_arc_iff (h : Isomorphism d e f) (hs : s ∈ d.states) {x : Symbol} :
    (∃ t ∈ d.states, ⟨s, x, t⟩ ∈ d.arcs) ↔ ∃ u ∈ e.states, ⟨f s, x, u⟩ ∈ e.arcs := by
  constructor
  · rintro ⟨t, ht, ha⟩
    exact ⟨f t, h.bijOn.mapsTo ht, (h.arc_iff s hs t ht x).mp ha⟩
  · rintro ⟨u, hu, ha⟩
    obtain ⟨t, ht, rfl⟩ := h.bijOn.surjOn hu
    exact ⟨t, ht, (h.arc_iff s hs t ht x).mpr ha⟩

/-- Arcs of states mapped to each other that read the same lead to states mapped to each other. -/
theorem target_eq (h : Isomorphism d e f) (hw : d.WellFormed tags) (hd' : e.Deterministic)
    (hs : s ∈ d.states) {a a' : Arc} (ha : a ∈ d.arcsFrom s)
    (ha' : a' ∈ e.arcsFrom (f s)) (hx : a.symbol = a'.symbol) : f a.target = a'.target := by
  obtain ⟨hm, -⟩ := mem_arcsFrom.mp ha
  obtain ⟨hm', hid⟩ := mem_arcsFrom.mp ha'
  have himage : ⟨f s, a.symbol, f a.target⟩ ∈ e.arcs :=
    (h.arc_iff s hs _ (hw.target_mem a hm) _).mp (source_eq hw hs ha ▸ hm)
  exact congrArg Arc.target (hd' _ himage a' hm' hid.symm hx)

/-- States that an isomorphism maps to each other correspond. -/
theorem correspondence (h : Isomorphism d e f) (hw : d.WellFormed tags)
    (hd : d.Deterministic) (hc : d.Connected) (hw' : e.WellFormed tags') (hd' : e.Deterministic)
    (hc' : e.Connected) : Correspondence d e fun s t => s ∈ d.states ∧ f s = t where
  wellFormed := ⟨⟨tags, hw⟩, tags', hw'⟩
  connected := ⟨hc, hc'⟩
  mem := by
    rintro s _ ⟨hs, rfl⟩
    exact ⟨hs, h.bijOn.mapsTo hs⟩
  start := ⟨hw.start_mem, h.start⟩
  id_eq_iff := by
    rintro s _ s' _ ⟨hs, rfl⟩ ⟨hs', rfl⟩
    constructor
    · intro e
      rw [hw.eq_of_id hs hs' e]
    · intro e
      rw [h.bijOn.injOn hs hs' (hw'.eq_of_id (h.bijOn.mapsTo hs) (h.bijOn.mapsTo hs') e)]
  token := by
    rintro s _ ⟨hs, rfl⟩
    exact (h.token s hs).symm
  arcs := by
    rintro s _ ⟨hs, rfl⟩
    refine forall₂_arcsFrom (R := fun s t => s ∈ d.states ∧ f s = t) hw hd hw' hd' (fun x => ?_)
      fun a ha a' ha' hx => ?_
    · rw [mem_symbolsFrom_iff hw hs, mem_symbolsFrom_iff hw' (h.bijOn.mapsTo hs), h.exists_arc_iff hs]
    · exact ⟨hw.target_mem a (mem_arcsFrom.mp ha).1, h.target_eq hw hd' hs ha ha' hx⟩

end Isomorphism

/-! ## Automata laid over each other -/

/-- Place upon place, the automata have the same lines and tokens. -/
structure Overlay (d e : Dfa) : Prop where
  length_eq : d.ordered.length = e.ordered.length
  line_iff : ∀ x, x ∈ d.arcs.map d.lineOf ↔ x ∈ e.arcs.map e.lineOf
  token_eq : ∀ s ∈ d.states, ∀ t ∈ e.states, d.place s = e.place t → s.token = t.token

theorem mem_lines_iff (hw : d.WellFormed tags) (hs : s ∈ d.states) (ht : t ∈ d.states) {x : Symbol} :
    (d.place s, x, d.place t) ∈ d.arcs.map d.lineOf ↔ ⟨s, x, t⟩ ∈ d.arcs := by
  constructor
  · intro hm
    obtain ⟨e, he, heq⟩ := List.mem_map.mp hm
    obtain ⟨hsource, rfl, htarget⟩ := Prod.mk.inj heq |>.imp id Prod.mk.inj
    have hs' := place_injective hw (hw.source_mem e he) hs hsource
    have ht' := place_injective hw (hw.target_mem e he) ht htarget
    exact hs' ▸ ht' ▸ he
  · exact fun he => List.mem_map.mpr ⟨_, he, rfl⟩

/-- The state of `e` at the place of a state of `d`. -/
def counterpart (d e : Dfa) (s : State) : State := e.ordered[d.place s]?.getD e.start

theorem Overlay.place_counterpart (h : Overlay d e) (hw : d.WellFormed tags) (hw' : e.WellFormed tags')
    (hs : s ∈ d.states) :
    counterpart d e s ∈ e.states ∧ e.place (counterpart d e s) = d.place s := by
  obtain ⟨t, ht, hplace, hget⟩ := exists_of_lt hw' (h.length_eq ▸ place_lt hw hs)
  rw [counterpart, hget]
  exact ⟨ht, hplace⟩

theorem Overlay.isomorphism (h : Overlay d e) (hw : d.WellFormed tags) (hw' : e.WellFormed tags') :
    Isomorphism d e (counterpart d e) where
  bijOn := by
    refine ⟨fun s hs => (h.place_counterpart hw hw' hs).1, fun s hs t ht heq => ?_, fun t ht => ?_⟩
    · have hplace := congrArg e.place heq
      rw [(h.place_counterpart hw hw' hs).2, (h.place_counterpart hw hw' ht).2] at hplace
      exact place_injective hw hs ht hplace
    · obtain ⟨s, hs, hplace, -⟩ := exists_of_lt hw (h.length_eq ▸ place_lt hw' ht)
      obtain ⟨hmem, hplace'⟩ := h.place_counterpart hw hw' hs
      exact ⟨s, hs, place_injective hw' hmem ht (hplace'.trans hplace)⟩
  start := by
    obtain ⟨hmem, hplace⟩ := h.place_counterpart hw hw' hw.start_mem
    rw [place_start hw, ← place_start hw'] at hplace
    exact place_injective hw' hmem hw'.start_mem hplace
  arc_iff s hs t ht x := by
    obtain ⟨hmem, hplace⟩ := h.place_counterpart hw hw' hs
    obtain ⟨hmem', hplace'⟩ := h.place_counterpart hw hw' ht
    rw [← mem_lines_iff hw hs ht, ← mem_lines_iff hw' hmem hmem', hplace, hplace']
    exact h.line_iff _
  token s hs := by
    obtain ⟨hmem, hplace⟩ := h.place_counterpart hw hw' hs
    exact (h.token_eq s hs _ hmem hplace.symm).symm

/-! ## From drawings -/

/-- Every place but that of the start is the target of a line, so lines need as many places. -/
theorem length_ordered_le (hw : d.WellFormed tags) (hc : d.Connected) (hw' : e.WellFormed tags')
    (hlines : ∀ x ∈ d.arcs.map d.lineOf, x ∈ e.arcs.map e.lineOf) :
    d.ordered.length ≤ e.ordered.length := by
  -- otherwise some state of `d` has the first place that `e` lacks
  refine Nat.le_of_not_lt fun hlt => ?_
  obtain ⟨s, hs, hplace, -⟩ := exists_of_lt hw hlt
  obtain ⟨w, r⟩ := hc s hs
  by_cases htarget : ∀ a ∈ d.arcs, a.target.id ≠ s.id
  · have hstart := hw.eq_of_id hw.start_mem hs (r.eq_of_source htarget).2
    rw [← hstart, place_start hw] at hplace
    exact absurd (place_lt hw' hw'.start_mem) (by omega)
  · simp only [not_forall, not_not] at htarget
    obtain ⟨a, ha, hid⟩ := htarget
    obtain ⟨a', ha', heq⟩ := List.mem_map.mp (hlines _ (List.mem_map.mpr ⟨a, ha, rfl⟩))
    have hplace' : e.place a'.target = d.place a.target := congrArg (fun x => x.2.2) heq
    rw [hw.eq_of_id (hw.target_mem a ha) hs hid, hplace] at hplace'
    exact absurd (place_lt hw' (hw'.target_mem a' ha')) (by omega)

theorem overlay_of_drawing (hw : d.WellFormed tags) (hc : d.Connected) (hw' : e.WellFormed tags')
    (hc' : e.Connected) (h : d.drawing? = e.drawing?) : Overlay d e := by
  obtain ⟨hlines, hfinals⟩ := (drawing?_eq_iff hw hw').mp h
  refine ⟨Nat.le_antisymm (length_ordered_le hw hc hw' fun x => (hlines x).mp)
    (length_ordered_le hw' hc' hw fun x => (hlines x).mpr), hlines, fun s hs t ht hplace => ?_⟩
  refine Option.ext fun token => ⟨?_, ?_⟩
  · exact token_of_finals hw' (fun x => (hfinals x).mp) hs ht hplace
  · exact token_of_finals hw (fun x => (hfinals x).mpr) ht hs hplace.symm

/-- The drawing of an automaton without empty moves and without newlines in its tokens. -/
theorem exists_legible (hw : d.WellFormed tags) (he : d.EpsilonFree)
    (hn : ∀ s ∈ d.states, ∀ token, s.token = some token → '\n' ∉ token.toList) :
    ∃ drawing, d.drawing? = some drawing ∧ drawing.Legible := by
  obtain ⟨drawing, hdrawing, h⟩ := exists_within (P := (· ≠ .epsilon)) hw he hn
  exact ⟨drawing, hdrawing, h.arcs, h.finals⟩

/-! ## From tables -/

/-- The lines are the arcs of the table. -/
theorem mem_lines_iff_mem_arcs (hw : d.WellFormed tags) (he : d.EpsilonFree) {x : Nat × Symbol × Nat} :
    x ∈ d.arcs.map d.lineOf ↔ x ∈ (d.tableOf names skippable).graph.arcs := by
  obtain ⟨i, x, j⟩ := x
  rw [Table.mem_arcs_graph, List.mem_map]
  constructor
  · rintro ⟨a, ha, heq⟩
    obtain ⟨rfl, hrest⟩ := Prod.mk.inj heq
    obtain ⟨rfl, rfl⟩ := Prod.mk.inj hrest
    cases hx : a.symbol with
    | epsilon => exact absurd hx (he a ha)
    | char c =>
        exact ⟨_, row?_place hw (hw.source_mem a ha), c, rfl,
          (mem_edges_rowAt he).mpr ⟨a, ha, rfl, hx, rfl⟩⟩
  · rintro ⟨r, hr, c, rfl, hedge⟩
    obtain ⟨s, hs, rfl, rfl⟩ := (getElem?_rows hw).mp hr
    obtain ⟨a, ha, hid, hx, rfl⟩ := (mem_edges_rowAt he).mp hedge
    exact ⟨a, ha, by rw [lineOf, hw.eq_of_id (hw.source_mem a ha) hs hid, hx]⟩

theorem Describes.token_eq {r : Table.Row} (h : Describes d names skippable s r)
    (h' : Describes e names skippable t r) : s.token = t.token := by
  cases hr : r.token with
  | some i =>
      obtain ⟨token, hi, hs⟩ := h.token i hr
      obtain ⟨token', hi', ht⟩ := h'.token i hr
      rw [hs, ht, ← hi, hi']
  | none =>
      have hr : r.accepting = false := congrArg Option.isSome hr
      have hs : s.token.isSome = false := by rw [s.isSome_token, ← h.accepting, hr]
      have ht : t.token.isSome = false := by rw [t.isSome_token, ← h'.accepting, hr]
      rw [Option.isSome_eq_false_iff, Option.isNone_iff_eq_none] at hs ht
      rw [hs, ht]

theorem overlay_of_table (hw : d.WellFormed tags) (hd : d.Deterministic) (he : d.EpsilonFree)
    (hn : d.Named names) (hw' : e.WellFormed tags') (hd' : e.Deterministic) (he' : e.EpsilonFree)
    (hn' : e.Named names) (h : d.tableOf names skippable = e.tableOf names skippable) :
    Overlay d e where
  length_eq := by
    have hrows := congrArg (fun t => t.rows.length) h
    simpa only [tableOf, List.length_map] using hrows
  line_iff x := by
    rw [mem_lines_iff_mem_arcs hw he, h, ← mem_lines_iff_mem_arcs hw' he']
  token_eq s hs t ht hplace := by
    have hrow : (e.tableOf names skippable).row? (e.place t) = some (d.rowAt names skippable s) :=
      h ▸ hplace ▸ row?_place hw hs
    rw [row?_place hw' ht, Option.some_inj] at hrow
    exact (describes_rowAt hw hd he hn hs).token_eq (hrow ▸ describes_rowAt hw' hd' he' hn' ht)

/-- A sorted list of names for the tokens of the states. -/
theorem exists_names (states : List State) : ∃ names : List String, names.Pairwise (· ≤ ·) ∧
    ∀ s ∈ states, ∀ token, s.token = some token → token ∈ names := by
  let le (a b : String) : Bool := decide (a ≤ b)
  refine ⟨(states.filterMap State.token).mergeSort le, ?_, fun s hs token htoken => ?_⟩
  · refine (List.pairwise_mergeSort (fun a b c hab hbc => ?_) (fun a b => ?_) _).imp of_decide_eq_true
    · exact decide_eq_true (String.le_trans (of_decide_eq_true hab) (of_decide_eq_true hbc))
    · rw [Bool.or_eq_true, decide_eq_true_iff, decide_eq_true_iff]
      exact String.le_total a b
  · exact List.mem_mergeSort.mpr (List.mem_filterMap.mpr ⟨s, hs, htoken⟩)

/-! ## Complete invariants -/

/-- Let two automata pass the checks, and let their tokens have no newlines.  They are isomorphic if they
have one text of a drawing, and also if they have one table for all sorted lists of names that name all
tokens, and for all choices of skippable names. -/
theorem isomorphic_tfae (tags tags' : Tags) (d e : Dfa) (hd : d.Built tags) (he : e.Built tags')
    (hcheck : d.graph.checkDfa = .ok ()) (hcheck' : e.graph.checkDfa = .ok ())
    (hline : ∀ s ∈ d.states, ∀ token, s.token = some token → '\n' ∉ token.toList)
    (hline' : ∀ s ∈ e.states, ∀ token, s.token = some token → '\n' ∉ token.toList) :
    List.TFAE [∃ f, Isomorphism d e f,
      ∃ text, d.dot? = some text ∧ e.dot? = some text,
      ∀ names : List String, names.Pairwise (· ≤ ·) →
        (∀ s ∈ d.states ++ e.states, ∀ token, s.token = some token → token ∈ names) →
        ∀ skippable σ τ, ∃ t, ((d.flatten names skippable).run σ).1 = .ok t ∧
          ((e.flatten names skippable).run τ).1 = .ok t] := by
  have hw := hd.wellFormed
  have hw' := he.wellFormed
  have hdet := hd.made.deterministic
  have hdet' := he.made.deterministic
  obtain ⟨-, hc, hfree⟩ := (checkDfa_eq_ok_iff hw hdet).mp hcheck
  obtain ⟨-, hc', hfree'⟩ := (checkDfa_eq_ok_iff hw' hdet').mp hcheck'
  tfae_have 1 → 2 := fun ⟨f, hf⟩ =>
    ((hf.correspondence hw hdet hc hw' hdet' hc').sameForm hfree).dot
  tfae_have 1 → 3 := fun ⟨f, hf⟩ names _ hnames skippable σ τ => by
    have hform := (hf.correspondence hw hdet hc hw' hdet' hc').sameForm hfree
    have hok : ((d.flatten names skippable).run σ).1 = .ok (d.tableOf names skippable) :=
      (fst_run_flatten_eq_ok_iff_valid hw hdet).mpr
        ⟨hcheck, fun s hs => hnames s (List.mem_append_left _ hs), rfl⟩
    exact ⟨_, hok, (hform.flatten names skippable σ τ).symm.trans hok⟩
  tfae_have 2 → 1 := fun ⟨text, hdot, hdot'⟩ => by
    obtain ⟨drawing, hdrawing, hlegible⟩ := exists_legible hw hfree hline
    obtain ⟨drawing', hdrawing', hlegible'⟩ := exists_legible hw' hfree' hline'
    rw [dot?, hdrawing] at hdot
    rw [dot?, hdrawing', ← hdot] at hdot'
    have htext := String.ofList_injective (Option.some_inj.mp hdot').symm
    obtain rfl := hlegible.text_injective hlegible' htext
    exact ⟨_, (overlay_of_drawing hw hc hw' hc' (hdrawing.trans hdrawing'.symm)).isomorphism hw hw'⟩
  tfae_have 3 → 1 := fun h => by
    obtain ⟨names, hsorted, hnames⟩ := exists_names (d.states ++ e.states)
    obtain ⟨t, ht, ht'⟩ := h names hsorted hnames [] .empty .empty
    obtain ⟨-, hn, rfl⟩ := (fst_run_flatten_eq_ok_iff_valid hw hdet).mp ht
    obtain ⟨-, hn', heq⟩ := (fst_run_flatten_eq_ok_iff_valid hw' hdet').mp ht'
    exact ⟨_, (overlay_of_table hw hdet hfree hn hw' hdet' hfree' hn' heq).isomorphism hw hw'⟩
  tfae_finish

/-- The tags of three states of which two accept, by other numbers and with other ranks. -/
def blankOrLettersTags : Tags := fun i =>
  if i = 3 then some ⟨"BLANK", 1⟩ else if i = 5 then some ⟨"WORD", 8⟩ else none

/-- An automaton that reads a blank, or a word of one letter repeated, built in another order. -/
def blankOrLetters : Dfa :=
  setArc
    (setArc
      (setArc (Automaton.new (.ofTags blankOrLettersTags 9))
        (.ofTags blankOrLettersTags 9) (.char ' ') (.ofTags blankOrLettersTags 3))
      (.ofTags blankOrLettersTags 9) (.char 'a') (.ofTags blankOrLettersTags 5))
    (.ofTags blankOrLettersTags 5) (.char 'a') (.ofTags blankOrLettersTags 5)

theorem built_blankOrLetters : blankOrLetters.Built blankOrLettersTags :=
  .setArc 5 _ 5 (.setArc 9 _ 5 (.setArc 9 _ 3 (.new 9)))

theorem isomorphic_tfae_lettersOrBlank :
    lettersOrBlank.dot? = blankOrLetters.dot? ∧ ∃ f, Isomorphism lettersOrBlank blankOrLetters f := by
  have hlines : ∀ s ∈ lettersOrBlank.states ++ blankOrLetters.states,
      s.token.all fun token => !token.toList.contains '\n' := by decide +kernel
  have hline : ∀ s ∈ lettersOrBlank.states ++ blankOrLetters.states, ∀ token,
      s.token = some token → '\n' ∉ token.toList := by
    intro s hs token htoken hmem
    have hs := hlines s hs
    rw [htoken, Option.all_some, List.contains_iff_mem.mpr hmem] at hs
    cases hs
  have htfae := isomorphic_tfae lettersOrBlankTags blankOrLettersTags lettersOrBlank blankOrLetters
    built_lettersOrBlank built_blankOrLetters (by decide +kernel) (by decide +kernel)
    (fun s hs => hline s (List.mem_append_left _ hs)) fun s hs => hline s (List.mem_append_right _ hs)
  have hdrawing : lettersOrBlank.drawing? = blankOrLetters.drawing? := by decide +kernel
  have hdot : lettersOrBlank.dot? = blankOrLetters.dot? := by rw [dot?, dot?, hdrawing]
  have hdrawn : ∃ text, lettersOrBlank.dot? = some text ∧ blankOrLetters.dot? = some text := by
    obtain ⟨text, htext⟩ := exists_dot built_lettersOrBlank.wellFormed
    exact ⟨text, htext, hdot.symm.trans htext⟩
  exact ⟨hdot, (htfae.out 1 0).mp hdrawn⟩

end LexicalAutomata.Dfa
