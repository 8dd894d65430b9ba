/-
# `LexicalAutomata.Proofs.Dfa.Correspondence` — automata that differ in the numbers of their states only

Tables and drawings know a state by its place in the order of the automaton, by its token and by its arcs.
So let the states of two automata, all of which can be reached, correspond one to one: start to start,
with equal tokens, and arcs to arcs that read the same (`Correspondence`).  A search breadth first follows
arcs by ascending symbols, so it meets the states of both automata in the same order
(`forall₂_ordered`), and states that correspond have the same place (`place_eq`).

Hence the rows are the same, the lines are the same, and one automaton stands for the other wherever it is
written down (`SameForm`).
-/
import LexicalAutomata.Proofs.Automaton.Drawing
import LexicalAutomata.Proofs.Table.Flatten

namespace LexicalAutomata.Dfa

open Automaton

variable {tags tags' : Tags} {d e : Dfa} {s t : State} {R : State → State → Prop}

/-- The states of two automata correspond one to one, and nothing but their numbers sets those that
correspond apart. -/
structure Correspondence (d e : Dfa) (R : State → State → Prop) : Prop where
  wellFormed : (∃ tags, d.WellFormed tags) ∧ ∃ tags, e.WellFormed tags
  connected : d.Connected ∧ e.Connected
  mem : ∀ {s t}, R s t → s ∈ d.states ∧ t ∈ e.states
  start : R d.start e.start
  id_eq_iff : ∀ {s t s' t'}, R s t → R s' t' → (s.id = s'.id ↔ t.id = t'.id)
  token : ∀ {s t}, R s t → s.token = t.token
  arcs : ∀ {s t}, R s t → List.Forall₂ (fun f f' => f.symbol = f'.symbol ∧ R f.target f'.target)
    (d.arcsFrom s) (e.arcsFrom t)

/-! ## Arcs and searches -/

/-- Where the arcs of two states read the same symbols, they do so in the same order. -/
theorem forall₂_arcsFrom (hw : d.WellFormed tags) (hd : d.Deterministic) (hw' : e.WellFormed tags')
    (hd' : e.Deterministic)
    (hsymbols : ∀ x, x ∈ (d.arcsFrom s).map Arc.symbol ↔ x ∈ (e.arcsFrom t).map Arc.symbol)
    (htarget : ∀ f ∈ d.arcsFrom s, ∀ f' ∈ e.arcsFrom t, f.symbol = f'.symbol → R f.target f'.target) :
    List.Forall₂ (fun f f' => f.symbol = f'.symbol ∧ R f.target f'.target) (d.arcsFrom s)
      (e.arcsFrom t) := by
  have heq : (d.arcsFrom s).map Arc.symbol = (e.arcsFrom t).map Arc.symbol :=
    Ordered.Ascending.ext (symbols_ascending hw.arcs_ascending hd s)
      (symbols_ascending hw'.arcs_ascending hd' t) hsymbols
  rw [← List.forall₂_eq_eq_eq, List.forall₂_map_left_iff, List.forall₂_map_right_iff,
    List.forall₂_iff_zip] at heq
  obtain ⟨hlength, hx⟩ := heq
  refine List.forall₂_iff_zip.mpr ⟨hlength, fun {f f'} hmem => ⟨hx hmem, ?_⟩⟩
  obtain ⟨hf, hf'⟩ := List.of_mem_zip hmem
  exact htarget f hf f' hf' (hx hmem)

theorem findIdx_eq_of_forall₂ {α β : Type} {R : α → β → Prop} {xs : List α} {ys : List β}
    {p : α → Bool} {q : β → Bool} (h : List.Forall₂ R xs ys) (hpq : ∀ x y, R x y → p x = q y) :
    xs.findIdx p = ys.findIdx q := by
  induction h with
  | nil => rfl
  | cons hxy _ ih => rw [List.findIdx_cons, List.findIdx_cons, hpq _ _ hxy, ih]

theorem map_eq_of_forall₂ {α β γ : Type} {R : α → β → Prop} {xs : List α} {ys : List β}
    {f : α → γ} {f' : β → γ} (h : List.Forall₂ R xs ys) (hf : ∀ x y, R x y → f x = f' y) :
    xs.map f = ys.map f' := by
  rw [← List.forall₂_eq_eq_eq, List.forall₂_map_left_iff, List.forall₂_map_right_iff]
  exact h.imp hf

namespace Correspondence

theorem symm (h : Correspondence d e R) : Correspondence e d fun t s => R s t where
  wellFormed := h.wellFormed.symm
  connected := h.connected.symm
  mem hst := (h.mem hst).symm
  start := h.start
  id_eq_iff hst hst' := (h.id_eq_iff hst hst').symm
  token hst := (h.token hst).symm
  arcs hst := (h.arcs hst).flip.imp fun _ _ hf => ⟨hf.1.symm, hf.2⟩

/-- Both orders list states that correspond. -/
theorem forall₂_ordered (h : Correspondence d e R) : List.Forall₂ R d.ordered e.ordered := by
  obtain ⟨⟨tags, hw⟩, tags', hw'⟩ := h.wellFormed
  rw [ordered_eq_visit hw h.connected.1, ordered_eq_visit hw' h.connected.2]
  refine Graph.forall₂_visit (fun _ _ _ _ hx hy => h.id_eq_iff hx hy) (fun s t hst => ?_)
    (.cons h.start .nil) .nil
  rw [successors_links, successors_links, List.forall₂_map_left_iff, List.forall₂_map_right_iff]
  exact (h.arcs hst).imp fun _ _ hf => hf.2

theorem place_eq (h : Correspondence d e R) (hst : R s t) : d.place s = e.place t := by
  refine findIdx_eq_of_forall₂ h.forall₂_ordered fun s' t' hst' => ?_
  rw [Bool.eq_iff_iff, beq_iff_eq, beq_iff_eq]
  exact h.id_eq_iff hst' hst

theorem exists_right (h : Correspondence d e R) (hs : s ∈ d.states) : ∃ t, R s t := by
  obtain ⟨⟨tags, hw⟩, -⟩ := h.wellFormed
  obtain ⟨t, -, hst⟩ := exists_of_mem_forall₂ h.forall₂_ordered.flip ((mem_ordered hw).mpr hs)
  exact ⟨t, hst⟩

theorem length_eq (h : Correspondence d e R) : d.states.length = e.states.length := by
  obtain ⟨⟨tags, hw⟩, tags', hw'⟩ := h.wellFormed
  rw [← length_ordered hw, ← length_ordered hw', h.forall₂_ordered.length_eq]

/-! ## Tables -/

theorem edges_eq (h : Correspondence d e R) (hst : R s t) :
    (d.arcsFrom s).map d.edgeTo = (e.arcsFrom t).map e.edgeTo := by
  refine map_eq_of_forall₂ (h.arcs hst) fun f f' hf => ?_
  rw [edgeTo, edgeTo, hf.1, h.place_eq hf.2]

theorem tableOf_eq (h : Correspondence d e R) (names skippable : List String) :
    d.tableOf names skippable = e.tableOf names skippable := by
  refine congrArg Table.mk (map_eq_of_forall₂ h.forall₂_ordered fun s t hst => ?_)
  rw [rowAt, rowAt, h.token hst, h.edges_eq hst]

theorem epsilonFree (h : Correspondence d e R) (he : d.EpsilonFree) : e.EpsilonFree := by
  obtain ⟨-, tags', hw'⟩ := h.wellFormed
  intro f' hf'
  obtain ⟨s, hst⟩ := h.symm.exists_right (hw'.source_mem f' hf')
  obtain ⟨f, hf, hx, -⟩ :=
    exists_of_mem_forall₂ (h.arcs hst) (mem_arcsFrom.mpr ⟨hf', rfl⟩)
  exact hx ▸ he f (mem_arcsFrom.mp hf).1

/-- If a token has no name, it is the same token that is met first. -/
theorem toTable_eq (h : Correspondence d e R) (he : d.EpsilonFree) (names skippable : List String) :
    d.toTable names skippable = e.toTable names skippable := by
  obtain ⟨⟨tags, hw⟩, tags', hw'⟩ := h.wellFormed
  have he' := h.epsilonFree he
  have hrow : ∀ s t, R s t →
      d.rowOf names skippable d.ordered s = e.rowOf names skippable e.ordered t := by
    intro s t hst
    have hedges : (d.arcsFrom s).mapM (edgeOf d.ordered s) = .ok ((d.arcsFrom s).map d.edgeTo) :=
      mapM_eq_pure fun f hf => edgeOf_eq_ok hw he (mem_arcsFrom.mp hf).1
    have hedges' : (e.arcsFrom t).mapM (edgeOf e.ordered t) = .ok ((e.arcsFrom t).map e.edgeTo) :=
      mapM_eq_pure fun f hf => edgeOf_eq_ok hw' he' (mem_arcsFrom.mp hf).1
    rw [rowOf, rowOf, tokenIndex, tokenIndex, hedges, hedges', h.token hst, h.edges_eq hst]
  rw [toTable, toTable, mapM_eq_of_forall₂ h.forall₂_ordered hrow]

/-! ## Drawings -/

theorem lines_subset (h : Correspondence d e R) :
    ∀ x ∈ d.arcs.map d.lineOf, x ∈ e.arcs.map e.lineOf := by
  obtain ⟨⟨tags, hw⟩, tags', hw'⟩ := h.wellFormed
  intro x hx
  obtain ⟨f, hf, rfl⟩ := List.mem_map.mp hx
  obtain ⟨t, hst⟩ := h.exists_right (hw.source_mem f hf)
  obtain ⟨f', hf', hsymbol, htarget⟩ :=
    exists_of_mem_forall₂ (h.arcs hst).flip (mem_arcsFrom.mpr ⟨hf, rfl⟩)
  obtain ⟨hf', hid⟩ := mem_arcsFrom.mp hf'
  have hsource := hw'.eq_of_id (hw'.source_mem f' hf') (h.mem hst).2 hid
  refine List.mem_map.mpr ⟨f', hf', ?_⟩
  rw [lineOf, lineOf, hsource, h.place_eq hst, h.place_eq htarget, hsymbol]

theorem finals_subset (h : Correspondence d e R) :
    ∀ x ∈ d.acceptingStates.map d.finalOf, x ∈ e.acceptingStates.map e.finalOf := by
  intro x hx
  obtain ⟨s, hs, rfl⟩ := List.mem_map.mp hx
  obtain ⟨hs, ha⟩ := List.mem_filter.mp hs
  obtain ⟨t, hst⟩ := h.exists_right hs
  have htoken := h.token hst
  have hta : t.accepting = s.accepting := by rw [← t.isSome_token, ← htoken, s.isSome_token]
  refine List.mem_map.mpr ⟨t, List.mem_filter.mpr ⟨(h.mem hst).2, hta.trans ha⟩, ?_⟩
  rw [finalOf, finalOf, h.place_eq hst, htoken]

theorem drawing?_eq (h : Correspondence d e R) : d.drawing? = e.drawing? := by
  obtain ⟨⟨tags, hw⟩, tags', hw'⟩ := h.wellFormed
  exact (drawing?_eq_iff hw hw').mpr ⟨fun x => ⟨h.lines_subset x, h.symm.lines_subset x⟩,
    fun x => ⟨h.finals_subset x, h.symm.finals_subset x⟩⟩

end Correspondence

/-! ## One form -/

/-- Two automata have as many states, the same text of a drawing, and the same table for all names, or
fail in the same way to have one. -/
structure SameForm (d e : Dfa) : Prop where
  length_eq : d.states.length = e.states.length
  dot : ∃ text, d.dot? = some text ∧ e.dot? = some text
  flatten : ∀ names skippable σ τ,
    ((d.flatten names skippable).run σ).1 = ((e.flatten names skippable).run τ).1

theorem Correspondence.sameForm (h : Correspondence d e R) (he : d.EpsilonFree) : SameForm d e where
  length_eq := h.length_eq
  dot := by
    obtain ⟨⟨tags, hw⟩, -⟩ := h.wellFormed
    obtain ⟨text, htext⟩ := exists_dot hw
    exact ⟨text, htext, (congrArg _ h.drawing?_eq.symm).trans htext⟩
  flatten names skippable σ τ := by
    rw [fst_run_flatten, fst_run_flatten, h.toTable_eq he]

end LexicalAutomata.Dfa
