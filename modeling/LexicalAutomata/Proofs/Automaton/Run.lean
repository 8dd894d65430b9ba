/-
# `LexicalAutomata.Proofs.Automaton.Run` — a run is the only path

In a deterministic automaton without empty moves, at most one path spells a word from a given state,
and a run finds it: `runFrom` gives the state at its end (`runFrom_eq_some_iff`).
-/
import LexicalAutomata.Proofs.Automaton.WellFormed

namespace LexicalAutomata

instance : Std.TransCmp Symbol.order := inferInstanceAs (Std.TransCmp (compareOn Symbol.rank))

namespace Dfa

open Automaton

variable {tags : Tags} {d : Dfa} {s t : State} {c : Char} {u v w : List Char}

/-! ## The arcs that leave a state -/

theorem mem_arcsFrom {e : Arc} : e ∈ d.arcsFrom s ↔ e ∈ d.arcs ∧ e.source.id = s.id := by
  rw [arcsFrom, List.mem_filter, beq_iff_eq]

/-- Which arcs leave a state depends on its number alone. -/
theorem arcsFrom_congr (h : s.id = t.id) : d.arcsFrom s = d.arcsFrom t := by
  rw [arcsFrom, arcsFrom, h]

theorem successors_links (d : Dfa) (s : State) :
    Graph.successors State.id d.links s = (d.arcsFrom s).map Arc.target := by
  rw [Graph.successors, links, List.filter_map, List.map_map]
  rfl

theorem target?_of_mem (hd : d.Deterministic) {e : Arc} (he : e ∈ d.arcsFrom s) :
    d.target? s e.symbol = some e.target :=
  hd.target?_eq_some_iff.mpr ⟨e, (mem_arcsFrom.mp he).1, (mem_arcsFrom.mp he).2, rfl, rfl⟩

theorem mem_symbolsFrom (hd : d.Deterministic) {x : Symbol} :
    x ∈ (d.arcsFrom s).map Arc.symbol ↔ ∃ t, d.target? s x = some t := by
  rw [List.mem_map]
  constructor
  · intro h
    obtain ⟨e, he, rfl⟩ := h
    exact ⟨e.target, target?_of_mem hd he⟩
  · intro h
    obtain ⟨t, ht⟩ := h
    obtain ⟨e, he, hs, hx, -⟩ := hd.target?_eq_some_iff.mp ht
    exact ⟨e, mem_arcsFrom.mpr ⟨he, hs⟩, hx⟩

theorem symbols_ascending (ha : Ordered.Ascending Arc.order d.arcs) (hd : d.Deterministic)
    (s : State) : Ordered.Ascending Symbol.order ((d.arcsFrom s).map Arc.symbol) := by
  refine List.pairwise_map.mpr ((ha.filter _).imp_of_mem ?_)
  intro e f he hf hlt
  obtain ⟨he, hs⟩ := mem_arcsFrom.mp he
  obtain ⟨hf, ht⟩ := mem_arcsFrom.mp hf
  have hst : e.source.id = f.source.id := hs.trans ht.symm
  by_cases hx : e.symbol = f.symbol
  · rw [hd e he f hf hst hx] at hlt
    exact absurd hlt (Ordered.cmp_self_ne_lt f)
  · exact Arc.symbol_order_of_order hst hx hlt

/-! ## Runs -/

theorem runFrom_nil : d.runFrom s [] = some s := rfl

theorem runFrom_cons : d.runFrom s (c :: w) = (d.step s c).bind fun t => d.runFrom t w := by
  rw [runFrom, List.foldlM_cons]
  rfl

theorem runFrom_singleton : d.runFrom s [c] = d.step s c := by
  rw [runFrom_cons]
  exact Option.bind_fun_some _

theorem runFrom_append :
    d.runFrom s (u ++ v) = (d.runFrom s u).bind fun t => d.runFrom t v := by
  rw [runFrom, List.foldlM_append]
  rfl

theorem run_append : d.run (u ++ v) = (d.run u).bind fun t => d.runFrom t v :=
  runFrom_append

theorem step_eq_some_iff (hd : d.Deterministic) : d.step s c = some t ↔
    ∃ e ∈ d.arcs, e.source.id = s.id ∧ e.symbol = .char c ∧ e.target = t :=
  hd.target?_eq_some_iff

theorem target?_mem (h : d.WellFormed tags) {x : Symbol} (hx : d.target? s x = some t) :
    t ∈ d.states := by
  obtain ⟨e, he, -, -, rfl⟩ := exists_of_target? hx
  exact h.target_mem e he

theorem step_mem (h : d.WellFormed tags) (hd : d.Deterministic) (hst : d.step s c = some t) :
    t ∈ d.states := by
  obtain ⟨e, he, -, -, rfl⟩ := (step_eq_some_iff hd).mp hst
  exact h.target_mem e he

/-- Without empty moves, a run is a path. -/
theorem runFrom_eq_some_iff (h : d.WellFormed tags) (hd : d.Deterministic) (he : d.EpsilonFree)
    (hs : s ∈ d.states) : d.runFrom s w = some t ↔ t ∈ d.states ∧ Reads d s.id w t.id := by
  induction w generalizing s with
  | nil =>
      rw [runFrom_nil, he.reads_nil_iff, Option.some_inj]
      constructor
      · rintro rfl
        exact ⟨hs, rfl⟩
      · intro h'
        obtain ⟨ht, e⟩ := h'
        exact (h.eq_of_id ht hs e).symm
  | cons c w ih =>
      rw [runFrom_cons, he.reads_cons_iff, Option.bind_eq_some_iff]
      constructor
      · intro h'
        obtain ⟨u, hu, hr⟩ := h'
        obtain ⟨f, hf, hfs, hfx, rfl⟩ := (step_eq_some_iff hd).mp hu
        obtain ⟨ht, r⟩ := (ih (h.target_mem f hf)).mp hr
        exact ⟨ht, f, hf, hfs, hfx, r⟩
      · intro h'
        obtain ⟨ht, f, hf, hfs, hfx, r⟩ := h'
        exact ⟨f.target, (step_eq_some_iff hd).mpr ⟨f, hf, hfs, hfx, rfl⟩,
          (ih (h.target_mem f hf)).mpr ⟨ht, r⟩⟩

theorem run_eq_some_iff (h : d.WellFormed tags) (hd : d.Deterministic) (he : d.EpsilonFree) :
    d.run w = some t ↔ t ∈ d.states ∧ Reads d d.start.id w t.id :=
  runFrom_eq_some_iff h hd he h.start_mem

theorem runFrom_mem (h : d.WellFormed tags) (hd : d.Deterministic) (he : d.EpsilonFree)
    (hs : s ∈ d.states) (hr : d.runFrom s w = some t) : t ∈ d.states :=
  ((runFrom_eq_some_iff h hd he hs).mp hr).1

/-- A state can be reached if a word runs into it. -/
theorem reaches_iff_run (h : d.WellFormed tags) (hd : d.Deterministic) (he : d.EpsilonFree)
    (hs : s ∈ d.states) : Reaches d s.id ↔ ∃ w, d.run w = some s := by
  refine exists_congr fun w => ?_
  rw [run_eq_some_iff h hd he]
  exact (and_iff_right hs).symm

/-! ## Pruning -/

theorem target?_prune {x : Symbol} (h : Reaches d s.id) : target? d.prune s x = d.target? s x := by
  rw [target?, target?, targets, targets, arcsFrom_prune h]

theorem reaches_of_target? {x : Symbol} (h : Reaches d s.id) (hx : d.target? s x = some t) :
    Reaches d t.id := by
  obtain ⟨e, he, hs, -, rfl⟩ := exists_of_target? hx
  exact Reaches.target he (hs ▸ h)

/-- Pruning changes no run from a state that can be reached. -/
theorem runFrom_prune (h : Reaches d s.id) : runFrom d.prune s w = d.runFrom s w := by
  induction w generalizing s with
  | nil => rfl
  | cons c w ih =>
      rw [runFrom_cons, runFrom_cons, step, step, target?_prune h]
      cases hx : d.target? s (.char c) with
      | none => rfl
      | some t => exact ih (reaches_of_target? h hx)

theorem run_prune (d : Dfa) (w : List Char) : run d.prune w = d.run w :=
  runFrom_prune (reaches_start d)

end Dfa

end LexicalAutomata
