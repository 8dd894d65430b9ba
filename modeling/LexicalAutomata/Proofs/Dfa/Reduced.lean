/-
# `LexicalAutomata.Proofs.Dfa.Reduced` — what minimization makes of an automaton

Minimization merges the states that nothing tells apart and drops the classes that cannot be reached.
What comes out is `Reduced`, and what can be seen from its start is what could be seen before
(`MinimalOf`).  Of the tags only the tokens are looked at: a class has the tag of one of its members, and
where tags of one token are one, words are accepted as before (`MinimalOf.accepts_eq`).

The outcome is then checked.  Only one check can fail: whether any state accepts
(`MinimalOf.hasFinal_iff`).
-/
import LexicalAutomata.Proofs.Dfa.Canonical
import LexicalAutomata.Proofs.Dfa.Minimal

namespace LexicalAutomata.Dfa

open Automaton

variable {tags : Tags} {d m q : Dfa} {s t : State} {w : List Char}

/-! ## Accepting states that can be reached -/

theorem seenAfter_start (d : Dfa) (w : List Char) :
    d.seenAfter d.start w = (d.run w).map State.token := rfl

/-- Some accepting state can be reached if a token can be seen from the start. -/
theorem exists_accepting_iff (hw : d.WellFormed tags) (hd : d.Deterministic) (he : d.EpsilonFree) :
    (∃ s ∈ d.states, s.accepting ∧ Reaches d s.id) ↔
      ∃ w token, d.seenAfter d.start w = some (some token) := by
  constructor
  · intro h'
    obtain ⟨s, hs, ha, hr⟩ := h'
    obtain ⟨w, hrun⟩ := (reaches_iff_run hw hd he hs).mp hr
    obtain ⟨token, ht⟩ := State.accepting_iff_token.mp ha
    exact ⟨w, token, by rw [seenAfter_start, hrun, Option.map_some, ht]⟩
  · intro h'
    obtain ⟨w, token, hseen⟩ := h'
    obtain ⟨s, hrun, ht⟩ := Option.map_eq_some_iff.mp hseen
    have hs := runFrom_mem hw hd he hw.start_mem hrun
    exact ⟨s, hs, State.accepting_iff_token.mpr ⟨token, ht⟩, (reaches_iff_run hw hd he hs).mpr ⟨w, hrun⟩⟩

theorem Reduced.hasFinal_iff (h : d.Reduced) :
    d.HasFinal ↔ ∃ w token, d.seenAfter d.start w = some (some token) := by
  obtain ⟨tags, hw⟩ := h.wellFormed
  rw [← exists_accepting_iff hw h.deterministic h.epsilonFree]
  refine exists_congr fun s => ⟨fun h' => ?_, fun h' => ⟨h'.1, h'.2.1⟩⟩
  exact ⟨h'.1, h'.2, h.connected s h'.1⟩

theorem Reduced.checkDfa_eq_ok (h : d.Reduced) (hf : d.HasFinal) : d.graph.checkDfa = .ok () := by
  obtain ⟨tags, hw⟩ := h.wellFormed
  exact Automaton.checkDfa_eq_ok hw hf h.connected h.epsilonFree h.deterministic

/-- Where all states are reached and tags of one token are one, states of one token have one tag. -/
theorem accept_eq_of_token (hw : d.WellFormed tags) (hd : d.Deterministic) (he : d.EpsilonFree)
    (hc : d.Connected)
    (htag : ∀ v w a b, d.accepts v = some a → d.accepts w = some b → a.token = b.token → a = b)
    (hs : s ∈ d.states) (ht : t ∈ d.states) (e : s.token = t.token) : s.accept = t.accept := by
  rw [State.token, State.token] at e
  cases ha : s.accept with
  | none =>
      rw [ha] at e
      exact (Option.map_eq_none_iff.mp e.symm).symm
  | some a =>
      rw [ha] at e
      obtain ⟨b, hb, hab⟩ := Option.map_eq_some_iff.mp e.symm
      obtain ⟨v, hv⟩ := (reaches_iff_run hw hd he hs).mp (hc s hs)
      obtain ⟨w, hw⟩ := (reaches_iff_run hw hd he ht).mp (hc t ht)
      rw [hb, htag v w a b (by rw [accepts, hv]; exact ha) (by rw [accepts, hw]; exact hb) hab.symm]

/-! ## The quotient without what cannot be reached -/

namespace QuotientOf

variable {toClass : State → State}

theorem reduced_prune (h : QuotientOf d toClass q) (hw : d.WellFormed tags) (hd : d.Deterministic)
    (he : d.EpsilonFree) : Reduced q.prune := by
  obtain ⟨tags', hwq⟩ := h.wellFormed
  have hqd := h.deterministic hw hd he
  have hqe := h.epsilonFree he
  refine ⟨⟨tags', hwq.prune⟩, hqd.prune, hqe.prune, connected_prune hwq, ?_⟩
  intro s hs t ht hsame
  obtain ⟨hs, hrs⟩ := hwq.mem_states_prune.mp hs
  obtain ⟨ht, hrt⟩ := hwq.mem_states_prune.mp ht
  refine h.eq_of_same hw hd he hs ht fun w => ?_
  have := hsame w
  rwa [seenAfter, seenAfter, runFrom_prune hrs, runFrom_prune hrt] at this

theorem run_prune_eq (h : QuotientOf d toClass q) (hw : d.WellFormed tags) (hd : d.Deterministic)
    (he : d.EpsilonFree) (w : List Char) : run q.prune w = (d.run w).map toClass := by
  rw [run_prune, h.run_eq hw hd he]

end QuotientOf

/-! ## The outcome of minimization -/

/-- Nothing in `m` can be merged or dropped, and it does what `d` does. -/
structure MinimalOf (d m : Dfa) : Prop where
  reduced : m.Reduced
  same : Same m m.start d d.start
  accept : ∀ w t, m.run w = some t →
    ∃ s ∈ d.states, d.run w = some s ∧ ∃ u ∈ d.states, u.token = s.token ∧ t.accept = u.accept
  noDeadEnd : d.NoDeadEnd → m.NoDeadEnd

theorem QuotientOf.minimalOf {toClass : State → State} (h : QuotientOf d toClass q)
    (hw : d.WellFormed tags) (hd : d.Deterministic) (he : d.EpsilonFree) :
    MinimalOf d q.prune where
  reduced := h.reduced_prune hw hd he
  same := by
    intro w
    rw [seenAfter_start, seenAfter_start, h.run_prune_eq hw hd he]
    cases hrun : d.run w with
    | none => rfl
    | some s => exact congrArg some (h.token_eq ((run_eq_some_iff hw hd he).mp hrun).1)
  accept w t hrun := by
    rw [h.run_prune_eq hw hd he, Option.map_eq_some_iff] at hrun
    obtain ⟨s, hs, rfl⟩ := hrun
    have hmem := ((run_eq_some_iff hw hd he).mp hs).1
    obtain ⟨u, hu, hsame, ha⟩ := h.accept s hmem
    exact ⟨s, hmem, hs, u, hu, hsame.token, ha⟩
  noDeadEnd hn := by
    obtain ⟨tags', hwq⟩ := h.wellFormed
    exact (h.noDeadEnd hw hd he hn).prune hwq

/-- Minimization fails only in the check of its outcome. -/
theorem run_minimize_minimalOf (hw : d.WellFormed tags) (hd : d.Deterministic) (he : d.EpsilonFree)
    (σ : Session) :
    ∃ m τ, MinimalOf d m ∧ d.minimize.run σ = (m.graph.checkDfa.map fun _ => m, τ) := by
  obtain ⟨toClass, q, hq, hrun⟩ := run_minimize hw hd he σ
  exact ⟨q.prune, _, hq.minimalOf hw hd he, hrun⟩

/-- Where there are no dead ends, minimization does not fail and makes none. -/
theorem run_minimize_ok (hw : d.WellFormed tags) (hd : d.Deterministic) (he : d.EpsilonFree)
    (hn : d.NoDeadEnd) (σ : Session) :
    ∃ m τ, MinimalOf d m ∧ m.NoDeadEnd ∧ d.minimize.run σ = (.ok m, τ) := by
  obtain ⟨m, τ, hm, hrun⟩ := run_minimize_minimalOf hw hd he σ
  obtain ⟨tags', hwm⟩ := hm.reduced.wellFormed
  have hnm := hm.noDeadEnd hn
  rw [hm.reduced.checkDfa_eq_ok (hnm.hasFinal hwm)] at hrun
  exact ⟨m, τ, hm, hnm, hrun⟩

namespace MinimalOf

theorem hasFinal_iff (h : MinimalOf d m) (hw : d.WellFormed tags) (hd : d.Deterministic)
    (he : d.EpsilonFree) : m.HasFinal ↔ ∃ s ∈ d.states, s.accepting ∧ Reaches d s.id := by
  rw [h.reduced.hasFinal_iff, exists_accepting_iff hw hd he]
  simp only [h.same _]

/-- Where tags of one token are one, minimization changes no tag. -/
theorem accepts_eq (h : MinimalOf d m) (hw : d.WellFormed tags) (hd : d.Deterministic)
    (he : d.EpsilonFree) (hc : d.Connected)
    (htag : ∀ v w a b, d.accepts v = some a → d.accepts w = some b → a.token = b.token → a = b)
    (w : List Char) : m.accepts w = d.accepts w := by
  rw [accepts, accepts]
  cases hm : m.run w with
  | some t =>
      obtain ⟨s, hs, hrun, u, hu, htoken, ha⟩ := h.accept w t hm
      rw [hrun, Option.bind_some, Option.bind_some, ha,
        accept_eq_of_token hw hd he hc htag hu hs htoken]
  | none =>
      have hsame := h.same w
      rw [seenAfter_start, seenAfter_start, hm, Option.map_none] at hsame
      rw [Option.map_eq_none_iff.mp hsame.symm]

end MinimalOf

end LexicalAutomata.Dfa
