/-
# `LexicalAutomata.Proofs.Dfa.CanonicalForm` — minimization forgets everything but what can be seen

Which member of a class lends it its tag, in which order classes are numbered, and from which number on,
all depends on the automaton and on the session; and the automata that do the same are of many shapes.
None of this can be seen in the outcome.  What minimization makes is reduced, and reduced automata that do
the same have one form: so minimization of automata that do the same fails for both or gives automata of
the `SameForm` (`minimize_canonical`), and a second minimization changes nothing
(`Reduced.sameForm_minimize`).
-/
import LexicalAutomata.Proofs.Dfa.Reduced

namespace LexicalAutomata.Dfa

open Automaton

variable {tags : Tags} {d e m n : Dfa}

/-! ## Which outcomes pass the check -/

theorem Reduced.hasFinal_iff_of_same (hm : m.Reduced) (hn : n.Reduced)
    (h : Same m m.start n n.start) : m.HasFinal ↔ n.HasFinal := by
  rw [hm.hasFinal_iff, hn.hasFinal_iff]
  simp only [h _]

/-- The outcome is handed on if a state of it accepts. -/
theorem MinimalOf.fst_run_minimize (h : MinimalOf d m) {σ τ : Session}
    (hrun : d.minimize.run σ = (m.graph.checkDfa.map fun _ => m, τ)) :
    (m.HasFinal → (d.minimize.run σ).1 = .ok m) ∧
      (¬ m.HasFinal → (d.minimize.run σ).1 = .error .noFinalState) := by
  rw [hrun]
  refine ⟨fun hf => ?_, fun hf => ?_⟩
  · rw [h.reduced.checkDfa_eq_ok hf]
    rfl
  · rw [checkDfa_eq_noFinalState hf]
    rfl

/-! ## One form -/

theorem MinimalOf.sameForm (hm : MinimalOf d m) (hn : MinimalOf e n)
    (h : Same d d.start e e.start) : SameForm m n :=
  Dfa.sameForm hm.reduced hn.reduced ((hm.same.trans h).trans hn.same.symm)

/-- Minimization of a reduced automaton changes nothing. -/
theorem Reduced.sameForm_minimize (h : m.Reduced) (hf : m.HasFinal) (σ : Session) :
    ∃ m', (m.minimize.run σ).1 = .ok m' ∧ SameForm m' m := by
  obtain ⟨tags, hw⟩ := h.wellFormed
  obtain ⟨m', τ, hm, hrun⟩ := run_minimize_minimalOf hw h.deterministic h.epsilonFree σ
  have hf' := (hm.reduced.hasFinal_iff_of_same h hm.same).mpr hf
  exact ⟨m', (hm.fst_run_minimize hrun).1 hf', Dfa.sameForm hm.reduced h hm.same⟩

/-- Let two automata without empty moves read the same words to the same tokens.  Then minimization, in
whatever session, fails for both because no state accepts, or gives automata of the same form: of as many
states, with one text of a drawing, and with one table for all names.  Minimized once more, in whatever
session, they keep this form. -/
theorem minimize_canonical (tags tags' : Tags) (d e : Dfa) (hd : d.Built tags) (he : e.Built tags')
    (hd' : d.EpsilonFree) (he' : e.EpsilonFree)
    (hsame : ∀ w, (d.run w).map State.token = (e.run w).map State.token) (σ τ : Session) :
    ((d.minimize.run σ).1 = .error .noFinalState ∧ (e.minimize.run τ).1 = .error .noFinalState) ∨
    ∃ m n, (d.minimize.run σ).1 = .ok m ∧ (e.minimize.run τ).1 = .ok n ∧ SameForm m n ∧
      ∀ ρ, ∃ m', (m.minimize.run ρ).1 = .ok m' ∧ SameForm m' m := by
  obtain ⟨m, _, hm, hrun⟩ := run_minimize_minimalOf hd.wellFormed hd.made.deterministic hd' σ
  obtain ⟨n, _, hn, hrun'⟩ := run_minimize_minimalOf he.wellFormed he.made.deterministic he' τ
  have hmn : m.HasFinal ↔ n.HasFinal :=
    hm.reduced.hasFinal_iff_of_same hn.reduced ((hm.same.trans hsame).trans hn.same.symm)
  by_cases hf : m.HasFinal
  · exact .inr ⟨m, n, (hm.fst_run_minimize hrun).1 hf, (hn.fst_run_minimize hrun').1 (hmn.mp hf),
      hm.sameForm hn hsame, hm.reduced.sameForm_minimize hf⟩
  · exact .inl ⟨(hm.fst_run_minimize hrun).2 hf, (hn.fst_run_minimize hrun').2 (mt hmn.mpr hf)⟩

/-- The tags of states of which all but the first accept, with one token. -/
def eitherTags : Tags := fun i => if i = 0 then none else some ⟨"A", i⟩

/-- An automaton of two letters that lead to two states, or to one. -/
def either (i j : Nat) : Dfa :=
  setArc (setArc (Automaton.new (.ofTags eitherTags 0)) (.ofTags eitherTags 0) (.char 'a')
    (.ofTags eitherTags i)) (.ofTags eitherTags 0) (.char 'b') (.ofTags eitherTags j)

theorem built_either (i j : Nat) : (either i j).Built eitherTags :=
  .setArc 0 _ j (.setArc 0 _ i (.new 0))

theorem arcs_either (i j : Nat) : (either i j).arcs =
    [⟨.ofTags eitherTags 0, .char 'a', .ofTags eitherTags i⟩,
      ⟨.ofTags eitherTags 0, .char 'b', .ofTags eitherTags j⟩] := rfl

theorem epsilonFree_either (i j : Nat) : (either i j).EpsilonFree := by
  intro e he
  rw [arcs_either, List.mem_pair] at he
  rcases he with rfl | rfl <;> exact Symbol.noConfusion

theorem step_either (i j : Nat) (s : State) (c : Char) : (either i j).step s c =
    if s.id = 0 ∧ c = 'a' then some (.ofTags eitherTags i)
    else if s.id = 0 ∧ c = 'b' then some (.ofTags eitherTags j) else none := by
  by_cases hs : s.id = 0
  · rcases eq_or_ne c 'a' with rfl | ha
    · simp [step, target?, targets, arcsFrom, arcs_either, State.ofTags, hs]
    · rcases eq_or_ne c 'b' with rfl | hb
      · simp [step, target?, targets, arcsFrom, arcs_either, State.ofTags, hs]
      · simp [step, target?, targets, arcsFrom, arcs_either, State.ofTags, hs, ha, hb, ha.symm,
          hb.symm]
  · simp [step, target?, targets, arcsFrom, arcs_either, State.ofTags, hs, Ne.symm hs]

theorem run_either {i j : Nat} (hi : i ≠ 0) (hj : j ≠ 0) (w : List Char) :
    ((either i j).run w).map State.token =
      if w = [] then some none else if w = ['a'] ∨ w = ['b'] then some (some "A") else none := by
  have hstart : (either i j).start = .ofTags eitherTags 0 := rfl
  match w with
  | [] => rfl
  | [c] =>
      by_cases ha : c = 'a' <;> by_cases hb : c = 'b' <;>
        simp [run, runFrom_cons, runFrom_nil, step_either, hstart, State.ofTags, State.token,
          eitherTags, ha, hb, hi, hj]
  | c :: c' :: w =>
      by_cases ha : c = 'a' <;> by_cases hb : c = 'b' <;>
        simp [run, runFrom_cons, step_either, hstart, State.ofTags, ha, hb, hi, hj]

theorem minimize_canonical_either : ∃ m n, ((either 1 1).minimize.run .empty).1 = .ok m ∧
    ((either 3 2).minimize.run ⟨⟨7⟩, []⟩).1 = .ok n ∧ m.states.length = n.states.length ∧
      m.dot? = n.dot? := by
  have hsame : ∀ w, ((either 1 1).run w).map State.token = ((either 3 2).run w).map State.token :=
    fun w => by rw [run_either (by decide) (by decide), run_either (by decide) (by decide)]
  have hok : ∀ σ, ((either 1 1).minimize.run σ).1 ≠ .error .noFinalState := by
    intro σ hfail
    obtain ⟨m, τ, hm, hrun⟩ := run_minimize_minimalOf (built_either 1 1).wellFormed
      (built_either 1 1).made.deterministic (epsilonFree_either 1 1) σ
    have hf : m.HasFinal := hm.reduced.hasFinal_iff.mpr
      ⟨['a'], "A", (hm.same ['a']).trans (run_either (by decide) (by decide) ['a'])⟩
    rw [(hm.fst_run_minimize hrun).1 hf] at hfail
    cases hfail
  rcases minimize_canonical eitherTags eitherTags (either 1 1) (either 3 2) (built_either 1 1)
    (built_either 3 2) (epsilonFree_either 1 1) (epsilonFree_either 3 2) hsame .empty ⟨⟨7⟩, []⟩ with
    ⟨hfail, -⟩ | ⟨m, n, hm, hn, hmn, -⟩
  · exact absurd hfail (hok .empty)
  · obtain ⟨text, hd, he⟩ := hmn.dot
    exact ⟨m, n, hm, hn, hmn.length_eq, hd.trans he.symm⟩

end LexicalAutomata.Dfa
