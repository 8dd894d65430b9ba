/-
# `LexicalAutomata.Proofs.Lexer.Compile` — when a grammar compiles, and what its automaton accepts

A compilation is a row of stages, each of which hands to the next what it needs in order not to fail.
So only construction can fail, and it does in two cases: without a production, and where an alternation
without alternatives occurs in some body (`compile_outcome`).  The lexer of a grammar is `Faithful` to
it; in particular its automaton accepts a word for the production declared first among those that match
(`compile_accepts`).
-/
import LexicalAutomata.Lexer
import LexicalAutomata.Proofs.Expr.Matching
import LexicalAutomata.Proofs.Lexer.Stages

namespace LexicalAutomata.Lexer

variable {g : Grammar} {l : Lexer}

/-- What holds of the lexer of a grammar. -/
structure Faithful (g : Grammar) (l : Lexer) : Prop where
  names_eq : l.names = g.tokenNames
  table_eq : l.table = l.dfa.tableOf g.tokenNames g.skippableTokens
  shadowed_eq : l.shadowed = shadowedIn g l.dfa
  recognizes : l.dfa.Recognizes g
  minimal : ∀ s ∈ l.dfa.states, ∀ t ∈ l.dfa.states, Dfa.Same l.dfa s l.dfa t → s = t

/-! ## The stages in a row -/

theorem run_warnShadowed (names : List String) (σ : Session) :
    ∃ τ, (warnShadowed names).run σ = (.ok (), τ) := by
  unfold warnShadowed
  split
  · exact ⟨σ, rfl⟩
  · exact ⟨_, Stage.run_note _⟩

/-- Once construction succeeds, so does every stage after it. -/
theorem run_stages {n : Nfa} (h : n.Spelled g) (σ : Session) :
    ∃ nfa σ₁ dfa σ₂ minimal σ₃ table σ₄,
      n.eliminateEpsilon.run σ = (.ok nfa, σ₁) ∧
      nfa.determinize.run σ₁ = (.ok dfa, σ₂) ∧
      dfa.minimize.run σ₂ = (.ok minimal, σ₃) ∧
      (minimal.flatten g.tokenNames g.skippableTokens).run σ₃ = (.ok table, σ₄) ∧
      Faithful g ⟨g.tokenNames, minimal, table, shadowedIn g minimal⟩ := by
  obtain ⟨nfa, σ₁, hnfa, hn⟩ := h.eliminateEpsilon σ
  obtain ⟨dfa, σ₂, hdfa, hd⟩ := hn.determinize σ₁
  obtain ⟨minimal, σ₃, hmin, hm, hsame⟩ := hd.minimize σ₂
  obtain ⟨σ₄, htable⟩ := hm.flatten σ₃
  exact ⟨nfa, σ₁, dfa, σ₂, minimal, σ₃, _, σ₄, hnfa, hdfa, hmin, htable, rfl, rfl, rfl, hm, hsame⟩

theorem run_build_ok {n : Nfa} {σ τ : Session}
    (hrun : (Nfa.ofProductions g.productions g.ranking).run
      (σ.record (.compiling g.productions.length)) = (.ok n, τ)) (h : n.Spelled g) :
    ∃ l τ, (build g).run σ = (.ok l, τ) ∧ Faithful g l := by
  obtain ⟨nfa, σ₁, dfa, σ₂, minimal, σ₃, table, σ₄, hnfa, hdfa, hmin, htable, hf⟩ := run_stages h τ
  obtain ⟨σ₅, hwarn⟩ := run_warnShadowed (shadowedIn g minimal) σ₄
  refine ⟨_, σ₅.record (.done σ₅.supply.issued), ?_, hf⟩
  rw [build, Stage.run_bind_ok (Stage.run_note _), Stage.run_bind_ok hrun, Stage.run_bind_ok hnfa,
    Stage.run_bind_ok hdfa, Stage.run_bind_ok hmin, Stage.run_bind_ok htable,
    Stage.run_bind_ok hwarn, Stage.run_bind_ok Stage.run_issued, Stage.run_bind_ok (Stage.run_note _)]
  rfl

theorem run_build_error {σ τ : Session} {e : Error}
    (hrun : (Nfa.ofProductions g.productions g.ranking).run
      (σ.record (.compiling g.productions.length)) = (.error e, τ)) :
    (build g).run σ = (.error e, τ) := by
  rw [build, Stage.run_bind_ok (Stage.run_note _), Stage.run_bind_error hrun]

/-! ## Outcomes -/

theorem compile_nil (h : g.productions = []) : compile g = .error .noFinalState := by
  obtain ⟨τ, hrun⟩ := Nfa.ofProductions_nil h (Session.empty.record (.compiling g.productions.length))
  exact congrArg Prod.fst (run_build_error hrun)

theorem compile_dead {p : Production} (hp : p ∈ g.productions) (hdead : ¬ p.body.Productive) :
    ∃ k, compile g = .error (.disconnected (k + 1)) := by
  obtain ⟨k, τ, hrun⟩ :=
    Nfa.ofProductions_dead hp hdead (Session.empty.record (.compiling g.productions.length))
  exact ⟨k, congrArg Prod.fst (run_build_error hrun)⟩

theorem compile_ok (hne : g.productions ≠ []) (hp : ∀ p ∈ g.productions, p.body.Productive) :
    ∃ l, compile g = .ok l ∧ Faithful g l := by
  obtain ⟨n, τ, hrun, hn⟩ :=
    Nfa.ofProductions_ok hne hp (Session.empty.record (.compiling g.productions.length))
  obtain ⟨l, τ, hbuild, hf⟩ := run_build_ok hrun hn
  exact ⟨l, congrArg Prod.fst hbuild, hf⟩

theorem faithful_of_compile (h : compile g = .ok l) : Faithful g l := by
  rcases g.productive_cases with hnil | ⟨p, hp, hdead⟩ | ⟨hne, hp⟩
  · rw [compile_nil hnil] at h
    cases h
  · obtain ⟨k, hk⟩ := compile_dead hp hdead
    rw [hk] at h
    cases h
  · obtain ⟨l', hl', hf⟩ := compile_ok hne hp
    rw [hl'] at h
    cases h
    exact hf

/-- Compilation fails without a production, or where an alternation without alternatives occurs, and
succeeds in every other case.  It meets no defect, and no stage after construction fails. -/
theorem compile_outcome (g : Grammar) :
    (compile g = .error .noFinalState ↔ g.productions = []) ∧
    ((∃ n, 1 ≤ n ∧ compile g = .error (.disconnected n)) ↔
      g.productions ≠ [] ∧ ∃ p ∈ g.productions, Expr.Part (.alternation []) p.body) ∧
    ((∃ l, compile g = .ok l) ↔
      g.productions ≠ [] ∧ ∀ p ∈ g.productions, ¬ Expr.Part (.alternation []) p.body) ∧
    (∀ e, compile g = .error e → e = .noFinalState ∨ ∃ n, 1 ≤ n ∧ e = .disconnected n) ∧
    (∀ σ n τ, (Nfa.ofProductions g.productions g.ranking).run σ = (.ok n, τ) →
      ∃ nfa σ₁ dfa σ₂ minimal σ₃ table σ₄,
        n.eliminateEpsilon.run τ = (.ok nfa, σ₁) ∧
        nfa.determinize.run σ₁ = (.ok dfa, σ₂) ∧
        dfa.minimize.run σ₂ = (.ok minimal, σ₃) ∧
        (minimal.flatten g.tokenNames g.skippableTokens).run σ₃ = (.ok table, σ₄)) := by
  have hstages : ∀ σ n τ, (Nfa.ofProductions g.productions g.ranking).run σ = (.ok n, τ) →
      ∃ nfa σ₁ dfa σ₂ minimal σ₃ table σ₄,
        n.eliminateEpsilon.run τ = (.ok nfa, σ₁) ∧
        nfa.determinize.run σ₁ = (.ok dfa, σ₂) ∧
        dfa.minimize.run σ₂ = (.ok minimal, σ₃) ∧
        (minimal.flatten g.tokenNames g.skippableTokens).run σ₃ = (.ok table, σ₄) := by
    intro σ n τ hrun
    obtain ⟨nfa, σ₁, dfa, σ₂, minimal, σ₃, table, σ₄, hnfa, hdfa, hmin, htable, -⟩ :=
      run_stages (Nfa.spelled_of_run hrun) τ
    exact ⟨nfa, σ₁, dfa, σ₂, minimal, σ₃, table, σ₄, hnfa, hdfa, hmin, htable⟩
  rcases g.productive_cases with hnil | ⟨p, hp, hdead⟩ | ⟨hne, hp⟩
  · rw [compile_nil hnil]
    refine ⟨by simp [hnil], by simp [hnil], by simp [hnil], fun e he => ?_, hstages⟩
    cases he
    exact .inl rfl
  · have hne := List.ne_nil_of_mem hp
    have hpart : ∃ p ∈ g.productions, Expr.Part (.alternation []) p.body :=
      ⟨p, hp, Classical.not_not.mp hdead⟩
    obtain ⟨k, hc⟩ := compile_dead hp hdead
    rw [hc]
    refine ⟨by simp [hne], ⟨fun _ => ⟨hne, hpart⟩, fun _ => ⟨k + 1, Nat.succ_pos k, rfl⟩⟩,
      ⟨fun h => ?_, fun h => absurd hpart (by simpa using h.2)⟩, fun e he => ?_, hstages⟩
    · obtain ⟨l, h⟩ := h
      cases h
    · cases he
      exact .inr ⟨k + 1, Nat.succ_pos k, rfl⟩
  · obtain ⟨l, hc, -⟩ := compile_ok hne hp
    rw [hc]
    refine ⟨by simp [hne], ⟨fun h => ?_, fun h => ?_⟩, ⟨fun _ => ⟨hne, hp⟩, fun _ => ⟨l, rfl⟩⟩,
      fun e he => (by cases he), hstages⟩
    · obtain ⟨n, -, h⟩ := h
      cases h
    · obtain ⟨-, p, hmem, hpart⟩ := h
      exact absurd hpart (hp p hmem)

/-! ## What is accepted -/

theorem Faithful.accepts_eq_none_iff (h : Faithful g l) {w : List Char} :
    l.dfa.accepts w = none ↔ ∀ p ∈ g.productions, ¬ p.body.Lang w := by
  rw [← Grammar.offers_nothing_iff]
  constructor
  · intro hnone tag ho
    obtain ⟨tag', hw⟩ := Grammar.exists_wins ho
    rw [(h.recognizes.accepts_iff w tag').mpr hw] at hnone
    cases hnone
  · intro hn
    cases ha : l.dfa.accepts w with
    | none => rfl
    | some tag => exact absurd ((h.recognizes.accepts_iff w tag).mp ha).1 (hn tag)

/-- The automaton of a grammar accepts a word with the name of the production declared first among
those that match it, and with the place of this production, counted from one. -/
theorem compile_accepts (g : Grammar) (l : Lexer) (h : compile g = .ok l) (w : String) :
    (∀ token priority, l.dfa.accepts w.toList = some ⟨token, priority⟩ ↔
      ∃ i p, g.productions[i]? = some p ∧ p.body.accepts w ∧
        (∀ j < i, ∀ q, g.productions[j]? = some q → ¬ q.body.accepts w) ∧
        token = p.name ∧ priority = i + 1) ∧
    (l.dfa.accepts w.toList = none ↔ ∀ p ∈ g.productions, ¬ p.body.accepts w) := by
  have hf := faithful_of_compile h
  simp only [Expr.accepts_iff_lang]
  refine ⟨fun token priority => ?_, hf.accepts_eq_none_iff⟩
  rw [hf.recognizes.accepts_iff, Grammar.wins_iff]
  simp only [Accept.mk.injEq]

/-- Two productions for one word, of which the second is not handed on. -/
def rivals : Grammar :=
  ⟨[⟨"A", .literal "a", false⟩, ⟨"B", .literal "a", true⟩], by decide⟩

theorem compile_rivals : ∃ l, compile rivals = .ok l ∧ Faithful rivals l :=
  compile_ok (by simp [rivals]) (by simp [rivals, Expr.productive_literal])

theorem compile_accepts_rivals :
    ∃ l, compile rivals = .ok l ∧ l.dfa.accepts "a".toList = some ⟨"A", 1⟩ := by
  obtain ⟨l, hl, -⟩ := compile_rivals
  refine ⟨l, hl, ((compile_accepts rivals l hl "a").1 "A" 1).mpr ⟨0, _, rfl, ?_, ?_, rfl, rfl⟩⟩
  · decide
  · intro j hj
    cases hj

end LexicalAutomata.Lexer
