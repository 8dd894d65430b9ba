/-
# `LexicalAutomata.Proofs.Lexer.Shadowed` — a production is shadowed if earlier ones match all it does

A production is reported as shadowed if no state of the minimized automaton has its token.  Every state
can be reached, so the tokens of states are the tokens of words (`exists_state_iff`), and the token of a
word is that of the production declared first among those that match it.  So a production without a
state wins no word: whatever it matches, an earlier production matches too.
-/
import LexicalAutomata.Proofs.Lexer.Compile

namespace LexicalAutomata

variable {g : Grammar} {d : Dfa} {l : Lexer} {p : Production} {i : Nat}

/-- A token has a state exactly if it wins some word. -/
theorem Dfa.Recognizes.exists_state_iff (h : d.Recognizes g) {token : String} :
    (∃ s ∈ d.states, s.token = some token) ↔ ∃ w tag, g.Wins w tag ∧ tag.token = token := by
  constructor
  · intro h'
    obtain ⟨s, hs, ht⟩ := h'
    obtain ⟨tag, ha, rfl⟩ := Option.map_eq_some_iff.mp ht
    obtain ⟨w, hw⟩ := h.exists_wins hs ha
    exact ⟨w, tag, hw, rfl⟩
  · intro h'
    obtain ⟨w, tag, hw, rfl⟩ := h'
    obtain ⟨tags, hd⟩ := h.wellFormed
    obtain ⟨s, hrun, ha⟩ := Option.bind_eq_some_iff.mp ((h.accepts_iff w tag).mpr hw)
    refine ⟨s, ((Dfa.run_eq_some_iff hd h.deterministic h.epsilonFree).mp hrun).1, ?_⟩
    rw [State.token, ha]
    rfl

/-- A production wins no word exactly if earlier productions match every word that it matches. -/
theorem Grammar.never_wins_iff (hp : g.productions[i]? = some p) :
    (¬ ∃ w tag, g.Wins w tag ∧ tag.token = p.name) ↔
      ∀ w, p.body.Lang w → ∃ j < i, ∃ q, g.productions[j]? = some q ∧ q.body.Lang w := by
  constructor
  · intro hn w hw
    by_contra hfirst
    simp only [not_exists, not_and] at hfirst
    exact hn ⟨w, _, Grammar.wins_iff.mpr ⟨i, p, hp, hw, hfirst, rfl⟩, rfl⟩
  · intro h hwins
    obtain ⟨w, tag, hwins, htoken⟩ := hwins
    obtain ⟨k, r, hr, hw, hfirst, rfl⟩ := Grammar.wins_iff.mp hwins
    -- names do not repeat, so the winner is this production
    have hrank := Grammar.rank?_eq hp
    rw [← htoken, Grammar.rank?_eq hr, Option.some_inj, Nat.add_right_cancel_iff] at hrank
    subst hrank
    obtain rfl := Option.some_inj.mp (hr.symm.trans hp)
    obtain ⟨j, hj, q, hq, hqw⟩ := h w hw
    exact hfirst j hj q hq hqw

namespace Lexer

theorem mem_shadowedIn {name : String} : name ∈ shadowedIn g d ↔
    (∃ p ∈ g.productions, p.name = name) ∧ ¬ ∃ s ∈ d.states, s.token = some name := by
  have htokens : name ∈ d.acceptingStates.filterMap State.token ↔
      ∃ s ∈ d.states, s.token = some name := by
    simp only [Automaton.acceptingStates, List.mem_filterMap, List.mem_filter, and_assoc]
    refine exists_congr fun s => and_congr_right fun _ => and_iff_right_of_imp fun ht => ?_
    rw [State.accepting, ← Option.isSome_map (f := Accept.token)]
    exact Option.isSome_iff_exists.mpr ⟨name, ht⟩
  rw [shadowedIn, List.mem_filter, List.mem_map, Bool.not_eq_true', Bool.eq_false_iff, ne_eq,
    List.contains_iff_mem, htokens]

/-- The report lists, once and in order of declaration, the productions that match nothing but what
earlier productions match. -/
theorem compile_shadowed (g : Grammar) (l : Lexer) (h : compile g = .ok l) :
    l.shadowed.Sublist (g.productions.map Production.name) ∧ l.shadowed.Nodup ∧
    ∀ (i : Nat) (p : Production), g.productions[i]? = some p →
      (p.name ∈ l.shadowed ↔ ∀ w : String, p.body.accepts w →
        ∃ j < i, ∃ q : Production, g.productions[j]? = some q ∧ q.body.accepts w) := by
  have hf := faithful_of_compile h
  rw [hf.shadowed_eq]
  refine ⟨List.filter_sublist, g.names_nodup.filter _, fun i p hp => ?_⟩
  have hmem : ∃ q ∈ g.productions, q.name = p.name := ⟨p, List.mem_of_getElem? hp, rfl⟩
  rw [mem_shadowedIn, hf.recognizes.exists_state_iff, Grammar.never_wins_iff hp, and_iff_right hmem]
  simp only [Expr.accepts_iff_lang]
  exact ⟨fun hl w => hl w.toList, fun hs w hw => by simpa using hs (String.ofList w) (by simpa using hw)⟩

/-- Of two productions for one word, the second is shadowed. -/
theorem compile_shadowed_rivals :
    ∃ l, compile rivals = .ok l ∧ "A" ∉ l.shadowed ∧ "B" ∈ l.shadowed := by
  obtain ⟨l, hl, -⟩ := compile_rivals
  obtain ⟨-, -, hs⟩ := compile_shadowed rivals l hl
  refine ⟨l, hl, fun ha => ?_, (hs 1 _ rfl).mpr fun w hw => ⟨0, Nat.one_pos, _, rfl, hw⟩⟩
  obtain ⟨j, hj, -⟩ := (hs 0 _ rfl).mp ha "a" (by decide)
  cases hj

end Lexer

end LexicalAutomata
