/-
# `LexicalAutomata.Proofs.Lexer.Viable` — what can be read can still become a token

The automaton of a grammar has no dead states: every state is on the way from the start to a state that
accepts (`Recognizes.live`).  So a word can be read exactly if some production matches a text that begins
with it, and reading stops at the first character after which no production can match any more
(`compile_viable`).  A table follows its automaton and gets stuck on the same words.
-/
import LexicalAutomata.Proofs.Lexer.Compile

namespace LexicalAutomata

variable {g : Grammar} {d : Dfa} {l : Lexer}

theorem Grammar.viable_iff_append {w : String} :
    g.Viable w.toList ↔ ∃ v : String, ∃ p ∈ g.productions, p.body.accepts (w ++ v) := by
  constructor
  · intro h
    obtain ⟨p, hp, text, ha, v, hv⟩ := h
    have htext : text = w ++ String.ofList v := by
      rw [← String.toList_inj, String.toList_append, String.toList_ofList, hv]
    exact ⟨String.ofList v, p, hp, htext ▸ ha⟩
  · intro h
    obtain ⟨v, p, hp, ha⟩ := h
    exact ⟨p, hp, w ++ v, ha, v.toList, String.toList_append.symm⟩

/-- A word leads to each state, and from there a word leads to an accepting one. -/
theorem Dfa.Recognizes.live (h : d.Recognizes g) {s : State} (hs : s ∈ d.states) :
    (∃ u, d.run u = some s) ∧ ∃ v t, d.runFrom s v = some t ∧ t.accepting := by
  obtain ⟨tags, hw⟩ := h.wellFormed
  refine ⟨(Dfa.reaches_iff_run hw h.deterministic h.epsilonFree hs).mp (h.connected s hs), ?_⟩
  obtain ⟨t, ht, ha, v, r⟩ := h.noDeadEnd s hs
  exact ⟨v, t, (Dfa.runFrom_eq_some_iff hw h.deterministic h.epsilonFree hs).mpr ⟨ht, r⟩, ha⟩

namespace Lexer

/-- The table of a grammar follows the automaton of the grammar. -/
theorem Faithful.follow_eq (h : Faithful g l) (w : List Char) :
    l.table.follow 0 w = (l.dfa.run w).map l.dfa.place := by
  obtain ⟨tags, hw⟩ := h.recognizes.wellFormed
  rw [h.table_eq, ← Automaton.place_start hw]
  exact Dfa.follow_place hw h.recognizes.deterministic h.recognizes.epsilonFree hw.start_mem w

/-- The automaton of a grammar reads a word exactly if some production matches the word followed by some
other, every state of it is reached by a word and left by a word to an accepting state, and the table
gets stuck exactly on the words that the automaton cannot read. -/
theorem compile_viable (g : Grammar) (l : Lexer) (h : compile g = .ok l) :
    (∀ w : String, (∃ s, l.dfa.run w.toList = some s) ↔
      ∃ v : String, ∃ p ∈ g.productions, p.body.accepts (w ++ v)) ∧
    (∀ s ∈ l.dfa.states,
      (∃ u, l.dfa.run u = some s) ∧ ∃ v t, l.dfa.runFrom s v = some t ∧ t.accepting) ∧
    ∀ w : String, l.table.follow 0 w.toList = none ↔ l.dfa.run w.toList = none := by
  have hf := faithful_of_compile h
  refine ⟨fun w => ?_, fun s hs => hf.recognizes.live hs, fun w => ?_⟩
  · rw [← hf.recognizes.viable_iff, Grammar.viable_iff_append]
  · rw [hf.follow_eq, Option.map_eq_none_iff]

theorem compile_viable_rivals : ∃ l, compile rivals = .ok l ∧
    (∃ s, l.dfa.run "a".toList = some s) ∧ l.table.follow 0 "ab".toList = none := by
  obtain ⟨l, hl, -⟩ := compile_rivals
  obtain ⟨hread, -, hstuck⟩ := compile_viable rivals l hl
  refine ⟨l, hl, (hread "a").mpr ⟨"", ⟨"A", .literal "a", false⟩, by simp [rivals], by decide⟩,
    (hstuck "ab").mpr ?_⟩
  cases hrun : l.dfa.run "ab".toList with
  | none => rfl
  | some s =>
      obtain ⟨v, p, hp, ha⟩ := (hread "ab").mp ⟨s, hrun⟩
      have hbody : p.body = .literal "a" := by
        rcases List.mem_pair.mp hp with rfl | rfl <;> rfl
      rw [hbody, Expr.accepts_iff_lang, Expr.lang_literal, String.toList_append] at ha
      cases ha

end Lexer

end LexicalAutomata
