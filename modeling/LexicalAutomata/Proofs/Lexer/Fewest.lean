/-
# `LexicalAutomata.Proofs.Lexer.Fewest` — no automaton with the same tokens has fewer states

Minimization merges only states that nothing tells apart, and one thing it looks at is which words can
be read at all.  Nothing is lost by that: the automaton of a grammar has no dead ends, so a word can be
read only if it can be completed, and the tokens after words tell all that can be seen of a state
(`same_of_tokenAfter`).

So let any automaton have the same token after every word.  A word that leads somewhere in the automaton
of the grammar leads somewhere in the other one too, and words to different states lead to different
states (`Meet.unique`).  Hence there are at least as many of these (`Reduced.length_le`).  Nothing is
asked of the other automaton.
-/
import LexicalAutomata.Proofs.Dfa.Fewest
import LexicalAutomata.Proofs.Lexer.Canonical

namespace LexicalAutomata

namespace Dfa

open Automaton

variable {tags : Tags} {d e : Dfa} {s s' t : State} {u v w : List Char}

/-! ## Tokens after words -/

/-- The token after a word, if there is one. -/
def tokenAfter (d : Dfa) (s : State) (w : List Char) : Option String :=
  (d.runFrom s w).bind State.token

theorem map_token_accepts (d : Dfa) (w : List Char) :
    (d.accepts w).map Accept.token = d.tokenAfter d.start w :=
  Option.map_bind

theorem tokenAfter_append (h : d.runFrom s u = some t) :
    d.tokenAfter s (u ++ v) = d.tokenAfter t v := by
  rw [tokenAfter, runFrom_append, h]
  rfl

theorem tokenAfter_eq_none (h : d.runFrom s u = none) : d.tokenAfter s (u ++ v) = none := by
  rw [tokenAfter, runFrom_append, h]
  rfl

/-- Without dead ends, every state can still become a token. -/
theorem exists_tokenAfter (hw : d.WellFormed tags) (hd : d.Deterministic) (he : d.EpsilonFree)
    (hn : d.NoDeadEnd) (hs : s ∈ d.states) : ∃ v token, d.tokenAfter s v = some token := by
  obtain ⟨t, ht, ha, v, r⟩ := hn s hs
  obtain ⟨tag, htag⟩ := Option.isSome_iff_exists.mp ha
  refine ⟨v, tag.token, ?_⟩
  rw [tokenAfter, (runFrom_eq_some_iff hw hd he hs).mpr ⟨ht, r⟩, Option.bind_some, State.token, htag]
  rfl

/-- Without dead ends, tokens tell how far a word can be read. -/
theorem runFrom_eq_none (hw : d.WellFormed tags) (hd : d.Deterministic) (he : d.EpsilonFree)
    (hn : d.NoDeadEnd) (hs : s ∈ d.states) {e : Dfa} {t : State}
    (h : ∀ w, d.tokenAfter s w = e.tokenAfter t w) (ht : e.runFrom t w = none) :
    d.runFrom s w = none := by
  cases hr : d.runFrom s w with
  | none => rfl
  | some u =>
      obtain ⟨v, token, hv⟩ := exists_tokenAfter hw hd he hn (runFrom_mem hw hd he hs hr)
      rw [← tokenAfter_append hr, h, tokenAfter_eq_none ht] at hv
      cases hv

theorem same_of_tokenAfter (hw : d.WellFormed tags) (hd : d.Deterministic) (he : d.EpsilonFree)
    (hn : d.NoDeadEnd) (hs : s ∈ d.states) (ht : t ∈ d.states)
    (h : ∀ w, d.tokenAfter s w = d.tokenAfter t w) : Same d s d t := by
  intro w
  rw [seenAfter, seenAfter]
  cases hr : d.runFrom s w with
  | none => rw [runFrom_eq_none hw hd he hn ht (fun w => (h w).symm) hr]
  | some u =>
      cases hr' : d.runFrom t w with
      | none =>
          rw [runFrom_eq_none hw hd he hn hs h hr'] at hr
          cases hr
      | some u' =>
          have := h w
          rw [tokenAfter, tokenAfter, hr, hr'] at this
          exact congrArg some this

/-! ## Counting states -/

/-- A state of an automaton with the same tokens is met by one state at most. -/
theorem Meet.unique (h : d.Reduced) (hn : d.NoDeadEnd)
    (hagree : ∀ w, d.tokenAfter d.start w = e.tokenAfter e.start w) (hs : Meet d e s t)
    (hs' : Meet d e s' t) : s = s' := by
  obtain ⟨tags, hw⟩ := h.wellFormed
  obtain ⟨u, hu, hut⟩ := hs
  obtain ⟨v, hv, hvt⟩ := hs'
  have hmem := (run_eq_some_iff hw h.deterministic h.epsilonFree).mp hu
  have hmem' := (run_eq_some_iff hw h.deterministic h.epsilonFree).mp hv
  refine h.minimal s hmem.1 s' hmem'.1
    (same_of_tokenAfter hw h.deterministic h.epsilonFree hn hmem.1 hmem'.1 fun w => ?_)
  calc d.tokenAfter s w = d.tokenAfter d.start (u ++ w) := (tokenAfter_append hu).symm
    _ = e.tokenAfter t w := (hagree _).trans (tokenAfter_append hut)
    _ = d.tokenAfter d.start (v ++ w) := ((hagree _).trans (tokenAfter_append hvt)).symm
    _ = d.tokenAfter s' w := tokenAfter_append hv

theorem Meet.exists (h : d.Reduced) (hn : d.NoDeadEnd)
    (hagree : ∀ w, d.tokenAfter d.start w = e.tokenAfter e.start w) (hs : s ∈ d.states) :
    ∃ t, Meet d e s t := by
  obtain ⟨tags, hw⟩ := h.wellFormed
  obtain ⟨w, hrun⟩ :=
    (reaches_iff_run hw h.deterministic h.epsilonFree hs).mp (h.connected s hs)
  cases ht : e.run w with
  | some t => exact ⟨t, w, hrun, ht⟩
  | none =>
      have := runFrom_eq_none hw h.deterministic h.epsilonFree hn hw.start_mem hagree ht
      rw [run, this] at hrun
      cases hrun

/-- Wherever the words lead in an automaton with the same tokens, they lead to as many states. -/
theorem Reduced.length_le (h : d.Reduced) (hn : d.NoDeadEnd)
    (hagree : ∀ w, d.tokenAfter d.start w = e.tokenAfter e.start w) {states : List State}
    (hstates : ∀ w t, e.run w = some t → t ∈ states) : d.states.length ≤ states.length := by
  obtain ⟨tags, hw⟩ := h.wellFormed
  exact length_le_of_meet hw hstates (fun s hs => Meet.exists h hn hagree hs)
    fun s _ s' _ t => Meet.unique h hn hagree

end Dfa

/-! ## The lexer of a grammar -/

namespace Lexer

variable {g : Grammar} {l : Lexer}

/-- An automaton with the same token after every word has at least as many states as the automaton, and
the table, of a grammar. -/
theorem compile_fewest (g : Grammar) (l : Lexer) (h : compile g = .ok l) :
    l.dfa.states.length = l.table.stateCount ∧
    (∀ tags (d : Dfa), d.Built tags →
      (∀ w : String,
        (d.accepts w.toList).map Accept.token = (l.dfa.accepts w.toList).map Accept.token) →
      l.dfa.states.length ≤ d.states.length) ∧
    ∀ d : Dfa,
      (∀ w : String,
        (d.accepts w.toList).map Accept.token = (l.dfa.accepts w.toList).map Accept.token) →
      l.dfa.states.length ≤ d.occurring.length := by
  have hf := faithful_of_compile h
  have hn := hf.recognizes.noDeadEnd
  have hagree : ∀ d : Dfa, (∀ w : String, (d.accepts w.toList).map Accept.token =
      (l.dfa.accepts w.toList).map Accept.token) →
      ∀ w, l.dfa.tokenAfter l.dfa.start w = d.tokenAfter d.start w := by
    intro d hd w
    have := hd (String.ofList w)
    rw [String.toList_ofList, Dfa.map_token_accepts, Dfa.map_token_accepts] at this
    exact this.symm
  refine ⟨?_, fun tags d hb hd => ?_, fun d hd => ?_⟩
  · obtain ⟨tags, hw⟩ := hf.recognizes.wellFormed
    rw [hf.table_eq, Table.stateCount, Dfa.tableOf, List.length_map, Automaton.length_ordered hw]
  · exact hf.reduced.length_le hn (hagree d hd) fun w t ht => Dfa.run_mem_states hb.wellFormed ht
  · exact hf.reduced.length_le hn (hagree d hd) fun w t ht => Dfa.run_mem_occurring ht

/-- The tags of two states, of which the second accepts. -/
def twoTags : Tags := fun i => if i = 1 then some ⟨"A", 1⟩ else none

/-- An automaton of one letter, with two states. -/
def twoStates : Dfa :=
  Dfa.setArc (Automaton.new (.ofTags twoTags 0)) (.ofTags twoTags 0) (.char 'a') (.ofTags twoTags 1)

theorem step_twoStates (s : State) (c : Char) :
    twoStates.step s c = if s.id = 0 ∧ c = 'a' then some (.ofTags twoTags 1) else none := by
  have harcs : twoStates.arcs = [⟨.ofTags twoTags 0, .char 'a', .ofTags twoTags 1⟩] := rfl
  by_cases hs : s.id = 0 <;> by_cases hc : c = 'a' <;>
    simp [Dfa.step, Dfa.target?, Automaton.targets, Automaton.arcsFrom, harcs, State.ofTags, hs, hc,
      @eq_comm _ 0, @eq_comm _ 'a']

theorem accepts_twoStates (w : List Char) :
    twoStates.accepts w = if w = ['a'] then some ⟨"A", 1⟩ else none := by
  have hstart : twoStates.start = .ofTags twoTags 0 := rfl
  match w with
  | [] => rfl
  | [c] =>
      by_cases hc : c = 'a' <;>
        simp [Dfa.accepts, Dfa.run, Dfa.runFrom_cons, Dfa.runFrom_nil, step_twoStates, hstart, hc,
          State.ofTags, twoTags]
  | c :: d :: w =>
      by_cases hc : c = 'a' <;>
        simp [Dfa.accepts, Dfa.run, Dfa.runFrom_cons, step_twoStates, hstart, State.ofTags, hc]

theorem firstMatch?_rivals (text : String) : (rivals.firstMatch? text).map Production.name =
    if text.toList = ['a'] then some "A" else none := by
  have ha : (Expr.literal "a").accepts text = decide (text.toList = ['a']) := by
    rw [Bool.eq_iff_iff, Expr.accepts_iff_lang, Expr.lang_literal, decide_eq_true_iff]
    rfl
  by_cases h : text.toList = ['a'] <;> simp [Grammar.firstMatch?, rivals, ha, h]

theorem compile_fewest_rivals : ∃ l, compile rivals = .ok l ∧ l.dfa.states.length ≤ 2 := by
  obtain ⟨l, hl, hf⟩ := compile_rivals
  have hagree : ∀ w : String, (twoStates.accepts w.toList).map Accept.token =
      (l.dfa.accepts w.toList).map Accept.token := by
    intro w
    rw [hf.recognizes.map_token_accepts, firstMatch?_rivals, accepts_twoStates]
    split <;> rfl
  exact ⟨l, hl, (compile_fewest rivals l hl).2.1 twoTags twoStates (.setArc 0 _ 1 (.new 0)) hagree⟩

end Lexer

end LexicalAutomata
