/-
# `LexicalAutomata.Proofs.Lexer.Canonical` — what a grammar matches decides its table

How the expressions of a grammar are written, and in which order productions are declared that do not
compete, leaves no trace in what comes out: the table and the drawing of a grammar depend only on the
names, on which of them are skippable, and on the name of the first production that matches each text
(`compile_canonical`).
-/
import LexicalAutomata.Proofs.Dfa.Canonical
import LexicalAutomata.Proofs.Lexer.Compile
import LexicalAutomata.Table.Codec

namespace LexicalAutomata

variable {g g' : Grammar} {d d' : Dfa} {l l' : Lexer}

/-! ## Grammars that match alike -/

/-- For every text, the first productions that match it have the same name, if any matches. -/
def Grammar.Agrees (g g' : Grammar) : Prop :=
  ∀ text, (g.firstMatch? text).map Production.name = (g'.firstMatch? text).map Production.name

namespace Grammar.Agrees

theorem symm (h : g.Agrees g') : g'.Agrees g := fun text => (h text).symm

theorem viable (h : g.Agrees g') {u : List Char} (hu : g.Viable u) : g'.Viable u := by
  obtain ⟨text, hu, hm⟩ := Grammar.viable_iff_firstMatch?.mp hu
  refine Grammar.viable_iff_firstMatch?.mpr ⟨text, hu, fun hn => hm ?_⟩
  have := h text
  rw [hn, Option.map_none, Option.map_eq_none_iff] at this
  exact this

end Grammar.Agrees

theorem Dfa.Recognizes.same_start (h : d.Recognizes g) (h' : d'.Recognizes g')
    (ha : g.Agrees g') : Dfa.Same d d.start d' d'.start := by
  intro u
  show (d.run u).map State.token = (d'.run u).map State.token
  cases hs : d.run u with
  | none =>
      cases ht : d'.run u with
      | none => rfl
      | some t =>
          obtain ⟨s, hs'⟩ := h.viable_iff.mp (ha.symm.viable (h'.viable_iff.mpr ⟨t, ht⟩))
          rw [hs] at hs'
          cases hs'
  | some s =>
      obtain ⟨t, ht⟩ := h'.viable_iff.mp (ha.viable (h.viable_iff.mpr ⟨s, hs⟩))
      rw [ht, Option.map_some, Option.map_some, h.token_of_run hs, h'.token_of_run ht, ha]

/-! ## One table and one drawing -/

namespace Lexer

theorem Faithful.reduced (h : Faithful g l) : l.dfa.Reduced :=
  ⟨h.recognizes.wellFormed, h.recognizes.deterministic, h.recognizes.epsilonFree,
    h.recognizes.connected, h.minimal⟩

/-- Grammars with the same names and the same skippable names that match alike have one table, with
one serialized form, and one drawing. -/
theorem compile_canonical (g g' : Grammar) (l l' : Lexer) (h : compile g = .ok l)
    (h' : compile g' = .ok l')
    (hnames : ∀ name, (∃ p ∈ g.productions, p.name = name) ↔ ∃ p ∈ g'.productions, p.name = name)
    (hskippable : ∀ name, (∃ p ∈ g.productions, p.skippable ∧ p.name = name) ↔
      ∃ p ∈ g'.productions, p.skippable ∧ p.name = name)
    (hmatch : ∀ text, (g.firstMatch? text).map Production.name =
      (g'.firstMatch? text).map Production.name) :
    l.table = l'.table ∧ l.table.encode = l'.table.encode ∧
      ∃ text, l.dfa.dot? = some text ∧ l'.dfa.dot? = some text := by
  have hf := faithful_of_compile h
  have hf' := faithful_of_compile h'
  have hsame := hf.recognizes.same_start hf'.recognizes hmatch
  have hn : g.tokenNames = g'.tokenNames := by
    refine Ordered.Ascending.ext (Ordered.ascending_ofList _) (Ordered.ascending_ofList _) fun n => ?_
    exact Grammar.mem_tokenNames.trans ((hnames n).trans Grammar.mem_tokenNames.symm)
  have hs : g.skippableTokens = g'.skippableTokens := by
    refine Ordered.Ascending.ext (Ordered.ascending_ofList _) (Ordered.ascending_ofList _) fun n => ?_
    exact Grammar.mem_skippableTokens.trans
      ((hskippable n).trans Grammar.mem_skippableTokens.symm)
  have htable : l.table = l'.table := by
    rw [hf.table_eq, hf'.table_eq, hn, hs]
    exact Dfa.tableOf_eq hf.reduced hf'.reduced hsame _ _
  have hdrawing := Dfa.drawing?_eq hf.reduced hf'.reduced hsame
  obtain ⟨tags, hw⟩ := hf.recognizes.wellFormed
  have hsome := Automaton.drawing?_eq_some hw
  refine ⟨htable, congrArg Table.encode htable, ?_⟩
  rw [Automaton.dot?, Automaton.dot?, ← hdrawing, hsome]
  exact ⟨_, rfl, rfl⟩

/-- Two letters. -/
def letters : Grammar := ⟨[⟨"A", .literal "a", false⟩, ⟨"B", .literal "b", true⟩], by decide⟩

/-- The same two letters, written otherwise. -/
def lettersAgain : Grammar :=
  ⟨[⟨"B", .alternation [.literal "b", .literal "b"], true⟩, ⟨"A", .sequence [.literal "a"], false⟩],
    by decide⟩

theorem letters_agrees : letters.Agrees lettersAgain := by
  intro text
  have ha : (Expr.sequence [.literal "a"]).accepts text = (Expr.literal "a").accepts text := by
    rw [Bool.eq_iff_iff, Expr.accepts_iff_lang, Expr.accepts_iff_lang, Expr.lang_sequence_singleton]
  have hb : (Expr.alternation [.literal "b", .literal "b"]).accepts text =
      (Expr.literal "b").accepts text := by
    rw [Bool.eq_iff_iff, Expr.accepts_iff_lang, Expr.accepts_iff_lang, Expr.lang_alternation]
    simp
  have hne : (Expr.literal "a").accepts text → ¬ (Expr.literal "b").accepts text := by
    simp only [Expr.accepts_iff_lang, Expr.lang_literal]
    intro h h'
    rw [h] at h'
    exact absurd h' (by decide)
  simp only [Grammar.firstMatch?, letters, lettersAgain, List.find?_cons, List.find?_nil, ha, hb]
  cases hta : (Expr.literal "a").accepts text with
  | true =>
      rw [Bool.eq_false_iff.mpr (hne hta)]
      rfl
  | false => cases (Expr.literal "b").accepts text <;> rfl

theorem compile_canonical_letters : ∃ l l', compile letters = .ok l ∧
    compile lettersAgain = .ok l' ∧ l.table = l'.table := by
  obtain ⟨l, hl, -⟩ := @compile_ok letters (by simp [letters])
    (by simp [letters, Expr.productive_literal])
  obtain ⟨l', hl', -⟩ := @compile_ok lettersAgain (by simp [lettersAgain])
    (by simp [lettersAgain, Expr.productive_literal, Expr.productive_alternation,
      Expr.productive_sequence])
  refine ⟨l, l', hl, hl', (compile_canonical letters lettersAgain l l' hl hl' ?_ ?_ letters_agrees).1⟩
  · intro name
    simp [letters, lettersAgain, or_comm]
  · intro name
    simp [letters, lettersAgain]

end Lexer

end LexicalAutomata
