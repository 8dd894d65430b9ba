/-
# `LexicalAutomata.Proofs.Lexer.Tokens` — a text is cut as its grammar says

A tokenizer knows nothing but a table.  What it should do is said here without one (`Grammar.Cuts`):
the next lexeme is the longest beginning of the text that also begins some text of the grammar; it is a
token of the production declared first among those that match it; and if none matches, or if there is
nothing to read, an error ends the tokens.

A table has an edge wherever reading can go on, since its automaton has no dead ends, and so a walk
reads the longest viable beginning (`Faithful.walk_eq`).  The state it is then in has the token of the
first production that matches (`Reading.tokenAt_eq`).  Both together say what one step does
(`Reading.step_spec`), and by induction along the text, what all of them do (`Reading.cuts_drain`).  Calls
for a token give just this, one after another (`tokenizer_cuts`).
-/
import LexicalAutomata.Proofs.Lexer.Compile
import LexicalAutomata.Proofs.Tokenizer

namespace LexicalAutomata

/-! ## How a grammar cuts a text -/

namespace Grammar

variable {g : Grammar} {before rest u v : List Char} {p : Production}
  {items items' : List (Except LexError Token)}

/-- `u` is the longest beginning of `rest` that begins a text of the grammar. -/
structure Longest (g : Grammar) (rest u : List Char) : Prop where
  begins : u <+: rest
  viable : g.Viable u
  longest : ∀ v, v <+: rest → g.Viable v → v.length ≤ u.length

/-- The token of a production: its index is the place of its name among all names in order, and it
stands where `before` ends. -/
def tokenOf (g : Grammar) (p : Production) (before u : List Char) : Token where
  name := p.name
  index := g.tokenNames.idxOf p.name
  text := u
  first := Location.initial.advance before
  last := Location.initial.advance (before ++ u)

/-- `Cuts g before rest items`: behind `before`, the tokens of `rest` are `items`, which an error may
end. -/
inductive Cuts (g : Grammar) : List Char → List Char → List (Except LexError Token) → Prop
  | finished (before : List Char) : Cuts g before [] []
  | lexical {before rest u : List Char} : rest ≠ [] → g.Longest rest u →
      g.firstMatch? (String.ofList u) = none →
      Cuts g before rest
        [.error (.lexical ((String.ofList before).utf8ByteSize + (String.ofList u).utf8ByteSize))]
  | emptyMatch {before rest : List Char} {p : Production} : rest ≠ [] → g.Longest rest [] →
      g.firstMatch? "" = some p →
      Cuts g before rest [.error (.emptyMatch (String.ofList before).utf8ByteSize)]
  | skipped {before rest u v : List Char} {p : Production} {items : List (Except LexError Token)} :
      rest = u ++ v → u ≠ [] → g.Longest rest u → g.firstMatch? (String.ofList u) = some p →
      p.skippable = true → Cuts g (before ++ u) v items → Cuts g before rest items
  | token {before rest u v : List Char} {p : Production} {items : List (Except LexError Token)} :
      rest = u ++ v → u ≠ [] → g.Longest rest u → g.firstMatch? (String.ofList u) = some p →
      p.skippable = false → Cuts g (before ++ u) v items →
      Cuts g before rest (.ok (g.tokenOf p before u) :: items)

theorem Longest.unique (h : g.Longest rest u) (h' : g.Longest rest v) : u = v := by
  have hle := h'.longest u h.begins h.viable
  have hge := h.longest v h'.begins h'.viable
  exact (List.prefix_of_prefix_length_le h.begins h'.begins hle).eq_of_length
    (Nat.le_antisymm hle hge)

/-- The longest beginning and its first match tell how the cut goes on. -/
theorem Cuts.inv (h : g.Cuts before rest items) (hne : rest ≠ []) (hl : g.Longest rest u) :
    match g.firstMatch? (String.ofList u) with
    | none => items =
        [.error (.lexical ((String.ofList before).utf8ByteSize + (String.ofList u).utf8ByteSize))]
    | some p =>
        if u = [] then items = [.error (.emptyMatch (String.ofList before).utf8ByteSize)]
        else
          ∃ v, rest = u ++ v ∧
            if p.skippable then g.Cuts (before ++ u) v items
            else ∃ rest, items = .ok (g.tokenOf p before u) :: rest ∧ g.Cuts (before ++ u) v rest := by
  cases h with
  | finished => exact absurd rfl hne
  | lexical _ hl' hm =>
      obtain rfl := hl.unique hl'
      simp only [hm]
  | emptyMatch _ hl' hm =>
      obtain rfl := hl.unique hl'
      simp only [String.ofList_nil, hm, if_true]
  | skipped e hu hl' hm hs hc =>
      obtain rfl := hl.unique hl'
      simp only [hm, hs, if_neg hu, if_true]
      exact ⟨_, e, hc⟩
  | token e hu hl' hm hs hc =>
      obtain rfl := hl.unique hl'
      simp only [hm, hs, if_neg hu, Bool.false_eq_true, if_false]
      exact ⟨_, e, _, rfl, hc⟩

theorem Cuts.nil (h : g.Cuts before [] items) : items = [] := by
  cases h with
  | finished => rfl
  | lexical hne => exact absurd rfl hne
  | emptyMatch hne => exact absurd rfl hne
  | skipped e hu => exact absurd (List.append_eq_nil_iff.mp e.symm).1 hu
  | token e hu => exact absurd (List.append_eq_nil_iff.mp e.symm).1 hu

/-- There is one way to cut a text. -/
theorem Cuts.unique (h : g.Cuts before rest items) (h' : g.Cuts before rest items') :
    items = items' := by
  induction h generalizing items' with
  | finished => exact h'.nil.symm
  | lexical hne hl hm =>
      have := h'.inv hne hl
      simp only [hm] at this
      exact this.symm
  | emptyMatch hne hl hm =>
      have := h'.inv hne hl
      simp only [String.ofList_nil, hm, if_true] at this
      exact this.symm
  | skipped e hu hl hm hs _ ih =>
      have hne := e ▸ List.append_ne_nil_of_left_ne_nil hu _
      have := h'.inv hne hl
      simp only [hm, hs, if_neg hu, if_true] at this
      obtain ⟨v, e', hc⟩ := this
      obtain rfl := List.append_cancel_left (e.symm.trans e')
      exact ih hc
  | token e hu hl hm hs _ ih =>
      have hne := e ▸ List.append_ne_nil_of_left_ne_nil hu _
      have := h'.inv hne hl
      simp only [hm, hs, if_neg hu, Bool.false_eq_true, if_false] at this
      obtain ⟨v, e', items, rfl, hc⟩ := this
      obtain rfl := List.append_cancel_left (e.symm.trans e')
      rw [ih hc]

theorem contains_skippableTokens (hp : p ∈ g.productions) :
    g.skippableTokens.contains p.name = p.skippable := by
  rw [Bool.eq_iff_iff, List.contains_iff_mem, mem_skippableTokens]
  constructor
  · intro h
    obtain ⟨q, hq, hs, e⟩ := h
    exact eq_of_name hq hp e ▸ hs
  · exact fun hs => ⟨p, hp, hs, rfl⟩

end Grammar

/-! ## A walk reads the longest viable beginning -/

namespace Lexer

variable {g : Grammar} {l : Lexer}

theorem Faithful.walk_eq (h : Faithful g l) (rest : List Char) : ∃ s u v, rest = u ++ v ∧
    l.table.walk 0 rest = ⟨l.dfa.place s, u, v⟩ ∧ l.dfa.run u = some s ∧ g.Longest rest u := by
  obtain ⟨tags, hw⟩ := h.recognizes.wellFormed
  obtain ⟨s, -, u, v, rfl, hwalk, hrun, hstuck⟩ :=
    @Dfa.walk_place tags l.dfa g.tokenNames g.skippableTokens l.dfa.start hw
      h.recognizes.deterministic h.recognizes.epsilonFree hw.start_mem rest
  rw [Automaton.place_start hw, ← h.table_eq] at hwalk
  have hrun : l.dfa.run u = some s := hrun
  refine ⟨s, u, v, rfl, hwalk, hrun, List.prefix_append u v, h.recognizes.viable_iff.mpr ⟨s, hrun⟩, ?_⟩
  intro w hpre hviable
  -- a longer beginning would go on where the walk is stuck
  refine Nat.le_of_not_lt fun hlt => ?_
  obtain ⟨v', rfl⟩ := List.prefix_of_prefix_length_le (List.prefix_append u v) hpre (Nat.le_of_lt hlt)
  cases v' with
  | nil => simp at hlt
  | cons c v' =>
      obtain ⟨x, hx⟩ := h.recognizes.viable_iff.mp hviable
      obtain ⟨v'', rfl⟩ := (List.prefix_append_right_inj u).mp hpre
      rw [Dfa.run_append, hrun, Option.bind_some, Dfa.runFrom_cons, hstuck c rfl] at hx
      cases hx

end Lexer

/-! ## What a tokenizer does next -/

/-- The tokenizer follows the table of the lexer, has read `before`, and met no error. -/
structure Tokenizer.Reading (l : Lexer) (before : List Char) (t : Tokenizer) : Prop where
  table_eq : t.table = l.table
  names_eq : t.names = l.names
  location_eq : t.location = Location.initial.advance before
  failed_eq : t.failed = false

namespace Tokenizer.Reading

open Lexer

variable {g : Grammar} {l : Lexer} {t : Tokenizer} {before : List Char}

/-- The state that a word leads to has the token of the first production that matches the word. -/
theorem tokenAt_eq (h : t.Reading l before) (hf : Faithful g l) {s : State} {u : List Char}
    (hrun : l.dfa.run u = some s) : t.tokenAt (l.dfa.place s) =
      (g.firstMatch? (String.ofList u)).map fun p =>
        (g.tokenNames.idxOf p.name, p.name, p.skippable) := by
  obtain ⟨tags, hw⟩ := hf.recognizes.wellFormed
  have hs := ((Dfa.run_eq_some_iff hw hf.recognizes.deterministic hf.recognizes.epsilonFree).mp hrun).1
  have htoken := hf.recognizes.token_of_run hrun
  unfold tokenAt
  rw [h.table_eq, hf.table_eq, Dfa.row?_place hw hs, h.names_eq, hf.names_eq]
  cases hm : g.firstMatch? (String.ofList u) with
  | none =>
      rw [hm] at htoken
      simp [Dfa.rowAt, htoken]
  | some p =>
      rw [hm] at htoken
      have hp : p ∈ g.productions := List.mem_of_find?_eq_some hm
      have hindex : (l.dfa.rowAt g.tokenNames g.skippableTokens s).token =
          some (g.tokenNames.idxOf p.name) := by
        show s.token.map _ = _
        rw [htoken]
        rfl
      have hskip : (l.dfa.rowAt g.tokenNames g.skippableTokens s).skippable = p.skippable := by
        show s.token.any _ = _
        rw [htoken]
        exact Grammar.contains_skippableTokens hp
      have hget : g.tokenNames[g.tokenNames.idxOf p.name]? = some p.name :=
        List.getElem?_idxOf (Grammar.mem_tokenNames.mpr ⟨p, hp, rfl⟩)
      simp only [Option.bind_eq_bind, Option.bind_some, hindex, hget, hskip]
      rfl

theorem offset_eq (h : t.Reading l before) :
    t.location.offset = (String.ofList before).utf8ByteSize := by
  rw [h.location_eq, Location.offset_advance]
  exact Nat.zero_add _

/-- One step reads the longest viable beginning, and the first production that matches it decides. -/
theorem step_spec (h : t.Reading l before) (hf : Faithful g l) :
    match t.step with
    | .finished => t.rest = []
    | .failed e => g.Cuts before t.rest [.error e]
    | .lexeme x v _ => ∃ u p, t.rest = u ++ v ∧ u ≠ [] ∧ g.Longest t.rest u ∧
        g.firstMatch? (String.ofList u) = some p ∧ x = ⟨g.tokenOf p before u, p.skippable⟩ := by
  by_cases hne : t.rest = []
  · rw [step_eq_finished hne]
    exact hne
  · obtain ⟨s, u, v, e, hwalk, hrun, hlongest⟩ := hf.walk_eq t.rest
    rw [← h.table_eq] at hwalk
    have htoken := h.tokenAt_eq hf hrun
    cases hm : g.firstMatch? (String.ofList u) with
    | none =>
        rw [hm] at htoken
        rw [step_eq_lexical hne hwalk htoken, Location.offset_advance, h.offset_eq]
        exact .lexical hne hlongest hm
    | some p =>
        rw [hm] at htoken
        by_cases hu : u = []
        · subst hu
          rw [step_eq_emptyMatch hne hwalk htoken, h.offset_eq]
          exact .emptyMatch hne hlongest hm
        · obtain ⟨hlt, hstep⟩ := step_eq_lexeme hne hwalk htoken hu
          rw [hstep, h.location_eq, ← Location.advance_append]
          exact ⟨u, p, e, hu, hlongest, hm, rfl⟩

/-- Behind a lexeme, its text has been read too. -/
theorem moveTo (h : t.Reading l before) (p : Production) (u v : List Char) :
    (t.moveTo ⟨g.tokenOf p before u, p.skippable⟩ v).Reading l (before ++ u) :=
  ⟨h.table_eq, h.names_eq, rfl, h.failed_eq⟩

/-- The tokens that are read are those of the grammar. -/
theorem cuts_drain (h : t.Reading l before) (hf : Faithful g l) :
    g.Cuts before t.rest t.drain.items := by
  fun_induction drain t generalizing before with
  | case1 t hfailed =>
      rw [h.failed_eq] at hfailed
      cases hfailed
  | case2 t _ hs =>
      have hspec := h.step_spec hf
      simp only [hs] at hspec
      exact hspec ▸ .finished before
  | case3 t _ e hs =>
      have hspec := h.step_spec hf
      simp only [hs] at hspec
      exact hspec
  | case4 t _ x v _ hs answers =>
      rename_i ih
      have hspec := h.step_spec hf
      simp only [hs] at hspec
      obtain ⟨u, p, e, hu, hl, hm, rfl⟩ := hspec
      have hc := ih (h.moveTo p u v)
      cases hp : p.skippable with
      | true => exact .skipped e hu hl hm hp hc
      | false => exact .token e hu hl hm hp hc

end Tokenizer.Reading

/-! ## The tokens of a text -/

namespace Lexer

variable {g : Grammar} {l : Lexer}

/-- Every token of the table has a name. -/
theorem Faithful.unnamed?_eq_none (h : Faithful g l) : Tokenizer.unnamed? l.table l.names = none := by
  obtain ⟨tags, hw⟩ := h.recognizes.wellFormed
  refine List.find?_eq_none.mpr fun i hi => ?_
  obtain ⟨r, hr, hri⟩ := List.mem_filterMap.mp hi
  rw [h.table_eq] at hr
  obtain ⟨s, hs, rfl⟩ := List.mem_map.mp hr
  obtain ⟨token, ht, rfl⟩ := Option.map_eq_some_iff.mp hri
  have hmem := h.recognizes.named s ((Automaton.mem_ordered hw).mp hs) token ht
  rw [h.names_eq, decide_eq_true_iff, Nat.not_le]
  exact List.findIdx_lt_length_of_exists ⟨token, hmem, beq_self_eq_true token⟩

theorem Faithful.tokenizer_eq_ok (h : Faithful g l) (text : String) :
    ∃ t, l.tokenizer text = .ok t ∧ t.rest = text.toList ∧ t.Reading l [] := by
  unfold tokenizer Tokenizer.ofTable
  split
  · next i hi =>
    rw [h.unnamed?_eq_none] at hi
    cases hi
  · exact ⟨_, rfl, rfl, rfl, rfl, rfl, rfl⟩

/-- Every text has a tokenizer.  What its calls for tokens give one after another, until nothing comes any
more, is what the grammar says, and nothing else is. -/
theorem tokenizer_cuts (g : Grammar) (l : Lexer) (h : compile g = .ok l) (text : String) :
    ∃ t, l.tokenizer text = .ok t ∧ t.RunsOut t.drain ∧
      ∀ items, t.drain.items = items ↔ g.Cuts [] text.toList items := by
  have hf := faithful_of_compile h
  obtain ⟨t, ht, hrest, hr⟩ := hf.tokenizer_eq_ok text
  have hc := hr.cuts_drain hf
  rw [hrest] at hc
  exact ⟨t, ht, t.runsOut_drain, fun items => ⟨fun e => e ▸ hc, fun hc' => hc.unique hc'⟩⟩

theorem viable_rivals {u : List Char} : rivals.Viable u ↔ u <+: ['a'] := by
  constructor
  · intro h
    obtain ⟨p, hp, text, ha, hu⟩ := h
    have hbody : p.body = .literal "a" := by
      simp only [rivals, List.mem_cons, List.not_mem_nil, or_false] at hp
      rcases hp with rfl | rfl <;> rfl
    rw [hbody, Expr.accepts_iff_lang, Expr.lang_literal] at ha
    rw [ha] at hu
    exact hu
  · exact fun hu => ⟨⟨"A", .literal "a", false⟩, List.mem_cons_self, "a", by decide, hu⟩

/-- Behind the first letter, the second begins nothing. -/
theorem tokenizer_cuts_rivals : ∃ l t, compile rivals = .ok l ∧ l.tokenizer "ab" = .ok t ∧
    t.drain.items = [.ok ⟨"A", 0, ['a'], ⟨1, 1, 0⟩, ⟨1, 2, 1⟩⟩, .error (.lexical 1)] ∧
    (t.calls 3).items =
      [some (.ok ⟨"A", 0, ['a'], ⟨1, 1, 0⟩, ⟨1, 2, 1⟩⟩), some (.error (.lexical 1)), none] := by
  obtain ⟨l, hl, -⟩ := compile_rivals
  obtain ⟨t, ht, hrun, hitems⟩ := tokenizer_cuts rivals l hl "ab"
  have hfirst : rivals.Longest ['a', 'b'] ['a'] :=
    ⟨List.prefix_append ['a'] ['b'], viable_rivals.mpr List.prefix_rfl,
      fun v _ hv => (viable_rivals.mp hv).length_le⟩
  have hnext : rivals.Longest ['b'] [] := by
    refine ⟨List.nil_prefix, viable_rivals.mpr List.nil_prefix, fun v hvb hva => ?_⟩
    cases v with
    | nil => exact Nat.le_refl 0
    | cons c v =>
        have hb := (List.cons_prefix_cons.mp hvb).1
        have ha := (List.cons_prefix_cons.mp (viable_rivals.mp hva)).1
        rw [ha] at hb
        cases hb
  have hdrain := (hitems _).mpr (@Grammar.Cuts.token rivals [] _ ['a'] ['b'] ⟨"A", .literal "a", false⟩ _
    rfl (by simp) hfirst rfl rfl (.lexical (by simp) hnext rfl))
  refine ⟨l, t, hl, ht, hdrain, ?_⟩
  rw [hrun.items, hdrain]
  rfl

end Lexer

end LexicalAutomata
