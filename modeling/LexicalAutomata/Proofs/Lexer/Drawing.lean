/-
# `LexicalAutomata.Proofs.Lexer.Drawing` — what can be read off the drawing of a constructed automaton

Where every line of one automaton is a line of another, each path of the first is followed by a path of the
second, place by place (`Reads.follow`); and the lines of accepting states carry the tokens along.  So
automata with one drawing recognize the same texts as the same tokens, empty moves or not
(`acceptsAs_iff_of_drawing`).

The text of a drawing is less than the drawing: it writes the character `ε` and the empty move in the same
way.  What an arc of a constructed automaton reads occurs in a text that some production matches
(`Adding.exists_word`).  So the text says all of this about productions that match no text with that
character (`dot_faithful`), and about others it does not (`dot_unfaithful`).
-/
import Mathlib.Data.List.Basic
import LexicalAutomata.Proofs.Automaton.DrawingText
import LexicalAutomata.Proofs.Lexer.Ranked

namespace LexicalAutomata

open Automaton

variable {r : Ranking} {ps : List Production} {p : Production} {n : Nfa} {w : List Char} {s : State}
  {tags tags' : Tags} {σ τ : Session} {token : String}

/-! ## Drawings -/

namespace Automaton

variable {k : Kind} {a b : Automaton k}

/-- A path that spells the word leads from the start to a state that completes the token. -/
def AcceptsAs (a : Automaton k) (w : List Char) (token : String) : Prop :=
  ∃ s ∈ a.states, Reads a a.start.id w s.id ∧ s.token = some token

theorem acceptsAs_iff_completes :
    a.AcceptsAs w token ↔ ∃ tag, a.Completes w tag ∧ tag.token = token := by
  simp only [AcceptsAs, Completes, State.token, Option.map_eq_some_iff]
  constructor
  · rintro ⟨s, hs, hr, tag, hacc, htoken⟩
    exact ⟨tag, ⟨s, hs, hr, hacc⟩, htoken⟩
  · rintro ⟨tag, ⟨s, hs, hr, hacc⟩, htoken⟩
    exact ⟨s, hs, hr, tag, hacc, htoken⟩

/-- From a state at the same place, a path is followed to a state at the same place. -/
theorem Reads.follow (ha : a.WellFormed tags) (hb : b.WellFormed tags')
    (hlines : ∀ x ∈ a.arcs.map a.lineOf, x ∈ b.arcs.map b.lineOf) {i j : Nat} (h : Reads a i w j) :
    ∀ s ∈ a.states, s.id = i → ∀ t ∈ a.states, t.id = j →
      ∀ s' ∈ b.states, b.place s' = a.place s →
        ∃ t' ∈ b.states, b.place t' = a.place t ∧ Reads b s'.id w t'.id := by
  -- the first arc of a path has a line, which is that of an arc from the same place to the same place
  have harc : ∀ e ∈ a.arcs, ∀ s ∈ a.states, s.id = e.source.id → ∀ s' ∈ b.states,
      b.place s' = a.place s → ∃ e' ∈ b.arcs, e'.source = s' ∧ e'.symbol = e.symbol ∧
        b.place e'.target = a.place e.target := by
    intro e he s hs hid s' hs' hplace
    obtain ⟨e', he', heq⟩ := List.mem_map.mp (hlines _ (List.mem_map.mpr ⟨e, he, rfl⟩))
    obtain ⟨hsource, hsymbol, htarget⟩ := Prod.mk.inj heq |>.imp id Prod.mk.inj
    rw [ha.eq_of_id hs (ha.source_mem e he) hid, ← hsource] at hplace
    exact ⟨e', he', (place_injective hb hs' (hb.source_mem e' he') hplace).symm, hsymbol, htarget⟩
  induction h with
  | stay i =>
      intro s hs hi t ht hj s' hs' hplace
      obtain rfl := ha.eq_of_id hs ht (hi.trans hj.symm)
      exact ⟨s', hs', hplace, .stay _⟩
  | @empty e w j he hx _ ih =>
      intro s hs hi t ht hj s' hs' hplace
      obtain ⟨e', he', rfl, hx', htarget⟩ := harc e he s hs hi s' hs' hplace
      obtain ⟨t', ht', hplace', hr⟩ :=
        ih e.target (ha.target_mem e he) rfl t ht hj e'.target (hb.target_mem e' he') htarget
      exact ⟨t', ht', hplace', .empty he' (hx'.trans hx) hr⟩
  | @char e c w j he hx _ ih =>
      intro s hs hi t ht hj s' hs' hplace
      obtain ⟨e', he', rfl, hx', htarget⟩ := harc e he s hs hi s' hs' hplace
      obtain ⟨t', ht', hplace', hr⟩ :=
        ih e.target (ha.target_mem e he) rfl t ht hj e'.target (hb.target_mem e' he') htarget
      exact ⟨t', ht', hplace', .char he' (hx'.trans hx) hr⟩

theorem AcceptsAs.of_lines (ha : a.WellFormed tags) (hb : b.WellFormed tags')
    (hlines : ∀ x ∈ a.arcs.map a.lineOf, x ∈ b.arcs.map b.lineOf)
    (hfinals : ∀ x ∈ a.acceptingStates.map a.finalOf, x ∈ b.acceptingStates.map b.finalOf)
    (h : a.AcceptsAs w token) : b.AcceptsAs w token := by
  obtain ⟨t, ht, hr, htoken⟩ := h
  have hstart : b.place b.start = a.place a.start := (place_start hb).trans (place_start ha).symm
  obtain ⟨t', ht', hplace, hr'⟩ :=
    hr.follow ha hb hlines a.start ha.start_mem rfl t ht rfl b.start hb.start_mem hstart
  exact ⟨t', ht', hr', token_of_finals hb hfinals ht ht' hplace.symm htoken⟩

/-- Automata with one drawing recognize the same. -/
theorem acceptsAs_iff_of_drawing (ha : a.WellFormed tags) (hb : b.WellFormed tags')
    (h : a.drawing? = b.drawing?) : a.AcceptsAs w token ↔ b.AcceptsAs w token := by
  obtain ⟨hlines, hfinals⟩ := (drawing?_eq_iff ha hb).mp h
  exact ⟨.of_lines ha hb (fun x => (hlines x).mp) fun x => (hfinals x).mp,
    .of_lines hb ha (fun x => (hlines x).mpr) fun x => (hfinals x).mpr⟩

end Automaton

/-! ## Constructed automata -/

namespace Nfa

/-- What an arc reads occurs in a word of some production. -/
theorem Adding.exists_word (h : Adding r ps n τ) (hf : n.HasFinal) (hc : n.Connected) {e : Arc}
    (he : e ∈ n.arcs) : ∃ p ∈ ps, ∃ u v, p.body.Lang (u ++ (e.symbol.toChar?.toList ++ v)) := by
  obtain ⟨tags, hw⟩ := h.rooted.wellFormed
  -- the arc lies on a path from the start to an accepting state
  obtain ⟨u, hu⟩ := hc e.source (hw.source_mem e he)
  obtain ⟨t, ht, hacc, v, hv⟩ := h.noDeadEnd hf hc e.target (hw.target_mem e he)
  obtain ⟨tag, htag⟩ := Option.isSome_iff_exists.mp hacc
  obtain ⟨p, hp, hlang, -⟩ :=
    h.completes_iff.mp ⟨t, ht, hu.append ((Reads.of_arc he).append hv), htag⟩
  exact ⟨p, hp, u, v, hlang⟩

/-- A token is the name of a production. -/
theorem Adding.exists_name (h : Adding r ps n τ) (hs : s ∈ n.states) (htoken : s.token = some token) :
    ∃ p ∈ ps, p.name = token := by
  obtain ⟨exits, rfl, -, ha⟩ := h.assembled
  obtain ⟨x, hx, rfl⟩ := ha.accepting s hs (State.accepting_iff_token.mpr ⟨token, htoken⟩)
  rw [State.token, ha.accept x hx] at htoken
  exact ⟨x.production, List.mem_map.mpr ⟨x, hx, rfl⟩, Option.some_inj.mp htoken⟩

/-- A constructed automaton recognizes what its productions match, by their names. -/
theorem acceptsAs_iff_of_run (hrun : (ofProductions ps r).run σ = (.ok n, τ)) :
    n.AcceptsAs w token ↔ ∃ p ∈ ps, p.body.Lang w ∧ p.name = token := by
  have hranked := ranked_of_run hrun
  obtain ⟨τ', hadd, -⟩ := checked_of_run hranked hrun
  simp only [acceptsAs_iff_completes, hadd.completes_iff]
  constructor
  · rintro ⟨tag, ⟨p, hp, hw, hname, -⟩, rfl⟩
    exact ⟨p, hp, hw, hname⟩
  · rintro ⟨p, hp, hw, rfl⟩
    obtain ⟨rank, hrank⟩ := hranked p hp
    exact ⟨⟨p.name, rank⟩, ⟨p, hp, hw, rfl, hrank⟩, rfl⟩

/-- What the drawing of a constructed automaton needs in order that its text can be read back. -/
theorem legible_of_run (hrun : (ofProductions ps r).run σ = (.ok n, τ))
    (hline : ∀ p ∈ ps, '\n' ∉ p.name.toList)
    (hletter : ∀ p ∈ ps, ∀ w : String, p.body.accepts w → 'ε' ∉ w.toList) :
    ∃ tags, n.WellFormed tags ∧ (∀ e ∈ n.arcs, e.symbol ≠ .char 'ε') ∧
      ∀ s ∈ n.states, ∀ token, s.token = some token → '\n' ∉ token.toList := by
  obtain ⟨τ', hadd, hf, hc⟩ := checked_of_run (ranked_of_run hrun) hrun
  obtain ⟨tags, hw⟩ := hadd.rooted.wellFormed
  refine ⟨tags, hw, fun e he hx => ?_, fun s hs token htoken => ?_⟩
  · obtain ⟨p, hp, u, v, hlang⟩ := hadd.exists_word hf hc he
    rw [hx] at hlang
    have hword := hletter p hp (String.ofList (u ++ 'ε' :: v))
    rw [Expr.accepts_iff_lang, String.toList_ofList] at hword
    exact hword hlang (List.mem_append_right u List.mem_cons_self)
  · obtain ⟨p, hp, rfl⟩ := hadd.exists_name hs htoken
    exact hline p hp

/-- Where no name of a production has a newline, and no text that a production matches has the character
`ε`, constructed automata are drawn, and those with one text of a drawing recognize the same texts as the
same tokens. -/
theorem dot_faithful (ps ps' : List Production) (r r' : Ranking) (σ σ' τ τ' : Session) (n n' : Nfa)
    (hrun : (ofProductions ps r).run σ = (.ok n, τ))
    (hrun' : (ofProductions ps' r').run σ' = (.ok n', τ'))
    (hline : ∀ p ∈ ps ++ ps', '\n' ∉ p.name.toList)
    (hletter : ∀ p ∈ ps ++ ps', ∀ w : String, p.body.accepts w → 'ε' ∉ w.toList) :
    (∃ text, n.dot? = some text) ∧ (∃ text, n'.dot? = some text) ∧
      (n.dot? = n'.dot? → ∀ w token, n.AcceptsAs w token ↔ n'.AcceptsAs w token) := by
  obtain ⟨hline, hline'⟩ := List.forall_mem_append.mp hline
  obtain ⟨hletter, hletter'⟩ := List.forall_mem_append.mp hletter
  obtain ⟨tags, hw, hx, hn⟩ := legible_of_run hrun hline hletter
  obtain ⟨tags', hw', hx', hn'⟩ := legible_of_run hrun' hline' hletter'
  refine ⟨exists_dot hw, exists_dot hw', fun h w token => ?_⟩
  exact acceptsAs_iff_of_drawing hw hw'
    (drawing?_eq_of_dot?_eq hw hw' Drawing.label_injOn_of_ne_letter hx hx' hn hn' h)

/-- The drawing of four arcs in a row, which are empty moves but for the third. -/
def inARow (x : Symbol) (token : String) : Drawing :=
  ⟨[(0, .epsilon, 1), (1, .epsilon, 2), (2, x, 3), (3, .epsilon, 4)], 0, [(4, token)]⟩

/-- One letter, as a literal. -/
def oneLetter : List Production := [⟨"A", .literal "a", false⟩]

/-- One letter, as a sequence of one literal. -/
def oneItem : List Production := [⟨"A", .sequence [.literal "a"], true⟩]

/-- Written in two ways, and constructed in sessions that differ, one letter is recognized alike. -/
theorem dot_faithful_oneLetter : ∃ n n' τ τ', (ofProductions oneLetter ⟨["A"]⟩).run .empty = (.ok n, τ) ∧
    (ofProductions oneItem ⟨["B", "A"]⟩).run ⟨⟨5⟩, []⟩ = (.ok n', τ') ∧
    ∀ w token, n.AcceptsAs w token ↔ n'.AcceptsAs w token := by
  have hletter : ∀ p ∈ oneLetter ++ oneItem, ∀ w : String, p.body.accepts w → 'ε' ∉ w.toList := by
    intro p hp w hw
    have hlang : w.toList = "a".toList := by
      rw [Expr.accepts_iff_lang] at hw
      rcases List.mem_pair.mp hp with rfl | rfl
      · exact Expr.lang_literal.mp hw
      · exact Expr.lang_literal.mp (Expr.lang_sequence_singleton.mp hw)
    rw [hlang]
    decide
  obtain ⟨n, τ, hrun, hn⟩ := Stage.exists_run_of_toOption (ofProductions oneLetter ⟨["A"]⟩) .empty
    drawing? (some (inARow (.char 'a') "A")) (by decide +kernel)
  obtain ⟨n', τ', hrun', hn'⟩ := Stage.exists_run_of_toOption (ofProductions oneItem ⟨["B", "A"]⟩)
    ⟨⟨5⟩, []⟩ drawing? (some (inARow (.char 'a') "A")) (by decide +kernel)
  obtain ⟨-, -, h⟩ := dot_faithful oneLetter oneItem ⟨["A"]⟩ ⟨["B", "A"]⟩ .empty ⟨⟨5⟩, []⟩ τ τ' n n'
    hrun hrun' (by decide) hletter
  refine ⟨n, n', τ, τ', hrun, hrun', h ?_⟩
  rw [dot?, dot?, hn, hn']

/-- The character `ε` alone. -/
def letterAlone : List Production := [⟨"S", .literal "ε", false⟩]

/-- No text at all, spelled by as many empty moves in a row. -/
def nothingInTurn : List Production := [⟨"S", .sequence [.literal "", .sequence []], false⟩]

/-- With the character `ε` the text of a drawing does not tell enough: these two have the same, and only the
second recognizes the empty text. -/
theorem dot_unfaithful : ∃ n n' τ τ', (ofProductions letterAlone ⟨["S"]⟩).run .empty = (.ok n, τ) ∧
    (ofProductions nothingInTurn ⟨["S"]⟩).run .empty = (.ok n', τ') ∧
    (∀ p ∈ letterAlone ++ nothingInTurn, '\n' ∉ p.name.toList) ∧ n.dot? = n'.dot? ∧
    ¬ n.AcceptsAs [] "S" ∧ n'.AcceptsAs [] "S" := by
  obtain ⟨n, τ, hrun, hn⟩ := Stage.exists_run_of_toOption (ofProductions letterAlone ⟨["S"]⟩) .empty
    drawing? (some (inARow (.char 'ε') "S")) (by decide +kernel)
  obtain ⟨n', τ', hrun', hn'⟩ := Stage.exists_run_of_toOption (ofProductions nothingInTurn ⟨["S"]⟩) .empty
    drawing? (some (inARow .epsilon "S")) (by decide +kernel)
  refine ⟨n, n', τ, τ', hrun, hrun', by decide, ?_, fun hw => ?_, (acceptsAs_iff_of_run hrun').mpr ?_⟩
  · rw [dot?, dot?, hn, hn']
    decide +kernel
  · obtain ⟨p, hp, hw, -⟩ := (acceptsAs_iff_of_run hrun).mp hw
    obtain rfl := List.mem_singleton.mp hp
    cases Expr.lang_literal.mp hw
  · exact ⟨_, List.mem_singleton.mpr rfl,
      .sequence (.literal "") (.sequence .emptySequence .emptySequence), rfl⟩

end Nfa

end LexicalAutomata
