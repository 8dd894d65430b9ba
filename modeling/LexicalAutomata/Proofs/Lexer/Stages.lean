/-
# `LexicalAutomata.Proofs.Lexer.Stages` — what every stage hands to the next

Each stage of a compilation has a contract with the grammar, and a stage that is given an automaton
under the contract of the stage before it cannot fail:

* `Spelled`, after construction: a word completes exactly the tags that are offered for it;
* `Narrowed`, without empty moves: a word completes only tags that are offered, and one that ranks at
  least as low as any of them; a closure may have lost the others;
* `Recognizes`, deterministic, minimized or not: a word is accepted with the tag that wins it.

All of them have no dead ends, so whatever can still be read can still become a token.
-/
import LexicalAutomata.Proofs.Dfa.Reduced
import LexicalAutomata.Proofs.Dfa.Subset
import LexicalAutomata.Proofs.Grammar
import LexicalAutomata.Proofs.Nfa.Construction
import LexicalAutomata.Proofs.Nfa.EpsilonFree
import LexicalAutomata.Proofs.Table.Flatten

namespace LexicalAutomata

open Automaton

/-! ## The contracts -/

/-- The automaton with empty moves spells the grammar. -/
structure Nfa.Spelled (g : Grammar) (n : Nfa) : Prop where
  wellFormed : ∃ tags, n.WellFormed tags
  noDeadEnd : n.NoDeadEnd
  completes_iff : ∀ w tag, n.Completes w tag ↔ g.Offers w tag
  ranked : ∀ s ∈ n.states, ∀ t ∈ n.states, ∀ a ∈ s.accept, ∀ b ∈ t.accept, s.id ≤ t.id →
    a.priority ≤ b.priority

/-- Without empty moves, the automaton offers nothing else, and nothing worse. -/
structure Nfa.Narrowed (g : Grammar) (n : Nfa) : Prop where
  wellFormed : ∃ tags, n.WellFormed tags
  epsilonFree : n.EpsilonFree
  noDeadEnd : n.NoDeadEnd
  offers : ∀ w tag, n.Completes w tag → g.Offers w tag
  completes : ∀ w tag, g.Offers w tag → ∃ tag', n.Completes w tag' ∧ tag'.priority ≤ tag.priority

/-- The deterministic automaton accepts a word with the tag that wins it. -/
structure Dfa.Recognizes (g : Grammar) (d : Dfa) : Prop where
  wellFormed : ∃ tags, d.WellFormed tags
  deterministic : d.Deterministic
  epsilonFree : d.EpsilonFree
  connected : d.Connected
  noDeadEnd : d.NoDeadEnd
  accepts_iff : ∀ w tag, d.accepts w = some tag ↔ g.Wins w tag

variable {g : Grammar} {n : Nfa} {d : Dfa}

/-! ## Construction -/

/-- The exits of the productions of a grammar have the ranks of the grammar. -/
theorem Nfa.Assembled.rank_eq {exits : List Nfa.Exit}
    (hmap : exits.map Nfa.Exit.production = g.productions)
    (hranks : ∀ x ∈ exits, g.ranking.rank? x.production.name = some x.rank) {i : Nat} {x : Nfa.Exit}
    (hi : exits[i]? = some x) : g.productions[i]? = some x.production ∧ x.rank = i + 1 := by
  have hp : g.productions[i]? = some x.production := by
    rw [← hmap, List.getElem?_map, hi]
    rfl
  have hrank := hranks x (List.mem_of_getElem? hi)
  rw [Grammar.rank?_eq hp] at hrank
  exact ⟨hp, (Option.some_inj.mp hrank).symm⟩

theorem Nfa.Assembled.spelled {exits : List Nfa.Exit} (h : Nfa.Assembled exits n)
    (hw : ∃ tags, n.WellFormed tags) (hmap : exits.map Nfa.Exit.production = g.productions)
    (hranks : ∀ x ∈ exits, g.ranking.rank? x.production.name = some x.rank)
    (hne : g.productions ≠ []) (hp : ∀ p ∈ g.productions, p.body.Productive) : n.Spelled g where
  wellFormed := hw
  noDeadEnd := by
    refine h.noDeadEnd (fun e => hne (by rw [← hmap, e]; rfl)) fun x hx => hp _ ?_
    exact hmap ▸ List.mem_map.mpr ⟨x, hx, rfl⟩
  completes_iff w tag := by
    rw [h.completes_iff]
    constructor
    · intro h'
      obtain ⟨x, hx, rfl, hxw⟩ := h'
      obtain ⟨i, hi⟩ := List.mem_iff_getElem?.mp hx
      obtain ⟨hp, hrank⟩ := Nfa.Assembled.rank_eq hmap hranks hi
      exact ⟨i, x.production, hp, hxw, by rw [hrank]⟩
    · intro h'
      obtain ⟨i, p, hp, hpw, rfl⟩ := h'
      rw [← hmap, List.getElem?_map, Option.map_eq_some_iff] at hp
      obtain ⟨x, hx, rfl⟩ := hp
      obtain ⟨-, hrank⟩ := Nfa.Assembled.rank_eq hmap hranks hx
      exact ⟨x, List.mem_of_getElem? hx, by rw [hrank], hpw⟩
  ranked s hs t ht a ha b hb hle := by
    obtain ⟨x, hx, rfl⟩ := h.accepting s hs (accepting_of_accept ha)
    obtain ⟨y, hy, rfl⟩ := h.accepting t ht (accepting_of_accept hb)
    rw [h.accept x hx] at ha
    rw [h.accept y hy] at hb
    cases ha
    cases hb
    obtain ⟨i, hi⟩ := List.mem_iff_getElem?.mp hx
    obtain ⟨j, hj⟩ := List.mem_iff_getElem?.mp hy
    rw [(Nfa.Assembled.rank_eq hmap hranks hi).2, (Nfa.Assembled.rank_eq hmap hranks hj).2]
    refine Nat.succ_le_succ (Nat.le_of_not_lt fun hlt => ?_)
    obtain ⟨hi', ei⟩ := List.getElem?_eq_some_iff.mp hi
    obtain ⟨hj', ej⟩ := List.getElem?_eq_some_iff.mp hj
    have := List.pairwise_iff_getElem.mp h.ascending j i hj' hi' hlt
    rw [ei, ej] at this
    omega

theorem Grammar.exists_rank (g : Grammar) :
    ∀ p ∈ g.productions, ∃ rank, g.ranking.rank? p.name = some rank := by
  intro p hp
  obtain ⟨i, hi⟩ := List.mem_iff_getElem?.mp hp
  exact ⟨i + 1, Grammar.rank?_eq hi⟩

/-- Without a production nothing accepts. -/
theorem Nfa.ofProductions_nil (h : g.productions = []) (σ : Session) :
    ∃ τ, (Nfa.ofProductions g.productions g.ranking).run σ = (.error .noFinalState, τ) := by
  obtain ⟨n, τ, hadd, hrun⟩ := Nfa.run_ofProductions σ g.exists_rank
  obtain ⟨exits, hmap, -, ha⟩ := hadd.assembled
  rw [h, List.map_eq_nil_iff] at hmap
  have hfinal : ¬ n.HasFinal := fun hf => ha.hasFinal_iff.mp hf hmap
  rw [hrun, checkEpsilonNfa_eq_noFinalState hfinal]
  exact ⟨_, rfl⟩

/-- A production that is not productive leaves a state that cannot be reached. -/
theorem Nfa.ofProductions_dead {p : Production} (hp : p ∈ g.productions)
    (hdead : ¬ p.body.Productive) (σ : Session) :
    ∃ k τ, (Nfa.ofProductions g.productions g.ranking).run σ =
      (.error (.disconnected (k + 1)), τ) := by
  obtain ⟨n, τ, hadd, hrun⟩ := Nfa.run_ofProductions σ g.exists_rank
  obtain ⟨exits, hmap, -, ha⟩ := hadd.assembled
  obtain ⟨x, hx, rfl⟩ := List.mem_map.mp (hmap ▸ hp)
  obtain ⟨k, hk⟩ := checkEpsilonNfa_eq_disconnected
    (ha.hasFinal_iff.mpr (List.ne_nil_of_mem hx)) (ha.stranded ⟨x, hx, hdead⟩)
  rw [hrun, hk]
  exact ⟨k, _, rfl⟩

theorem Nfa.ofProductions_ok (hne : g.productions ≠ [])
    (hp : ∀ p ∈ g.productions, p.body.Productive) (σ : Session) :
    ∃ n τ, (Nfa.ofProductions g.productions g.ranking).run σ = (.ok n, τ) ∧ n.Spelled g := by
  obtain ⟨n, τ, hadd, hrun⟩ := Nfa.run_ofProductions σ g.exists_rank
  obtain ⟨exits, hmap, hranks, ha⟩ := hadd.assembled
  rw [hrun, hadd.check_eq_ok hne hp]
  exact ⟨n, _, rfl, ha.spelled hadd.rooted.wellFormed hmap hranks hne hp⟩

/-- Construction succeeds only with an automaton that spells the grammar. -/
theorem Nfa.spelled_of_run {σ τ : Session}
    (h : (Nfa.ofProductions g.productions g.ranking).run σ = (.ok n, τ)) : n.Spelled g := by
  rcases g.productive_cases with hnil | ⟨p, hp, hdead⟩ | ⟨hne, hp⟩
  · obtain ⟨τ', herr⟩ := Nfa.ofProductions_nil hnil σ
    rw [herr] at h
    cases h
  · obtain ⟨k, τ', herr⟩ := Nfa.ofProductions_dead hp hdead σ
    rw [herr] at h
    cases h
  · obtain ⟨m, τ', hok, hm⟩ := Nfa.ofProductions_ok hne hp σ
    rw [hok] at h
    cases h
    exact hm

/-! ## The stages after construction -/

theorem Nfa.Spelled.eliminateEpsilon (h : n.Spelled g) (σ : Session) :
    ∃ m τ, n.eliminateEpsilon.run σ = (.ok m, τ) ∧ m.Narrowed g := by
  obtain ⟨tags, hw⟩ := h.wellFormed
  obtain ⟨image, c, τ, hi, hn, hrun⟩ := Nfa.run_eliminateEpsilon_ok hw h.noDeadEnd σ
  obtain ⟨tags', hwc⟩ := hi.wellFormed
  refine ⟨c.prune, τ, hrun, ⟨tags', hwc.prune⟩, hi.epsilonFree.prune, hn, ?_, ?_⟩
  · intro w tag hc
    exact (h.completes_iff w tag).mp (hi.completes_of_completes hw ((completes_prune hwc).mp hc))
  · intro w tag ho
    obtain ⟨tag', hc, hle⟩ := hi.exists_completes hw h.ranked ((h.completes_iff w tag).mpr ho)
    exact ⟨tag', (completes_prune hwc).mpr hc, hle⟩

theorem Nfa.Narrowed.determinize (h : n.Narrowed g) (σ : Session) :
    ∃ d τ, n.determinize.run σ = (.ok d, τ) ∧ d.Recognizes g := by
  obtain ⟨tags, hw⟩ := h.wellFormed
  obtain ⟨state, d, τ, hd, hn, hrun⟩ := Nfa.run_determinize_ok hw h.epsilonFree h.noDeadEnd σ
  refine ⟨d, τ, hrun, hd.wellFormed, hd.deterministic, hd.epsilonFree,
    hd.connected hw h.epsilonFree, hn, fun w tag => ?_⟩
  have wins_of_accepts : ∀ {tag}, d.accepts w = some tag → g.Wins w tag := by
    intro tag ha
    obtain ⟨hcompletes, hbest⟩ := hd.of_accepts_eq_some hw h.epsilonFree ha
    refine ⟨h.offers w tag hcompletes, fun tag' ho => ?_⟩
    obtain ⟨best, hb, hle⟩ := h.completes w tag' ho
    exact Nat.le_trans (hbest best hb) hle
  refine ⟨wins_of_accepts, fun hwins => ?_⟩
  obtain ⟨tag', hb, -⟩ := h.completes w tag hwins.1
  cases ha : d.accepts w with
  | none => exact absurd hb ((hd.accepts_eq_none_iff hw h.epsilonFree).mp ha tag')
  | some best => rw [(wins_of_accepts ha).unique hwins]

namespace Dfa.Recognizes

/-- Every state has the tag of a word. -/
theorem exists_wins (h : d.Recognizes g) {s : State} (hs : s ∈ d.states) {tag : Accept}
    (ha : s.accept = some tag) : ∃ w, g.Wins w tag := by
  obtain ⟨tags, hw⟩ := h.wellFormed
  obtain ⟨w, hrun⟩ :=
    (Dfa.reaches_iff_run hw h.deterministic h.epsilonFree hs).mp (h.connected s hs)
  refine ⟨w, (h.accepts_iff w tag).mp ?_⟩
  rw [Dfa.accepts, hrun]
  exact ha

/-- The token of a word is the name of the first production that matches it. -/
theorem map_token_accepts (h : d.Recognizes g) (text : String) :
    (d.accepts text.toList).map Accept.token = (g.firstMatch? text).map Production.name := by
  cases ha : d.accepts text.toList with
  | some tag =>
      obtain ⟨p, hp, hname⟩ := Grammar.firstMatch?_eq_some_of_wins ((h.accepts_iff _ tag).mp ha)
      rw [hp, Option.map_some, Option.map_some, hname]
  | none =>
      have hnone : g.firstMatch? text = none := by
        refine Grammar.firstMatch?_eq_none_iff.mpr fun p hp hw => ?_
        obtain ⟨i, hi⟩ := List.mem_iff_getElem?.mp hp
        obtain ⟨tag, hwins⟩ := Grammar.exists_wins ⟨i, p, hi, Expr.accepts_iff_lang.mp hw, rfl⟩
        rw [(h.accepts_iff _ tag).mpr hwins] at ha
        cases ha
      rw [hnone]
      rfl

theorem token_of_run (h : d.Recognizes g) {s : State} {u : List Char} (hrun : d.run u = some s) :
    s.token = (g.firstMatch? (String.ofList u)).map Production.name := by
  rw [← h.map_token_accepts, String.toList_ofList, Dfa.accepts, hrun]
  rfl

/-- There are no dead ends, so a word can be read if it begins a text of the grammar. -/
theorem viable_iff (h : d.Recognizes g) {u : List Char} :
    g.Viable u ↔ ∃ s, d.run u = some s := by
  obtain ⟨tags, hw⟩ := h.wellFormed
  rw [Grammar.viable_iff]
  constructor
  · intro h'
    obtain ⟨v, tag, ho⟩ := h'
    obtain ⟨best, hwins⟩ := Grammar.exists_wins ho
    obtain ⟨t, ht, -⟩ := Option.bind_eq_some_iff.mp ((h.accepts_iff _ best).mpr hwins)
    rw [Dfa.run_append] at ht
    obtain ⟨s, hs, -⟩ := Option.bind_eq_some_iff.mp ht
    exact ⟨s, hs⟩
  · intro h'
    obtain ⟨s, hrun⟩ := h'
    have hs := ((Dfa.run_eq_some_iff hw h.deterministic h.epsilonFree).mp hrun).1
    obtain ⟨t, ht, ha, v, r⟩ := h.noDeadEnd s hs
    obtain ⟨tag, htag⟩ := Option.isSome_iff_exists.mp ha
    refine ⟨v, tag, ((h.accepts_iff (u ++ v) tag).mp ?_).1⟩
    rw [Dfa.accepts, Dfa.run_append, hrun, Option.bind_some,
      (Dfa.runFrom_eq_some_iff hw h.deterministic h.epsilonFree hs).mpr ⟨ht, r⟩]
    exact htag

theorem named (h : d.Recognizes g) : d.Named g.tokenNames := by
  intro s hs token ht
  obtain ⟨tag, ha, rfl⟩ := Option.map_eq_some_iff.mp ht
  obtain ⟨w, ⟨i, p, hp, -, rfl⟩, -⟩ := h.exists_wins hs ha
  exact Grammar.mem_tokenNames.mpr ⟨p, List.mem_of_getElem? hp, rfl⟩

theorem minimize (h : d.Recognizes g) (σ : Session) :
    ∃ m τ, d.minimize.run σ = (.ok m, τ) ∧ m.Recognizes g ∧
      ∀ s ∈ m.states, ∀ t ∈ m.states, Dfa.Same m s m t → s = t := by
  obtain ⟨tags, hw⟩ := h.wellFormed
  obtain ⟨m, τ, hm, hn, hrun⟩ :=
    Dfa.run_minimize_ok hw h.deterministic h.epsilonFree h.noDeadEnd σ
  refine ⟨m, τ, hrun, ⟨hm.reduced.wellFormed, hm.reduced.deterministic, hm.reduced.epsilonFree,
    hm.reduced.connected, hn, fun w tag => ?_⟩, hm.reduced.minimal⟩
  have htag : ∀ v w a b, d.accepts v = some a → d.accepts w = some b → a.token = b.token → a = b :=
    fun v w a b hv hw => ((h.accepts_iff v a).mp hv).1.eq_of_token ((h.accepts_iff w b).mp hw).1
  rw [hm.accepts_eq hw h.deterministic h.epsilonFree h.connected htag, h.accepts_iff]

theorem flatten (h : d.Recognizes g) (σ : Session) :
    ∃ τ, (d.flatten g.tokenNames g.skippableTokens).run σ =
      (.ok (d.tableOf g.tokenNames g.skippableTokens), τ) := by
  obtain ⟨tags, hw⟩ := h.wellFormed
  exact ⟨_, Dfa.run_flatten hw h.deterministic h.epsilonFree (h.noDeadEnd.hasFinal hw) h.connected
    h.named σ⟩

end Dfa.Recognizes

end LexicalAutomata
