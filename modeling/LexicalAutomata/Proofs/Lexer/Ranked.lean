/-
# `LexicalAutomata.Proofs.Lexer.Ranked` — productions under the ranks of another grammar

The stages take a list of productions and a ranking.  In a compilation the ranking is that of the same
list; but any ranking will do that knows the names, in whatever order it ranks them, and then names may
occur again.  Two stages choose among tags, by different rules: empty moves are removed in favour of the
state issued first, and subsets are formed in favour of the lowest rank.

The first rule decides only at the start.  Nothing enters the start, and behind it a state leads to one
exit at most, so the closure of no other state has a choice (`Images.completes_iff_of_ne_nil`).  Hence a
word that is not empty has the tag of the lowest rank, and the empty word that of the first production
in the list, whatever its rank (`stages_accept`).
-/
import LexicalAutomata.Proofs.Lexer.Compile

namespace LexicalAutomata

open Automaton

variable {r : Ranking} {ps : List Production} {p q : Production} {n c : Nfa} {d m : Dfa}
  {exits : List Nfa.Exit} {tags : Tags} {w : List Char} {tag tag' : Accept} {σ τ : Session}

/-! ## Tags under a ranking -/

namespace Ranking

theorem exists_of_rank? {token : String} {k : Nat} (h : r.rank? token = some k) :
    ∃ i, k = i + 1 ∧ r.names[i]? = some token := by
  rw [rank?, Option.map_eq_some_iff] at h
  obtain ⟨i, hi, rfl⟩ := h
  obtain ⟨hlt, htoken, -⟩ := List.findIdx?_eq_some_iff_getElem.mp hi
  exact ⟨i, rfl, by rw [List.getElem?_eq_getElem hlt, beq_iff_eq.mp htoken]⟩

/-- No two tokens have the same rank. -/
theorem token_unique {a b : String} {k : Nat} (ha : r.rank? a = some k) (hb : r.rank? b = some k) :
    a = b := by
  obtain ⟨i, rfl, hi⟩ := exists_of_rank? ha
  obtain ⟨j, hij, hj⟩ := exists_of_rank? hb
  obtain rfl := Nat.succ_injective hij
  exact Option.some_inj.mp (hi.symm.trans hj)

/-- The tag of a production: its name, and the rank of the name. -/
def Gives (r : Ranking) (p : Production) (tag : Accept) : Prop :=
  p.name = tag.token ∧ r.rank? p.name = some tag.priority

theorem Gives.eq_of_token (h : r.Gives p tag) (h' : r.Gives q tag') (e : tag.token = tag'.token) :
    tag = tag' := by
  obtain ⟨hp, hrank⟩ := h
  obtain ⟨hq, hrank'⟩ := h'
  have hname : p.name = q.name := (hp.trans e).trans hq.symm
  rw [hname, hrank'] at hrank
  cases tag
  cases tag'
  cases e
  cases hrank
  rfl

theorem Gives.eq_of_priority (h : r.Gives p tag) (h' : r.Gives q tag')
    (e : tag.priority = tag'.priority) : tag = tag' :=
  h.eq_of_token h' (h.1.symm.trans ((token_unique h.2 (e ▸ h'.2)).trans h'.1))

/-- A production that matches the word has this tag. -/
def Offers (r : Ranking) (ps : List Production) (w : List Char) (tag : Accept) : Prop :=
  ∃ p ∈ ps, p.body.Lang w ∧ r.Gives p tag

/-- The first production that matches the empty word has this tag. -/
def OffersNothing (r : Ranking) (ps : List Production) (tag : Accept) : Prop :=
  ∃ p, (ps.find? fun p => p.body.accepts "") = some p ∧ r.Gives p tag

theorem Offers.eq_of_token {v : List Char} (h : r.Offers ps v tag) (h' : r.Offers ps w tag')
    (e : tag.token = tag'.token) : tag = tag' := by
  obtain ⟨p, -, -, hp⟩ := h
  obtain ⟨q, -, -, hq⟩ := h'
  exact hp.eq_of_token hq e

theorem Offers.eq_of_priority (h : r.Offers ps w tag) (h' : r.Offers ps w tag')
    (e : tag.priority = tag'.priority) : tag = tag' := by
  obtain ⟨p, -, -, hp⟩ := h
  obtain ⟨q, -, -, hq⟩ := h'
  exact hp.eq_of_priority hq e

theorem lang_nil_iff : p.body.Lang [] ↔ p.body.accepts "" :=
  (@Expr.accepts_iff_lang p.body "").symm

theorem OffersNothing.offers (h : r.OffersNothing ps tag) : r.Offers ps [] tag := by
  obtain ⟨p, hp, hgives⟩ := h
  have ha := @List.find?_some Production (fun p => p.body.accepts "") p ps hp
  exact ⟨p, List.mem_of_find?_eq_some hp, lang_nil_iff.mpr ha, hgives⟩

theorem OffersNothing.unique (h : r.OffersNothing ps tag) (h' : r.OffersNothing ps tag') :
    tag = tag' := by
  obtain ⟨p, hp, hgives⟩ := h
  obtain ⟨q, hq, hgives'⟩ := h'
  obtain rfl := Option.some_inj.mp (hp.symm.trans hq)
  exact hgives.eq_of_token hgives' (hgives.1.symm.trans hgives'.1)

/-- Where all names have ranks, whatever matches offers a tag. -/
theorem offers_nothing_iff (h : ∀ p ∈ ps, ∃ rank, r.rank? p.name = some rank) :
    (∀ tag, ¬ r.Offers ps w tag) ↔ ∀ p ∈ ps, ¬ p.body.Lang w := by
  constructor
  · intro hnone p hp hw
    obtain ⟨rank, hrank⟩ := h p hp
    exact hnone ⟨p.name, rank⟩ ⟨p, hp, hw, rfl, hrank⟩
  · intro hnone tag h'
    obtain ⟨p, hp, hw, -⟩ := h'
    exact hnone p hp hw

theorem offersNothing_none_iff (h : ∀ p ∈ ps, ∃ rank, r.rank? p.name = some rank) :
    (∀ tag, ¬ r.OffersNothing ps tag) ↔ ∀ p ∈ ps, ¬ p.body.Lang [] := by
  constructor
  · intro hnone p hp hw
    cases hfind : ps.find? fun p => p.body.accepts "" with
    | none => exact List.find?_eq_none.mp hfind p hp (lang_nil_iff.mp hw)
    | some q =>
        obtain ⟨rank, hrank⟩ := h q (List.mem_of_find?_eq_some hfind)
        exact hnone ⟨q.name, rank⟩ ⟨q, hfind, rfl, hrank⟩
  · intro hnone tag h'
    obtain ⟨p, hp, hw, -⟩ := h'.offers
    exact hnone p hp hw

end Ranking

/-! ## Construction -/

namespace Nfa

theorem Adding.ranked (h : Adding r ps n τ) : ∀ p ∈ ps, ∃ rank, r.rank? p.name = some rank := by
  obtain ⟨exits, rfl, hranks, -⟩ := h.assembled
  intro p hp
  obtain ⟨x, hx, rfl⟩ := List.mem_map.mp hp
  exact ⟨x.rank, hranks x hx⟩

/-- A word completes the tags of the productions that match it. -/
theorem Adding.completes_iff (h : Adding r ps n τ) : n.Completes w tag ↔ r.Offers ps w tag := by
  obtain ⟨exits, rfl, hranks, ha⟩ := h.assembled
  rw [ha.completes_iff]
  constructor
  · intro h'
    obtain ⟨x, hx, rfl, hw⟩ := h'
    exact ⟨x.production, List.mem_map.mpr ⟨x, hx, rfl⟩, hw, rfl, hranks x hx⟩
  · intro h'
    obtain ⟨p, hp, hw, hgives⟩ := h'
    obtain ⟨x, hx, rfl⟩ := List.mem_map.mp hp
    have hx' : r.Gives x.production ⟨x.production.name, x.rank⟩ := ⟨rfl, hranks x hx⟩
    exact ⟨x, hx, hgives.eq_of_token hx' hgives.1.symm, hw⟩

theorem Adding.noDeadEnd (h : Adding r ps n τ) (hf : n.HasFinal) (hc : n.Connected) :
    n.NoDeadEnd := by
  obtain ⟨exits, -, -, ha⟩ := h.assembled
  refine ha.noDeadEnd (ha.hasFinal_iff.mp hf) fun x hx => ?_
  by_contra hp
  exact ha.stranded ⟨x, hx, hp⟩ hc

/-- What is known of an automaton whose construction succeeds. -/
theorem checked_of_run (h : ∀ p ∈ ps, ∃ rank, r.rank? p.name = some rank)
    (hrun : (ofProductions ps r).run σ = (.ok n, τ)) :
    ∃ τ', Adding r ps n τ' ∧ n.HasFinal ∧ n.Connected := by
  obtain ⟨n', τ', hadd, hcheck⟩ := run_ofProductions σ h
  rw [hcheck] at hrun
  by_cases hf : n'.HasFinal
  · by_cases hc : n'.Connected
    · rw [checkEpsilonNfa_eq_ok hf hc] at hrun
      cases hrun
      exact ⟨τ', hadd, hf, hc⟩
    · obtain ⟨k, hk⟩ := checkEpsilonNfa_eq_disconnected hf hc
      rw [hk] at hrun
      cases hrun
  · rw [checkEpsilonNfa_eq_noFinalState hf] at hrun
    cases hrun

/-- Construction succeeds only where every state can still become a token. -/
theorem adding_of_run (h : ∀ p ∈ ps, ∃ rank, r.rank? p.name = some rank)
    (hrun : (ofProductions ps r).run σ = (.ok n, τ)) : ∃ τ', Adding r ps n τ' ∧ n.NoDeadEnd := by
  obtain ⟨τ', hadd, hf, hc⟩ := checked_of_run h hrun
  exact ⟨τ', hadd, hadd.noDeadEnd hf hc⟩

theorem ranked_of_run_foldlM {m : Nfa} (hrun : (ps.foldlM (addRanked r) n).run σ = (.ok m, τ)) :
    ∀ p ∈ ps, ∃ rank, r.rank? p.name = some rank := by
  induction ps generalizing n σ with
  | nil => exact List.forall_mem_nil _
  | cons p ps ih =>
      rw [List.foldlM_cons] at hrun
      obtain ⟨n', σ', hp, hps⟩ := Stage.exists_of_run_bind hrun
      refine List.forall_mem_cons.mpr ⟨?_, ih hps⟩
      cases hrank : r.rank? p.name with
      | none =>
          simp only [addRanked, hrank] at hp
          cases hp
      | some rank => exact ⟨rank, rfl⟩

/-- Construction succeeds only where the ranking knows every name. -/
theorem ranked_of_run (hrun : (ofProductions ps r).run σ = (.ok n, τ)) :
    ∀ p ∈ ps, ∃ rank, r.rank? p.name = some rank := by
  rw [ofProductions] at hrun
  obtain ⟨n₀, σ₀, -, hrun⟩ := Stage.exists_of_run_bind hrun
  obtain ⟨n₁, σ₁, hrun, -⟩ := Stage.exists_of_run_bind hrun
  exact ranked_of_run_foldlM hrun

/-- What construction gives has no numbers but those issued so far. -/
theorem rooted_of_run (hrun : (ofProductions ps r).run σ = (.ok n, τ)) :
    n.Rooted τ.supply.issued := by
  obtain ⟨n', τ', hadd, hcheck⟩ := run_ofProductions σ (ranked_of_run hrun)
  rw [hcheck, Prod.mk.injEq] at hrun
  obtain ⟨hok, rfl⟩ := hrun
  obtain ⟨_, -, rfl⟩ := exists_of_map hok
  exact hadd.rooted

theorem run_ofProductions_ok (h : ∀ p ∈ ps, ∃ rank, r.rank? p.name = some rank) (hne : ps ≠ [])
    (hp : ∀ p ∈ ps, p.body.Productive) (σ : Session) :
    ∃ n τ, (ofProductions ps r).run σ = (.ok n, τ) := by
  obtain ⟨n, τ, hadd, hrun⟩ := run_ofProductions σ h
  rw [hrun, hadd.check_eq_ok hne hp]
  exact ⟨n, _, rfl⟩

/-! ## Closures -/

section Closures
variable {image : State → State}

/-- The state issued first among the exits is that of the production first in the list. -/
theorem find?_eq_some_of_least (h : exits.Pairwise fun x y => x.state.id < y.state.id)
    {P : Exit → Bool} {x : Exit} (hx : x ∈ exits) (hP : P x)
    (hleast : ∀ y ∈ exits, P y → x.state.id ≤ y.state.id) : exits.find? P = some x := by
  induction exits with
  | nil => cases hx
  | cons y ys ih =>
      obtain ⟨hy, hys⟩ := List.pairwise_cons.mp h
      rcases List.mem_cons.mp hx with rfl | hx
      · exact List.find?_cons_of_pos hP
      · have hnot : ¬ P y := fun hPy =>
          Nat.not_lt_of_le (hleast y List.mem_cons_self hPy) (hy x hx)
        rw [List.find?_cons_of_neg hnot]
        exact ih hys hx fun z hz => hleast z (List.mem_cons_of_mem _ hz)

/-- The closure of the start has the tag of the first production that matches the empty word. -/
theorem Images.accept_start (h : Images n image c) (hw : n.WellFormed tags)
    (ha : Assembled exits n) : (image n.start).accept =
      (exits.find? fun x => x.production.body.accepts "").map
        fun x => ⟨x.production.name, x.rank⟩ := by
  have hreads : ∀ x ∈ exits, Reads n n.start.id [] x.state.id ↔ x.production.body.accepts "" :=
    fun x hx => (ha.reads x hx []).trans Ranking.lang_nil_iff
  cases hacc : (image n.start).accept with
  | some tag =>
      obtain ⟨u, hu, ru, htag, hfirst⟩ := h.accept_eq_some hw.start_mem hacc
      obtain ⟨x, hx, rfl⟩ := ha.accepting u hu (accepting_of_accept htag)
      have hfind := find?_eq_some_of_least (P := fun x => x.production.body.accepts "") ha.ascending hx
        ((hreads x hx).mp ru) fun y hy hP => hfirst y.state (ha.mem_states y hy)
          ((hreads y hy).mpr hP) (accepting_of_accept (ha.accept y hy))
      rw [hfind, Option.map_some, ← htag, ha.accept x hx]
  | none =>
      have hnone : (exits.find? fun x => x.production.body.accepts "") = none := by
        refine List.find?_eq_none.mpr fun x hx hP => ?_
        have := (h.accepting_iff hw.start_mem).mpr ⟨x.state, ha.mem_states x hx,
          (hreads x hx).mpr hP, accepting_of_accept (ha.accept x hx)⟩
        rw [State.accepting, hacc] at this
        cases this
      rw [hnone]
      rfl

theorem Images.completes_nil_iff (h : Images n image c) :
    c.Completes [] tag ↔ (image n.start).accept = some tag := by
  obtain ⟨tags', hwc⟩ := h.wellFormed
  rw [← h.start]
  constructor
  · intro h'
    obtain ⟨s, hs, hr, ha⟩ := h'
    rwa [hwc.eq_of_id hs hwc.start_mem (h.epsilonFree.reads_nil_iff.mp hr)] at ha
  · exact fun ha => ⟨c.start, hwc.start_mem, .stay _, ha⟩

/-- Behind the start closures have no choice, so no tag of a word is lost that leads there. -/
theorem Images.completes_iff_of_ne_nil (h : Images n image c) (hw : n.WellFormed tags)
    (hstart : ∀ e ∈ n.arcs, e.target.id ≠ n.start.id) (ha : Assembled exits n) (hne : w ≠ []) :
    c.Completes w tag ↔ n.Completes w tag := by
  refine ⟨h.completes_of_completes hw, fun h' => ?_⟩
  obtain ⟨u, hu, ru, htag⟩ := h'
  obtain ⟨x, hx, rfl⟩ := ha.accepting u hu (accepting_of_accept htag)
  obtain ⟨t, ht, rt, rx⟩ := (h.reads_iff hw hw.start_mem).mp ru
  have hts : t ≠ n.start := by
    rintro rfl
    have rt' := (h.reads_iff hw hw.start_mem).mpr ⟨n.start, ht, rt, .stay _⟩
    exact hne (rt'.eq_of_source hstart).1
  obtain ⟨tag', htag'⟩ := Option.isSome_iff_exists.mp
    ((h.accepting_iff ht).mpr ⟨x.state, hu, rx, accepting_of_accept htag⟩)
  obtain ⟨v, hv, rv, hacc, -⟩ := h.accept_eq_some ht htag'
  obtain ⟨y, hy, rfl⟩ := ha.accepting v hv (accepting_of_accept hacc)
  obtain rfl := ha.apart t ht hts x hx y hy ⟨[], rx⟩ ⟨[], rv⟩
  refine ⟨image t, (h.mem_states _).mpr ⟨t, ht, rfl⟩, h.start ▸ rt, ?_⟩
  rw [htag', ← hacc, htag]

end Closures

/-- Without empty moves, words complete what they are offered, and the empty word only the first of it. -/
structure Merges (r : Ranking) (ps : List Production) (c : Nfa) : Prop where
  ranked : ∀ p ∈ ps, ∃ rank, r.rank? p.name = some rank
  wellFormed : ∃ tags, c.WellFormed tags
  epsilonFree : c.EpsilonFree
  noDeadEnd : c.NoDeadEnd
  completes_iff : ∀ w ≠ [], ∀ tag, c.Completes w tag ↔ r.Offers ps w tag
  completes_nil_iff : ∀ tag, c.Completes [] tag ↔ r.OffersNothing ps tag

theorem Adding.eliminateEpsilon (h : Adding r ps n τ) (hn : n.NoDeadEnd) (σ : Session) :
    ∃ c σ', n.eliminateEpsilon.run σ = (.ok c, σ') ∧ c.Merges r ps := by
  obtain ⟨tags, hw⟩ := h.rooted.wellFormed
  obtain ⟨image, c, σ', hi, hnc, hrun⟩ := run_eliminateEpsilon_ok hw hn σ
  obtain ⟨tags', hwc⟩ := hi.wellFormed
  refine ⟨c.prune, σ', hrun, h.ranked, ⟨tags', hwc.prune⟩, hi.epsilonFree.prune, hnc,
    fun w hne tag => ?_, fun tag => ?_⟩
  · obtain ⟨exits, -, -, ha⟩ := h.assembled
    rw [completes_prune hwc, hi.completes_iff_of_ne_nil hw h.rooted.isolated ha hne, h.completes_iff]
  · obtain ⟨exits, rfl, hranks, ha⟩ := h.assembled
    rw [completes_prune hwc, hi.completes_nil_iff, hi.accept_start hw ha, Option.map_eq_some_iff]
    simp only [Ranking.OffersNothing, List.find?_map, Option.map_eq_some_iff, Function.comp_def]
    constructor
    · intro h'
      obtain ⟨x, hx, rfl⟩ := h'
      exact ⟨x.production, ⟨x, hx, rfl⟩, rfl, hranks x (List.mem_of_find?_eq_some hx)⟩
    · intro h'
      obtain ⟨-, ⟨x, hx, rfl⟩, hgives⟩ := h'
      have hx' : r.Gives x.production ⟨x.production.name, x.rank⟩ :=
        ⟨rfl, hranks x (List.mem_of_find?_eq_some hx)⟩
      exact ⟨x, hx, hx'.eq_of_token hgives hgives.1⟩

end Nfa

/-! ## Subsets and classes -/

namespace Dfa

/-- Words are accepted with the tag of the lowest rank, the empty word with the first one. -/
structure Decides (r : Ranking) (ps : List Production) (d : Dfa) : Prop where
  wellFormed : ∃ tags, d.WellFormed tags
  deterministic : d.Deterministic
  epsilonFree : d.EpsilonFree
  connected : d.Connected
  noDeadEnd : d.NoDeadEnd
  accepts_iff : ∀ w ≠ [], ∀ tag, d.accepts w = some tag ↔
    r.Offers ps w tag ∧ ∀ tag', r.Offers ps w tag' → tag.priority ≤ tag'.priority
  accepts_nil_iff : ∀ tag, d.accepts [] = some tag ↔ r.OffersNothing ps tag
  accepts_eq_none_iff : ∀ w, d.accepts w = none ↔ ∀ p ∈ ps, ¬ p.body.Lang w

end Dfa

theorem Nfa.Merges.determinize (h : n.Merges r ps) (σ : Session) :
    ∃ d σ', n.determinize.run σ = (.ok d, σ') ∧ d.Decides r ps := by
  obtain ⟨tags, hw⟩ := h.wellFormed
  obtain ⟨state, d, σ', hd, hn, hrun⟩ := Nfa.run_determinize_ok hw h.epsilonFree h.noDeadEnd σ
  refine ⟨d, σ', hrun, hd.wellFormed, hd.deterministic, hd.epsilonFree,
    hd.connected hw h.epsilonFree, hn, fun w hne tag => ?_, fun tag => ?_, fun w => ?_⟩
  · rw [hd.accepts_eq_some_iff hw h.epsilonFree]
    · simp only [h.completes_iff w hne]
    · intro tag tag' ht ht'
      exact ((h.completes_iff w hne tag).mp ht).eq_of_priority ((h.completes_iff w hne tag').mp ht')
  · have hunique : ∀ tag tag', n.Completes [] tag → n.Completes [] tag' → tag = tag' :=
      fun tag tag' ht ht' =>
        ((h.completes_nil_iff tag).mp ht).unique ((h.completes_nil_iff tag').mp ht')
    rw [hd.accepts_eq_some_iff hw h.epsilonFree fun tag tag' ht ht' _ => hunique tag tag' ht ht',
      ← h.completes_nil_iff]
    exact ⟨And.left, fun ht => ⟨ht, fun tag' ht' => by rw [hunique tag tag' ht ht']⟩⟩
  · rw [hd.accepts_eq_none_iff hw h.epsilonFree]
    by_cases hnil : w = []
    · simp only [hnil, h.completes_nil_iff, Ranking.offersNothing_none_iff h.ranked]
    · simp only [h.completes_iff w hnil, Ranking.offers_nothing_iff h.ranked]

namespace Dfa.Decides

theorem offers (h : d.Decides r ps) (ha : d.accepts w = some tag) : r.Offers ps w tag := by
  by_cases hnil : w = []
  · rw [hnil] at ha ⊢
    exact ((h.accepts_nil_iff tag).mp ha).offers
  · exact ((h.accepts_iff w hnil tag).mp ha).1

theorem minimize (h : d.Decides r ps) (σ : Session) :
    ∃ m σ', d.minimize.run σ = (.ok m, σ') ∧ m.Decides r ps := by
  obtain ⟨tags, hw⟩ := h.wellFormed
  obtain ⟨m, σ', hm, hn, hrun⟩ :=
    Dfa.run_minimize_ok hw h.deterministic h.epsilonFree h.noDeadEnd σ
  have haccepts := hm.accepts_eq hw h.deterministic h.epsilonFree h.connected
    fun v w a b hv hw => (h.offers hv).eq_of_token (h.offers hw)
  refine ⟨m, σ', hrun, hm.reduced.wellFormed, hm.reduced.deterministic, hm.reduced.epsilonFree,
    hm.reduced.connected, hn, ?_, ?_, ?_⟩
  · simpa only [haccepts] using h.accepts_iff
  · simpa only [haccepts] using h.accepts_nil_iff
  · simpa only [haccepts] using h.accepts_eq_none_iff

end Dfa.Decides

/-! ## The stages in a row -/

/-- Once construction succeeds, so do the stages after it. -/
theorem Lexer.run_decides (h : ∀ p ∈ ps, ∃ rank, r.rank? p.name = some rank)
    (hrun : (Nfa.ofProductions ps r).run σ = (.ok n, τ)) :
    ∃ nfa σ₁ d σ₂ m σ₃, n.eliminateEpsilon.run τ = (.ok nfa, σ₁) ∧
      nfa.determinize.run σ₁ = (.ok d, σ₂) ∧ d.minimize.run σ₂ = (.ok m, σ₃) ∧ m.Decides r ps := by
  obtain ⟨τ', hadd, hn⟩ := Nfa.adding_of_run h hrun
  obtain ⟨nfa, σ₁, hnfa, hmerges⟩ := hadd.eliminateEpsilon hn τ
  obtain ⟨d, σ₂, hd, hdecides⟩ := hmerges.determinize σ₁
  obtain ⟨m, σ₃, hm, hmin⟩ := hdecides.minimize σ₂
  exact ⟨nfa, σ₁, d, σ₂, m, σ₃, hnfa, hd, hm, hmin⟩

/-- The tag of the lowest rank, production by production. -/
theorem Ranking.best_iff {token : String} {rank : Nat} {w : String} :
    (r.Offers ps w.toList ⟨token, rank⟩ ∧
      ∀ tag', r.Offers ps w.toList tag' → rank ≤ tag'.priority) ↔
    ∃ p ∈ ps, p.body.accepts w ∧ p.name = token ∧ r.rank? p.name = some rank ∧
      ∀ q ∈ ps, q.body.accepts w → ∀ k, r.rank? q.name = some k → rank ≤ k := by
  simp only [Expr.accepts_iff_lang]
  constructor
  · intro h'
    obtain ⟨⟨p, hp, hw, hname, hrank⟩, hbest⟩ := h'
    exact ⟨p, hp, hw, hname, hrank, fun q hq hqw k hk => hbest ⟨q.name, k⟩ ⟨q, hq, hqw, rfl, hk⟩⟩
  · intro h'
    obtain ⟨p, hp, hw, hname, hrank, hbest⟩ := h'
    refine ⟨⟨p, hp, hw, hname, hrank⟩, fun tag' ho => ?_⟩
    obtain ⟨q, hq, hqw, -, hk⟩ := ho
    exact hbest q hq hqw _ hk

namespace Lexer

/-- Where the ranking of a grammar knows all names of a list of productions, and the stages succeed in
turn for the list, the automaton accepts a word that is not empty with the tag of the lowest rank among
the productions that match it, and the empty word with the tag of the first production in the list that
matches it, whatever the ranks. -/
theorem stages_accept (g : Grammar) (ps : List Production)
    (hranked : ∀ p ∈ ps, ∃ rank, g.ranking.rank? p.name = some rank) (σ σ₁ σ₂ σ₃ σ₄ : Session)
    (n nfa : Nfa) (d m : Dfa) (hn : (Nfa.ofProductions ps g.ranking).run σ = (.ok n, σ₁))
    (hnfa : n.eliminateEpsilon.run σ₁ = (.ok nfa, σ₂)) (hd : nfa.determinize.run σ₂ = (.ok d, σ₃))
    (hm : d.minimize.run σ₃ = (.ok m, σ₄)) :
    (∀ w : String, w ≠ "" →
      (∀ token rank, m.accepts w.toList = some ⟨token, rank⟩ ↔
        ∃ p ∈ ps, p.body.accepts w ∧ p.name = token ∧ g.ranking.rank? p.name = some rank ∧
          ∀ q ∈ ps, q.body.accepts w → ∀ k, g.ranking.rank? q.name = some k → rank ≤ k) ∧
      (m.accepts w.toList = none ↔ ∀ p ∈ ps, ¬ p.body.accepts w)) ∧
    (∀ token rank, m.accepts "".toList = some ⟨token, rank⟩ ↔
      ∃ p, (ps.find? fun p => p.body.accepts "") = some p ∧ p.name = token ∧
        g.ranking.rank? p.name = some rank) ∧
    (m.accepts "".toList = none ↔ ∀ p ∈ ps, ¬ p.body.accepts "") := by
  obtain ⟨nfa', σ₂', d', σ₃', m', σ₄', hnfa', hd', hm', h⟩ := run_decides hranked hn
  rw [hnfa'] at hnfa
  cases hnfa
  rw [hd'] at hd
  cases hd
  rw [hm'] at hm
  cases hm
  have hnone : ∀ w : String, m.accepts w.toList = none ↔ ∀ p ∈ ps, ¬ p.body.accepts w := by
    intro w
    simp only [h.accepts_eq_none_iff, Expr.accepts_iff_lang]
  refine ⟨fun w hne => ⟨fun token rank => ?_, hnone w⟩, fun token rank => ?_, hnone ""⟩
  · rw [h.accepts_iff _ (fun e => hne (String.toList_eq_nil_iff.mp e)), Ranking.best_iff]
  · exact h.accepts_nil_iff ⟨token, rank⟩

/-- Two productions for the empty word and for one letter, against the order of their ranks. -/
def againstRank : List Production :=
  [⟨"B", .optional (.literal "a"), false⟩, ⟨"A", .optional (.literal "a"), false⟩]

theorem stages_accept_againstRank : ∃ n σ₁ nfa σ₂ d σ₃ m σ₄,
    (Nfa.ofProductions againstRank rivals.ranking).run .empty = (.ok n, σ₁) ∧
    n.eliminateEpsilon.run σ₁ = (.ok nfa, σ₂) ∧ nfa.determinize.run σ₂ = (.ok d, σ₃) ∧
    d.minimize.run σ₃ = (.ok m, σ₄) ∧ m.accepts "".toList = some ⟨"B", 2⟩ ∧
    m.accepts "a".toList = some ⟨"A", 1⟩ := by
  have hranked : ∀ p ∈ againstRank, ∃ rank, rivals.ranking.rank? p.name = some rank := by
    intro p hp
    rcases List.mem_pair.mp hp with rfl | rfl
    · exact ⟨2, by decide⟩
    · exact ⟨1, by decide⟩
  obtain ⟨n, σ₁, hn⟩ := Nfa.run_ofProductions_ok hranked (by simp [againstRank])
    (by simp [againstRank, Expr.productive_optional, Expr.productive_literal]) .empty
  obtain ⟨nfa, σ₂, d, σ₃, m, σ₄, hnfa, hd, hm, -⟩ := run_decides hranked hn
  obtain ⟨hword, hempty, -⟩ := stages_accept rivals againstRank hranked .empty σ₁ σ₂ σ₃ σ₄ n nfa d m
    hn hnfa hd hm
  refine ⟨n, σ₁, nfa, σ₂, d, σ₃, m, σ₄, hn, hnfa, hd, hm, (hempty "B" 2).mpr ?_,
    ((hword "a" (by decide)).1 "A" 1).mpr ?_⟩
  · exact ⟨_, rfl, rfl, by decide⟩
  · refine ⟨_, List.mem_cons_of_mem _ List.mem_cons_self, by decide, rfl, by decide, ?_⟩
    intro q _ _ k hk
    obtain ⟨i, rfl, -⟩ := Ranking.exists_of_rank? hk
    exact Nat.succ_le_succ (Nat.zero_le i)

end Lexer

end LexicalAutomata
