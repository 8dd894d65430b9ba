/-
# `LexicalAutomata.Proofs.Dfa.Powerset` — one state for each set that a word leads to

Determinization explores subsets.  Here they are gone: what the result does is said by the sets of
states that words lead to (`spread`), for any automaton without empty moves.  A word runs exactly if its
set is not empty, two words run into one state exactly if their sets are equal, and there are as many
states as there are sets (`Powerset`).

The tag of a set is that of its best member.  Where several tags of one rank meet, the member that was
issued first decides: the members of a subset ascend, and the search for the best tag keeps what it
met first (`exists_best`).
-/
import Mathlib.Data.Set.Card
import LexicalAutomata.Proofs.Automaton.Built
import LexicalAutomata.Proofs.Dfa.Subset

namespace LexicalAutomata.Nfa

open Automaton

variable {tags : Tags} {n : Nfa} {d : Dfa} {v w : List Char} {s t : State} {tag : Accept}

/-- The states that the word leads to from the start. -/
def spread (n : Nfa) (w : List Char) : Set State := {s | s ∈ n.states ∧ Reads n n.start.id w s.id}

/-- `s` is among the members and has the tag, and no other tag of a member ranks lower, or ranks the
same and was issued before. -/
def Best (members : Set State) (s : State) (tag : Accept) : Prop :=
  s ∈ members ∧ s.accept = some tag ∧ ∀ t ∈ members, ∀ b ∈ t.accept,
    tag.priority < b.priority ∨ tag.priority = b.priority ∧ s.id ≤ t.id

/-- The states of `d` stand for the sets of states of `n` that words lead to. -/
structure Powerset (n : Nfa) (d : Dfa) : Prop where
  runs : ∀ w, (∃ s, d.run w = some s) ↔ (n.spread w).Nonempty
  accepts : ∀ w tag, d.accepts w = some tag ↔ ∃ s, Best (n.spread w) s tag
  rejects : ∀ w, d.accepts w = none ↔ ∀ s ∈ n.spread w, s.accept = none
  shares : ∀ v w, d.run v = d.run w ↔ n.spread v = n.spread w
  reached : ∀ s, s ∈ d.states ↔ ∃ w, d.run w = some s
  distinct : (d.states.map State.id).Nodup

/-! ## The best of members that ascend -/

/-- The best member stays best if one comes last that is no better. -/
theorem Best.append {states : List State} (h : Best {s | s ∈ states} s tag)
    (hlast : ∀ u ∈ states, State.order u t = .lt) (hle : ∀ b ∈ t.accept, tag.priority ≤ b.priority) :
    Best {s | s ∈ states ++ [t]} s tag := by
  obtain ⟨hs, ha, hfirst⟩ := h
  refine ⟨List.mem_append_left _ hs, ha, fun u hu b hb => ?_⟩
  rcases List.mem_append.mp hu with hu | hu
  · exact hfirst u hu b hb
  · rw [List.mem_singleton.mp hu] at hb ⊢
    have hlt : s.id < t.id := Nat.compare_eq_lt.mp (hlast s hs)
    have := hle b hb
    omega

/-- The last member is the best if its tag ranks lower than those of all before. -/
theorem best_append_of_lt {states : List State} (ha : t.accept = some tag)
    (hlt : ∀ s ∈ states, ∀ b ∈ s.accept, tag.priority < b.priority) :
    Best {s | s ∈ states ++ [t]} t tag := by
  refine ⟨List.mem_append_right _ List.mem_cons_self, ha, fun u hu b hb => ?_⟩
  rcases List.mem_append.mp hu with hu | hu
  · exact .inl (hlt u hu b hb)
  · rw [List.mem_singleton.mp hu] at hb ⊢
    rw [ha] at hb
    cases hb
    exact .inr ⟨rfl, Nat.le_refl _⟩

theorem winner_append_singleton (states : List State) (t : State) :
    winner (states ++ [t]) = t.accept.elim (winner states) (better (winner states)) := by
  rw [winner, List.filterMap_append, List.foldl_append, ← winner]
  cases ht : t.accept with
  | none =>
      rw [List.filterMap_cons_none ht]
      rfl
  | some b =>
      rw [List.filterMap_cons_some ht]
      rfl

theorem exists_best {states : List State} (h : Ordered.Ascending State.order states)
    (hw : winner states = some tag) : ∃ s, Best {s | s ∈ states} s tag := by
  -- Members are added at the end, as the search for the best tag meets them.
  induction states using List.reverseRecOn generalizing tag with
  | nil => cases hw
  | append_singleton states t ih =>
      obtain ⟨hstates, -, hlast⟩ := List.pairwise_append.mp h
      have hlast : ∀ u ∈ states, State.order u t = .lt := fun u hu => hlast u hu t List.mem_cons_self
      rw [winner_append_singleton] at hw
      cases ht : t.accept with
      | none =>
          rw [ht] at hw
          obtain ⟨s, hs⟩ := ih hstates hw
          exact ⟨s, hs.append hlast fun b hb => by rw [ht] at hb; cases hb⟩
      | some b =>
          rw [ht, Option.elim_some] at hw
          cases hbest : winner states with
          | none =>
              rw [hbest] at hw
              cases hw
              refine ⟨t, best_append_of_lt ht fun s hs c hc => ?_⟩
              rw [winner_eq_none_iff.mp hbest s hs] at hc
              cases hc
          | some best =>
              rw [hbest, better] at hw
              split at hw
              · next hlt =>
                  cases hw
                  exact ⟨t, best_append_of_lt ht fun s hs c hc =>
                    Nat.lt_of_lt_of_le hlt ((of_winner_eq_some hbest).2 s hs c hc)⟩
              · next hle =>
                  cases hw
                  obtain ⟨s, hs⟩ := ih hstates hbest
                  refine ⟨s, hs.append hlast fun c hc => ?_⟩
                  rw [ht] at hc
                  cases hc
                  exact Nat.le_of_not_lt hle

theorem Best.id_eq {members : Set State} {tag' : Accept} (h : Best members s tag)
    (h' : Best members t tag') : s.id = t.id := by
  obtain ⟨hs, ha, hfirst⟩ := h
  obtain ⟨ht, ha', hfirst'⟩ := h'
  have hle := hfirst t ht tag' ha'
  have hge := hfirst' s hs tag ha
  omega

/-! ## Sets and subsets -/

theorem spread_eq (hw : n.WellFormed tags) (he : n.EpsilonFree) (w : List Char) :
    n.spread w = {s | s ∈ (n.after w).states} :=
  Set.ext fun _ => (mem_after hw he).symm

theorem Subset.ascending (s : Subset n.memberIds) : Ordered.Ascending State.order s.states :=
  List.pairwise_map.mp ((Ordered.ascending_ofList _).sublist s.sublist)

theorem spread_eq_iff (hw : n.WellFormed tags) (he : n.EpsilonFree) :
    n.spread v = n.spread w ↔ n.after v = n.after w := by
  rw [spread_eq hw he, spread_eq hw he]
  constructor
  · intro h
    refine after_eq_of_members hw he (congrArg (List.map State.id) ?_)
    exact Ordered.Ascending.ext (Subset.ascending _) (Subset.ascending _) fun s => Set.ext_iff.mp h s
  · intro h
    rw [h]

/-! ## What the states of subsets stand for -/

namespace Determinized

variable {state : Subset n.memberIds → State}

theorem runs_iff (h : Determinized n state d) (hw : n.WellFormed tags) (he : n.EpsilonFree) :
    (∃ s, d.run w = some s) ↔ (n.spread w).Nonempty := by
  rw [h.run_eq hw he, spread_eq hw he]
  constructor
  · intro h'
    obtain ⟨s, hs⟩ := h'
    split at hs
    · cases hs
    · next hne => exact List.exists_mem_of_ne_nil _ hne
  · intro h'
    obtain ⟨s, hs⟩ := h'
    exact ⟨_, if_neg (List.ne_nil_of_mem hs)⟩

theorem accepts_iff_best (h : Determinized n state d) (hw : n.WellFormed tags)
    (he : n.EpsilonFree) : d.accepts w = some tag ↔ ∃ s, Best (n.spread w) s tag := by
  rw [h.accepts_eq hw he]
  constructor
  · intro ha
    rw [spread_eq hw he]
    exact exists_best (Subset.ascending _) ha
  · intro h'
    obtain ⟨s, hs⟩ := h'
    cases ha : winner (n.after w).states with
    | none =>
        have hnone := winner_eq_none_iff.mp ha s ((mem_after hw he).mpr hs.1)
        rw [hs.2.1] at hnone
        cases hnone
    | some best =>
        obtain ⟨t, ht⟩ := exists_best (Subset.ascending _) ha
        rw [← spread_eq hw he] at ht
        have hst : s = t := hw.eq_of_id hs.1.1 ht.1.1 (hs.id_eq ht)
        rw [← ht.2.1, ← hst, hs.2.1]

theorem run_eq_iff (h : Determinized n state d) (hw : n.WellFormed tags) (he : n.EpsilonFree) :
    d.run v = d.run w ↔ n.spread v = n.spread w := by
  rw [h.run_eq hw he, h.run_eq hw he, spread_eq_iff hw he]
  constructor
  · intro hrun
    by_cases hv : (n.after v).states = []
    · rw [if_pos hv] at hrun
      split at hrun
      · next hnil => exact after_eq_of_members hw he (by rw [Subset.members, hv, Subset.members, hnil])
      · cases hrun
    · rw [if_neg hv] at hrun
      split at hrun
      · cases hrun
      · next hne =>
          exact h.injective _ ((mem_subsets hw he).mpr ⟨hv, v, rfl⟩) _
            ((mem_subsets hw he).mpr ⟨hne, w, rfl⟩) (congrArg State.id (Option.some.inj hrun))
  · intro e
    rw [e]

theorem powerset (h : Determinized n state d) (hw : n.WellFormed tags) (he : n.EpsilonFree) :
    Powerset n d := by
  obtain ⟨tags', hwd⟩ := h.wellFormed
  refine ⟨fun w => h.runs_iff hw he, fun w tag => h.accepts_iff_best hw he, fun w => ?_,
    fun v w => h.run_eq_iff hw he, fun s => ⟨fun hs => ?_, fun h' => ?_⟩, ?_⟩
  · rw [h.accepts_eq hw he, winner_eq_none_iff, spread_eq hw he]
    rfl
  · exact (Dfa.reaches_iff_run hwd h.deterministic h.epsilonFree hs).mp (h.connected hw he s hs)
  · obtain ⟨w, hs⟩ := h'
    exact ((Dfa.run_eq_some_iff hwd h.deterministic h.epsilonFree).mp hs).1
  · exact List.Nodup.map_on (fun s hs t ht e => hwd.eq_of_id hs ht e) hwd.states_ascending.nodup

end Determinized

/-! ## How many states there are -/

namespace Powerset

/-- The set of states that words lead to which run into `u`. -/
def behind (n : Nfa) (d : Dfa) (u : State) : Set State := {s | ∃ w, d.run w = some u ∧ s ∈ n.spread w}

theorem behind_eq (h : Powerset n d) (hs : d.run w = some s) : behind n d s = n.spread w := by
  ext t
  constructor
  · intro h'
    obtain ⟨v, hv, ht⟩ := h'
    rwa [(h.shares v w).mp (hv.trans hs.symm)] at ht
  · exact fun ht => ⟨w, hs, ht⟩

theorem behind_injOn (h : Powerset n d) : Set.InjOn (behind n d) {s | s ∈ d.states} := by
  intro s hs t ht e
  obtain ⟨v, hv⟩ := (h.reached s).mp hs
  obtain ⟨w, hw⟩ := (h.reached t).mp ht
  rw [h.behind_eq hv, h.behind_eq hw] at e
  have := (h.shares v w).mpr e
  rw [hv, hw] at this
  exact Option.some.inj this

theorem image_behind (h : Powerset n d) : behind n d '' {s | s ∈ d.states} =
    {members | members.Nonempty ∧ ∃ w, n.spread w = members} := by
  ext members
  constructor
  · intro h'
    obtain ⟨s, hs, rfl⟩ := h'
    obtain ⟨w, hw⟩ := (h.reached s).mp hs
    rw [h.behind_eq hw]
    exact ⟨(h.runs w).mp ⟨s, hw⟩, w, rfl⟩
  · intro h'
    obtain ⟨hne, w, rfl⟩ := h'
    obtain ⟨s, hs⟩ := (h.runs w).mpr hne
    exact ⟨s, (h.reached s).mpr ⟨w, hs⟩, h.behind_eq hs⟩

theorem encard_eq (h : Powerset n d) :
    {members | members.Nonempty ∧ ∃ w, n.spread w = members}.encard = d.states.length := by
  have hset : {s | s ∈ d.states} = (d.states.toFinset : Set State) := List.coe_toFinset _ |>.symm
  rw [← h.image_behind, h.behind_injOn.encard_image, hset, Set.encard_coe_eq_coe_finsetCard,
    List.toFinset_card_of_nodup (List.Nodup.of_map _ h.distinct)]

theorem hasFinal_iff (h : Powerset n d) : d.HasFinal ↔ ∃ w, ∃ s ∈ n.spread w, s.accepting := by
  constructor
  · intro h'
    obtain ⟨u, hu, ha⟩ := h'
    obtain ⟨w, hw⟩ := (h.reached u).mp hu
    obtain ⟨tag, htag⟩ := Option.isSome_iff_exists.mp ha
    obtain ⟨s, hs, ha, -⟩ := (h.accepts w tag).mp (by rw [Dfa.accepts, hw]; exact htag)
    exact ⟨w, s, hs, accepting_of_accept ha⟩
  · intro h'
    obtain ⟨w, s, hs, ha⟩ := h'
    obtain ⟨u, hu⟩ := (h.runs w).mpr ⟨s, hs⟩
    refine ⟨u, (h.reached u).mpr ⟨w, hu⟩, Option.isSome_iff_ne_none.mpr fun hnone => ?_⟩
    have hreject : d.accepts w = none := by rw [Dfa.accepts, hu]; exact hnone
    rw [State.accepting, (h.rejects w).mp hreject s hs] at ha
    cases ha

end Powerset

/-- Determinization fails, for want of a final state, exactly if no word leads to an accepting state.
Otherwise the result has one state for each set of states that is not empty and that some word leads
to: words run into that state exactly if they lead to the set, and are accepted with the set's best
tag. -/
theorem determinize_exact (tags : Tags) (n : Nfa) (hb : n.Built tags) (he : n.EpsilonFree)
    (σ : Session) :
    ((n.determinize.run σ).1 = .error .noFinalState ↔
      ¬ ∃ w, ∃ s ∈ n.spread w, s.accepting) ∧
    ((∃ w, ∃ s ∈ n.spread w, s.accepting) → ∃ d, (n.determinize.run σ).1 = .ok d ∧ Powerset n d ∧
      {members | members.Nonempty ∧ ∃ w, n.spread w = members}.encard = d.states.length) := by
  have hw := hb.wellFormed
  obtain ⟨state, d, hd, hrun⟩ := run_determinize hw he σ
  obtain ⟨tags', hwd⟩ := hd.wellFormed
  have hp := hd.powerset hw he
  rw [hrun, ← hp.hasFinal_iff]
  by_cases hf : d.HasFinal
  · rw [checkDfa_eq_ok hwd hf (hd.connected hw he) hd.epsilonFree hd.deterministic]
    exact ⟨iff_of_false (fun h => (by cases h)) (not_not_intro hf),
      fun _ => ⟨d, rfl, hp, hp.encard_eq⟩⟩
  · rw [checkDfa_eq_noFinalState hf]
    exact ⟨iff_of_true rfl hf, fun h => absurd h hf⟩

/-- The tags of an automaton whose second and third state accept, at one rank. -/
def tiedTags : Tags := fun i =>
  if i = 1 then some ⟨"B", 1⟩ else if i = 2 then some ⟨"A", 1⟩ else none

/-- An automaton that completes one letter with two tags of one rank. -/
def tied : Nfa :=
  addArc (addArc (Automaton.new (.ofTags tiedTags 0)) (.ofTags tiedTags 0) (.char 'a')
    (.ofTags tiedTags 2)) (.ofTags tiedTags 0) (.char 'a') (.ofTags tiedTags 1)

theorem built_tied : tied.Built tiedTags := .addArc 0 _ 1 (.addArc 0 _ 2 (.new 0))

theorem epsilonFree_tied : tied.EpsilonFree := by
  unfold EpsilonFree
  decide

/-- The state that was issued first decides. -/
theorem determinize_exact_tied :
    ∃ d, (tied.determinize.run .empty).1 = .ok d ∧ d.accepts ['a'] = some ⟨"B", 1⟩ := by
  have hmem : .ofTags tiedTags 1 ∈ tied.spread ['a'] :=
    ⟨by decide, .char (e := ⟨.ofTags tiedTags 0, .char 'a', .ofTags tiedTags 1⟩) (by decide) rfl
      (.stay 1)⟩
  have hfirst : ∀ t ∈ tied.states, ∀ b ∈ t.accept.toList, 1 = b.priority ∧ 1 ≤ t.id := by decide
  obtain ⟨d, hd, hp, -⟩ := (determinize_exact tiedTags tied built_tied epsilonFree_tied .empty).2
    ⟨['a'], _, hmem, rfl⟩
  refine ⟨d, hd, (hp.accepts _ _).mpr ⟨_, hmem, rfl, fun t ht b hb => .inr ?_⟩⟩
  exact hfirst t ht.1 b (Option.mem_toList.mpr hb)

end LexicalAutomata.Nfa
