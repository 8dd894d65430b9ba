/-
# `LexicalAutomata.Proofs.Nfa.Elimination` — without its empty moves an automaton accepts the same words

Any automaton may lose its empty moves, also one with cycles of them, or with states that cannot be
reached.  A word leads to the image of a state from which empty moves lead on to an accepting one, and
that image accepts (`Images.accepts_iff`).  So what is accepted stays the same, and as what can be
reached is all that is left, there is an accepting state left exactly if one could be reached before.

Every carried state has an image, whether the image is dropped afterwards or not: so as many numbers
are issued as states are carried.
-/
import LexicalAutomata.Proofs.Automaton.Built
import LexicalAutomata.Proofs.Nfa.EpsilonFree

namespace LexicalAutomata

open Automaton

/-! ## Accepted words -/

namespace Automaton

variable {k : Kind} {tags : Tags} {a : Automaton k} {w : List Char}

/-- The word leads from the start to an accepting state. -/
def Accepts (a : Automaton k) (w : List Char) : Prop :=
  ∃ s ∈ a.states, s.accepting ∧ Reads a a.start.id w s.id

theorem accepts_iff_completes : a.Accepts w ↔ ∃ tag, a.Completes w tag := by
  constructor
  · intro h
    obtain ⟨s, hs, ha, r⟩ := h
    obtain ⟨tag, ha⟩ := Option.isSome_iff_exists.mp ha
    exact ⟨tag, s, hs, r, ha⟩
  · intro h
    obtain ⟨tag, s, hs, r, ha⟩ := h
    exact ⟨s, hs, accepting_of_accept ha, r⟩

theorem accepts_prune (h : a.WellFormed tags) : a.prune.Accepts w ↔ a.Accepts w := by
  simp only [accepts_iff_completes, completes_prune h]

theorem exists_accepts_iff :
    (∃ w, a.Accepts w) ↔ ∃ s ∈ a.states, s.accepting ∧ Reaches a s.id := by
  constructor
  · intro h
    obtain ⟨w, s, hs, ha, r⟩ := h
    exact ⟨s, hs, ha, w, r⟩
  · intro h
    obtain ⟨s, hs, ha, w, r⟩ := h
    exact ⟨w, s, hs, ha, r⟩

theorem Connected.hasFinal_iff (h : a.Connected) : a.HasFinal ↔ ∃ w, a.Accepts w := by
  rw [exists_accepts_iff]
  exact exists_congr fun s => and_congr_right fun hs => (and_iff_left (h s hs)).symm

end Automaton

namespace Nfa

variable {tags : Tags} {n c : Nfa} {w : List Char}

/-! ## What is accepted by images -/

theorem Images.accepts_iff {image : State → State} (h : Images n image c) (hw : n.WellFormed tags) :
    c.Accepts w ↔ n.Accepts w := by
  constructor
  · intro h'
    obtain ⟨u, hu, ha, r⟩ := h'
    obtain ⟨s, hs, rfl⟩ := (h.mem_states u).mp hu
    obtain ⟨v, hv, rv, ha⟩ := (h.accepting_iff hs).mp ha
    rw [h.start] at r
    exact ⟨v, hv, ha, (h.reads_iff hw hw.start_mem).mpr ⟨s, hs, r, rv⟩⟩
  · intro h'
    obtain ⟨v, hv, ha, r⟩ := h'
    obtain ⟨s, hs, rs, rv⟩ := (h.reads_iff hw hw.start_mem).mp r
    exact ⟨image s, (h.mem_states _).mpr ⟨s, hs, rfl⟩, (h.accepting_iff hs).mpr ⟨v, hv, rv, ha⟩,
      h.start ▸ rs⟩

/-! ## What is left -/

/-- `m` accepts what `n` does, without empty moves, and carries what can be reached and nothing else. -/
structure WithoutEmptyMoves (n m : Nfa) : Prop where
  epsilonFree : m.EpsilonFree
  carries : ∀ i, Reaches m i ↔ ∃ s ∈ m.states, s.id = i
  accepts : ∀ w, m.Accepts w ↔ n.Accepts w
  completes : ∀ w tag, m.Completes w tag → n.Completes w tag

theorem Images.withoutEmptyMoves {image : State → State} (h : Images n image c)
    (hw : n.WellFormed tags) : WithoutEmptyMoves n c.prune := by
  obtain ⟨tags', hwc⟩ := h.wellFormed
  refine ⟨h.epsilonFree.prune, fun i => ⟨hwc.prune.exists_of_reaches, fun h' => ?_⟩, fun w => ?_,
    fun w tag hc => h.completes_of_completes hw ((completes_prune hwc).mp hc)⟩
  · obtain ⟨s, hs, rfl⟩ := h'
    exact connected_prune hwc s hs
  · rw [accepts_prune hwc, h.accepts_iff hw]

/-- Images are numbered from `first` on. -/
theorem imageIn_merged_id (hw : n.WellFormed tags) {first : Nat} {s : State} (hs : s ∈ n.states) :
    ∃ i < n.states.length, (imageIn (n.merged first) s).id = first + i := by
  have h := merging_merged hw first
  obtain ⟨m, hm, rfl⟩ := h.exists_of_mem hs
  rw [h.imageIn_eq hw hm]
  obtain ⟨x, i, hi, rfl⟩ := exists_of_mem_merged hm
  have hlt : i < n.closures.length := (List.getElem?_eq_some_iff.mp hi).1
  rw [← (closures_exact hw).2, List.length_map]
  exact ⟨i, hlt, rfl⟩

/-- Removing the empty moves fails, for want of a final state, exactly if no accepting state can be
reached.  Otherwise the result has no empty moves, carries what can be reached and nothing else, accepts
the same words, and completes a word with no tag that it was not completed with before.  As many numbers
are issued as states were carried, and the states of the result have some of these numbers. -/
theorem eliminateEpsilon_exact (tags : Tags) (n : Nfa) (hb : n.Built tags) (σ : Session) :
    ((n.eliminateEpsilon.run σ).1 = .error .noFinalState ↔
      ¬ ∃ s ∈ n.states, s.accepting ∧ Reaches n s.id) ∧
    ((∃ s ∈ n.states, s.accepting ∧ Reaches n s.id) →
      ∃ m, (n.eliminateEpsilon.run σ).1 = .ok m ∧ WithoutEmptyMoves n m ∧
        ∀ s ∈ m.states, ∃ i < n.states.length, s.id = σ.supply.issued + i) ∧
    (n.eliminateEpsilon.run σ).2.supply.issued = σ.supply.issued + n.states.length := by
  have hw := hb.wellFormed
  obtain ⟨c, hi, hrun⟩ := run_eliminateEpsilon hw σ
  obtain ⟨tags', hwc⟩ := hi.wellFormed
  have hm := hi.withoutEmptyMoves hw
  have hconnected : c.prune.Connected := connected_prune hwc
  have hfinal : c.prune.HasFinal ↔ ∃ s ∈ n.states, s.accepting ∧ Reaches n s.id := by
    rw [hconnected.hasFinal_iff, ← exists_accepts_iff]
    exact exists_congr hm.accepts
  have hids : ∀ s ∈ c.prune.states, ∃ i < n.states.length, s.id = σ.supply.issued + i := by
    intro s hs
    obtain ⟨t, ht, rfl⟩ := (hi.mem_states s).mp (hwc.mem_states_prune.mp hs).1
    exact imageIn_merged_id hw ht
  rw [hrun, ← hfinal]
  refine ⟨?_, ?_, rfl⟩
  · by_cases hf : c.prune.HasFinal
    · rw [checkNfa_eq_ok hf hconnected hm.epsilonFree]
      exact iff_of_false (fun h => (by cases h)) (not_not_intro hf)
    · rw [checkNfa_eq_noFinalState hf]
      exact iff_of_true rfl hf
  · intro hf
    rw [checkNfa_eq_ok hf hconnected hm.epsilonFree]
    exact ⟨c.prune, rfl, hm, hids⟩

/-- The tags of an automaton whose third state accepts. -/
def circlingTags : Tags := fun i => if i = 2 then some ⟨"A", 1⟩ else none

/-- Empty moves in a circle, from which one letter leads out, and a state that cannot be reached. -/
def circling : Nfa :=
  addState (addArc (addArc (addArc (Automaton.new (.ofTags circlingTags 0))
    (.ofTags circlingTags 0) .epsilon (.ofTags circlingTags 1))
    (.ofTags circlingTags 1) .epsilon (.ofTags circlingTags 0))
    (.ofTags circlingTags 1) (.char 'a') (.ofTags circlingTags 2)) (.ofTags circlingTags 3)

theorem built_circling : circling.Built circlingTags :=
  .addState 3 (.addArc 1 _ 2 (.addArc 1 _ 0 (.addArc 0 _ 1 (.new 0))))

theorem accepts_circling : circling.Accepts ['a'] :=
  ⟨.ofTags circlingTags 2, by decide, rfl,
    .empty (e := ⟨.ofTags circlingTags 0, .epsilon, .ofTags circlingTags 1⟩) (by decide) rfl
      (.char (e := ⟨.ofTags circlingTags 1, .char 'a', .ofTags circlingTags 2⟩) (by decide) rfl
        (.stay 2))⟩

theorem eliminateEpsilon_exact_circling : ∃ m, (circling.eliminateEpsilon.run .empty).1 = .ok m ∧
    m.EpsilonFree ∧ m.Accepts ['a'] ∧ (circling.eliminateEpsilon.run .empty).2.supply.issued = 4 := by
  obtain ⟨-, hok, hissued⟩ := eliminateEpsilon_exact circlingTags circling built_circling .empty
  obtain ⟨m, hm, hwithout, -⟩ := hok (exists_accepts_iff.mp ⟨_, accepts_circling⟩)
  exact ⟨m, hm, hwithout.epsilonFree, (hwithout.accepts _).mpr accepts_circling, hissued⟩

end Nfa

end LexicalAutomata
