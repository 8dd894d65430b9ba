/-
# `LexicalAutomata.Proofs.Dfa.Subset` — the deterministic automaton follows all paths at once

The subsets that are found become states, each with the best tag of its members.  In the automaton
made of them (`Determinized`), a run on a word ends in the state of the subset after the word, or there
is none if that is empty (`Determinized.run_eq`).  So the word is accepted with the best of the tags
that it completes.
-/
import LexicalAutomata.Proofs.Automaton.Run
import LexicalAutomata.Proofs.Automaton.Validity
import LexicalAutomata.Proofs.Dfa.Exploration
import LexicalAutomata.Proofs.Stage

namespace LexicalAutomata.Nfa

open Automaton

variable {tags : Tags} {n : Nfa}

/-! ## The states of subsets -/

section States
variable {subsets : List (Subset n.memberIds)} {first : Nat} {s t : Subset n.memberIds}

theorem subsetState_eq (hd : (subsets.map Subset.members).Nodup) (hs : s ∈ subsets) :
    ∃ i, subsets[i]? = some s ∧ subsetState subsets first s = ⟨first + i, winner s.states⟩ := by
  have hlt : (subsets.findIdx fun t => t.members == s.members) < subsets.length :=
    List.findIdx_lt_length_of_exists ⟨s, hs, beq_self_eq_true _⟩
  have hm : (subsets[subsets.findIdx fun t => t.members == s.members]).members = s.members := by
    simpa using List.findIdx_getElem (w := hlt)
  have e : subsets[subsets.findIdx fun t => t.members == s.members] = s :=
    List.inj_on_of_nodup_map hd (List.getElem_mem hlt) hs hm
  refine ⟨_, List.getElem?_eq_some_iff.mpr ⟨hlt, e⟩, ?_⟩
  simp only [subsetState, List.getElem?_eq_getElem hlt, e]
  rfl

theorem subsetState_injective (hd : (subsets.map Subset.members).Nodup)
    (hs : s ∈ subsets) (ht : t ∈ subsets)
    (e : (subsetState subsets first s).id = (subsetState subsets first t).id) : s = t := by
  obtain ⟨i, hi, es⟩ := subsetState_eq hd hs
  obtain ⟨j, hj, et⟩ := subsetState_eq hd ht
  rw [es, et] at e
  obtain rfl : i = j := Nat.add_left_cancel e
  rw [hi] at hj
  exact Option.some_inj.mp hj

theorem moves_sublist (s : Subset n.memberIds) :
    List.Sublist ((n.moves n.memberIds s).map Prod.fst) n.alphabet := by
  have := (List.filter_sublist (l := n.alphabet.map fun c => (c, n.image n.memberIds s c))
    (p := fun m => !m.2.states.isEmpty)).map Prod.fst
  rwa [List.map_map, show (Prod.fst ∘ fun c => (c, n.image n.memberIds s c)) = id from rfl,
    List.map_id] at this

theorem moves_nodup (s : Subset n.memberIds) : ((n.moves n.memberIds s).map Prod.fst).Nodup :=
  (Ordered.ascending_ofList _).nodup.sublist (moves_sublist s)

/-- The arcs of the state of a subset. -/
def subsetArcs (n : Nfa) (state : Subset n.memberIds → State) (s : Subset n.memberIds) : List Arc :=
  (n.moves n.memberIds s).map fun m => ⟨state s, .char m.1, state m.2⟩

theorem setNewArc_eq_ok {d : Dfa} {u v : State} {x : Symbol}
    (h : ∀ e ∈ d.arcs, e.source.id = u.id → e.symbol ≠ x) :
    d.setNewArc u x v = .ok (d.setArc u x v) := by
  rw [Dfa.setNewArc, target?_eq_none_iff.mpr h]
  rfl

theorem addSubset_ok {tags' : Tags} {base acc : Dfa} {states : List State} {arcs : List Arc}
    (htags : ∀ s ∈ subsets, (subsetState subsets first s).Of tags')
    (hmoves : ∀ m ∈ n.moves n.memberIds s, m.2 ∈ subsets)
    (hacc : Extended tags' base states arcs acc) (hs : s ∈ subsets)
    (hnew : ∀ e ∈ acc.arcs, e.source.id ≠ (subsetState subsets first s).id) :
    ∃ acc', n.addSubset subsets first acc s = .ok acc' ∧
      Extended tags' base (states ++ [subsetState subsets first s])
        (arcs ++ subsetArcs n (subsetState subsets first) s) acc' := by
  refine foldlM_ok (I := fun done acc' => Extended tags' base
    (states ++ [subsetState subsets first s])
    (arcs ++ done.map fun m : Char × Subset n.memberIds =>
      ⟨subsetState subsets first s, .char m.1, subsetState subsets first m.2⟩) acc') ?_ ?_
  · rw [List.map_nil, List.append_nil]
    exact hacc.addState (htags s hs)
  · intro done m rest acc' hall hacc'
    have hm : m ∈ n.moves n.memberIds s := hall ▸ List.mem_append_right _ List.mem_cons_self
    have hnone : ∀ e ∈ acc'.arcs, e.source.id = (subsetState subsets first s).id →
        e.symbol ≠ .char m.1 := by
      intro e he hid hx
      rcases (hacc'.mem_arcs e).mp he with he | he
      · exact hnew e ((hacc.mem_arcs e).mpr (.inl he)) hid
      · rcases List.mem_append.mp he with he | he
        · exact hnew e ((hacc.mem_arcs e).mpr (.inr he)) hid
        · obtain ⟨m', hm', rfl⟩ := List.mem_map.mp he
          have hfst : m'.1 = m.1 := Symbol.char.inj hx
          have hnodup := moves_nodup s
          rw [hall, List.map_append, List.nodup_append] at hnodup
          exact hnodup.2.2 _ (List.mem_map.mpr ⟨m', hm', rfl⟩) _
            (List.mem_map.mpr ⟨m, List.mem_cons_self, rfl⟩) hfst
    refine ⟨_, setNewArc_eq_ok hnone, ?_⟩
    rw [List.map_append, ← List.append_assoc]
    exact hacc'.setArc (htags s hs) (htags m.2 (hmoves m hm))
      fun e he hid hx => absurd hx (hnone e he hid)

end States

/-! ## The automaton of subsets -/

/-- `d` is the automaton of the subsets that words lead to. -/
structure Determinized (n : Nfa) (state : Subset n.memberIds → State) (d : Dfa) : Prop where
  wellFormed : ∃ tags, d.WellFormed tags
  start : d.start = state (n.after [])
  injective : ∀ s ∈ n.subsets, ∀ t ∈ n.subsets, (state s).id = (state t).id → s = t
  mem_states : ∀ u, u ∈ d.states ↔ ∃ s ∈ n.subsets, state s = u
  mem_arcs : ∀ f, f ∈ d.arcs ↔ ∃ s ∈ n.subsets, ∃ c,
    (n.image n.memberIds s c).states ≠ [] ∧ f = ⟨state s, .char c, state (n.image n.memberIds s c)⟩
  accept : ∀ s ∈ n.subsets, (state s).accept = winner s.states

theorem start_mem_subsets (hw : n.WellFormed tags) (he : n.EpsilonFree) : n.after [] ∈ n.subsets :=
  (mem_subsets hw he).mpr ⟨List.cons_ne_nil _ _, [], rfl⟩

theorem image_mem_subsets (hw : n.WellFormed tags) (he : n.EpsilonFree) {s : Subset n.memberIds}
    {c : Char} (hs : s ∈ n.subsets) (hne : (n.image n.memberIds s c).states ≠ []) :
    n.image n.memberIds s c ∈ n.subsets := by
  obtain ⟨-, w, rfl⟩ := (mem_subsets hw he).mp hs
  exact (mem_subsets hw he).mpr ⟨hne, w ++ [c], by rw [after_append_singleton]⟩

theorem mem_subsetArcs (hw : n.WellFormed tags) {state : Subset n.memberIds → State}
    {s : Subset n.memberIds} {f : Arc} : f ∈ subsetArcs n state s ↔
      ∃ c, (n.image n.memberIds s c).states ≠ [] ∧
        f = ⟨state s, .char c, state (n.image n.memberIds s c)⟩ := by
  constructor
  · intro hf
    obtain ⟨⟨c, t⟩, hm, rfl⟩ := List.mem_map.mp hf
    obtain ⟨rfl, hne⟩ := (mem_moves hw).mp hm
    exact ⟨c, hne, rfl⟩
  · intro h
    obtain ⟨c, hne, rfl⟩ := h
    exact List.mem_map.mpr ⟨(c, _), (mem_moves hw).mpr ⟨rfl, hne⟩, rfl⟩

theorem determinized_of_extended (hw : n.WellFormed tags) (he : n.EpsilonFree)
    {state : Subset n.memberIds → State} {d : Dfa} {tags' : Tags}
    (hinj : ∀ s ∈ n.subsets, ∀ t ∈ n.subsets, (state s).id = (state t).id → s = t)
    (hacc : ∀ s ∈ n.subsets, (state s).accept = winner s.states)
    (hext : Extended tags' (Automaton.new (state n.startSubset)) (n.subsets.map state)
      (n.subsets.flatMap (subsetArcs n state)) d) : Determinized n state d := by
  have harcs : ∀ f, f ∈ d.arcs ↔ ∃ s ∈ n.subsets, ∃ c,
      (n.image n.memberIds s c).states ≠ [] ∧
        f = ⟨state s, .char c, state (n.image n.memberIds s c)⟩ := by
    intro f
    rw [hext.mem_arcs, List.mem_flatMap]
    simp only [mem_subsetArcs hw]
    exact or_iff_right List.not_mem_nil
  refine ⟨⟨tags', hext.wellFormed⟩, hext.start, hinj, fun u => ⟨?_, ?_⟩, harcs, hacc⟩
  · intro hu
    rcases (hext.mem_states u).mp hu with hu | hu | ⟨f, hf, hu⟩
    · exact ⟨_, start_mem_subsets hw he, (List.mem_singleton.mp hu).symm⟩
    · exact List.mem_map.mp hu
    · obtain ⟨s, hs, c, hne, rfl⟩ := (harcs f).mp ((hext.mem_arcs f).mpr (.inr hf))
      rcases hu with rfl | rfl
      · exact ⟨s, hs, rfl⟩
      · exact ⟨_, image_mem_subsets hw he hs hne, rfl⟩
  · intro h
    obtain ⟨s, hs, rfl⟩ := h
    exact (hext.mem_states _).mpr (.inr (.inl (List.mem_map.mpr ⟨s, hs, rfl⟩)))

theorem moves_mem_subsets (hw : n.WellFormed tags) (he : n.EpsilonFree) {s : Subset n.memberIds}
    (hs : s ∈ n.subsets) : ∀ m ∈ n.moves n.memberIds s, m.2 ∈ n.subsets := by
  intro h hm
  obtain ⟨c, t⟩ := h
  obtain ⟨rfl, hne⟩ := (mem_moves hw).mp hm
  exact image_mem_subsets hw he hs hne

/-- The subsets added so far have other states, so no arc leaves the state of the next one. -/
theorem source_ne_of_done (hw : n.WellFormed tags) (he : n.EpsilonFree) {first : Nat}
    {done rest : List (Subset n.memberIds)} {s : Subset n.memberIds}
    (hall : n.subsets = done ++ s :: rest) :
    ∀ f ∈ done.flatMap (subsetArcs n (subsetState n.subsets first)),
      f.source.id ≠ (subsetState n.subsets first s).id := by
  have hd := (exploring_subsets hw he).distinct
  intro f hf hid
  obtain ⟨t, ht, hf⟩ := List.mem_flatMap.mp hf
  obtain ⟨c, -, rfl⟩ := (mem_subsetArcs hw).mp hf
  have hs : s ∈ n.subsets := hall ▸ List.mem_append_right _ List.mem_cons_self
  obtain rfl := subsetState_injective hd (hall ▸ List.mem_append_left _ ht) hs hid
  rw [hall, List.map_append, List.nodup_append] at hd
  exact hd.2.2 _ (List.mem_map.mpr ⟨t, ht, rfl⟩) _
    (List.mem_map.mpr ⟨t, List.mem_cons_self, rfl⟩) rfl

theorem subsetAutomaton_ok (hw : n.WellFormed tags) (he : n.EpsilonFree) (first : Nat) :
    ∃ d, n.subsetAutomaton n.subsets first = .ok d ∧
      Determinized n (subsetState n.subsets first) d := by
  have hd := (exploring_subsets hw he).distinct
  have hinj : ∀ s ∈ n.subsets, ∀ t ∈ n.subsets,
      (subsetState n.subsets first s).id = (subsetState n.subsets first t).id → s = t :=
    fun s hs t ht e => subsetState_injective hd hs ht e
  obtain ⟨tags', htags⟩ := exists_tags (n.subsets.map (subsetState n.subsets first)) (by
    intro u hu v hv e
    obtain ⟨s, hs, rfl⟩ := List.mem_map.mp hu
    obtain ⟨t, ht, rfl⟩ := List.mem_map.mp hv
    rw [hinj s hs t ht e])
  have htags : ∀ s ∈ n.subsets, (subsetState n.subsets first s).Of tags' :=
    fun s hs => htags _ (List.mem_map.mpr ⟨s, hs, rfl⟩)
  have hnew : WellFormed tags' (Automaton.new (subsetState n.subsets first n.startSubset) : Dfa) :=
    .new (htags _ (start_mem_subsets hw he))
  have hstep : ∀ done s rest acc, n.subsets = done ++ s :: rest →
      Extended tags' (Automaton.new (subsetState n.subsets first n.startSubset))
        (done.map (subsetState n.subsets first))
        (done.flatMap (subsetArcs n (subsetState n.subsets first))) acc →
      ∃ acc', n.addSubset n.subsets first acc s = .ok acc' ∧
        Extended tags' (Automaton.new (subsetState n.subsets first n.startSubset))
          ((done ++ [s]).map (subsetState n.subsets first))
          ((done ++ [s]).flatMap (subsetArcs n (subsetState n.subsets first))) acc' := by
    intro done s rest acc hall hacc
    have hs : s ∈ n.subsets := hall ▸ List.mem_append_right _ List.mem_cons_self
    have hnone : ∀ e ∈ acc.arcs, e.source.id ≠ (subsetState n.subsets first s).id := by
      intro e hmem
      rcases (hacc.mem_arcs e).mp hmem with hmem | hmem
      · cases hmem
      · exact source_ne_of_done hw he hall e hmem
    rw [List.map_append, List.flatMap_append, List.map_singleton, List.flatMap_singleton]
    exact addSubset_ok htags (moves_mem_subsets hw he hs) hacc hs hnone
  obtain ⟨d, hok, hext⟩ := foldlM_ok (I := fun done acc => Extended tags'
    (Automaton.new (subsetState n.subsets first n.startSubset))
    (done.map (subsetState n.subsets first))
    (done.flatMap (subsetArcs n (subsetState n.subsets first))) acc) hnew.extended hstep
  refine ⟨d, hok, determinized_of_extended hw he hinj (fun s hs => ?_) hext⟩
  obtain ⟨i, -, e⟩ := subsetState_eq hd hs
  rw [e]

/-- Determinization does not fail; the result is then checked. -/
theorem run_determinize (hw : n.WellFormed tags) (he : n.EpsilonFree) (σ : Session) :
    ∃ state d, Determinized n state d ∧ n.determinize.run σ =
      (d.graph.checkDfa.map fun _ => d,
        (σ.issue (σ.supply.issued + n.subsets.length)).record
          (.dfa d.states.length d.arcs.length)) := by
  obtain ⟨d, hok, hd⟩ := subsetAutomaton_ok hw he σ.supply.issued
  refine ⟨_, d, hd, ?_⟩
  show (Stage.issued >>= _ : Stage Dfa).run σ = _
  rw [Stage.run_bind_ok Stage.run_issued, Stage.run_bind_ok (Stage.run_setIssued _), hok,
    Stage.run_bind_ok (Stage.run_ofExcept _), Stage.run_finish]

/-! ## Runs -/

namespace Determinized

variable {state : Subset n.memberIds → State} {d : Dfa}

theorem epsilonFree (h : Determinized n state d) : d.EpsilonFree := by
  intro f hf
  obtain ⟨s, -, c, -, rfl⟩ := (h.mem_arcs f).mp hf
  exact Symbol.noConfusion

theorem deterministic (h : Determinized n state d) : d.Deterministic := by
  intro e he f hf hs hx
  obtain ⟨s, hsm, c, -, rfl⟩ := (h.mem_arcs e).mp he
  obtain ⟨t, htm, c', -, rfl⟩ := (h.mem_arcs f).mp hf
  obtain rfl := h.injective s hsm t htm hs
  obtain rfl := Symbol.char.inj hx
  rfl

theorem step_eq (h : Determinized n state d) {s : Subset n.memberIds} (hs : s ∈ n.subsets)
    (c : Char) : d.step (state s) c =
      if (n.image n.memberIds s c).states = [] then none
      else some (state (n.image n.memberIds s c)) := by
  split
  · next hnil =>
      refine target?_eq_none_iff.mpr fun f hf hid hx => ?_
      obtain ⟨t, ht, c', hne, rfl⟩ := (h.mem_arcs f).mp hf
      obtain rfl := h.injective t ht s hs hid
      obtain rfl := Symbol.char.inj hx
      exact hne hnil
  · next hne =>
      exact (Dfa.step_eq_some_iff h.deterministic).mpr
        ⟨_, (h.mem_arcs _).mpr ⟨s, hs, c, hne, rfl⟩, rfl, rfl, rfl⟩

/-- A run ends in the state of the subset after the word. -/
theorem run_eq (h : Determinized n state d) (hw : n.WellFormed tags) (he : n.EpsilonFree)
    (w : List Char) :
    d.run w = if (n.after w).states = [] then none else some (state (n.after w)) := by
  induction w using List.reverseRecOn with
  | nil =>
      have hne : (n.after []).states ≠ [] := List.cons_ne_nil _ _
      rw [if_neg hne, ← h.start]
      rfl
  | append_singleton w c ih =>
      rw [Dfa.run_append, ih, after_append_singleton]
      by_cases hnil : (n.after w).states = []
      · have himage : (n.image n.memberIds (n.after w) c).states = [] := by
          refine List.eq_nil_iff_forall_not_mem.mpr fun t ht => ?_
          obtain ⟨e, -, -, hs, -⟩ := (mem_image hw).mp ht
          rw [hnil] at hs
          cases hs
        rw [if_pos hnil, if_pos himage]
        rfl
      · have hs : n.after w ∈ n.subsets := (mem_subsets hw he).mpr ⟨hnil, w, rfl⟩
        rw [if_neg hnil, ← h.step_eq hs c, Option.bind_some, Dfa.runFrom_singleton]

theorem connected (h : Determinized n state d) (hw : n.WellFormed tags) (he : n.EpsilonFree) :
    d.Connected := by
  intro u hu
  obtain ⟨tags', hwd⟩ := h.wellFormed
  obtain ⟨s, hs, rfl⟩ := (h.mem_states u).mp hu
  obtain ⟨hne, w, rfl⟩ := (mem_subsets hw he).mp hs
  refine (Dfa.reaches_iff_run hwd h.deterministic h.epsilonFree hu).mpr ⟨w, ?_⟩
  rw [h.run_eq hw he, if_neg hne]

end Determinized

/-! ## The best tag -/

theorem exists_better (best : Option Accept) (a : Accept) :
    ∃ b, better best a = some b ∧ (some b = best ∨ b = a) ∧
      (∀ c ∈ best, b.priority ≤ c.priority) ∧ b.priority ≤ a.priority := by
  cases best with
  | none => exact ⟨a, rfl, .inr rfl, fun _ hc => (by cases hc), Nat.le_refl _⟩
  | some c =>
      by_cases hlt : a.priority < c.priority
      · refine ⟨a, if_pos hlt, .inr rfl, fun x hx => ?_, Nat.le_refl _⟩
        cases hx
        exact Nat.le_of_lt hlt
      · refine ⟨c, if_neg hlt, .inl rfl, fun x hx => ?_, Nat.le_of_not_lt hlt⟩
        cases hx
        exact Nat.le_refl _

theorem foldl_better_eq_none_iff {as : List Accept} {best : Option Accept} :
    as.foldl better best = none ↔ best = none ∧ as = [] := by
  induction as generalizing best with
  | nil => simp
  | cons a as ih =>
      obtain ⟨b, hb, -⟩ := exists_better best a
      rw [List.foldl_cons, ih, hb]
      simp

/-- The best tag is one of those given, and none of them ranks lower. -/
theorem of_foldl_better {as : List Accept} {best : Option Accept} {a : Accept}
    (h : as.foldl better best = some a) :
    (some a = best ∨ a ∈ as) ∧ (∀ b ∈ best, a.priority ≤ b.priority) ∧
      ∀ b ∈ as, a.priority ≤ b.priority := by
  induction as generalizing best with
  | nil =>
      rw [List.foldl_nil] at h
      subst h
      simp
  | cons b as ih =>
      obtain ⟨c, hc, hfrom, hbest, hb⟩ := exists_better best b
      rw [List.foldl_cons, hc] at h
      obtain ⟨hmem, hle, has⟩ := ih h
      have hac : a.priority ≤ c.priority := hle c rfl
      refine ⟨?_, fun x hx => Nat.le_trans hac (hbest x hx),
        List.forall_mem_cons.mpr ⟨Nat.le_trans hac hb, has⟩⟩
      rcases hmem with e | hmem
      · cases e
        rcases hfrom with e | rfl
        · exact .inl e
        · exact .inr List.mem_cons_self
      · exact .inr (List.mem_cons_of_mem _ hmem)

theorem winner_eq_none_iff {states : List State} :
    winner states = none ↔ ∀ s ∈ states, s.accept = none := by
  rw [winner, foldl_better_eq_none_iff, List.filterMap_eq_nil_iff]
  simp

theorem of_winner_eq_some {states : List State} {a : Accept} (h : winner states = some a) :
    (∃ s ∈ states, s.accept = some a) ∧
      ∀ s ∈ states, ∀ b ∈ s.accept, a.priority ≤ b.priority := by
  obtain ⟨hmem, -, hle⟩ := of_foldl_better h
  rcases hmem with e | hmem
  · cases e
  · refine ⟨List.mem_filterMap.mp hmem, fun s hs b hb => ?_⟩
    exact hle b (List.mem_filterMap.mpr ⟨s, hs, hb⟩)

/-! ## What is accepted -/

namespace Determinized

variable {state : Subset n.memberIds → State} {d : Dfa} {w : List Char} {tag : Accept}

theorem accepts_eq (h : Determinized n state d) (hw : n.WellFormed tags) (he : n.EpsilonFree)
    (w : List Char) : d.accepts w = winner (n.after w).states := by
  rw [Dfa.accepts, h.run_eq hw he]
  split
  · next hnil =>
      rw [hnil]
      rfl
  · next hne => exact h.accept _ ((mem_subsets hw he).mpr ⟨hne, w, rfl⟩)

theorem completes_iff_mem (hw : n.WellFormed tags) (he : n.EpsilonFree) :
    n.Completes w tag ↔ ∃ s ∈ (n.after w).states, s.accept = some tag := by
  simp only [Completes, mem_after hw he, and_assoc]

theorem accepts_eq_none_iff (h : Determinized n state d) (hw : n.WellFormed tags)
    (he : n.EpsilonFree) : d.accepts w = none ↔ ∀ tag, ¬ n.Completes w tag := by
  rw [h.accepts_eq hw he, winner_eq_none_iff]
  constructor
  · intro hnone tag hc
    obtain ⟨s, hs, ha⟩ := (completes_iff_mem hw he).mp hc
    rw [hnone s hs] at ha
    cases ha
  · intro hnone s hs
    cases ha : s.accept with
    | none => rfl
    | some tag => exact absurd ((completes_iff_mem hw he).mpr ⟨s, hs, ha⟩) (hnone tag)

/-- The best of the tags that the word completes wins. -/
theorem of_accepts_eq_some (h : Determinized n state d) (hw : n.WellFormed tags)
    (he : n.EpsilonFree) (ha : d.accepts w = some tag) :
    n.Completes w tag ∧ ∀ tag', n.Completes w tag' → tag.priority ≤ tag'.priority := by
  rw [h.accepts_eq hw he] at ha
  obtain ⟨hmem, hle⟩ := of_winner_eq_some ha
  refine ⟨(completes_iff_mem hw he).mpr hmem, fun tag' hc => ?_⟩
  obtain ⟨s, hs, hacc⟩ := (completes_iff_mem hw he).mp hc
  exact hle s hs tag' hacc

/-- Where tags of one rank are one, the best of the tags that the word completes is found. -/
theorem accepts_eq_some_iff (h : Determinized n state d) (hw : n.WellFormed tags)
    (he : n.EpsilonFree) (hrank : ∀ tag tag', n.Completes w tag → n.Completes w tag' →
      tag.priority = tag'.priority → tag = tag') : d.accepts w = some tag ↔
        n.Completes w tag ∧ ∀ tag', n.Completes w tag' → tag.priority ≤ tag'.priority := by
  refine ⟨h.of_accepts_eq_some hw he, fun h' => ?_⟩
  obtain ⟨hc, hbest⟩ := h'
  cases ha : d.accepts w with
  | none => exact absurd hc ((h.accepts_eq_none_iff hw he).mp ha tag)
  | some best =>
      obtain ⟨hcb, hle⟩ := h.of_accepts_eq_some hw he ha
      rw [hrank best tag hcb hc (Nat.le_antisymm (hle tag hc) (hbest best hcb))]

theorem noDeadEnd (h : Determinized n state d) (hw : n.WellFormed tags) (he : n.EpsilonFree)
    (hn : n.NoDeadEnd) : d.NoDeadEnd := by
  intro u hu
  obtain ⟨tags', hwd⟩ := h.wellFormed
  obtain ⟨s, hs, rfl⟩ := (h.mem_states u).mp hu
  obtain ⟨hne, v, rfl⟩ := (mem_subsets hw he).mp hs
  obtain ⟨x, hx⟩ := List.exists_mem_of_ne_nil _ hne
  obtain ⟨hx, rx⟩ := (mem_after hw he).mp hx
  obtain ⟨t, ht, hacc, w, r⟩ := hn x hx
  have hmem : t ∈ (n.after (v ++ w)).states := (mem_after hw he).mpr ⟨ht, rx.append r⟩
  have hne' : (n.after (v ++ w)).states ≠ [] := List.ne_nil_of_mem hmem
  have hsub := (mem_subsets hw he).mpr ⟨hne', v ++ w, rfl⟩
  have hend := (h.mem_states _).mpr ⟨_, hsub, rfl⟩
  refine ⟨state (n.after (v ++ w)), hend, ?_, w, ?_⟩
  · rw [State.accepting, h.accept _ hsub, Option.isSome_iff_ne_none]
    intro hnone
    have := winner_eq_none_iff.mp hnone t hmem
    rw [State.accepting, this] at hacc
    cases hacc
  · have hrun := h.run_eq hw he (v ++ w)
    rw [Dfa.run_append, h.run_eq hw he v, if_neg hne, if_neg hne', Option.bind_some] at hrun
    exact ((Dfa.runFrom_eq_some_iff hwd h.deterministic h.epsilonFree hu).mp hrun).2

end Determinized

/-- Where there are no dead ends, determinization does not fail and makes none. -/
theorem run_determinize_ok (hw : n.WellFormed tags) (he : n.EpsilonFree) (hn : n.NoDeadEnd)
    (σ : Session) :
    ∃ state d τ, Determinized n state d ∧ d.NoDeadEnd ∧ n.determinize.run σ = (.ok d, τ) := by
  obtain ⟨state, d, hd, hrun⟩ := run_determinize hw he σ
  obtain ⟨tags', hwd⟩ := hd.wellFormed
  have hnd := hd.noDeadEnd hw he hn
  rw [checkDfa_eq_ok hwd (hnd.hasFinal hwd) (hd.connected hw he) hd.epsilonFree hd.deterministic]
    at hrun
  exact ⟨state, d, _, hd, hnd, hrun⟩

end LexicalAutomata.Nfa
