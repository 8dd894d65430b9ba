/-
# `LexicalAutomata.Proofs.Dfa.SubsetOrder` — subsets keep the order in which they are discovered

Subsets are numbered as they are discovered.  The automaton made of them is searched in the same way: the
arcs of a subset's state lead, by ascending characters, to the states of the subsets that the exploration
goes on with.  So the search finds the states in the order of their numbers (`found_of_subsetAutomaton`).

Nothing is asked of the automaton that is made deterministic: it may have empty moves, which are passed
over, and one number may have several tags.  Subsets are told apart by their members alone, and of two
with the same members the first one counts.
-/
import LexicalAutomata.Proofs.Automaton.Order
import LexicalAutomata.Proofs.Dfa.Subset

namespace LexicalAutomata.Nfa

open Automaton

variable {n : Nfa} {first : Nat} {s t : Subset n.memberIds}
  {pending found subsets : List (Subset n.memberIds)}

/-! ## The states of subsets -/

theorem subsetState_eq_of_members (h : s.members = t.members) :
    subsetState subsets first s = subsetState subsets first t := by
  rw [subsetState, subsetState, h]

theorem subsetState_mem (hs : visited subsets s.members) :
    subsetState subsets first s ∈ subsets.map (subsetState subsets first) := by
  obtain ⟨t, ht, hmembers⟩ := visited_iff.mp hs
  exact List.mem_map.mpr ⟨t, ht, subsetState_eq_of_members hmembers⟩

theorem members_eq_iff (hd : (subsets.map Subset.members).Nodup)
    (hs : visited subsets s.members) (ht : visited subsets t.members) :
    t.members = s.members ↔ (subsetState subsets first t).id = (subsetState subsets first s).id := by
  constructor
  · intro h
    rw [subsetState_eq_of_members h]
  · intro hid
    obtain ⟨s', hs', hmembers⟩ := visited_iff.mp hs
    obtain ⟨t', ht', hmembers'⟩ := visited_iff.mp ht
    rw [← subsetState_eq_of_members hmembers, ← subsetState_eq_of_members hmembers'] at hid
    rw [← hmembers, ← hmembers', subsetState_injective hd ht' hs' hid]

/-- The numbers of subsets follow each other. -/
theorem ids_subsetStates (hd : (subsets.map Subset.members).Nodup) (first : Nat) :
    (subsets.map (subsetState subsets first)).map State.id = List.range' first subsets.length := by
  refine List.ext_getElem (by simp) fun i hi hi' => ?_
  have hlt : i < subsets.length := by simpa using hi
  obtain ⟨j, hj, hstate⟩ := @subsetState_eq n subsets first _ hd (List.getElem_mem hlt)
  obtain ⟨hlt', heq⟩ := List.getElem?_eq_some_iff.mp hj
  have hij : j = i := (List.Nodup.of_map _ hd).getElem_inj_iff.mp heq
  rw [List.getElem_map, List.getElem_map, hstate, hij, List.getElem_range', Nat.one_mul]

/-- The tags of subsets that are numbered from `first`. -/
def subsetTags (subsets : List (Subset n.memberIds)) (first : Nat) : Tags :=
  fun i => (subsets[i - first]?).bind fun s => winner s.states

theorem of_subsetState (s : Subset n.memberIds) :
    (subsetState subsets first s).Of (subsetTags subsets first) := by
  rw [State.Of, State.ofTags, subsetTags, subsetState, Nat.add_sub_cancel_left]

/-! ## What a success says -/

theorem of_setNewArc {d d' : Dfa} {u v : State} {x : Symbol} (h : d.setNewArc u x v = .ok d') :
    (∀ e ∈ d.arcs, e.source.id = u.id → e.symbol ≠ x) ∧ d' = d.setArc u x v := by
  rw [Dfa.setNewArc] at h
  split at h
  · cases h
  · next hnone =>
      rw [Bool.not_eq_true, Option.isSome_eq_false_iff, Option.isNone_iff_eq_none] at hnone
      exact ⟨target?_eq_none_iff.mp hnone, (Except.ok.inj h).symm⟩

theorem extended_of_addSubset {base acc acc' : Dfa} {states : List State} {arcs : List Arc}
    (h : Extended (subsetTags subsets first) base states arcs acc)
    (hok : n.addSubset subsets first acc s = .ok acc') :
    Extended (subsetTags subsets first) base (states ++ [subsetState subsets first s])
      (arcs ++ subsetArcs n (subsetState subsets first) s) acc' := by
  refine foldlM_keeps (I := fun done acc' => Extended (subsetTags subsets first) base
    (states ++ [subsetState subsets first s])
    (arcs ++ done.map fun m : Char × Subset n.memberIds =>
      ⟨subsetState subsets first s, .char m.1, subsetState subsets first m.2⟩) acc') ?_ ?_ hok
  · rw [List.map_nil, List.append_nil]
    exact h.addState (of_subsetState s)
  · intro done m d d' hd hok
    obtain ⟨hnone, rfl⟩ := of_setNewArc hok
    rw [List.map_append, ← List.append_assoc]
    exact hd.setArc (of_subsetState s) (of_subsetState m.2)
      fun e he hid hx => absurd hx (hnone e he hid)

/-- Where determinization succeeds, all subsets have got numbers, and the result is made of them. -/
theorem of_run_determinize {d : Dfa} {σ τ : Session} (h : n.determinize.run σ = (.ok d, τ)) :
    n.subsetAutomaton n.subsets σ.supply.issued = .ok d ∧
      τ.supply.issued = σ.supply.issued + n.subsets.length := by
  obtain ⟨first, ρ, hfirst, h⟩ := Stage.exists_of_run_bind h
  cases hfirst
  obtain ⟨_, ρ, hset, h⟩ := Stage.exists_of_run_bind h
  cases hset
  obtain ⟨d', ρ, hd', h⟩ := Stage.exists_of_run_bind h
  obtain ⟨hok, rfl⟩ := Stage.of_run_ofExcept hd'
  obtain ⟨rfl, rfl⟩ := Stage.of_run_finish h
  exact ⟨hok, rfl⟩

/-- An automaton of subsets carries the states of the subsets and has their arcs. -/
theorem extended_of_subsetAutomaton {d : Dfa} (hok : n.subsetAutomaton subsets first = .ok d) :
    Extended (subsetTags subsets first)
      (Automaton.new (subsetState subsets first n.startSubset)) (subsets.map (subsetState subsets first))
      (subsets.flatMap (subsetArcs n (subsetState subsets first))) d := by
  refine foldlM_keeps (I := fun done d => Extended (subsetTags subsets first)
    (Automaton.new (subsetState subsets first n.startSubset)) (done.map (subsetState subsets first))
    (done.flatMap (subsetArcs n (subsetState subsets first))) d) ?_ ?_ hok
  · exact (WellFormed.new (of_subsetState n.startSubset)).extended
  · intro done s acc acc' hacc hok
    rw [List.map_append, List.flatMap_append, List.map_singleton, List.flatMap_singleton]
    exact extended_of_addSubset hacc hok

theorem made_of_addSubset {acc acc' : Dfa} (h : acc.Made)
    (hok : n.addSubset subsets first acc s = .ok acc') : acc'.Made := by
  refine foldlM_keeps (I := fun _ d => d.Made) (.addState _ h) (fun _ m d d' hd hok => ?_) hok
  obtain ⟨-, rfl⟩ := of_setNewArc hok
  exact .setArc _ _ _ hd

theorem made_of_subsetAutomaton {d : Dfa} (hok : n.subsetAutomaton subsets first = .ok d) :
    d.Made :=
  foldlM_keeps (I := fun _ d => d.Made) (.new _) (fun _ _ _ _ h hok => made_of_addSubset h hok) hok

/-! ## The search -/

section Search
variable {d : Dfa}

theorem ascending_subsetArcs (state : Subset n.memberIds → State) (s : Subset n.memberIds) :
    Ordered.Ascending Arc.order (subsetArcs n state s) := by
  have hchars : Ordered.Ascending compare ((n.moves n.memberIds s).map Prod.fst) :=
    (Ordered.ascending_ofList _).sublist (moves_sublist s)
  refine List.pairwise_map.mpr ((List.pairwise_map.mp hchars).imp fun {m m'} hlt => ?_)
  have hlt : m.1 < m'.1 := compareOfLessAndEq_eq_lt.mp hlt
  exact Arc.order_of_rank_lt rfl (Nat.succ_lt_succ (Char.lt_def.mp hlt))

theorem states_of_subsetAutomaton (hok : n.subsetAutomaton n.subsets first = .ok d) :
    d.states = n.subsets.map (subsetState n.subsets first) := by
  have hext := extended_of_subsetAutomaton hok
  refine hext.wellFormed.states_ascending.ext ?_ fun u => ?_
  · have hids : ((n.subsets.map (subsetState n.subsets first)).map State.id).Pairwise (· < ·) := by
      rw [ids_subsetStates (nodup_members_subsets n) first]
      exact List.pairwise_lt_range'
    exact (List.pairwise_map.mp hids).imp Nat.compare_eq_lt.mpr
  · rw [hext.mem_states]
    constructor
    · rintro (hu | hu | ⟨e, he, hu⟩)
      · rw [List.mem_singleton.mp hu]
        exact subsetState_mem (visited_startSubset n)
      · exact hu
      · obtain ⟨s, hs, he⟩ := List.mem_flatMap.mp he
        obtain ⟨m, hm, rfl⟩ := List.mem_map.mp he
        rcases hu with rfl | rfl
        · exact List.mem_map.mpr ⟨s, hs, rfl⟩
        · exact subsetState_mem (visited_of_moves hs m hm)
    · exact fun hu => .inr (.inl hu)

/-- The arcs of the state of a subset are those of the subset, in the order of its moves. -/
theorem arcsFrom_subsetState (hok : n.subsetAutomaton n.subsets first = .ok d) (hs : s ∈ n.subsets) :
    d.arcsFrom (subsetState n.subsets first s) =
      subsetArcs n (subsetState n.subsets first) s := by
  have hext := extended_of_subsetAutomaton hok
  refine (hext.wellFormed.arcs_ascending.filter _).ext (ascending_subsetArcs _ s) fun e => ?_
  refine Dfa.mem_arcsFrom.trans ?_
  rw [hext.mem_arcs, List.mem_flatMap]
  constructor
  · rintro ⟨he | ⟨t, ht, he⟩, hid⟩
    · cases he
    · obtain ⟨m, hm, rfl⟩ := List.mem_map.mp he
      obtain rfl := subsetState_injective (nodup_members_subsets n) ht hs hid
      exact he
  · intro he
    obtain ⟨m, hm, rfl⟩ := List.mem_map.mp he
    exact ⟨.inr ⟨s, hs, he⟩, rfl⟩

theorem successors_subsetState (hok : n.subsetAutomaton n.subsets first = .ok d)
    (hs : s ∈ n.subsets) :
    Graph.successors State.id d.links (subsetState n.subsets first s) =
      ((n.moves n.memberIds s).map Prod.snd).map (subsetState n.subsets first) := by
  rw [Dfa.successors_links, arcsFrom_subsetState hok hs, subsetArcs, List.map_map, List.map_map]
  rfl

theorem seen_map_iff (hs : visited n.subsets s.members)
    (hfound : ∀ t ∈ found, visited n.subsets t.members) :
    Graph.seen State.id (found.map (subsetState n.subsets first)) (subsetState n.subsets first s) ↔
      visited found s.members := by
  rw [Graph.seen_iff, visited_iff]
  constructor
  · rintro ⟨u, hu, hid⟩
    obtain ⟨t, ht, rfl⟩ := List.mem_map.mp hu
    exact ⟨t, ht, (members_eq_iff (nodup_members_subsets n) hs (hfound t ht)).mpr hid⟩
  · rintro ⟨t, ht, hmembers⟩
    exact ⟨_, List.mem_map.mpr ⟨t, ht, rfl⟩, by rw [subsetState_eq_of_members hmembers]⟩

/-- The automaton of subsets is searched as the subsets are explored. -/
theorem visit_map_subsetState (hok : n.subsetAutomaton n.subsets first = .ok d)
    (h : n.explore n.memberIds pending found = n.subsets) :
    Graph.visit State.id d.links .queue (pending.map (subsetState n.subsets first))
      (found.map (subsetState n.subsets first)) = n.subsets.map (subsetState n.subsets first) := by
  have hfound : ∀ t ∈ found, visited n.subsets t.members :=
    fun t ht => visited_iff.mpr ⟨t, h ▸ mem_explore_of_mem ht, rfl⟩
  fun_induction explore n n.memberIds pending found with
  | case1 found =>
      rw [List.map_nil, Graph.visit, h]
  | case2 s pending found hs ih =>
      obtain ⟨t, ht, hmembers⟩ := visited_iff.mp hs
      have hsub : visited n.subsets s.members := hmembers ▸ hfound t ht
      rw [List.map_cons, Graph.visit, if_pos ((seen_map_iff hsub hfound).mpr hs)]
      exact ih h hfound
  | case3 s pending found hs ih =>
      have hmem : s ∈ n.subsets :=
        h ▸ mem_explore_of_mem (List.mem_append_right _ List.mem_cons_self)
      have hsub : visited n.subsets s.members := visited_iff.mpr ⟨s, hmem, rfl⟩
      rw [List.map_cons, Graph.visit, if_neg fun hseen => hs ((seen_map_iff hsub hfound).mp hseen),
        Graph.Frontier.add, successors_subsetState hok hmem, ← List.map_append,
        ← List.map_singleton, ← List.map_append]
      refine ih h fun t ht => ?_
      rcases List.mem_append.mp ht with ht | ht
      · exact hfound t ht
      · rw [List.mem_singleton.mp ht]
        exact hsub

theorem found_of_subsetAutomaton (hok : n.subsetAutomaton n.subsets first = .ok d) :
    d.found = d.states := by
  have hstart : d.start = subsetState n.subsets first n.startSubset :=
    (extended_of_subsetAutomaton hok).start
  rw [states_of_subsetAutomaton hok, found, hstart]
  exact visit_map_subsetState hok rfl

end Search

end LexicalAutomata.Nfa
