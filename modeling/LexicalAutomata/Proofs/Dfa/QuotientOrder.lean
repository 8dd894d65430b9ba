/-
# `LexicalAutomata.Proofs.Dfa.QuotientOrder` — classes keep the order of their smallest members

Classes are numbered by their smallest members, in the order of the automaton that is minimized.  Words
lead in the automaton of the classes to the class of where they led before (`Merged.trace_eq`).  So the
least word that leads to a class leads to its smallest member, if the class can be reached at all: earlier
members are found earlier, along lesser words.  Hence the search finds the classes in the order of their
numbers (`Merged.found_eq`); those that cannot be reached have numbers too, but are pruned.

Nothing is asked of the automaton that is minimized but that operations made it: it may have empty moves,
and one number may have several tags.
-/
import LexicalAutomata.Proofs.Dfa.Access
import LexicalAutomata.Proofs.Dfa.Minimal

namespace LexicalAutomata.Dfa

open Automaton LexicalAutomata.Symbol

variable {d m q : Dfa} {first i j : Nat} {s t u : State}

/-! ## What a success says -/

theorem of_placeOf {order : List State} (h : placeOf order s = .ok i) :
    order.findIdx (fun t => t.id == s.id) = i := by
  rw [placeOf] at h
  split at h
  · next hi => exact Except.ok.inj h ▸ (List.findIdx?_eq_some_iff_findIdx_eq.mp hi).2
  · cases h

theorem of_outline {o : Outline} (h : d.outline d.ordered s = .ok o) : o = d.outlineOf s := by
  obtain ⟨moves, hmoves, h⟩ := exists_of_bind h
  cases h
  refine congrArg (Outline.mk s.token) (eq_map_of_mapM (fun e move hmove => ?_) hmoves)
  obtain ⟨i, hi, hmove⟩ := exists_of_bind hmove
  cases hmove
  rw [place, of_placeOf hi]

theorem of_classes {c : Classes} (h : d.classes = .ok c) : c = d.classesOf := by
  obtain ⟨outlines, houtlines, h⟩ := exists_of_bind h
  cases h
  rw [eq_map_of_mapM (fun _ _ => of_outline) houtlines]
  rfl

/-- Where minimization succeeds, all classes have got numbers, and the result is made of them. -/
theorem of_run_minimize {σ τ : Session} (h : d.minimize.run σ = (.ok m, τ)) :
    d.quotient d.classesOf σ.supply.issued = .ok m ∧
      τ.supply.issued = σ.supply.issued + d.classesOf.representatives.length := by
  obtain ⟨c, ρ, hclasses, h⟩ := Stage.exists_of_run_bind h
  obtain ⟨hc, rfl⟩ := Stage.of_run_ofExcept hclasses
  obtain rfl := of_classes hc
  obtain ⟨first, ρ, hfirst, h⟩ := Stage.exists_of_run_bind h
  cases hfirst
  obtain ⟨_, ρ, hset, h⟩ := Stage.exists_of_run_bind h
  cases hset
  obtain ⟨m', ρ, hm', h⟩ := Stage.exists_of_run_bind h
  obtain ⟨hok, rfl⟩ := Stage.of_run_ofExcept hm'
  obtain ⟨rfl, rfl⟩ := Stage.of_run_finish h
  exact ⟨hok, rfl⟩

theorem of_stateOf (h : d.classesOf.stateOf first s = .ok t) : t = d.classState first s := by
  obtain ⟨i, hi, h⟩ := exists_of_bind h
  have hplace : d.place s = i := of_placeOf hi
  split at h
  · next k hk =>
      cases h
      rw [classesOf, List.getElem?_map] at hk
      obtain ⟨i', hi', rfl⟩ := Option.map_eq_some_iff.mp hk
      obtain ⟨hlt, rfl⟩ := List.getElem?_eq_some_iff.mp hi'
      rw [classState, classNumber, hplace, List.getElem_range]
  · cases h

/-- The tags of classes that are numbered from `first`. -/
def classTags (d : Dfa) (first : Nat) : Tags := fun i => (d.classesOf.state first (i - first)).accept

theorem of_classTags (k : Nat) :
    (d.classesOf.state first k).Of (d.classTags first) := by
  rw [State.Of, State.ofTags, classTags, Classes.state, Nat.add_sub_cancel_left]
  rfl

theorem of_setClassArc {m' : Dfa} {e : Arc} (hok : setClassArc d.classesOf first m e = .ok m') :
    (∀ old, m.target? (d.classState first e.source) e.symbol = some old →
      old.id = (d.classState first e.target).id) ∧
    m' = m.setArc (d.classState first e.source) e.symbol (d.classState first e.target) := by
  obtain ⟨s, hs, hok⟩ := exists_of_bind hok
  obtain ⟨t, ht, hok⟩ := exists_of_bind hok
  obtain rfl := of_stateOf hs
  obtain rfl := of_stateOf ht
  split at hok
  · next old hold =>
      split at hok
      · next hid =>
          exact ⟨fun _ h => Option.some_inj.mp (hold.symm.trans h) ▸ hid, (Except.ok.inj hok).symm⟩
      · cases hok
  · next hnone =>
      exact ⟨fun _ h => absurd (hnone.symm.trans h) nofun, (Except.ok.inj hok).symm⟩

theorem extended_of_setClassArc {base m' : Dfa} {states : List State} {done : List Arc} {e : Arc}
    (h : Extended (d.classTags first) base states (done.map (d.classArc first)) m)
    (hm : m.Made) (hok : setClassArc d.classesOf first m e = .ok m') :
    Extended (d.classTags first) base states ((done ++ [e]).map (d.classArc first)) m' ∧
      m'.Made := by
  obtain ⟨hold, rfl⟩ := of_setClassArc hok
  have hs : (d.classState first e.source).Of (d.classTags first) := of_classTags _
  have ht : (d.classState first e.target).Of (d.classTags first) := of_classTags _
  rw [List.map_append]
  refine ⟨h.setArc hs ht fun f hf hsource hsymbol => ?_, .setArc _ _ _ hm⟩
  have hf' : m.target? (d.classState first e.source) e.symbol = some f.target :=
    hm.deterministic.target?_eq_some_iff.mpr ⟨f, hf, hsource, hsymbol, rfl⟩
  exact h.wellFormed.eq_arc hf hs ht hsource hsymbol (hold _ hf')

/-- The automaton of classes carries their states and has the arcs of all arcs, before it is pruned. -/
theorem exists_of_quotient (hok : d.quotient d.classesOf first = .ok m) :
    ∃ q, Extended (d.classTags first) (Automaton.new (d.classState first d.start))
      (d.classesOf.states first) (d.arcs.map (d.classArc first)) q ∧ Made q ∧ m = q.prune := by
  obtain ⟨start, hstart, hok⟩ := exists_of_bind hok
  obtain rfl := of_stateOf hstart
  obtain ⟨q, hq, hok⟩ := exists_of_bind hok
  have hnew : WellFormed (d.classTags first)
      (Automaton.new (d.classState first d.start) : Dfa) := .new (of_classTags _)
  have hcarried := hnew.extended.addStates (d.classesOf.states first) fun u hu => by
    obtain ⟨k, -, rfl⟩ := List.mem_map.mp hu
    exact of_classTags k
  rw [List.nil_append] at hcarried
  have hend := foldlM_keeps (I := fun done m => Extended (d.classTags first)
    (Automaton.new (d.classState first d.start)) (d.classesOf.states first)
    (done.map (d.classArc first)) m ∧ Made m) ⟨hcarried, .addStates _ (.new _)⟩
    (fun done e m m' hm hok => extended_of_setClassArc hm.1 hm.2 hok) hq
  exact ⟨q, hend.1, hend.2, (Except.ok.inj hok).symm⟩

/-! ## Symbols of a class -/

theorem symbols_eq_of_mem (hs : d.ordered[i]? = some s) (ht : d.ordered[j]? = some t)
    (hp : (i, j) ∈ d.leftPairs) :
    (d.arcsFrom s).map Arc.symbol = (d.arcsFrom t).map Arc.symbol := by
  have hagree := agree_of_mem_refine hp
  simp only [holdsOf, List.getElem?_map, hs, ht, Option.map_some] at hagree
  rw [agree, Bool.and_eq_true, beq_iff_eq, fst_moves_outlineOf, fst_moves_outlineOf] at hagree
  exact hagree.1

theorem symbols_eq_of_alike (hs : d.ordered[i]? = some s) (ht : d.ordered[j]? = some t)
    (ha : alike d.leftPairs i j) :
    (d.arcsFrom s).map Arc.symbol = (d.arcsFrom t).map Arc.symbol := by
  rcases alike_iff.mp ha with rfl | ⟨-, hp⟩ | ⟨-, hp⟩
  · rw [Option.some_inj.mp (hs.symm.trans ht)]
  · exact symbols_eq_of_mem hs ht hp
  · exact (symbols_eq_of_mem ht hs hp).symm

theorem classNumber_lt (h : d.Closed) (hs : s.isIn d.states) :
    d.classNumber s < d.classesOf.representatives.length := by
  obtain ⟨s', hs', -⟩ := h.exists_at_place hs
  obtain ⟨hlt, -⟩ := List.getElem?_eq_some_iff.mp hs'
  obtain ⟨x, hx, -⟩ := classAt_spec (alike_refl d.leftPairs) hlt
  exact (List.getElem?_eq_some_iff.mp hx).1

/-- The representative of a state's class reads the same symbols. -/
theorem exists_representative_symbols (h : d.Closed) (hs : s.isIn d.states) :
    ∃ x u, (representatives (alike d.leftPairs) d.ordered.length)[d.classNumber s]? = some x ∧
      d.ordered[x]? = some u ∧ (d.arcsFrom u).map Arc.symbol = (d.arcsFrom s).map Arc.symbol := by
  obtain ⟨s', hs', hid⟩ := h.exists_at_place hs
  obtain ⟨hlt, -⟩ := List.getElem?_eq_some_iff.mp hs'
  obtain ⟨x, hx, ha⟩ := classAt_spec (alike_refl d.leftPairs) hlt
  have hu := List.getElem?_eq_getElem (lt_of_mem_representatives (List.mem_of_getElem? hx))
  exact ⟨x, _, hx, hu, arcsFrom_congr hid ▸ symbols_eq_of_alike hu hs' ha⟩

theorem symbols_eq_of_class (h : d.Closed) (hs : s.isIn d.states) (ht : t.isIn d.states)
    (hclass : d.classNumber s = d.classNumber t) :
    (d.arcsFrom s).map Arc.symbol = (d.arcsFrom t).map Arc.symbol := by
  obtain ⟨x, u, hx, hu, hsu⟩ := exists_representative_symbols h hs
  obtain ⟨y, v, hy, hv, htv⟩ := exists_representative_symbols h ht
  rw [hclass] at hx
  obtain rfl := Option.some_inj.mp (hx.symm.trans hy)
  obtain rfl := Option.some_inj.mp (hu.symm.trans hv)
  exact hsu.symm.trans htv

/-! ## Words and classes -/

/-- `m` is the automaton of the classes of states of `d` that can be reached. -/
structure Merged (d : Dfa) (first : Nat) (m : Dfa) : Prop where
  wellFormed : ∃ tags, m.WellFormed tags
  made : m.Made
  connected : ∀ s ∈ m.states, Reaches m s.id
  issued : ∀ s ∈ m.states, first ≤ s.id ∧ s.id < first + d.classesOf.representatives.length
  trace_eq : ∀ w, m.trace w = (d.trace w).map (d.classState first)

theorem classState_congr (h : s.id = t.id) : d.classState first s = d.classState first t := by
  rw [classState, classState, classNumber, classNumber, place_congr h]

section Search
variable (h : d.Made) (hq : Extended (d.classTags first) (Automaton.new (d.classState first d.start))
    (d.classesOf.states first) (d.arcs.map (d.classArc first)) q) (hd : q.Deterministic)
include h hq

theorem exists_class (hu : u ∈ q.states) :
    ∃ k < d.classesOf.representatives.length, u = d.classesOf.state first k := by
  have hclass : ∀ {s}, s.isIn d.states → ∃ k < d.classesOf.representatives.length,
      d.classState first s = d.classesOf.state first k :=
    fun hs => ⟨_, classNumber_lt h.closed hs, rfl⟩
  rcases (hq.mem_states u).mp hu with hu | hu | ⟨f, hf, hu⟩
  · rw [List.mem_singleton.mp hu]
    exact hclass h.closed.start_isIn
  · obtain ⟨k, hk, rfl⟩ := List.mem_map.mp hu
    exact ⟨k, List.mem_range.mp hk, rfl⟩
  · obtain ⟨e, he, rfl⟩ := List.mem_map.mp hf
    rcases hu with rfl | rfl
    · exact hclass (h.closed.source_isIn e he)
    · exact hclass (h.closed.target_isIn e he)

include hd

theorem target?_classState (hs : s.isIn d.states) (x : Symbol) :
    q.target? (d.classState first s) x = (d.target? s x).map (d.classState first) := by
  cases hx : d.target? s x with
  | some t =>
      obtain ⟨e, he, hid, hsymbol, rfl⟩ := exists_of_target? hx
      refine hd.target?_eq_some_iff.mpr ⟨d.classArc first e, ?_, ?_, hsymbol, rfl⟩
      · exact (hq.mem_arcs _).mpr (.inr (List.mem_map.mpr ⟨e, he, rfl⟩))
      · exact congrArg State.id (classState_congr hid)
  | none =>
      refine target?_eq_none_iff.mpr fun f hf hid hsymbol => ?_
      rcases (hq.mem_arcs f).mp hf with hf | hf
      · cases hf
      · obtain ⟨e, he, rfl⟩ := List.mem_map.mp hf
        have hclass : d.classNumber e.source = d.classNumber s := Nat.add_left_cancel hid
        have hmem : x ∈ (d.arcsFrom e.source).map Arc.symbol :=
          List.mem_map.mpr ⟨e, mem_arcsFrom.mpr ⟨he, rfl⟩, hsymbol⟩
        rw [symbols_eq_of_class h.closed (h.closed.source_isIn e he) hs hclass,
          mem_symbolsFrom h.deterministic, hx] at hmem
        obtain ⟨t, ht⟩ := hmem
        cases ht

theorem trace_classState (w : List Symbol) :
    q.trace w = (d.trace w).map (d.classState first) := by
  induction w using List.reverseRecOn with
  | nil => exact congrArg some hq.start
  | append_singleton w x ih =>
      rw [trace_append, trace_append, ih]
      cases hs : d.trace w with
      | none => rfl
      | some s =>
          have hreaches : Reaches d s.id := LeadsTo.reaches ⟨s, hs, rfl⟩
          exact target?_classState h hq hd (h.closed.isIn_of_reaches hreaches) x

end Search

theorem Made.merged (h : d.Made) (hok : d.quotient d.classesOf first = .ok m) :
    Merged d first m := by
  obtain ⟨q, hq, hm, rfl⟩ := exists_of_quotient hok
  refine ⟨⟨_, hq.wellFormed.prune⟩, hm.prune, fun s hs => ?_, fun s hs => ?_, fun w => ?_⟩
  · exact reaches_prune.mpr (hq.wellFormed.mem_states_prune.mp hs).2
  · obtain ⟨k, hk, rfl⟩ := exists_class h hq (hq.wellFormed.mem_states_prune.mp hs).1
    exact ⟨Nat.le_add_right first k, Nat.add_lt_add_left hk first⟩
  · rw [trace_prune, trace_classState h hq hm.deterministic]

/-! ## The order of classes -/

/-- A class that does not come later has a member that is found no later. -/
theorem exists_found_of_class_le (h : d.Made) (hs : Reaches d s.id) (ht : Reaches d t.id)
    (hle : d.classNumber t ≤ d.classNumber s) :
    ∃ u, d.found[d.place u]? = some u ∧ d.place u ≤ d.place s ∧
      d.classNumber u = d.classNumber t := by
  obtain ⟨x, u, hx, hu, -⟩ := exists_representative_symbols h.closed (h.closed.isIn_of_reaches ht)
  obtain ⟨y, v, hy, hv, -⟩ := exists_representative_symbols h.closed (h.closed.isIn_of_reaches hs)
  have hplace : d.place u = x := h.closed.place_of_getElem? hu
  have hxy : x ≤ y := by
    rcases Nat.lt_or_eq_of_le hle with hlt | heq
    · obtain ⟨hx', rfl⟩ := List.getElem?_eq_some_iff.mp hx
      obtain ⟨hy', rfl⟩ := List.getElem?_eq_some_iff.mp hy
      exact Nat.le_of_lt
        (List.pairwise_iff_getElem.mp (representatives_ascending _ _) _ _ hx' hy' hlt)
    · rw [heq] at hx
      exact Nat.le_of_eq (Option.some_inj.mp (hx.symm.trans hy))
  have hfound := place_lt_found hs
  have hlt : d.place s < d.ordered.length := by
    rw [ordered_eq, List.length_append]
    exact Nat.lt_add_right _ hfound
  have hys : y ≤ d.place s := representative_le (alike_refl d.leftPairs) hlt hy
  have hxs : x ≤ d.place s := Nat.le_trans hxy hys
  rw [ordered_eq, List.getElem?_append_left (Nat.lt_of_le_of_lt hxs hfound)] at hu
  refine ⟨u, hplace ▸ hu, hplace ▸ hxs, ?_⟩
  rw [classNumber, hplace]
  exact classAt_representative (alike_refl d.leftPairs) hx

namespace Merged

theorem exists_leadsTo (hm : Merged d first m) {w : List Symbol} (h : m.LeadsTo w i) :
    ∃ s, d.LeadsTo w s.id ∧ (d.classState first s).id = i := by
  obtain ⟨u, hu, rfl⟩ := h
  rw [hm.trace_eq] at hu
  obtain ⟨s, hs, rfl⟩ := Option.map_eq_some_iff.mp hu
  exact ⟨s, ⟨s, hs, rfl⟩, rfl⟩

theorem leadsTo (hm : Merged d first m) {w : List Symbol} (h : d.LeadsTo w s.id) :
    m.LeadsTo w (d.classState first s).id := by
  obtain ⟨t, ht, hid⟩ := h
  exact ⟨d.classState first t, by rw [hm.trace_eq, ht]; rfl, congrArg State.id (classState_congr hid)⟩

/-- If a word that leads to a class comes before all that lead to another, the class does so too. -/
theorem id_lt (h : d.Made) (hm : Merged d first m) {v w : List Symbol} (hv : m.LeadsTo v i)
    (hw : m.Least w j) (hvw : Before v w) : i < j := by
  obtain ⟨s, hs, rfl⟩ := hm.exists_leadsTo hv
  obtain ⟨t, ht, rfl⟩ := hm.exists_leadsTo hw.leadsTo
  by_contra hle
  have hle : d.classNumber t ≤ d.classNumber s :=
    Nat.le_of_add_le_add_left (Nat.le_of_not_lt hle)
  obtain ⟨u, hu, hus, hclass⟩ := exists_found_of_class_le h hs.reaches ht.reaches hle
  obtain ⟨s', hs', hid⟩ := h.closed.exists_at_place (h.closed.isIn_of_reaches hs.reaches)
  rw [ordered_eq, List.getElem?_append_left (place_lt_found hs.reaches)] at hs'
  -- A word to the member `u` of the later class comes no later than `v`, so `w` is not least.
  obtain ⟨v', hv', hle⟩ :=
    exists_key_le h.arcs_ascending h.deterministic hus hu hs' (hid.symm ▸ hs)
  have hu' : m.LeadsTo v' (d.classState first t).id := by
    have := hm.leadsTo hv'
    rwa [classState, hclass] at this
  have hwv := not_before_iff_key.mp (hw.least v' hu')
  exact absurd (before_iff_key.mp hvw) (not_lt.mpr (hwv.trans hle))

/-- The search finds classes by ascending numbers, and all that are carried. -/
theorem found_eq (h : d.Made) (hm : Merged d first m) : m.found = m.states := by
  obtain ⟨tags, hw⟩ := hm.wellFormed
  obtain ⟨words, hwords, hascending⟩ := exists_access hm.made.arcs_ascending hm.made.deterministic
  refine Ordered.Ascending.ext (List.pairwise_iff_getElem.mpr fun i j hi hj hij => ?_)
    hw.states_ascending fun s => ?_
  · have hlength := hwords.length_eq
    have hi' : i < words.length := hlength ▸ hi
    have hj' : j < words.length := hlength ▸ hj
    exact Nat.compare_eq_lt.mpr (hm.id_lt h (hwords.get hi' hi).leadsTo (hwords.get hj' hj)
      (List.pairwise_iff_getElem.mp hascending i j hi' hj' hij))
  · exact (mem_found hw).trans (and_iff_left_of_imp (hm.connected s))

end Merged

end LexicalAutomata.Dfa
