/-
# `LexicalAutomata.Proofs.Automaton.Order` — what can be reached comes first

Automata whose states come from several supplies may have one number with several tags, and then states
are told apart by their numbers alone.  What the operations keep even so is that carried numbers ascend
and that arcs lead to numbers that are carried (`Closed`).  So the order lists each carried number once,
from the start on; first those that can be reached, as they are found breadth first, and behind them the
others, ascending (`Closed.numbered`).
-/
import LexicalAutomata.Proofs.Automaton.Built
import LexicalAutomata.Proofs.Automaton.Numbering

namespace LexicalAutomata

namespace Automaton

variable {k : Kind} {tags : Tags} {a : Automaton k} {s t : State} {x : Symbol}

/-! ## What the operations keep -/

/-- Carried numbers ascend, and the start and the ends of arcs are among them. -/
structure Closed (a : Automaton k) : Prop where
  states_ascending : Ordered.Ascending State.order a.states
  start_isIn : a.start.isIn a.states
  source_isIn : ∀ e ∈ a.arcs, e.source.isIn a.states
  target_isIn : ∀ e ∈ a.arcs, e.target.isIn a.states

theorem closed_new (s : State) : (Automaton.new s : Automaton k).Closed where
  states_ascending := List.pairwise_singleton _ s
  start_isIn := State.isIn_iff.mpr ⟨s, List.mem_cons_self, rfl⟩
  source_isIn := nofun
  target_isIn := nofun

theorem Closed.addState (h : a.Closed) (s : State) : (a.addState s).Closed where
  states_ascending := Ordered.ascending_insert s h.states_ascending
  start_isIn := State.isIn_insert.mpr (.inr h.start_isIn)
  source_isIn e he := State.isIn_insert.mpr (.inr (h.source_isIn e he))
  target_isIn e he := State.isIn_insert.mpr (.inr (h.target_isIn e he))

/-- An arc more, among some of the arcs. -/
theorem Closed.withArc (h : a.Closed) (s t : State) (x : Symbol) {arcs : List Arc}
    (hsub : ∀ e ∈ arcs, e ∈ a.arcs) :
    (⟨a.start, a.carryEnds s t, Ordered.insert Arc.order ⟨a.sourceOf s, x, t⟩ arcs⟩ :
      Automaton k).Closed := by
  have hends := (h.addState s).addState t
  refine ⟨hends.states_ascending, hends.start_isIn, fun e he => ?_, fun e he => ?_⟩
  · rcases Ordered.mem_of_mem_insert he with rfl | he
    · exact State.isIn_insert.mpr (.inr (State.isIn_insert.mpr (.inl (sourceOf_id a s))))
    · exact hends.source_isIn e (hsub e he)
  · rcases Ordered.mem_of_mem_insert he with rfl | he
    · exact State.isIn_insert.mpr (.inl rfl)
    · exact hends.target_isIn e (hsub e he)

theorem closed_prune (a : Automaton k) : a.prune.Closed where
  states_ascending := Ordered.ascending_ofList _
  start_isIn := isIn_reachable_iff.mpr (reaches_start a)
  source_isIn e he := isIn_reachable_iff.mpr (mem_arcs_prune.mp he).2
  target_isIn e he := by
    obtain ⟨he, hr⟩ := mem_arcs_prune.mp he
    exact isIn_reachable_iff.mpr (hr.target he)

end Automaton

open Automaton

theorem Nfa.Made.closed {n : Nfa} (h : n.Made) : n.Closed := by
  induction h with
  | new s => exact closed_new s
  | addState s _ ih => exact ih.addState s
  | addArc s x t _ ih => exact ih.withArc s t x fun _ he => he
  | prune _ _ => exact closed_prune _

theorem Dfa.Made.closed {d : Dfa} (h : d.Made) : d.Closed := by
  induction h with
  | new s => exact closed_new s
  | addState s _ ih => exact ih.addState s
  | setArc s x t _ ih => exact ih.withArc s t x fun _ he => (mem_arcs_other.mp he).1
  | prune _ _ => exact closed_prune _

namespace Automaton

variable {k : Kind} {tags : Tags} {a : Automaton k} {s : State}

/-! ## The order -/

/-- The states that can be reached, as a search finds them breadth first. -/
def found (a : Automaton k) : List State := Graph.visit State.id a.links .queue [a.start] []

/-- The carried states that the search does not find. -/
def rest (a : Automaton k) : List State := a.states.filter fun s => !s.isIn a.found

theorem ordered_eq (a : Automaton k) : a.ordered = a.found ++ a.rest := rfl

theorem isIn_found_iff : s.isIn a.found ↔ Reaches a s.id := by
  have h : s.isIn a.found ↔ Graph.Leads State.id a.links a.start.id s.id := Graph.seen_visit_iff
  rw [h, ← connects_iff_leads]
  rfl

theorem reaches_of_mem_found (h : s ∈ a.found) : Reaches a s.id :=
  isIn_found_iff.mp (State.isIn_iff.mpr ⟨s, h, rfl⟩)

theorem not_reaches_of_mem_rest (h : s ∈ a.rest) : ¬ Reaches a s.id := by
  have hs := (List.mem_filter.mp h).2
  rw [Bool.not_eq_true', Bool.eq_false_iff] at hs
  exact mt isIn_found_iff.mpr hs

theorem Closed.isIn_of_mem_found (h : a.Closed) (hs : s ∈ a.found) : s.isIn a.states := by
  refine Graph.forall_mem_visit (P := fun s => s.isIn a.states) (fun l hl => ?_) (fun x hx => ?_)
    (fun x hx => by cases hx) s hs
  · obtain ⟨e, he, rfl⟩ := List.mem_map.mp hl
    exact h.target_isIn e he
  · rw [List.mem_singleton.mp hx]
    exact h.start_isIn

theorem Closed.isIn_of_reaches (h : a.Closed) (hr : Reaches a s.id) : s.isIn a.states := by
  obtain ⟨t, ht, hid⟩ := State.isIn_iff.mp (isIn_found_iff.mpr hr)
  obtain ⟨u, hu, hid'⟩ := State.isIn_iff.mp (h.isIn_of_mem_found ht)
  exact State.isIn_iff.mpr ⟨u, hu, hid'.trans hid⟩

theorem Closed.isIn_ordered_iff (h : a.Closed) : s.isIn a.ordered ↔ s.isIn a.states := by
  constructor
  · intro hs
    obtain ⟨t, ht, hid⟩ := State.isIn_iff.mp hs
    rw [ordered_eq, List.mem_append] at ht
    rcases ht with ht | ht
    · exact h.isIn_of_reaches (hid ▸ reaches_of_mem_found ht)
    · exact State.isIn_iff.mpr ⟨t, (List.mem_filter.mp ht).1, hid⟩
  · intro hs
    obtain ⟨t, ht, hid⟩ := State.isIn_iff.mp hs
    rw [State.isIn_iff, ordered_eq]
    cases hf : t.isIn a.found with
    | true =>
        obtain ⟨u, hu, hid'⟩ := State.isIn_iff.mp hf
        exact ⟨u, List.mem_append_left _ hu, hid'.trans hid⟩
    | false => exact ⟨t, List.mem_append_right _ (List.mem_filter.mpr ⟨ht, by rw [hf]; rfl⟩), hid⟩

/-- Where the search finds all states in the order in which they are carried, this is the order. -/
theorem ordered_eq_states (h : a.found = a.states) : a.ordered = a.states := by
  have hrest : a.rest = [] := by
    refine List.filter_eq_nil_iff.mpr fun s hs => ?_
    rw [Bool.not_eq_true', Bool.not_eq_false, h]
    exact State.isIn_iff.mpr ⟨s, hs, rfl⟩
  rw [ordered_eq, hrest, List.append_nil, h]

/-- What holds of the order of every automaton. -/
structure Numbered (a : Automaton k) : Prop where
  /-- The numbers are those of the carried states. -/
  perm : (a.ordered.map State.id).Perm (a.states.map State.id)
  /-- No number comes twice. -/
  nodup : (a.ordered.map State.id).Nodup
  /-- The start comes first. -/
  head : a.ordered.head? = some a.start
  /-- The states that are found come first. -/
  eq_append : a.ordered = a.found ++ a.rest
  /-- They can be reached. -/
  found_reached : ∀ s ∈ a.found, Reaches a s.id
  /-- The others cannot. -/
  rest_unreached : ∀ s ∈ a.rest, ¬ Reaches a s.id
  /-- The others ascend. -/
  rest_ascending : (a.rest.map State.id).Pairwise (· < ·)

theorem Closed.ids_ascending (h : a.Closed) : (a.states.map State.id).Pairwise (· < ·) :=
  List.pairwise_map.mpr (h.states_ascending.imp Nat.compare_eq_lt.mp)

theorem Closed.perm_ids (h : a.Closed) : (a.ordered.map State.id).Perm (a.states.map State.id) := by
  have hids : ∀ {i : Nat} {states : List State}, i ∈ states.map State.id ↔
      State.isIn ⟨i, none⟩ states := by
    intro i states
    rw [State.isIn_iff, List.mem_map]
  refine (List.perm_ext_iff_of_nodup (nodup_ids_ordered h.states_ascending)
    (h.ids_ascending.imp Nat.ne_of_lt)).mpr fun i => ?_
  rw [hids, hids, h.isIn_ordered_iff]

theorem Closed.numbered (h : a.Closed) : a.Numbered where
  perm := h.perm_ids
  nodup := nodup_ids_ordered h.states_ascending
  head := head?_ordered a
  eq_append := ordered_eq a
  found_reached _ := reaches_of_mem_found
  rest_unreached _ := not_reaches_of_mem_rest
  rest_ascending := List.pairwise_map.mpr ((h.states_ascending.filter _).imp Nat.compare_eq_lt.mp)

/-! ## Places -/

/-- The place of a state depends on its number alone. -/
theorem place_congr {t : State} (h : s.id = t.id) : a.place s = a.place t := by
  rw [place, place, h]

theorem Closed.place_of_getElem? (h : a.Closed) {i : Nat} (hi : a.ordered[i]? = some s) :
    a.place s = i := by
  obtain ⟨hlt, rfl⟩ := List.getElem?_eq_some_iff.mp hi
  refine (List.findIdx_eq hlt).mpr ⟨beq_self_eq_true _, fun j hj => ?_⟩
  rw [beq_eq_false_iff_ne]
  have hne := List.pairwise_map.mp (nodup_ids_ordered h.states_ascending)
  exact List.pairwise_iff_getElem.mp hne j i (Nat.lt_trans hj hlt) hlt hj

/-- A carried number has a place. -/
theorem Closed.exists_at_place (h : a.Closed) (hs : s.isIn a.states) :
    ∃ t, a.ordered[a.place s]? = some t ∧ t.id = s.id := by
  obtain ⟨t, ht, hid⟩ := State.isIn_iff.mp (h.isIn_ordered_iff.mpr hs)
  have hlt : a.place s < a.ordered.length :=
    List.findIdx_lt_length_of_exists ⟨t, ht, beq_iff_eq.mpr hid⟩
  exact ⟨_, List.getElem?_eq_getElem hlt, beq_iff_eq.mp (List.findIdx_getElem (w := hlt))⟩

/-- Numbers that can be reached have the first places. -/
theorem place_lt_found (h : Reaches a s.id) : a.place s < a.found.length := by
  obtain ⟨t, ht, hid⟩ := State.isIn_iff.mp (isIn_found_iff.mpr h)
  have hlt : (a.found.findIdx fun t => t.id == s.id) < a.found.length :=
    List.findIdx_lt_length_of_exists ⟨t, ht, beq_iff_eq.mpr hid⟩
  rw [place, ordered_eq, List.findIdx_append, if_pos hlt]
  exact hlt

end Automaton

end LexicalAutomata
