/-
# `LexicalAutomata.Proofs.Automaton.Numbering` — every carried state has one place in the order

`ordered` lists each carried state once, the start first.  So the carried states and the places below
their number correspond to each other: `place` gives the place of a state, and looking a place up gives
the state back (`getElem?_ordered_iff`).
-/
import LexicalAutomata.Proofs.Automaton.WellFormed

namespace LexicalAutomata.Automaton

variable {k : Kind} {tags : Tags} {a : Automaton k}

/-! ## The order -/

/-- The states that are found breadth first. -/
theorem mem_found (h : a.WellFormed tags) {f : Graph.Frontier} {s : State} :
    s ∈ Graph.visit State.id a.links f [a.start] [] ↔ s ∈ a.states ∧ Reaches a s.id := by
  have hsub : ∀ t ∈ Graph.visit State.id a.links f [a.start] [], t ∈ a.states := by
    refine Graph.forall_mem_visit (fun l hl => ?_) (fun x hx => ?_) fun x hx => by cases hx
    · obtain ⟨e, he, rfl⟩ := List.mem_map.mp hl
      exact h.target_mem e he
    · rw [List.mem_singleton.mp hx]
      exact h.start_mem
  have hseen : Graph.seen State.id (Graph.visit State.id a.links f [a.start] []) s ↔
      Reaches a s.id := by
    rw [Graph.seen_visit_iff, ← connects_iff_leads]
    rfl
  constructor
  · exact fun hs => ⟨hsub s hs, hseen.mp (Graph.seen_iff.mpr ⟨s, hs, rfl⟩)⟩
  · intro h'
    obtain ⟨hs, hr⟩ := h'
    obtain ⟨t, ht, e⟩ := Graph.seen_iff.mp (hseen.mpr hr)
    exact h.eq_of_id (hsub t ht) hs e ▸ ht

theorem mem_ordered (h : a.WellFormed tags) {s : State} : s ∈ a.ordered ↔ s ∈ a.states := by
  simp only [ordered, List.mem_append, List.mem_filter, Bool.not_eq_true']
  constructor
  · intro h'
    rcases h' with hs | ⟨hs, -⟩
    · exact ((mem_found h).mp hs).1
    · exact hs
  · intro hs
    by_cases hf : s ∈ Graph.visit State.id a.links .queue [a.start] []
    · exact .inl hf
    · refine .inr ⟨hs, Bool.eq_false_iff.mpr fun hin => ?_⟩
      obtain ⟨t, ht, e⟩ := State.isIn_iff.mp hin
      exact hf (h.eq_of_id ((mem_found h).mp ht).1 hs e ▸ ht)

/-- No number is listed twice, whatever the states are. -/
theorem nodup_ids_ordered (h : Ordered.Ascending State.order a.states) :
    (a.ordered.map State.id).Nodup := by
  have hids : (a.states.map State.id).Nodup :=
    List.pairwise_map.mpr (h.imp fun hlt => Nat.ne_of_lt (Nat.compare_eq_lt.mp hlt))
  rw [ordered, List.map_append, List.nodup_append]
  refine ⟨Graph.nodup_map_visit .nil, hids.sublist (List.filter_sublist.map _), ?_⟩
  rintro i hi j hj rfl
  obtain ⟨s, hs, rfl⟩ := List.mem_map.mp hi
  obtain ⟨t, ht, e⟩ := List.mem_map.mp hj
  obtain ⟨-, hn⟩ := List.mem_filter.mp ht
  rw [Bool.not_eq_true', Bool.eq_false_iff] at hn
  exact hn (State.isIn_iff.mpr ⟨s, hs, e.symm⟩)

theorem nodup_map_ordered (h : a.WellFormed tags) : (a.ordered.map State.id).Nodup :=
  nodup_ids_ordered h.states_ascending

/-- Where all numbers have one tag, the order lists the carried states themselves. -/
theorem WellFormed.perm_ordered (h : a.WellFormed tags) : a.ordered.Perm a.states :=
  (List.perm_ext_iff_of_nodup ((nodup_map_ordered h).of_map _) h.states_ascending.nodup).mpr
    fun _ => mem_ordered h

theorem length_ordered (h : a.WellFormed tags) : a.ordered.length = a.states.length :=
  h.perm_ordered.length_eq

theorem head?_ordered (a : Automaton k) : a.ordered.head? = some a.start := by
  have hvisit : Graph.visit State.id a.links .queue [a.start] [] =
      Graph.visit State.id a.links .queue (Graph.successors State.id a.links a.start) [a.start] := by
    rw [Graph.visit]
    rfl
  obtain ⟨rest, hrest⟩ : ∃ rest, Graph.visit State.id a.links .queue [a.start] [] =
      a.start :: rest := hvisit ▸ Graph.visit_eq_append _
  rw [ordered, hrest]
  rfl

/-- Where every carried state can be reached, the order is that of the search alone. -/
theorem ordered_eq_visit (h : a.WellFormed tags) (hc : ∀ s ∈ a.states, Reaches a s.id) :
    a.ordered = Graph.visit State.id a.links .queue [a.start] [] := by
  have hrest : (a.states.filter fun s =>
      !s.isIn (Graph.visit State.id a.links .queue [a.start] [])) = [] := by
    refine List.filter_eq_nil_iff.mpr fun s hs => ?_
    rw [Bool.not_eq_true', Bool.not_eq_false]
    exact State.isIn_iff.mpr ⟨s, (mem_found h).mpr ⟨hs, hc s hs⟩, rfl⟩
  rw [ordered, hrest, List.append_nil]

/-! ## Places -/

/-- The place of a state in the order. -/
def place (a : Automaton k) (s : State) : Nat := a.ordered.findIdx fun t => t.id == s.id

theorem getElem?_ordered_iff (h : a.WellFormed tags) {s : State} {i : Nat} :
    a.ordered[i]? = some s ↔ s ∈ a.states ∧ a.place s = i := by
  constructor
  · intro hi
    have hs : s ∈ a.ordered := List.mem_of_getElem? hi
    obtain ⟨hlt, e⟩ := List.getElem?_eq_some_iff.mp hi
    refine ⟨(mem_ordered h).mp hs, (List.findIdx_eq hlt).mpr ⟨by simp [e], fun j hj => ?_⟩⟩
    have hne := (List.nodup_iff_getElem?_ne_getElem?.mp (nodup_map_ordered h)) j i hj (by simpa using hlt)
    have hlt' : j < a.ordered.length := Nat.lt_trans hj hlt
    rw [List.getElem?_map, List.getElem?_map, hi, List.getElem?_eq_getElem hlt'] at hne
    simpa using hne
  · intro h'
    obtain ⟨hs, rfl⟩ := h'
    have hlt : a.place s < a.ordered.length :=
      List.findIdx_lt_length_of_exists ⟨s, (mem_ordered h).mpr hs, beq_self_eq_true _⟩
    have hid : (a.ordered[a.place s]).id = s.id := beq_iff_eq.mp (List.findIdx_getElem (w := hlt))
    refine List.getElem?_eq_some_iff.mpr ⟨hlt, ?_⟩
    exact h.eq_of_id ((mem_ordered h).mp (List.getElem_mem hlt)) hs hid

theorem getElem?_place (h : a.WellFormed tags) {s : State} (hs : s ∈ a.states) :
    a.ordered[a.place s]? = some s :=
  (getElem?_ordered_iff h).mpr ⟨hs, rfl⟩

theorem place_lt (h : a.WellFormed tags) {s : State} (hs : s ∈ a.states) :
    a.place s < a.ordered.length :=
  (List.getElem?_eq_some_iff.mp (getElem?_place h hs)).1

theorem place_injective (h : a.WellFormed tags) {s t : State} (hs : s ∈ a.states)
    (ht : t ∈ a.states) (e : a.place s = a.place t) : s = t := by
  have := getElem?_place h hs
  rw [e, getElem?_place h ht] at this
  exact (Option.some_inj.mp this).symm

theorem exists_of_lt (h : a.WellFormed tags) {i : Nat} (hi : i < a.ordered.length) :
    ∃ s ∈ a.states, a.place s = i ∧ a.ordered[i]? = some s := by
  have e := List.getElem?_eq_getElem hi
  obtain ⟨hs, hp⟩ := (getElem?_ordered_iff h).mp e
  exact ⟨_, hs, hp, e⟩

theorem position?_ordered (h : a.WellFormed tags) {s : State} (hs : s ∈ a.states) :
    s.position? a.ordered = some (a.place s) :=
  List.findIdx?_eq_some_iff_findIdx_eq.mpr ⟨place_lt h hs, rfl⟩

theorem place_start (h : a.WellFormed tags) : a.place a.start = 0 := by
  have e := head?_ordered a
  rw [List.head?_eq_getElem?] at e
  exact ((getElem?_ordered_iff h).mp e).2

end LexicalAutomata.Automaton
