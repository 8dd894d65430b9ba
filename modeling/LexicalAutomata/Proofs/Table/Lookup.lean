/-
# `LexicalAutomata.Proofs.Table.Lookup` — asking a table that was read is safe and exact

A table by columns is asked in five ways: for the flags and the token of a state, for its edges, and for
where one character leads.  Each is an access to columns that may be out of range, and the last one cuts
the characters of a state out of those of all states and searches them by halving (`Columns.next?`).  A
search by halving finds what is there only if the characters ascend; across the border of two states they
need not, so that the cut has to be right as well.

Where bytes were read as a table, no access is out of range, and the search agrees with looking the
character up among the edges of the row (`next?_columns`).
-/
import LexicalAutomata.Proofs.Table.Codec

namespace LexicalAutomata.Table

/-! ## Searching by halving -/

/-- The place of a character in a list, from `first` on and before `last`, by halving. -/
def bisect (xs : List Char) (c : Char) (first last : Nat) : Option Nat :=
  if first < last then
    let middle := first + (last - first) / 2
    match xs[middle]? with
    | none => none
    | some x =>
        if x < c then bisect xs c (middle + 1) last
        else if c < x then bisect xs c first middle
        else some middle
  else none
termination_by last - first

section Bisect
variable {xs : List Char} {x y c : Char} {i j first last : Nat}

/-- In an ascending list, places are in the order of the characters. -/
theorem lt_of_getElem?_lt (h : xs.Pairwise (· < ·)) (hi : xs[i]? = some x) (hj : xs[j]? = some y)
    (hlt : x < y) : i < j := by
  obtain ⟨hltᵢ, rfl⟩ := List.getElem?_eq_some_iff.mp hi
  obtain ⟨hltⱼ, rfl⟩ := List.getElem?_eq_some_iff.mp hj
  rcases Nat.lt_trichotomy i j with hij | rfl | hji
  · exact hij
  · exact absurd hlt Std.lt_irrefl
  · exact absurd (List.pairwise_iff_getElem.mp h j i hltⱼ hltᵢ hji) (Std.not_gt_of_lt hlt)

theorem eq_of_getElem?_eq (h : xs.Pairwise (· < ·)) (hi : xs[i]? = some c) (hj : xs[j]? = some c) :
    i = j := by
  have hnodup : xs.Nodup := List.Pairwise.imp (fun hlt => Std.ne_of_lt hlt) h
  obtain ⟨hltᵢ, e⟩ := List.getElem?_eq_some_iff.mp hi
  obtain ⟨hltⱼ, e'⟩ := List.getElem?_eq_some_iff.mp hj
  exact hnodup.getElem_inj_iff.mp (e.trans e'.symm)

/-- Halving finds the place of a character in an ascending list, if there is one in the range. -/
theorem bisect_eq_some_iff (h : xs.Pairwise (· < ·)) (hlast : last ≤ xs.length) :
    bisect xs c first last = some i ↔ first ≤ i ∧ i < last ∧ xs[i]? = some c := by
  fun_induction bisect xs c first last with
  | case1 first last hlt middle hnone =>
      have hmiddle : middle < xs.length := by omega
      rw [List.getElem?_eq_getElem hmiddle] at hnone
      cases hnone
  | case2 first last hlt middle x hx hxc ih =>
      rw [ih hlast]
      constructor
      · exact fun ⟨hi, hrest⟩ => ⟨by omega, hrest⟩
      · exact fun ⟨_, hi, hc⟩ => ⟨lt_of_getElem?_lt h hx hc hxc, hi, hc⟩
  | case3 first last hlt middle x hx hxc hcx ih =>
      rw [ih (by omega)]
      constructor
      · exact fun ⟨hi, hrest, hc⟩ => ⟨hi, by omega, hc⟩
      · exact fun ⟨hi, _, hc⟩ => ⟨hi, lt_of_getElem?_lt h hc hx hcx, hc⟩
  | case4 first last hlt middle x hx hxc hcx =>
      obtain rfl : x = c := Std.le_antisymm (Std.not_lt.mp hcx) (Std.not_lt.mp hxc)
      rw [Option.some_inj]
      constructor
      · rintro rfl
        exact ⟨by omega, by omega, hx⟩
      · exact fun ⟨_, _, hc⟩ => eq_of_getElem?_eq h hx hc
  | case5 first last hlt =>
      constructor
      · exact nofun
      · exact fun ⟨hi, hrest, _⟩ => by omega

end Bisect

/-! ## Where a character leads -/

/-- Where a character leads from a state, provided that the accesses this needs are in range: the offset
of the state and the next one, the characters between them, and the destination of the one found. -/
def Columns.next? (c : Columns) (s : Nat) (x : Char) : Option (Option Nat) := do
  let first ← c.offsets[s]?
  let last ← c.offsets[s + 1]?
  if first ≤ last ∧ last ≤ c.symbols.length then
    match bisect ((c.symbols.drop first).take (last - first)) x 0 (last - first) with
    | none => some none
    | some i => (c.destinations[first + i]?).map some
  else none

variable {t : Table} {r : Row} {s : Nat} {x : Char} {bytes : List UInt8}

/-- The search among the characters of a row finds the edge that looking it up finds. -/
theorem bisect_edges (h : r.Sorted) : (∃ i d, bisect (r.edges.map Prod.fst) x 0 r.edges.length = some i ∧
      r.edges[i]? = some (x, d) ∧ r.next? x = some d) ∨
    bisect (r.edges.map Prod.fst) x 0 r.edges.length = none ∧ r.next? x = none := by
  have hsorted : (r.edges.map Prod.fst).Pairwise (· < ·) := List.pairwise_map.mpr h
  have hfind : ∀ i, bisect (r.edges.map Prod.fst) x 0 r.edges.length = some i ↔
      i < r.edges.length ∧ (r.edges.map Prod.fst)[i]? = some x := fun i => by
    rw [bisect_eq_some_iff hsorted (Nat.le_of_eq (List.length_map _).symm)]
    exact and_iff_right (Nat.zero_le i)
  cases hi : bisect (r.edges.map Prod.fst) x 0 r.edges.length with
  | some i =>
      obtain ⟨-, hx⟩ := (hfind i).mp hi
      rw [List.getElem?_map, Option.map_eq_some_iff] at hx
      obtain ⟨⟨x, d⟩, hd, rfl⟩ := hx
      exact .inl ⟨i, d, rfl, hd, (Row.next?_eq_some_iff h).mpr (List.mem_of_getElem? hd)⟩
  | none =>
      refine .inr ⟨rfl, Option.eq_none_iff_forall_ne_some.mpr fun d hd => ?_⟩
      obtain ⟨i, hlt, e⟩ := List.getElem_of_mem ((Row.next?_eq_some_iff h).mp hd)
      have hx : (r.edges.map Prod.fst)[i]? = some x := by
        rw [List.getElem?_map, List.getElem?_eq_getElem hlt, e]
        rfl
      rw [(hfind i).mpr ⟨hlt, hx⟩] at hi
      cases hi

/-- Where a character leads from a state, asked for by columns, is where it leads by rows. -/
theorem next?_columns (h : ∀ r ∈ t.rows, r.Sorted) (s : Nat) (x : Char) :
    t.columns.next? s x = (t.row? s).map fun r => r.next? x := by
  cases hr : t.row? s with
  | none =>
      rw [Columns.next?, offsets_eq_none hr]
      cases t.columns.offsets[s]? <;> rfl
  | some r =>
      obtain ⟨before, after, hsplit, hfirst, hnext⟩ := exists_offsets hr
      have hlength : before.length + r.edges.length ≤ t.columns.symbols.length := by
        rw [columns, List.length_map]
        exact length_le_edges hsplit
      have hcut : (t.columns.symbols.drop before.length).take r.edges.length = r.edges.map Prod.fst :=
        cut_map _ hsplit
      rw [Columns.next?, hfirst, hnext]
      simp only [Option.bind_eq_bind, Option.bind_some, Nat.add_sub_cancel_left, hcut,
        Nat.le_add_right, hlength, and_self, if_true, Option.map_some]
      rcases bisect_edges (x := x) (h r (List.mem_of_getElem? hr)) with ⟨i, d, hi, hd, hx⟩ | ⟨hi, hx⟩
      · have hdestination : t.columns.destinations[before.length + i]? = some d := by
          obtain ⟨hlt, -⟩ := List.getElem?_eq_some_iff.mp hd
          rw [columns, List.getElem?_map, hsplit, List.getElem?_append_right (Nat.le_add_right _ _),
            Nat.add_sub_cancel_left, List.getElem?_append_left hlt, hd]
          rfl
        simp only [hi, hx, hdestination, Option.map_some]
      · simp only [hi, hx]

/-! ## Tables that were read -/

/-- The accesses to a state of a table are in range, and agree with its row; a character leads along the
only edge that has it. -/
structure Accessible (t : Table) (s : Nat) (r : Row) : Prop where
  row : t.row? s = some r
  accepting : t.columns.accepting[s]? = some r.accepting
  skippable : t.columns.skippable[s]? = some r.skippable
  token : t.columns.tokens[s]? = some r.token
  edges : t.columns.edges? s = some r.edges
  next : ∀ x, t.columns.next? s x = some (t.next? s x)
  next_iff : ∀ x d, t.next? s x = some d ↔ (x, d) ∈ r.edges
  unique : ∀ x d d', (x, d) ∈ r.edges → (x, d') ∈ r.edges → d = d'
  inRange : ∀ x d, (x, d) ∈ r.edges → d < t.stateCount

theorem WellFormed.accessible (h : t.WellFormed) (hs : s < t.stateCount) :
    ∃ r, t.Accessible s r := by
  have hrow : t.row? s = some t.rows[s] := List.getElem?_eq_getElem hs
  have hmem : t.rows[s] ∈ t.rows := List.getElem_mem hs
  have hcolumn : ∀ {β : Type} (f : Row → β), (t.rows.map f)[s]? = some (f t.rows[s]) := fun f => by
    rw [List.getElem?_map, List.getElem?_eq_getElem hs]
    rfl
  have hnext : ∀ x, t.next? s x = t.rows[s].next? x := fun x => by
    rw [Table.next?, hrow]
    rfl
  have hiff : ∀ x d, t.next? s x = some d ↔ (x, d) ∈ t.rows[s].edges := fun x d => by
    rw [hnext, Row.next?_eq_some_iff (h.sorted _ hmem)]
  refine ⟨t.rows[s], hrow, hcolumn _, hcolumn _, hcolumn _, ?_, fun x => ?_, hiff,
    fun x d d' hd hd' => ?_, fun x d hd => h.inRange _ hmem _ hd⟩
  · rw [edges?_columns, hrow]
    rfl
  · rw [next?_columns h.sorted, hrow, hnext]
    rfl
  · exact Option.some_inj.mp (((hiff x d).mpr hd).symm.trans ((hiff x d').mpr hd'))

/-- The edges of all states, asked for one state after the other. -/
theorem mapM_edges?_columns (t : Table) :
    (List.range t.stateCount).mapM t.columns.edges? = some (t.rows.map Row.edges) := by
  have hedges : ∀ s ∈ List.range t.stateCount,
      t.columns.edges? s = pure (((t.row? s).map Row.edges).getD []) := fun s hs => by
    rw [edges?_columns, row?, List.getElem?_eq_getElem (List.mem_range.mp hs)]
    rfl
  rw [mapM_eq_pure hedges]
  refine congrArg some (List.ext_getElem (by simp [stateCount]) fun s hs hs' => ?_)
  have hlt : s < t.rows.length := by simpa using hs'
  simp [row?, hlt]

/-- A table that was read is asked without an access out of range, whatever the bytes were.  A character
leads from a state along the only edge of the state that has it, to a state; the edges of the states are
all that is stored, once and in this order; and the table has no empty moves and is deterministic. -/
theorem lookup_exact (h : decode bytes = .ok t) :
    t.columns.bytes = bytes ∧
    (∀ s < t.stateCount, ∃ r, t.Accessible s r) ∧
    (∃ parts, (List.range t.stateCount).mapM t.columns.edges? = some parts ∧
      t.columns.symbols.length = t.columns.destinations.length ∧
      parts.flatten = t.columns.symbols.zip t.columns.destinations) ∧
    t.graph.checkEpsilonFree = .ok () ∧ t.graph.checkDeterministic = .ok () := by
  obtain ⟨hw, -, hbytes⟩ := decode_eq_ok_iff_encode.mp h
  refine ⟨(encode_eq_bytes t).symm.trans hbytes, fun s => hw.accessible,
    ⟨_, mapM_edges?_columns t, (columns_shaped t).symbols_length, ?_⟩,
    checkEpsilonFree_graph_eq_ok t, checkDeterministic_graph_eq_ok hw.sorted⟩
  rw [columns, zip_edges, edges, List.flatMap_def]

/-- The bytes of a table of two states, which both read `a`. -/
def bothReadBytes : List UInt8 :=
  [0, 0, 0, 2, 0, 0, 0, 3, 0x00, 0xFF, 0x00, 0x00, 0xFF, 0xFF, 0xFF, 0xFF, 0, 0, 0, 0,
    0, 0, 0, 0, 0, 0, 0, 2, 0, 0, 0, 3, 0, 0, 0, 0x61, 0, 0, 0, 0x62, 0, 0, 0, 0x61,
    0, 0, 0, 1, 0, 0, 0, 0, 0, 0, 0, 0]

theorem lookup_exact_bothRead : ∃ t, decode bothReadBytes = .ok t ∧
    t.columns.symbols = ['a', 'b', 'a'] ∧
    t.columns.next? 0 'a' = some (some 1) ∧ t.columns.next? 1 'a' = some (some 0) ∧
    t.columns.next? 1 'b' = some none ∧ t.graph.checkDeterministic = .ok () := by
  have hd : decode bothReadBytes =
      .ok ⟨[⟨none, false, [('a', 1), ('b', 0)]⟩, ⟨some 0, false, [('a', 0)]⟩]⟩ := by decide +kernel
  obtain ⟨-, haccess, -, -, hcheck⟩ := lookup_exact hd
  obtain ⟨r, hr⟩ := haccess 0 (by decide)
  obtain ⟨r', hr'⟩ := haccess 1 (by decide)
  exact ⟨_, hd, rfl, hr.next 'a', hr'.next 'a', hr'.next 'b', hcheck⟩

end LexicalAutomata.Table
