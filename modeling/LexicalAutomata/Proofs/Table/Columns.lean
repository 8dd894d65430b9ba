/-
# `LexicalAutomata.Proofs.Table.Columns` — a table by rows and by columns

The bytes of a table list it by columns: all flags, then all tokens, then all offsets, and then, for the
edges of all states in one list, all characters and all destinations.  Columns can be wrong in ways that
rows cannot: they may differ in length, a state may have a token and not accept, and the edges of a state
may begin behind the place where they end.  `Columns.WellFormed` says what has to hold.

Well-formed tables and well-formed columns are the same thing: the columns of a table give the table back
(`table_columns`), and so do the rows of columns (`columns_table`); and asking columns for the edges of a
state, which is an access to the offset of the state, to the next one, and to all places between them,
gives the edges of its row (`edges?_columns`).
-/
import Mathlib.Data.Nat.Basic
import LexicalAutomata.Table.Codec

namespace LexicalAutomata.Table

/-! ## Columns -/

/-- A table by columns. -/
structure Columns where
  /-- For each state, whether it accepts. -/
  accepting : List Bool
  /-- For each state, whether its token is not handed on. -/
  skippable : List Bool
  /-- For each state, the index of its token. -/
  tokens : List (Option Nat)
  /-- For each state, where its edges begin; and where the last ones end. -/
  offsets : List Nat
  /-- For each edge, its character. -/
  symbols : List Char
  /-- For each edge, where it leads. -/
  destinations : List Nat

namespace Columns

/-- How many states there are. -/
def stateCount (c : Columns) : Nat := c.accepting.length

/-- How many edges there are. -/
def destinationCount (c : Columns) : Nat := c.destinations.length

/-- The edges of a state, provided that the accesses they need are in range. -/
def edges? (c : Columns) (s : Nat) : Option (List (Char × Nat)) := do
  let first ← c.offsets[s]?
  let last ← c.offsets[s + 1]?
  if first ≤ last ∧ last ≤ c.symbols.length ∧ last ≤ c.destinations.length then
    some (((c.symbols.drop first).take (last - first)).zip
      ((c.destinations.drop first).take (last - first)))
  else none

/-- The columns fit together: they belong to one list of states and one list of edges. -/
structure Shaped (c : Columns) : Prop where
  skippable_length : c.skippable.length = c.stateCount
  tokens_length : c.tokens.length = c.stateCount
  offsets_length : c.offsets.length = c.stateCount + 1
  symbols_length : c.symbols.length = c.destinationCount
  /-- A state has a token exactly if it accepts. -/
  tokens_isSome : c.tokens.map Option.isSome = c.accepting
  /-- The edges of the first state come first. -/
  offsets_head : c.offsets.head? = some 0
  /-- Every state's edges end where those of the next begin. -/
  offsets_monotone : c.offsets.Pairwise (· ≤ ·)
  /-- The edges of the last state end where all edges end. -/
  offsets_last : c.offsets.getLast? = some c.destinationCount

/-- The columns of a table with a start, whose states have ascending edges that lead to states. -/
structure WellFormed (c : Columns) : Prop extends c.Shaped where
  stateCount_pos : 0 < c.stateCount
  sorted : ∀ s < c.stateCount, ∃ edges, c.edges? s = some edges ∧
    edges.Pairwise fun x y => x.1 < y.1
  inRange : ∀ d ∈ c.destinations, d < c.stateCount

/-- The numbers of states and edges and the tokens can be written: they are not taken for negative
numbers when they are read. -/
structure Fits (c : Columns) : Prop where
  stateCount_lt : c.stateCount < 0x80000000
  destinationCount_lt : c.destinationCount < 0x80000000
  token_lt : ∀ t ∈ c.tokens, ∀ i ∈ t, i < 0x80000000

/-- The table of columns. -/
def table (c : Columns) : Table :=
  ⟨Reader.assemble c.tokens c.skippable
    (Reader.segments c.offsets (c.symbols.zip c.destinations))⟩

/-- The bytes of columns. -/
def bytes (c : Columns) : List UInt8 :=
  word c.stateCount ++ word c.destinationCount ++ c.accepting.map flag ++ c.skippable.map flag ++
    c.tokens.flatMap (fun t => word (tokenWord t)) ++ c.offsets.flatMap word ++
    c.symbols.flatMap (fun x => word x.toNat) ++ c.destinations.flatMap word

end Columns

/-- The columns of a table. -/
def columns (t : Table) : Columns where
  accepting := t.rows.map Row.accepting
  skippable := t.rows.map Row.skippable
  tokens := t.rows.map Row.token
  offsets := offsets 0 t.rows
  symbols := t.edges.map Prod.fst
  destinations := t.edges.map Prod.snd

/-- The numbers of states and edges and the tokens can be written. -/
structure Fits (t : Table) : Prop where
  stateCount_lt : t.stateCount < 0x80000000
  destinationCount_lt : t.destinationCount < 0x80000000
  token_lt : ∀ r ∈ t.rows, ∀ i ∈ r.token, i < 0x80000000

variable {t : Table} {c : Columns}

/-- A table is written by columns. -/
theorem encode_eq_bytes (t : Table) : t.encode = t.columns.bytes := by
  simp only [encode, Columns.bytes, Columns.stateCount, Columns.destinationCount, columns, stateCount,
    destinationCount, List.length_map, List.map_map, List.flatMap_map, Function.comp_def]

/-! ## From rows to columns and back -/

theorem offsets_eq_cons (start : Nat) (rows : List Row) :
    ∃ rest, offsets start rows = start :: rest := by
  cases rows with
  | nil => exact ⟨[], rfl⟩
  | cons r rows => exact ⟨_, rfl⟩

theorem segments_offsets (start : Nat) (rows : List Row) :
    Reader.segments (offsets start rows) (rows.flatMap Row.edges) = rows.map Row.edges := by
  induction rows generalizing start with
  | nil => rfl
  | cons r rows ih =>
      have ih := ih (start + r.edges.length)
      rw [offsets]
      obtain ⟨rest, hrest⟩ := offsets_eq_cons (start + r.edges.length) rows
      rw [hrest] at ih ⊢
      rw [Reader.segments, Nat.add_sub_cancel_left, List.flatMap_cons, List.take_left, List.drop_left,
        ih, List.map_cons]

theorem assemble_map (rows : List Row) :
    Reader.assemble (rows.map Row.token) (rows.map Row.skippable) (rows.map Row.edges) = rows := by
  induction rows with
  | nil => rfl
  | cons r rows ih => exact congrArg (r :: ·) ih

theorem zip_edges (edges : List (Char × Nat)) :
    (edges.map Prod.fst).zip (edges.map Prod.snd) = edges := by
  rw [List.zip_map', List.map_id'']
  exact fun _ => rfl

theorem table_columns (t : Table) : t.columns.table = t := by
  rw [Columns.table, columns, zip_edges, edges, segments_offsets, assemble_map]

theorem assemble_cons (token : Option Nat) (tokens : List (Option Nat)) (b : Bool)
    (skippable : List Bool) (es : List (Char × Nat)) (edges : List (List (Char × Nat))) :
    Reader.assemble (token :: tokens) (b :: skippable) (es :: edges) =
      ⟨token, b, es⟩ :: Reader.assemble tokens skippable edges := rfl

/-- Rows that are cut out of a list of edges at offsets have these offsets, and these edges. -/
theorem assemble_segments {first : Nat} {rest : List Nat} {xs : List (Char × Nat)}
    {tokens : List (Option Nat)} {skippable : List Bool} (ht : tokens.length = rest.length)
    (hs : skippable.length = rest.length) (hm : (first :: rest).Pairwise (· ≤ ·))
    (hlast : (first :: rest).getLast? = some (first + xs.length)) {rows : List Row}
    (hrows : rows = Reader.assemble tokens skippable (Reader.segments (first :: rest) xs)) :
    rows.map Row.token = tokens ∧ rows.map Row.skippable = skippable ∧
      offsets first rows = first :: rest ∧ rows.flatMap Row.edges = xs := by
  induction rest generalizing first xs tokens skippable rows with
  | nil =>
      obtain rfl := List.length_eq_zero_iff.mp ht
      obtain rfl := List.length_eq_zero_iff.mp hs
      have hxs : xs.length = 0 := by simpa using hlast
      obtain rfl := List.length_eq_zero_iff.mp hxs
      subst hrows
      exact ⟨rfl, rfl, rfl, rfl⟩
  | cons next rest ih =>
      obtain ⟨token, tokens, rfl⟩ := List.exists_cons_of_length_eq_add_one ht
      obtain ⟨b, skippable, rfl⟩ := List.exists_cons_of_length_eq_add_one hs
      obtain ⟨hle, hm⟩ := List.pairwise_cons.mp hm
      have hnext := hle next List.mem_cons_self
      rw [List.getLast?_cons_cons] at hlast
      have hend : next ≤ first + xs.length := by
        rcases List.mem_cons.mp (List.mem_of_getLast? hlast) with e | hmem
        · exact Nat.le_of_eq e.symm
        · exact (List.pairwise_cons.mp hm).1 _ hmem
      have hcut : first + (xs.take (next - first)).length = next := by
        rw [List.length_take]
        omega
      have hdrop : next + (xs.drop (next - first)).length = first + xs.length := by
        rw [List.length_drop]
        omega
      obtain ⟨htokens, hskippable, hoffsets, hedges⟩ := ih (Nat.succ_injective ht)
        (Nat.succ_injective hs) hm (by rw [hlast, hdrop]) rfl
      rw [Reader.segments, assemble_cons] at hrows
      subst hrows
      refine ⟨congrArg (token :: ·) htokens, congrArg (b :: ·) hskippable, ?_, ?_⟩
      · rw [offsets, hcut, hoffsets]
      · rw [List.flatMap_cons, hedges, List.take_append_drop]

theorem columns_table (h : c.Shaped) : c.table.columns = c := by
  obtain ⟨rest, hrest⟩ := List.head?_eq_some_iff.mp h.offsets_head
  have hlength : rest.length = c.stateCount := by
    have := h.offsets_length
    rw [hrest] at this
    exact Nat.succ_injective this
  have hzip : (c.symbols.zip c.destinations).length = c.destinationCount := by
    rw [List.length_zip, h.symbols_length]
    exact Nat.min_self _
  have hm := h.offsets_monotone
  have hlast := h.offsets_last
  rw [hrest] at hm
  rw [hrest, ← hzip, ← Nat.zero_add (List.length _)] at hlast
  have hrows : c.table.rows = Reader.assemble c.tokens c.skippable
      (Reader.segments (0 :: rest) (c.symbols.zip c.destinations)) := by
    rw [← hrest]
    rfl
  obtain ⟨htokens, hskippable, hoffsets, hedges⟩ :=
    assemble_segments (h.tokens_length.trans hlength.symm) (h.skippable_length.trans hlength.symm)
      hm hlast hrows
  have haccepting : c.table.rows.map Row.accepting = c.accepting := by
    rw [← h.tokens_isSome, ← htokens, List.map_map]
    rfl
  have hedges : c.table.edges = c.symbols.zip c.destinations := hedges
  rw [columns, haccepting, hskippable, htokens, hoffsets, hedges, ← hrest,
    List.map_fst_zip (Nat.le_of_eq h.symbols_length),
    List.map_snd_zip (Nat.le_of_eq h.symbols_length.symm)]

/-! ## The edges of a state -/

theorem getElem?_offsets {start : Nat} {rows : List Row} {s : Nat} (h : s ≤ rows.length) :
    (offsets start rows)[s]? = some (start + ((rows.take s).flatMap Row.edges).length) := by
  induction rows generalizing start s with
  | nil =>
      obtain rfl := Nat.le_zero.mp h
      rfl
  | cons r rows ih =>
      cases s with
      | zero => rfl
      | succ s =>
          rw [offsets, List.getElem?_cons_succ, ih (Nat.le_of_succ_le_succ h), List.take_succ_cons,
            List.flatMap_cons, List.length_append, Nat.add_assoc]

theorem length_offsets (start : Nat) (rows : List Row) :
    (offsets start rows).length = rows.length + 1 := by
  induction rows generalizing start with
  | nil => rfl
  | cons r rows ih => rw [offsets, List.length_cons, ih, List.length_cons]

/-- The edges of a state stand between those of the states before it and those of the rest. -/
theorem edges_eq_append {s : Nat} {r : Row} (h : t.row? s = some r) :
    t.edges = (t.rows.take s).flatMap Row.edges ++
      (r.edges ++ (t.rows.drop (s + 1)).flatMap Row.edges) := by
  obtain ⟨hs, rfl⟩ := List.getElem?_eq_some_iff.mp h
  rw [← List.flatMap_cons, ← List.drop_eq_getElem_cons hs, ← List.flatMap_append,
    List.take_append_drop, edges]

/-- The accesses to the edges of a state, where they are in range. -/
theorem Columns.edges?_eq_some {s first n : Nat} (hfirst : c.offsets[s]? = some first)
    (hnext : c.offsets[s + 1]? = some (first + n)) (hs : first + n ≤ c.symbols.length)
    (hd : first + n ≤ c.destinations.length) :
    c.edges? s =
      some (((c.symbols.drop first).take n).zip ((c.destinations.drop first).take n)) := by
  rw [edges?, hfirst, hnext]
  simp [hs, hd]

/-- A state that is not there has no offset behind it. -/
theorem offsets_eq_none {s : Nat} (h : t.row? s = none) : t.columns.offsets[s + 1]? = none := by
  have hlt : t.rows.length ≤ s := List.getElem?_eq_none_iff.mp h
  refine List.getElem?_eq_none ?_
  rw [columns, length_offsets]
  exact Nat.succ_le_succ hlt

/-- The offset of a state counts the edges before its own, and the next one those up to their end. -/
theorem exists_offsets {s : Nat} {r : Row} (h : t.row? s = some r) :
    ∃ before after, t.edges = before ++ (r.edges ++ after) ∧
      t.columns.offsets[s]? = some before.length ∧
      t.columns.offsets[s + 1]? = some (before.length + r.edges.length) := by
  obtain ⟨hs, -⟩ := List.getElem?_eq_some_iff.mp h
  refine ⟨_, _, edges_eq_append h, ?_, ?_⟩
  · rw [columns, getElem?_offsets (Nat.le_of_lt hs), Nat.zero_add]
  · rw [columns, getElem?_offsets hs, Nat.zero_add, List.take_add_one,
      show t.rows[s]? = some r from h, List.flatMap_append, List.length_append]
    simp

/-- What a column of edges has between the offsets of a state. -/
theorem cut_map {β : Type} {before after : List (Char × Nat)} {r : Row} (f : Char × Nat → β)
    (h : t.edges = before ++ (r.edges ++ after)) :
    ((t.edges.map f).drop before.length).take r.edges.length = r.edges.map f := by
  rw [h, ← List.map_drop, ← List.map_take, List.drop_left, List.take_left]

theorem length_le_edges {before after : List (Char × Nat)} {r : Row}
    (h : t.edges = before ++ (r.edges ++ after)) :
    before.length + r.edges.length ≤ t.edges.length := by
  rw [h, List.length_append, List.length_append]
  omega

/-- The edges of a state, asked for by columns, are those of its row. -/
theorem edges?_columns (t : Table) (s : Nat) :
    t.columns.edges? s = (t.row? s).map Row.edges := by
  cases hr : t.row? s with
  | none =>
      rw [Columns.edges?, offsets_eq_none hr]
      cases t.columns.offsets[s]? <;> rfl
  | some r =>
      obtain ⟨before, after, hsplit, hfirst, hnext⟩ := exists_offsets hr
      have hlength := length_le_edges hsplit
      rw [Columns.edges?_eq_some hfirst hnext (by rwa [columns, List.length_map])
        (by rwa [columns, List.length_map])]
      exact congrArg some
        ((congrArg₂ List.zip (cut_map _ hsplit) (cut_map _ hsplit)).trans (zip_edges r.edges))

/-! ## Well-formed columns -/

theorem le_of_mem_offsets {start n : Nat} {rows : List Row} (h : n ∈ offsets start rows) :
    start ≤ n := by
  induction rows generalizing start with
  | nil => exact Nat.le_of_eq (List.mem_singleton.mp h).symm
  | cons r rows ih =>
      rcases List.mem_cons.mp h with rfl | h
      · exact Nat.le_refl n
      · exact Nat.le_trans (Nat.le_add_right start _) (ih h)

theorem offsets_monotone (start : Nat) (rows : List Row) :
    (offsets start rows).Pairwise (· ≤ ·) := by
  induction rows generalizing start with
  | nil => exact List.pairwise_singleton _ _
  | cons r rows ih =>
      exact .cons (fun n hn => Nat.le_trans (Nat.le_add_right start _) (le_of_mem_offsets hn)) (ih _)

theorem getLast?_offsets (start : Nat) (rows : List Row) :
    (offsets start rows).getLast? = some (start + (rows.flatMap Row.edges).length) := by
  rw [List.getLast?_eq_getElem?, length_offsets, Nat.add_sub_cancel, getElem?_offsets (Nat.le_refl _),
    List.take_length]

theorem columns_shaped (t : Table) : t.columns.Shaped where
  skippable_length := by simp [columns, Columns.stateCount]
  tokens_length := by simp [columns, Columns.stateCount]
  offsets_length := by simp [columns, Columns.stateCount, length_offsets]
  symbols_length := by simp [columns, Columns.destinationCount]
  tokens_isSome := by simp [columns, Row.accepting]
  offsets_head := by
    obtain ⟨rest, h⟩ := offsets_eq_cons 0 t.rows
    simp [columns, h]
  offsets_monotone := offsets_monotone 0 t.rows
  offsets_last := by
    simp [columns, Columns.destinationCount, getLast?_offsets, edges]

@[simp] theorem stateCount_columns (t : Table) : t.columns.stateCount = t.stateCount :=
  List.length_map _

@[simp] theorem destinationCount_columns (t : Table) :
    t.columns.destinationCount = t.destinationCount := List.length_map _

theorem columns_fits_iff : t.columns.Fits ↔ t.Fits := by
  constructor
  · rintro ⟨hs, hd, ht⟩
    rw [stateCount_columns] at hs
    rw [destinationCount_columns] at hd
    exact ⟨hs, hd, fun r hr => ht _ (List.mem_map_of_mem hr)⟩
  · rintro ⟨hs, hd, ht⟩
    refine ⟨by rwa [stateCount_columns], by rwa [destinationCount_columns], fun o ho => ?_⟩
    obtain ⟨r, hr, rfl⟩ := List.mem_map.mp ho
    exact ht r hr

/-- The edges of every state ascend by columns if and only if they do by rows. -/
theorem sorted_columns_iff (t : Table) :
    (∀ s < t.columns.stateCount, ∃ edges, t.columns.edges? s = some edges ∧
      edges.Pairwise fun x y => x.1 < y.1) ↔ ∀ r ∈ t.rows, r.Sorted := by
  rw [stateCount_columns]
  constructor
  · intro h r hr
    obtain ⟨s, hs⟩ := List.mem_iff_getElem?.mp hr
    obtain ⟨hlt, -⟩ := List.getElem?_eq_some_iff.mp hs
    obtain ⟨edges, hedges, hsorted⟩ := h s hlt
    rw [edges?_columns, row?, hs] at hedges
    cases hedges
    exact hsorted
  · intro h s hs
    have hr : t.row? s = some t.rows[s] := List.getElem?_eq_getElem hs
    exact ⟨_, by rw [edges?_columns, hr]; rfl, h _ (List.getElem_mem hs)⟩

/-- A table is well-formed if and only if its columns are. -/
theorem columns_wellFormed_iff : t.columns.WellFormed ↔ t.WellFormed := by
  constructor
  · intro h
    refine ⟨?_, (sorted_columns_iff t).mp h.sorted, fun r hr e he => ?_⟩
    · have := h.stateCount_pos
      rw [stateCount_columns] at this
      exact List.ne_nil_of_length_pos this
    · rw [← stateCount_columns]
      exact h.inRange e.2 (List.mem_map_of_mem (List.mem_flatMap_of_mem hr he))
  · intro h
    refine ⟨columns_shaped t, ?_, (sorted_columns_iff t).mpr h.sorted, fun d hd => ?_⟩
    · rw [stateCount_columns]
      exact List.length_pos_iff.mpr h.rows_ne_nil
    · obtain ⟨e, he, rfl⟩ := List.mem_map.mp hd
      obtain ⟨r, hr, he⟩ := List.mem_flatMap.mp he
      rw [stateCount_columns]
      exact h.inRange r hr e he

/-- Columns that fit together have ascending edges if the rows of their table do. -/
theorem Columns.Shaped.sorted_iff (h : c.Shaped) :
    (∀ s < c.stateCount, ∃ edges, c.edges? s = some edges ∧ edges.Pairwise fun x y => x.1 < y.1) ↔
      ∀ r ∈ c.table.rows, r.Sorted := by
  rw [← sorted_columns_iff, columns_table h]

end LexicalAutomata.Table
