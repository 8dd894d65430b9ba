/-
# `LexicalAutomata.Proofs.Dfa.Marking` — marking pairs in place finds what striking out finds

Pairs of places can be marked instead of struck out, and each mark can count at once, while the other
pairs of the same scan are still to come.  Rounds are then no longer those of `refine`, but where the
scans come to rest is the same: no pair is marked that agrees with what is left, and when a scan marks
nothing more, the pairs without a mark agree among themselves (`alike_iff_not_marked`).

Main statement: the marked places are those of states that a word of symbols separates, and the classes
are those of the places without a mark between them (`marks_exact`).
-/
import LexicalAutomata.Proofs.Automaton.Built
import LexicalAutomata.Proofs.Dfa.Minimal

namespace LexicalAutomata.Dfa

open Automaton

/-! ## The marking -/

/-- Whether two places are different and their pair is marked. -/
def marked (marks : List (Nat × Nat)) (i j : Nat) : Bool :=
  i != j && marks.contains (Ordered.pair i j).2

/-- Whether two outlines read different symbols, or a symbol leads to a marked pair. -/
def differ (marks : List (Nat × Nat)) (x y : Outline) : Bool :=
  x.moves.map Prod.fst != y.moves.map Prod.fst ||
    (x.moves.zip y.moves).any fun m => marked marks m.1.2 m.2.2

/-- Go through the pairs once and mark those that differ by the marks so far; whether there are any
comes with the marks. -/
def scan (outlines : List Outline) :
    (pairs marks : List (Nat × Nat)) → List (Nat × Nat) × Bool
  | [], marks => (marks, false)
  | p :: pairs, marks =>
      if !marked marks p.1 p.2 && holdsOf outlines (differ marks) p then
        ((scan outlines pairs (p :: marks)).1, true)
      else scan outlines pairs marks

section Scan
variable {outlines : List Outline} {pairs marks : List (Nat × Nat)} {p : Nat × Nat}

/-- What adding a mark for a pair that differs keeps, a scan keeps. -/
theorem scan_keeps {I : List (Nat × Nat) → Prop} (h₀ : I marks)
    (h : ∀ marks, ∀ p ∈ pairs, I marks → holdsOf outlines (differ marks) p → I (p :: marks)) :
    I (scan outlines pairs marks).1 := by
  fun_induction scan outlines pairs marks with
  | case1 marks => exact h₀
  | case2 p pairs marks hdiffer ih =>
      have hp := h marks p List.mem_cons_self h₀ (Bool.and_eq_true_iff.mp hdiffer).2
      exact ih hp fun marks q hq => h marks q (List.mem_cons_of_mem p hq)
  | case3 p pairs marks _ ih => exact ih h₀ fun marks q hq => h marks q (List.mem_cons_of_mem p hq)

theorem mem_scan_of_mem (h : p ∈ marks) : p ∈ (scan outlines pairs marks).1 :=
  scan_keeps h fun _ _ _ hmem _ => List.mem_cons_of_mem _ hmem

theorem marked_iff {i j : Nat} :
    marked marks i j ↔ (i < j ∧ (i, j) ∈ marks) ∨ (j < i ∧ (j, i) ∈ marks) := by
  rw [marked, Bool.and_eq_true, bne_iff_ne, List.contains_iff_mem, Ordered.pair]
  rcases Nat.lt_trichotomy i j with hlt | rfl | hlt
  · simp [Nat.le_of_lt hlt, hlt, Nat.lt_asymm hlt, Nat.ne_of_lt hlt]
  · simp
  · simp [Nat.not_le_of_lt hlt, hlt, Nat.lt_asymm hlt, Nat.ne_of_gt hlt]

theorem marked_iff_mem (h : p.1 < p.2) : marked marks p.1 p.2 ↔ p ∈ marks := by
  rw [marked_iff]
  constructor
  · intro h'
    rcases h' with ⟨-, h'⟩ | ⟨h', -⟩
    · exact h'
    · exact absurd h' (Nat.lt_asymm h)
  · exact fun h' => .inl ⟨h, h'⟩

/-- A scan that marks something marks a pair that had no mark. -/
theorem exists_new_of_scan (h : (scan outlines pairs marks).2) (hpairs : ∀ p ∈ pairs, p.1 < p.2) :
    ∃ p ∈ pairs, p ∉ marks ∧ p ∈ (scan outlines pairs marks).1 := by
  fun_induction scan outlines pairs marks with
  | case1 marks => cases h
  | case2 p pairs marks hdiffer _ =>
      have hnot := (Bool.and_eq_true_iff.mp hdiffer).1
      rw [Bool.not_eq_true', Bool.eq_false_iff, ne_eq, marked_iff_mem (hpairs p List.mem_cons_self)] at hnot
      exact ⟨p, List.mem_cons_self, hnot, mem_scan_of_mem List.mem_cons_self⟩
  | case3 p pairs marks _ ih =>
      obtain ⟨q, hq, h'⟩ := ih h fun q hq => hpairs q (List.mem_cons_of_mem p hq)
      exact ⟨q, List.mem_cons_of_mem p hq, h'⟩

/-- A scan that marks nothing leaves the marks as they are, and no pair without a mark differs. -/
theorem of_scan_unchanged (h : (scan outlines pairs marks).2 = false) :
    (scan outlines pairs marks).1 = marks ∧
      ∀ p ∈ pairs, ¬ marked marks p.1 p.2 → ¬ holdsOf outlines (differ marks) p := by
  fun_induction scan outlines pairs marks with
  | case1 marks => exact ⟨rfl, fun _ hp => by cases hp⟩
  | case2 => cases h
  | case3 p pairs marks hn ih =>
      obtain ⟨hsame, hrest⟩ := ih h
      refine ⟨hsame, List.forall_mem_cons.mpr ⟨fun hp hdiffer => hn ?_, hrest⟩⟩
      rw [Bool.and_eq_true, Bool.not_eq_true']
      exact ⟨Bool.eq_false_iff.mpr hp, hdiffer⟩

/-- The pairs that have no mark. -/
def unmarked (size : Nat) (marks : List (Nat × Nat)) : List (Nat × Nat) :=
  (allPairs size).filter fun p => !marks.contains p

theorem mem_unmarked {size : Nat} : p ∈ unmarked size marks ↔ p ∈ allPairs size ∧ p ∉ marks := by
  rw [unmarked, List.mem_filter, Bool.not_eq_true', Bool.eq_false_iff, ne_eq, List.contains_iff_mem]

theorem length_unmarked_scan_lt (h : (scan outlines (allPairs outlines.length) marks).2) :
    (unmarked outlines.length (scan outlines (allPairs outlines.length) marks).1).length <
      (unmarked outlines.length marks).length := by
  obtain ⟨p, hp, hnew, hmem⟩ := exists_new_of_scan h fun p hp => (mem_allPairs.mp hp).1
  have hsplit : unmarked outlines.length (scan outlines (allPairs outlines.length) marks).1 =
      (unmarked outlines.length marks).filter fun p =>
        !(scan outlines (allPairs outlines.length) marks).1.contains p := by
    rw [unmarked, unmarked, List.filter_filter]
    refine List.filter_congr fun q _ => ?_
    rw [Bool.eq_iff_iff, Bool.and_eq_true, Bool.not_eq_true', Bool.not_eq_true', Bool.eq_false_iff,
      Bool.eq_false_iff, ne_eq, ne_eq, List.contains_iff_mem, List.contains_iff_mem]
    exact ⟨fun h => ⟨h, fun hq => h (mem_scan_of_mem hq)⟩, And.left⟩
  rw [hsplit]
  refine List.length_filter_lt_length_iff_exists.mpr ⟨p, mem_unmarked.mpr ⟨hp, hnew⟩, ?_⟩
  rw [Bool.not_eq_true', Bool.not_eq_false, List.contains_iff_mem]
  exact hmem

end Scan

/-- Scan all pairs until a scan marks nothing. -/
def settle (outlines : List Outline) (marks : List (Nat × Nat)) : List (Nat × Nat) :=
  if (scan outlines (allPairs outlines.length) marks).2 then
    settle outlines (scan outlines (allPairs outlines.length) marks).1
  else (scan outlines (allPairs outlines.length) marks).1
termination_by (unmarked outlines.length marks).length
decreasing_by exact length_unmarked_scan_lt ‹_›

/-- The pairs of different tokens are marked from the outset. -/
def marksOf (outlines : List Outline) : List (Nat × Nat) :=
  settle outlines ((allPairs outlines.length).filter (holdsOf outlines fun x y => x.token != y.token))

/-- The marks of an automaton. -/
def marks (d : Dfa) : Except Error (List (Nat × Nat)) := do
  let outlines ← d.ordered.mapM (d.outline d.ordered)
  return marksOf outlines

/-! ## Where the scans come to rest -/

section Settle
variable {outlines : List Outline} {pairs marks : List (Nat × Nat)} {p : Nat × Nat} {x y : Outline}

theorem settle_keeps {I : List (Nat × Nat) → Prop} (h₀ : I marks)
    (h : ∀ marks, ∀ p ∈ allPairs outlines.length, I marks → holdsOf outlines (differ marks) p →
      I (p :: marks)) : I (settle outlines marks) := by
  fun_induction settle outlines marks with
  | case1 marks _ ih => exact ih (scan_keeps h₀ h)
  | case2 marks _ => exact scan_keeps h₀ h

/-- In the end no pair without a mark differs. -/
theorem settle_stable (outlines : List Outline) (marks : List (Nat × Nat)) :
    ∀ p ∈ allPairs outlines.length, p ∉ settle outlines marks →
      ¬ holdsOf outlines (differ (settle outlines marks)) p := by
  fun_induction settle outlines marks with
  | case1 marks _ ih => exact ih
  | case2 marks hscan =>
      obtain ⟨hsame, hrest⟩ := of_scan_unchanged (Bool.not_eq_true _ ▸ hscan)
      rw [hsame]
      exact fun p hp hn => hrest p hp (mt (marked_iff_mem (mem_allPairs.mp hp).1).mp hn)

theorem not_marked_of_alike {i j : Nat} (hapart : ∀ p ∈ marks, p ∉ pairs) (h : alike pairs i j) :
    ¬ marked marks i j := by
  rw [marked_iff]
  rcases alike_iff.mp h with rfl | ⟨hlt, ha⟩ | ⟨hlt, ha⟩
  · simp
  · rintro (⟨-, hm⟩ | ⟨hgt, -⟩)
    · exact hapart _ hm ha
    · exact absurd hlt (Nat.lt_asymm hgt)
  · rintro (⟨hgt, -⟩ | ⟨-, hm⟩)
    · exact absurd hlt (Nat.lt_asymm hgt)
    · exact hapart _ hm ha

theorem not_agree_of_differ (hapart : ∀ p ∈ marks, p ∉ pairs)
    (h : differ marks x y) : ¬ agree pairs x y := by
  rw [agree, Bool.and_eq_true, beq_iff_eq]
  rintro ⟨hsymbols, hall⟩
  rcases Bool.or_eq_true_iff.mp h with h | h
  · exact bne_iff_ne.mp h hsymbols
  · obtain ⟨m, hm, hmarked⟩ := List.any_eq_true.mp h
    exact not_marked_of_alike hapart (List.all_eq_true.mp hall m hm) hmarked

theorem agree_of_not_differ {size : Nat} (hx : ∀ m ∈ x.moves, m.2 < size)
    (hy : ∀ m ∈ y.moves, m.2 < size)
    (hall : ∀ i < size, ∀ j < size, ¬ marked marks i j → alike pairs i j)
    (h : ¬ differ marks x y) : agree pairs x y := by
  rw [differ, Bool.or_eq_true, not_or, bne_iff_ne, not_not] at h
  obtain ⟨hsymbols, hmoves⟩ := h
  rw [agree, Bool.and_eq_true, beq_iff_eq]
  refine ⟨hsymbols, List.all_eq_true.mpr fun m hm => ?_⟩
  obtain ⟨hmx, hmy⟩ := List.of_mem_zip hm
  exact hall _ (hx _ hmx) _ (hy _ hmy) fun h => hmoves (List.any_eq_true.mpr ⟨m, hm, h⟩)

theorem holdsOf_of_mem_allPairs (hp : p ∈ allPairs outlines.length) :
    ∃ x ∈ outlines, ∃ y ∈ outlines, ∀ q, holdsOf outlines q p = q x y := by
  obtain ⟨hlt, hsize⟩ := mem_allPairs.mp hp
  have hfst := Nat.lt_trans hlt hsize
  refine ⟨_, List.getElem_mem hfst, _, List.getElem_mem hsize, fun q => ?_⟩
  rw [holdsOf, List.getElem?_eq_getElem hfst, List.getElem?_eq_getElem hsize]

/-- No pair that is left after striking out is ever marked. -/
theorem not_mem_alikePairs : ∀ p ∈ marksOf outlines, p ∉ alikePairs outlines := by
  refine settle_keeps (I := fun marks => ∀ p ∈ marks, p ∉ alikePairs outlines) ?_ ?_
  · intro p hp hleft
    obtain ⟨hall, htoken⟩ := List.mem_filter.mp hp
    obtain ⟨x, -, y, -, hxy⟩ := holdsOf_of_mem_allPairs hall
    have hsame := (List.mem_filter.mp (mem_of_mem_refine hleft)).2
    rw [hxy] at htoken hsame
    exact bne_iff_ne.mp htoken (beq_iff_eq.mp hsame)
  · intro marks p hp hmarks hdiffer
    refine List.forall_mem_cons.mpr ⟨fun hleft => ?_, hmarks⟩
    obtain ⟨x, -, y, -, hxy⟩ := holdsOf_of_mem_allPairs hp
    have hagree := agree_of_mem_refine hleft
    rw [hxy] at hdiffer hagree
    exact not_agree_of_differ hmarks hdiffer hagree

theorem alike_of_not_marked {size i j : Nat} (hi : i < size) (hj : j < size)
    (hall : ∀ p, p ∈ allPairs size ∧ p ∉ marks → p ∈ pairs) (h : ¬ marked marks i j) :
    alike pairs i j := by
  rw [marked_iff, not_or] at h
  refine alike_iff.mpr ?_
  rcases Nat.lt_trichotomy i j with hlt | e | hlt
  · exact .inr (.inl ⟨hlt, hall _ ⟨mem_allPairs.mpr ⟨hlt, hj⟩, fun hm => h.1 ⟨hlt, hm⟩⟩⟩)
  · exact .inl e
  · exact .inr (.inr ⟨hlt, hall _ ⟨mem_allPairs.mpr ⟨hlt, hi⟩, fun hm => h.2 ⟨hlt, hm⟩⟩⟩)

/-- A pair that is not marked in the end is left after striking out. -/
theorem mem_alikePairs (hclosed : ∀ x ∈ outlines, ∀ m ∈ x.moves, m.2 < outlines.length)
    (hp : p ∈ allPairs outlines.length) (hn : p ∉ marksOf outlines) : p ∈ alikePairs outlines := by
  refine mem_refine_of_stable (Q := fun p => p ∈ allPairs outlines.length ∧ p ∉ marksOf outlines)
    ?_ ?_ p ⟨hp, hn⟩
  · intro pairs hall p h'
    obtain ⟨hp, hn⟩ := h'
    obtain ⟨x, hx, y, hy, hxy⟩ := holdsOf_of_mem_allPairs hp
    have hstable := settle_stable _ _ p hp hn
    rw [hxy] at hstable ⊢
    exact agree_of_not_differ (hclosed x hx) (hclosed y hy)
      (fun i hi j hj => alike_of_not_marked hi hj hall) hstable
  · intro p h'
    obtain ⟨hp, hn⟩ := h'
    refine List.mem_filter.mpr ⟨hp, ?_⟩
    obtain ⟨x, -, y, -, hxy⟩ := holdsOf_of_mem_allPairs hp
    by_contra htoken
    refine hn (settle_keeps (I := (p ∈ ·)) (List.mem_filter.mpr ⟨hp, ?_⟩)
      fun _ _ _ hmem _ => List.mem_cons_of_mem _ hmem)
    rw [hxy] at htoken ⊢
    exact bne_iff_ne.mpr fun e => htoken (beq_iff_eq.mpr e)

/-- Marking and striking out find the same places. -/
theorem alike_iff_not_marked (hclosed : ∀ x ∈ outlines, ∀ m ∈ x.moves, m.2 < outlines.length)
    {i j : Nat} (hi : i < outlines.length) (hj : j < outlines.length) :
    alike (alikePairs outlines) i j ↔ ¬ marked (marksOf outlines) i j :=
  ⟨not_marked_of_alike not_mem_alikePairs,
    alike_of_not_marked hi hj fun _ hp => mem_alikePairs hclosed hp.1 hp.2⟩

end Settle

/-! ## Classes by marks -/

/-- Give each place the class of the first representative that it is not apart from; where there is
none, the place represents a class of its own. -/
def group (apart : Nat → Nat → Bool) (size : Nat) : List Nat × List Nat :=
  (List.range size).foldl (fun (classOf, found) i =>
    match found.findIdx? fun r => !apart r i with
    | some c => (classOf ++ [c], found)
    | none => (classOf ++ [found.length], found ++ [i])) ([], [])

section Group
variable {r apart : Nat → Nat → Bool} {size n i : Nat}

/-- Later places do not change the class of an earlier one. -/
theorem classAt_succ (refl : ∀ i, r i i) (h : i < n) : classAt r (n + 1) i = classAt r n i := by
  obtain ⟨x, hx, -⟩ := classAt_spec refl h
  have hlt := (List.getElem?_eq_some_iff.mp hx).1
  rw [classAt] at hlt ⊢
  rw [representatives_succ]
  split
  · rfl
  · rw [List.findIdx_append, if_pos hlt]
    rfl

theorem findIdx?_congr {p q : Nat → Bool} {xs : List Nat} (h : ∀ x ∈ xs, p x = q x) :
    xs.findIdx? p = xs.findIdx? q := by
  induction xs with
  | nil => rfl
  | cons x xs ih =>
      obtain ⟨hx, hxs⟩ := List.forall_mem_cons.mp h
      rw [List.findIdx?_cons, List.findIdx?_cons, hx, ih hxs]

theorem group_succ (apart : Nat → Nat → Bool) (n : Nat) : group apart (n + 1) =
    match (group apart n).2.findIdx? fun r => !apart r n with
    | some c => ((group apart n).1 ++ [c], (group apart n).2)
    | none => ((group apart n).1 ++ [(group apart n).2.length], (group apart n).2 ++ [n]) := by
  rw [group, List.range_succ, List.foldl_append]
  rfl

/-- Grouping in one go gives the representatives, and the classes by their places among these. -/
theorem group_eq (refl : ∀ i, r i i) (hr : ∀ i < size, ∀ j < size, r i j = !apart i j)
    (h : n ≤ size) : group apart n = ((List.range n).map (classAt r n), representatives r n) := by
  induction n with
  | zero => rfl
  | succ n ih =>
      have hold : (List.range n).map (classAt r (n + 1)) = (List.range n).map (classAt r n) :=
        List.map_congr_left fun i hi => classAt_succ refl (List.mem_range.mp hi)
      have hfind : (representatives r n).findIdx? (fun x => !apart x n) =
          (representatives r n).findIdx? fun x => r x n :=
        findIdx?_congr fun x hx => (hr x (Nat.lt_trans (lt_of_mem_representatives hx) h) n h).symm
      rw [group_succ, ih (Nat.le_of_succ_le h), hfind, List.range_succ, List.map_append,
        List.map_singleton, hold]
      by_cases hany : (representatives r n).any fun x => r x n
      · have hreps : representatives r (n + 1) = representatives r n := by
          rw [representatives_succ, if_pos hany]
        have hlt := List.findIdx_lt_length_of_exists (List.any_eq_true.mp hany)
        rw [List.findIdx?_eq_some_iff_findIdx_eq.mpr ⟨hlt, rfl⟩, classAt, hreps]
      · have hreps : representatives r (n + 1) = representatives r n ++ [n] := by
          rw [representatives_succ, if_neg hany]
        have hclass : classAt r (n + 1) n = (representatives r n).length :=
          classAt_representative refl (by rw [hreps, List.getElem?_concat_length])
        have hnone : (representatives r n).findIdx? (fun x => r x n) = none :=
          List.findIdx?_eq_none_iff.mpr fun x hx =>
            Bool.eq_false_iff.mpr fun hxn => hany (List.any_eq_true.mpr ⟨x, hx, hxn⟩)
        rw [hnone, hclass, hreps]

/-- Classes are numbered one after the other, by their smallest members. -/
structure NumberedByLeast (classOf found : List Nat) : Prop where
  ascending : found.Pairwise (· < ·)
  numbers : ∀ c : Nat, c ∈ classOf ↔ c < found.length
  least : ∀ c i : Nat, found[c]? = some i ↔
    classOf[i]? = some c ∧ ∀ j, classOf[j]? = some c → i ≤ j

theorem getElem?_map_range {f : Nat → Nat} {c : Nat} :
    ((List.range n).map f)[i]? = some c ↔ i < n ∧ f i = c := by
  rw [List.getElem?_map, Option.map_eq_some_iff]
  constructor
  · intro h
    obtain ⟨j, hj, hc⟩ := h
    obtain ⟨hlt, e⟩ := List.getElem?_eq_some_iff.mp hj
    rw [List.getElem_range] at e
    rw [List.length_range] at hlt
    exact ⟨hlt, e ▸ hc⟩
  · intro h
    obtain ⟨hlt, hc⟩ := h
    exact ⟨i, List.getElem?_range hlt, hc⟩

theorem numberedByLeast (refl : ∀ i, r i i) :
    NumberedByLeast ((List.range n).map (classAt r n)) (representatives r n) := by
  have hmember : ∀ {c i}, (representatives r n)[c]? = some i → i < n ∧ classAt r n i = c :=
    fun h => ⟨lt_of_mem_representatives (List.mem_of_getElem? h), classAt_representative refl h⟩
  refine ⟨representatives_ascending r n, fun c => ?_, fun c i => ?_⟩
  · rw [List.mem_map]
    constructor
    · rintro ⟨i, hi, rfl⟩
      obtain ⟨x, hx, -⟩ := classAt_spec refl (List.mem_range.mp hi)
      exact (List.getElem?_eq_some_iff.mp hx).1
    · intro h
      obtain ⟨hlt, hc⟩ := hmember (List.getElem?_eq_getElem h)
      exact ⟨_, List.mem_range.mpr hlt, hc⟩
  · simp only [getElem?_map_range]
    constructor
    · intro h
      refine ⟨hmember h, fun j hj => ?_⟩
      obtain ⟨hlt, rfl⟩ := hj
      exact representative_le refl hlt h
    · intro h
      obtain ⟨⟨hlt, rfl⟩, hleast⟩ := h
      obtain ⟨x, hx, -⟩ := classAt_spec refl hlt
      rw [hx, Nat.le_antisymm (representative_le refl hlt hx) (hleast x (hmember hx))]

end Group

/-! ## The marks of an automaton -/

section Automaton
variable {tags : Tags} {d : Dfa} {i j : Nat}

theorem moves_lt (h : d.WellFormed tags) :
    ∀ x ∈ d.ordered.map d.outlineOf, ∀ m ∈ x.moves, m.2 < (d.ordered.map d.outlineOf).length := by
  intro x hx m hm
  obtain ⟨s, -, rfl⟩ := List.mem_map.mp hx
  obtain ⟨e, he, rfl⟩ := List.mem_map.mp hm
  rw [List.length_map]
  exact place_lt h (h.target_mem e (mem_arcsFrom.mp he).1)

theorem marks_eq_ok (h : d.WellFormed tags) :
    d.marks = .ok (marksOf (d.ordered.map d.outlineOf)) := by
  rw [marks, outlines_eq_ok h]
  rfl

theorem alike_iff_not_marked_at (h : d.WellFormed tags) (hi : i < d.ordered.length)
    (hj : j < d.ordered.length) :
    alike d.leftPairs i j ↔ ¬ marked (marksOf (d.ordered.map d.outlineOf)) i j := by
  refine alike_iff_not_marked (moves_lt h) ?_ ?_
  · rwa [List.length_map]
  · rwa [List.length_map]

end Automaton

/-- The marking comes to rest.  Two places are marked if a word of symbols separates their states; those
without a mark between them are equivalent, and they are the classes, which are numbered by their
smallest members.  Grouping the places by their marks gives the same numbers. -/
theorem marks_exact (tags : Tags) (d : Dfa) (hb : d.Built tags) :
    ∃ marks c, d.marks = .ok marks ∧ d.classes = .ok c ∧
      (∀ i j s t, i ≠ j → d.ordered[i]? = some s → d.ordered[j]? = some t →
        (marked marks i j ↔ ∃ w, d.Separates w s t)) ∧
      (Equivalence fun i j : Fin d.ordered.length => ¬ marked marks i j) ∧
      group (marked marks) d.ordered.length = (c.classOf, c.representatives) ∧
      (∀ i j, i < d.ordered.length → j < d.ordered.length →
        (c.classOf[i]? = c.classOf[j]? ↔ i = j ∨ ¬ marked marks i j)) ∧
      c.classOf.length = d.ordered.length ∧ NumberedByLeast c.classOf c.representatives := by
  have hw := hb.wellFormed
  have hd := hb.made.deterministic
  have halike : ∀ {i j}, i < d.ordered.length → j < d.ordered.length →
      (alike d.leftPairs i j ↔ ¬ marked (marksOf (d.ordered.map d.outlineOf)) i j) :=
    alike_iff_not_marked_at hw
  refine ⟨_, d.classesOf, marks_eq_ok hw, classes_eq_ok hw, ?separated, ?equivalence, ?grouped,
    ?classes, ?length, numberedByLeast (alike_refl _)⟩
  case separated =>
    intro i j s t _ hi hj
    have hi' := (List.getElem?_eq_some_iff.mp hi).1
    have hj' := (List.getElem?_eq_some_iff.mp hj).1
    exact not_iff_not.mp ((halike hi' hj').symm.trans
      ((alike_iff_inseparable_at hw hd hi hj).trans inseparable_iff))
  case equivalence =>
    refine ⟨fun i => (halike i.2 i.2).mp (alike_refl _ _), fun {i j} h => ?_, fun {i j k} h h' => ?_⟩
    · exact (halike j.2 i.2).mp (alike_symm ((halike i.2 j.2).mpr h))
    · exact (halike i.2 k.2).mp
        (alike_trans hw hd i.2 j.2 k.2 ((halike i.2 j.2).mpr h) ((halike j.2 k.2).mpr h'))
  case grouped =>
    refine group_eq (alike_refl _) (fun i hi j hj => ?_) (Nat.le_refl _)
    rw [Bool.eq_iff_iff, Bool.not_eq_true', Bool.eq_false_iff]
    exact halike hi hj
  case classes =>
    intro i j hi hj
    have hclass : ∀ {i}, i < d.ordered.length →
        d.classesOf.classOf[i]? = some (classAt (alike d.leftPairs) d.ordered.length i) :=
      fun hi => getElem?_map_range.mpr ⟨hi, rfl⟩
    rw [hclass hi, hclass hj, Option.some_inj, classAt_eq_iff (alike_refl _) (fun _ _ => alike_symm)
      (alike_trans hw hd) hi hj, halike hi hj]
    refine ⟨.inr, fun h => h.elim ?_ id⟩
    rintro rfl
    exact (halike hi hi).mp (alike_refl _ i)
  case length =>
    rw [classesOf, List.length_map, List.length_range]

/-- The tags of states of which the second accepts. -/
def quietTags : Tags := fun i => if i = 1 then some ⟨"A", 1⟩ else none

/-- An automaton whose start can be told from two other states by an empty move alone. -/
def quiet : Dfa :=
  ((setArc (Automaton.new (.ofTags quietTags 0)) (.ofTags quietTags 0) .epsilon
    (.ofTags quietTags 1)).addState (.ofTags quietTags 2)).addState (.ofTags quietTags 3)

theorem marks_exact_quiet :
    ∃ marks c, quiet.marks = .ok marks ∧ quiet.classes = .ok c ∧
      marked marks 0 2 ∧ ¬ marked marks 2 3 ∧ c.classOf[2]? = c.classOf[3]? := by
  have hb : quiet.Built quietTags := .addState 3 (.addState 2 (.setArc 0 _ 1 (.new 0)))
  obtain ⟨marks, c, hmarks, hclasses, hseparated, -, -, hclass, -⟩ := marks_exact quietTags quiet hb
  have hplaces : quiet.ordered = [.ofTags quietTags 0, .ofTags quietTags 1, .ofTags quietTags 2,
    .ofTags quietTags 3] := by decide +kernel
  have hsource : ∀ e ∈ quiet.arcs, e.source.id ∉ [2, 3] := by decide
  have hdead : ∀ i ∈ [2, 3], ∀ x, quiet.target? (.ofTags quietTags i) x = none :=
    fun i hi x => target?_eq_none_iff.mpr fun e he hid => absurd (hid ▸ hi) (hsource e he)
  have hsame : ¬ ∃ w, quiet.Separates w (.ofTags quietTags 2) (.ofTags quietTags 3) := by
    rintro ⟨w, hw⟩
    cases w with
    | nil => exact hw rfl
    | cons x w =>
        refine hw ?_
        rw [token_traceFrom_cons, token_traceFrom_cons, hdead 2 (by decide), hdead 3 (by decide)]
  have hunmarked : ¬ marked marks 2 3 := fun h => hsame ((hseparated 2 3 _ _ (by decide)
    (by rw [hplaces]; rfl) (by rw [hplaces]; rfl)).mp h)
  refine ⟨marks, c, hmarks, hclasses, ?_, hunmarked, ?_⟩
  · have hempty : quiet.Separates [.epsilon] (.ofTags quietTags 0) (.ofTags quietTags 2) := by
      unfold Separates
      decide
    exact (hseparated 0 2 _ _ (by decide) (by rw [hplaces]; rfl) (by rw [hplaces]; rfl)).mpr ⟨_, hempty⟩
  · exact (hclass 2 3 (by rw [hplaces]; decide) (by rw [hplaces]; decide)).mpr (.inr hunmarked)

end LexicalAutomata.Dfa
