/-
# `LexicalAutomata.Proofs.Dfa.Alike` — the pairs that are left are those that nothing tells apart

Two outlines agree if the states behind them read the same symbols, and each leads to places that are
alike (`agree_outline_iff`).  When no pair can be struck out any more, being alike respects tokens and
symbols, so alike states are the same.  The other way round, a pair that a relation with this property
relates agrees as long as no such pair was struck out before it, so none ever is
(`alikeIn_of_bisimulation`); of states that are the same, this gives `alike_iff_same`.
-/
import LexicalAutomata.Dfa.Minimal
import LexicalAutomata.Proofs.Automaton.Numbering
import LexicalAutomata.Proofs.Dfa.Same
import LexicalAutomata.Proofs.Stage

namespace LexicalAutomata.Dfa

open Automaton

variable {tags : Tags} {d : Dfa} {s t : State}

/-! ## Outlines -/

theorem placeOf_ordered (h : d.WellFormed tags) (hs : s ∈ d.states) :
    placeOf d.ordered s = .ok (d.place s) := by
  rw [placeOf, position?_ordered h hs]

/-- The outline of a state, by its place and the places of its targets. -/
def outlineOf (d : Dfa) (s : State) : Outline :=
  ⟨s.token, (d.arcsFrom s).map fun e => (e.symbol, d.place e.target)⟩

theorem outline_eq_ok (h : d.WellFormed tags) (s : State) :
    d.outline d.ordered s = .ok (d.outlineOf s) := by
  have hm : (d.arcsFrom s).mapM (fun e => do return (e.symbol, ← placeOf d.ordered e.target)) =
      Except.ok (ε := Error) ((d.arcsFrom s).map fun e => (e.symbol, d.place e.target)) := by
    refine mapM_eq_pure fun e he => ?_
    rw [placeOf_ordered h (h.target_mem e (mem_arcsFrom.mp he).1)]
    rfl
  rw [outline, hm]
  rfl

theorem outlines_eq_ok (h : d.WellFormed tags) :
    d.ordered.mapM (d.outline d.ordered) = .ok (d.ordered.map d.outlineOf) :=
  mapM_eq_pure fun s _ => outline_eq_ok h s

/-- Whether the places of two states are alike. -/
def AlikeIn (d : Dfa) (pairs : List (Nat × Nat)) (s t : State) : Prop :=
  alike pairs (d.place s) (d.place t)

theorem fst_moves_outlineOf (d : Dfa) (s : State) :
    (d.outlineOf s).moves.map Prod.fst = (d.arcsFrom s).map Arc.symbol := by
  rw [outlineOf, List.map_map]
  rfl

theorem moves_outlineOf (hd : d.Deterministic) (s : State) :
    (d.outlineOf s).moves = ((d.arcsFrom s).map Arc.symbol).map fun x =>
      (x, d.place ((d.target? s x).getD d.start)) := by
  rw [List.map_map]
  refine List.map_congr_left fun e he => ?_
  rw [Function.comp_apply, target?_of_mem hd he]
  rfl

theorem symbols_eq_of_rel (h : d.WellFormed tags) (hd : d.Deterministic) {R : State → State → Prop}
    (hr : ∀ x, Option.Rel R (d.target? s x) (d.target? t x)) :
    (d.arcsFrom s).map Arc.symbol = (d.arcsFrom t).map Arc.symbol := by
  refine (symbols_ascending h.arcs_ascending hd s).ext
    (symbols_ascending h.arcs_ascending hd t) fun x => ?_
  rw [mem_symbolsFrom hd, mem_symbolsFrom hd]
  have hx := hr x
  revert hx
  cases d.target? s x with
  | none =>
      cases d.target? t x with
      | none => exact fun _ => Iff.rfl
      | some v => intro hx; cases hx
  | some u =>
      cases d.target? t x with
      | none => intro hx; cases hx
      | some v => exact fun _ => ⟨fun _ => ⟨v, rfl⟩, fun _ => ⟨u, rfl⟩⟩

/-- Outlines agree if every symbol leads to places that are alike, or nowhere from both. -/
theorem agree_outline_iff (h : d.WellFormed tags) (hd : d.Deterministic)
    (pairs : List (Nat × Nat)) : agree pairs (d.outlineOf s) (d.outlineOf t) ↔
      ∀ x, Option.Rel (AlikeIn d pairs) (d.target? s x) (d.target? t x) := by
  rw [agree, fst_moves_outlineOf, fst_moves_outlineOf, moves_outlineOf hd, moves_outlineOf hd,
    Bool.and_eq_true, beq_iff_eq]
  constructor
  · intro h' x
    obtain ⟨hsymbols, hall⟩ := h'
    rw [hsymbols, List.zip_map', List.all_map, List.all_eq_true] at hall
    cases hs : d.target? s x with
    | none =>
        cases ht : d.target? t x with
        | none => exact .none
        | some v =>
            have hx := (mem_symbolsFrom hd).mpr ⟨v, ht⟩
            rw [← hsymbols, mem_symbolsFrom hd, hs] at hx
            obtain ⟨u, hu⟩ := hx
            cases hu
    | some u =>
        have hx := (mem_symbolsFrom hd).mpr ⟨u, hs⟩
        rw [hsymbols] at hx
        obtain ⟨v, ht⟩ := (mem_symbolsFrom hd).mp hx
        have ha := hall x hx
        simp only [Function.comp_apply, hs, ht, Option.getD_some] at ha
        rw [ht]
        exact .some ha
  · intro hr
    have hsymbols := symbols_eq_of_rel h hd hr
    refine ⟨hsymbols, ?_⟩
    rw [hsymbols, List.zip_map', List.all_map, List.all_eq_true]
    intro x hx
    obtain ⟨v, ht⟩ := (mem_symbolsFrom hd).mp hx
    rw [← hsymbols] at hx
    obtain ⟨u, hs⟩ := (mem_symbolsFrom hd).mp hx
    have ha := hr x
    rw [hs, ht] at ha
    cases ha with
    | some ha =>
        simp only [Function.comp_apply, hs, ht, Option.getD_some]
        exact ha

/-! ## Striking out pairs -/

section Pairs
variable {outlines : List Outline} {pairs : List (Nat × Nat)} {p : Nat × Nat}

theorem mem_allPairs {size : Nat} : p ∈ allPairs size ↔ p.1 < p.2 ∧ p.2 < size := by
  obtain ⟨i, j⟩ := p
  simp only [allPairs, List.mem_flatMap, List.mem_range, List.mem_map, List.mem_filter,
    decide_eq_true_eq, Prod.mk.injEq]
  constructor
  · intro h
    obtain ⟨_, -, _, ⟨hj, hij⟩, rfl, rfl⟩ := h
    exact ⟨hij, hj⟩
  · intro h
    obtain ⟨hij, hj⟩ := h
    exact ⟨i, Nat.lt_trans hij hj, j, ⟨hj, hij⟩, rfl, rfl⟩

theorem mem_of_mem_refine (h : p ∈ refine outlines pairs) : p ∈ pairs := by
  fun_induction refine outlines pairs with
  | case1 pairs _ ih => exact (List.mem_filter.mp (ih h)).1
  | case2 pairs _ => exact h

/-- What is left agrees. -/
theorem agree_of_mem_refine (h : p ∈ refine outlines pairs) :
    holdsOf outlines (agree (refine outlines pairs)) p := by
  fun_induction refine outlines pairs with
  | case1 pairs _ ih => exact ih h
  | case2 pairs hlt =>
      have hle : pairs.length ≤ (agreeing outlines pairs).length := Nat.le_of_not_lt hlt
      have heq : (agreeing outlines pairs).length = pairs.length :=
        Nat.le_antisymm (List.length_filter_le _ _) hle
      exact List.length_filter_eq_length_iff.mp heq p h

/-- Pairs that agree as long as they are all there stay. -/
theorem mem_refine_of_stable {Q : Nat × Nat → Prop}
    (hstable : ∀ pairs, (∀ p, Q p → p ∈ pairs) → ∀ p, Q p → holdsOf outlines (agree pairs) p)
    (hall : ∀ p, Q p → p ∈ pairs) : ∀ p, Q p → p ∈ refine outlines pairs := by
  fun_induction refine outlines pairs with
  | case1 pairs _ ih =>
      exact ih fun p hp => List.mem_filter.mpr ⟨hall p hp, hstable pairs hall p hp⟩
  | case2 pairs _ => exact hall

theorem alike_iff {i j : Nat} :
    alike pairs i j ↔ i = j ∨ (i < j ∧ (i, j) ∈ pairs) ∨ (j < i ∧ (j, i) ∈ pairs) := by
  rw [alike, Bool.or_eq_true, beq_iff_eq, List.contains_iff_mem, Ordered.pair]
  rcases Nat.lt_trichotomy i j with hlt | rfl | hlt
  · simp [Nat.le_of_lt hlt, hlt, Nat.lt_asymm hlt]
  · simp
  · simp [Nat.not_le_of_lt hlt, hlt, Nat.lt_asymm hlt]

theorem alike_refl (pairs : List (Nat × Nat)) (i : Nat) : alike pairs i i :=
  alike_iff.mpr (.inl rfl)

theorem alike_symm {i j : Nat} (h : alike pairs i j) : alike pairs j i := by
  rw [alike_iff] at h ⊢
  rcases h with e | h | h
  · exact .inl e.symm
  · exact .inr (.inr h)
  · exact .inr (.inl h)

end Pairs

/-! ## Alike states -/

theorem holdsOf_places (h : d.WellFormed tags) (q : Outline → Outline → Bool) (hs : s ∈ d.states)
    (ht : t ∈ d.states) : holdsOf (d.ordered.map d.outlineOf) q (d.place s, d.place t) =
      q (d.outlineOf s) (d.outlineOf t) := by
  simp only [holdsOf, List.getElem?_map, getElem?_place h hs, getElem?_place h ht, Option.map_some]

/-- The pairs of places that are left. -/
def leftPairs (d : Dfa) : List (Nat × Nat) := alikePairs (d.ordered.map d.outlineOf)

theorem of_mem_leftPairs (h : d.WellFormed tags) (hd : d.Deterministic) (hs : s ∈ d.states)
    (ht : t ∈ d.states) (hp : (d.place s, d.place t) ∈ d.leftPairs) : s.token = t.token ∧
      ∀ x, Option.Rel (AlikeIn d d.leftPairs) (d.target? s x) (d.target? t x) := by
  constructor
  · have htoken := (List.mem_filter.mp (mem_of_mem_refine hp)).2
    rw [holdsOf_places h _ hs ht, beq_iff_eq] at htoken
    exact htoken
  · have hagree := agree_of_mem_refine hp
    rw [holdsOf_places h _ hs ht] at hagree
    exact (agree_outline_iff h hd _).mp hagree

theorem rel_imp {R S : State → State → Prop} {a b : Option State} (hr : Option.Rel R a b)
    (himp : ∀ u v, a = some u → b = some v → R u v → S u v) : Option.Rel S a b := by
  cases hr with
  | none => exact .none
  | some hr => exact .some (himp _ _ rfl rfl hr)

theorem rel_swap {R : State → State → Prop} {a b : Option State} (hr : Option.Rel R a b) :
    Option.Rel (fun u v => R v u) b a := by
  cases hr with
  | none => exact .none
  | some hr => exact .some hr

theorem rel_self {R : State → State → Prop} (hr : ∀ u, R u u) (a : Option State) :
    Option.Rel R a a := by
  cases a with
  | none => exact .none
  | some u => exact .some (hr u)

/-- What is left respects tokens and symbols. -/
theorem AlikeIn.respects (h : d.WellFormed tags) (hd : d.Deterministic) (hs : s ∈ d.states)
    (ht : t ∈ d.states) (ha : AlikeIn d d.leftPairs s t) : s.token = t.token ∧
      ∀ x, Option.Rel (AlikeIn d d.leftPairs) (d.target? s x) (d.target? t x) := by
  rcases alike_iff.mp ha with e | ⟨-, hp⟩ | ⟨-, hp⟩
  · obtain rfl := place_injective h hs ht e
    exact ⟨rfl, fun x => rel_self (fun u => alike_refl _ (d.place u)) _⟩
  · exact of_mem_leftPairs h hd hs ht hp
  · obtain ⟨htoken, hrel⟩ := of_mem_leftPairs h hd ht hs hp
    exact ⟨htoken.symm, fun x => rel_imp (rel_swap (hrel x)) fun _ _ _ _ hr => alike_symm hr⟩

theorem same_of_alike (h : d.WellFormed tags) (hd : d.Deterministic) (hs : s ∈ d.states)
    (ht : t ∈ d.states) (ha : AlikeIn d d.leftPairs s t) : Same d s d t := by
  refine same_of_bisimulation (R := fun s t => s ∈ d.states ∧ t ∈ d.states ∧
    AlikeIn d d.leftPairs s t) ?_ ?_ ⟨hs, ht, ha⟩
  · intro s t h'
    obtain ⟨hs, ht, ha⟩ := h'
    exact (ha.respects h hd hs ht).1
  · intro s t h' x
    obtain ⟨hs, ht, ha⟩ := h'
    refine rel_imp ((ha.respects h hd hs ht).2 (.char x)) fun u v hu hv hr => ?_
    exact ⟨step_mem h hd hu, step_mem h hd hv, hr⟩

theorem alikeIn_of_rel {pairs : List (Nat × Nat)} {R : State → State → Prop}
    (symm : ∀ {s t}, R s t → R t s) (hs : s ∈ d.states) (ht : t ∈ d.states) (hr : R s t)
    (hall : ∀ s ∈ d.states, ∀ t ∈ d.states, d.place s < d.place t → R s t →
      (d.place s, d.place t) ∈ pairs) : AlikeIn d pairs s t := by
  refine alike_iff.mpr ?_
  rcases Nat.lt_trichotomy (d.place s) (d.place t) with hlt | e | hlt
  · exact .inr (.inl ⟨hlt, hall s hs t ht hlt hr⟩)
  · exact .inl e
  · exact .inr (.inr ⟨hlt, hall t ht s hs hlt (symm hr)⟩)

/-- A relation that respects tokens and symbols relates only states whose places are left. -/
theorem alikeIn_of_bisimulation (h : d.WellFormed tags) (hd : d.Deterministic)
    {R : State → State → Prop} (symm : ∀ {s t}, R s t → R t s)
    (token : ∀ {s t}, R s t → s.token = t.token)
    (step : ∀ {s t}, R s t → ∀ x, Option.Rel R (d.target? s x) (d.target? t x))
    (hs : s ∈ d.states) (ht : t ∈ d.states) (hr : R s t) : AlikeIn d d.leftPairs s t := by
  refine alikeIn_of_rel (R := R) symm hs ht hr fun s hs t ht hlt hr => ?_
  refine mem_refine_of_stable (Q := fun p => ∃ s ∈ d.states, ∃ t ∈ d.states,
    d.place s < d.place t ∧ R s t ∧ p = (d.place s, d.place t)) ?_ ?_ _
    ⟨s, hs, t, ht, hlt, hr, rfl⟩
  · intro pairs hall _ h'
    obtain ⟨s, hs, t, ht, -, hr, rfl⟩ := h'
    rw [holdsOf_places h _ hs ht, agree_outline_iff h hd]
    refine fun x => rel_imp (step hr x) fun u v hu hv hr => ?_
    exact alikeIn_of_rel (R := R) symm (target?_mem h hu) (target?_mem h hv) hr
      fun s hs t ht hlt hr => hall _ ⟨s, hs, t, ht, hlt, hr, rfl⟩
  · intro _ h'
    obtain ⟨s, hs, t, ht, hlt, hr, rfl⟩ := h'
    refine List.mem_filter.mpr ⟨mem_allPairs.mpr ⟨hlt, ?_⟩, ?_⟩
    · rw [List.length_map]
      exact place_lt h ht
    · rw [holdsOf_places h _ hs ht, beq_iff_eq]
      exact token hr

/-- Pairs of places that are left belong to states that nothing tells apart, and the other way
round. -/
theorem alike_iff_same (h : d.WellFormed tags) (hd : d.Deterministic) (he : d.EpsilonFree)
    (hs : s ∈ d.states) (ht : t ∈ d.states) : AlikeIn d d.leftPairs s t ↔ Same d s d t := by
  refine ⟨same_of_alike h hd hs ht, alikeIn_of_bisimulation h hd (R := fun s t => Same d s d t)
    Same.symm Same.token (fun hsame x => ?_) hs ht⟩
  cases x with
  | epsilon =>
      have hnone : ∀ s, d.target? s .epsilon = none := fun s =>
        target?_eq_none_iff.mpr fun e hm _ => he e hm
      rw [hnone, hnone]
      exact .none
  | char c => exact hsame.step c

end LexicalAutomata.Dfa
