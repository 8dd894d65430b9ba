/-
# `LexicalAutomata.Proofs.Dfa.Exploration` — the subsets that words lead to

`after w` is the subset that reading `w` leads to from the start alone: it holds the states at the end
of the paths that spell `w` (`mem_after`).  The exploration finds every such subset that is not empty,
and no other (`mem_subsets`); its invariant is `Exploring`.
-/
import Mathlib.Data.List.Induction
import LexicalAutomata.Dfa.Subset
import LexicalAutomata.Proofs.Automaton.Path
import LexicalAutomata.Proofs.Automaton.WellFormed

namespace LexicalAutomata.Nfa

open Automaton

variable {tags : Tags} {n : Nfa}

/-! ## The subset after a word -/

/-- The subset after reading a word from the start alone. -/
def after (n : Nfa) (w : List Char) : Subset n.memberIds :=
  w.foldl (n.image n.memberIds) n.startSubset

theorem after_append_singleton (w : List Char) (c : Char) :
    n.after (w ++ [c]) = n.image n.memberIds (n.after w) c := by
  rw [after, List.foldl_append]
  rfl

theorem target_mem_memberIds {e : Arc} (he : e ∈ n.arcs) : e.target.id ∈ n.memberIds :=
  Ordered.mem_ofList.mpr (List.mem_cons_of_mem _ (List.mem_map.mpr ⟨e, he, rfl⟩))

theorem mem_image (h : n.WellFormed tags) {s : Subset n.memberIds} {c : Char} {t : State} :
    t ∈ (n.image n.memberIds s c).states ↔
      ∃ e ∈ n.arcs, e.symbol = .char c ∧ e.source.isIn s.states ∧ e.target = t := by
  simp only [image, List.mem_filterMap, lastTarget?, Option.map_eq_some_iff]
  constructor
  · intro h'
    obtain ⟨i, -, e, he, rfl⟩ := h'
    have he := (List.mem_filter.mp (List.mem_of_getLast? he)).1
    obtain ⟨he, hx⟩ := List.mem_filter.mp he
    rw [Bool.and_eq_true, beq_iff_eq] at hx
    exact ⟨e, he, hx.1, hx.2, rfl⟩
  · intro h'
    obtain ⟨e, he, hx, hs, rfl⟩ := h'
    refine ⟨e.target.id, target_mem_memberIds he, ?_⟩
    have hmem : e ∈ (n.arcs.filter fun e => e.symbol == .char c && e.source.isIn s.states).filter
        fun f => f.target.id == e.target.id := by
      simp [he, hx, hs]
    cases hl : ((n.arcs.filter fun e => e.symbol == .char c && e.source.isIn s.states).filter
        fun f => f.target.id == e.target.id).getLast? with
    | none =>
        rw [List.getLast?_eq_none_iff] at hl
        rw [hl] at hmem
        cases hmem
    | some f =>
        obtain ⟨hf, hid⟩ := List.mem_filter.mp (List.mem_of_getLast? hl)
        have hf := h.target_mem f (List.mem_filter.mp hf).1
        exact ⟨f, rfl, h.eq_of_id hf (h.target_mem e he) (by simpa using hid)⟩

/-- Reading leads to the ends of the paths that spell the word. -/
theorem mem_after (h : n.WellFormed tags) (he : n.EpsilonFree) {w : List Char} {t : State} :
    t ∈ (n.after w).states ↔ t ∈ n.states ∧ Reads n n.start.id w t.id := by
  induction w using List.reverseRecOn generalizing t with
  | nil =>
      rw [he.reads_nil_iff]
      show t ∈ [n.start] ↔ _
      rw [List.mem_singleton]
      constructor
      · rintro rfl
        exact ⟨h.start_mem, rfl⟩
      · intro h'
        obtain ⟨ht, e⟩ := h'
        exact h.eq_of_id ht h.start_mem e
  | append_singleton w c ih =>
      rw [after_append_singleton, mem_image h, he.reads_snoc_iff]
      constructor
      · intro h'
        obtain ⟨e, he, hx, hs, rfl⟩ := h'
        obtain ⟨s, hs, hid⟩ := State.isIn_iff.mp hs
        exact ⟨h.target_mem e he, e, he, rfl, hx, hid ▸ (ih.mp hs).2⟩
      · intro h'
        obtain ⟨ht, e, he, hid, hx, r⟩ := h'
        refine ⟨e, he, hx, State.isIn_iff.mpr ⟨e.source, ih.mpr ⟨h.source_mem e he, r⟩, rfl⟩, ?_⟩
        exact h.eq_of_id (h.target_mem e he) ht hid

/-! ## Subsets are told apart by their members -/

theorem after_eq_of_members (h : n.WellFormed tags) (he : n.EpsilonFree) {v w : List Char}
    (e : (n.after v).members = (n.after w).members) : n.after v = n.after w := by
  have hs : (n.after v).states = (n.after w).states :=
    h.eq_of_map_id (fun _ ht => ((mem_after h he).mp ht).1)
      (fun _ ht => ((mem_after h he).mp ht).1) e
  cases hv : n.after v
  cases hw : n.after w
  rw [hv, hw] at hs
  cases hs
  rfl

/-! ## What the exploration lists

This holds of any automaton: subsets are told apart by their members alone, and of two with the same
members the first one is listed. -/

section Explored
variable {s : Subset n.memberIds} {pending found subsets : List (Subset n.memberIds)}

theorem mem_explore_of_mem (h : s ∈ found) : s ∈ n.explore n.memberIds pending found := by
  fun_induction explore n n.memberIds pending found with
  | case1 => exact h
  | case2 _ _ _ _ ih => exact ih h
  | case3 _ _ _ _ ih => exact ih (List.mem_append_left _ h)

theorem visited_iff {members : List Nat} :
    visited subsets members ↔ ∃ t ∈ subsets, t.members = members := by
  simp [visited]

theorem visited_explore_of_pending (h : s ∈ pending) :
    visited (n.explore n.memberIds pending found) s.members := by
  fun_induction explore n n.memberIds pending found with
  | case1 => cases h
  | case2 t pending found ht ih =>
      rcases List.mem_cons.mp h with rfl | h
      · obtain ⟨u, hu, hmembers⟩ := visited_iff.mp ht
        exact visited_iff.mpr ⟨u, mem_explore_of_mem hu, hmembers⟩
      · exact ih h
  | case3 t pending found _ ih =>
      rcases List.mem_cons.mp h with rfl | h
      · exact visited_iff.mpr ⟨s, mem_explore_of_mem (List.mem_append_right _ List.mem_cons_self), rfl⟩
      · exact ih (List.mem_append_left _ h)

theorem visited_startSubset (n : Nfa) : visited n.subsets n.startSubset.members :=
  visited_explore_of_pending List.mem_cons_self

theorem visited_explore_of_moves (h : s ∈ n.explore n.memberIds pending found) (hs : s ∉ found) :
    ∀ m ∈ n.moves n.memberIds s, visited (n.explore n.memberIds pending found) m.2.members := by
  fun_induction explore n n.memberIds pending found with
  | case1 => exact absurd h hs
  | case2 _ _ _ _ ih => exact ih h hs
  | case3 t pending found _ ih =>
      by_cases hst : s = t
      · subst hst
        intro m hm
        exact visited_explore_of_pending
          (List.mem_append_right _ (List.mem_map.mpr ⟨m, hm, rfl⟩))
      · refine ih h fun hmem => ?_
        rcases List.mem_append.mp hmem with hmem | hmem
        · exact hs hmem
        · exact hst (List.mem_singleton.mp hmem)

theorem visited_of_moves (hs : s ∈ n.subsets) :
    ∀ m ∈ n.moves n.memberIds s, visited n.subsets m.2.members :=
  visited_explore_of_moves hs List.not_mem_nil

theorem nodup_members_append (h : (found.map Subset.members).Nodup)
    (hs : ¬ visited found s.members) : ((found ++ [s]).map Subset.members).Nodup := by
  rw [List.map_append, List.map_singleton, List.nodup_append]
  refine ⟨h, List.pairwise_singleton _ _, ?_⟩
  rintro i hi j hj rfl
  obtain ⟨t, ht, hmembers⟩ := List.mem_map.mp hi
  rw [List.mem_singleton.mp hj] at hmembers
  exact hs (visited_iff.mpr ⟨t, ht, hmembers⟩)

theorem nodup_members_explore (h : (found.map Subset.members).Nodup) :
    ((n.explore n.memberIds pending found).map Subset.members).Nodup := by
  fun_induction explore n n.memberIds pending found with
  | case1 => exact h
  | case2 _ _ _ _ ih => exact ih h
  | case3 _ _ _ hs ih => exact ih (nodup_members_append h hs)

theorem nodup_members_subsets (n : Nfa) : (n.subsets.map Subset.members).Nodup :=
  nodup_members_explore .nil

end Explored

/-! ## The exploration -/

theorem mem_moves (h : n.WellFormed tags) {s : Subset n.memberIds} {c : Char}
    {t : Subset n.memberIds} :
    (c, t) ∈ n.moves n.memberIds s ↔ t = n.image n.memberIds s c ∧ t.states ≠ [] := by
  simp only [moves, List.mem_filter, List.mem_map, Prod.mk.injEq, Bool.not_eq_true',
    List.isEmpty_eq_false_iff]
  constructor
  · intro h'
    obtain ⟨⟨_, -, rfl, rfl⟩, hne⟩ := h'
    exact ⟨rfl, hne⟩
  · intro h'
    obtain ⟨rfl, hne⟩ := h'
    obtain ⟨t, ht⟩ := List.exists_mem_of_ne_nil _ hne
    obtain ⟨e, he, hx, -, -⟩ := (mem_image h).mp ht
    refine ⟨⟨c, Ordered.mem_ofList.mpr (List.mem_filterMap.mpr ⟨e, he, ?_⟩), rfl, rfl⟩, hne⟩
    rw [hx]
    rfl

/-- What holds while subsets are explored. -/
structure Exploring (n : Nfa) (pending found : List (Subset n.memberIds)) : Prop where
  sound : ∀ s, s ∈ found ∨ s ∈ pending → s.states ≠ [] ∧ ∃ w, s = n.after w
  distinct : (found.map Subset.members).Nodup
  root : n.after [] ∈ found ∨ n.after [] ∈ pending
  frontier : ∀ s ∈ found, ∀ m ∈ n.moves n.memberIds s, m.2 ∈ found ∨ m.2 ∈ pending

namespace Exploring

variable {s : Subset n.memberIds} {pending found : List (Subset n.memberIds)}

theorem init (n : Nfa) : Exploring n [n.startSubset] [] where
  sound s hs := by
    rcases hs with hs | hs
    · cases hs
    · rw [List.mem_singleton.mp hs]
      exact ⟨List.cons_ne_nil _ _, [], rfl⟩
  distinct := .nil
  root := .inr List.mem_cons_self
  frontier _ hs := by cases hs

theorem mem_of_visited (hw : n.WellFormed tags) (he : n.EpsilonFree)
    (h : Exploring n (s :: pending) found) (hv : visited found s.members) : s ∈ found := by
  obtain ⟨t, ht, e⟩ := visited_iff.mp hv
  obtain ⟨-, v, rfl⟩ := h.sound t (.inl ht)
  obtain ⟨-, w, rfl⟩ := h.sound s (.inr List.mem_cons_self)
  rwa [← after_eq_of_members hw he e]

theorem pass (h : Exploring n (s :: pending) found) (hs : s ∈ found) :
    Exploring n pending found := by
  have keep : ∀ {t}, t ∈ found ∨ t ∈ s :: pending → t ∈ found ∨ t ∈ pending := by
    intro t h'
    rcases h' with ht | ht
    · exact .inl ht
    · rcases List.mem_cons.mp ht with rfl | ht
      · exact .inl hs
      · exact .inr ht
  exact ⟨fun t ht => h.sound t (ht.imp_right (List.mem_cons_of_mem _)), h.distinct, keep h.root,
    fun t ht m hm => keep (h.frontier t ht m hm)⟩

theorem visit (hw : n.WellFormed tags) (h : Exploring n (s :: pending) found)
    (hv : ¬ visited found s.members) :
    Exploring n (pending ++ (n.moves n.memberIds s).map Prod.snd) (found ++ [s]) := by
  obtain ⟨-, w, hs⟩ := h.sound s (.inr List.mem_cons_self)
  have keep : ∀ {t}, t ∈ found ∨ t ∈ s :: pending → t ∈ found ++ [s] ∨
      t ∈ pending ++ (n.moves n.memberIds s).map Prod.snd := by
    intro t h'
    rcases h' with ht | ht
    · exact .inl (List.mem_append_left _ ht)
    · rcases List.mem_cons.mp ht with rfl | ht
      · exact .inl (List.mem_append_right _ List.mem_cons_self)
      · exact .inr (List.mem_append_left _ ht)
  refine ⟨fun t ht => ?_, ?_, keep h.root, fun t ht m hm => ?_⟩
  · rcases ht with ht | ht
    · rcases List.mem_append.mp ht with ht | ht
      · exact h.sound t (.inl ht)
      · rw [List.mem_singleton.mp ht]
        exact h.sound s (.inr List.mem_cons_self)
    · rcases List.mem_append.mp ht with ht | ht
      · exact h.sound t (.inr (List.mem_cons_of_mem _ ht))
      · obtain ⟨⟨c, t⟩, hm, rfl⟩ := List.mem_map.mp ht
        obtain ⟨rfl, hne⟩ := (mem_moves hw).mp hm
        exact ⟨hne, w ++ [c], by rw [after_append_singleton, hs]⟩
  · exact nodup_members_append h.distinct hv
  · rcases List.mem_append.mp ht with ht | ht
    · exact keep (h.frontier t ht m hm)
    · rw [List.mem_singleton.mp ht] at hm
      exact .inr (List.mem_append_right _ (List.mem_map.mpr ⟨m, hm, rfl⟩))

end Exploring

theorem exploring_explore (hw : n.WellFormed tags) (he : n.EpsilonFree)
    {pending found : List (Subset n.memberIds)} (h : Exploring n pending found) :
    Exploring n [] (n.explore n.memberIds pending found) := by
  fun_induction explore n n.memberIds pending found with
  | case1 => exact h
  | case2 _ _ _ hv ih => exact ih (h.pass (h.mem_of_visited hw he hv))
  | case3 _ _ _ hv ih => exact ih (h.visit hw hv)

theorem exploring_subsets (hw : n.WellFormed tags) (he : n.EpsilonFree) :
    Exploring n [] n.subsets :=
  exploring_explore hw he (.init n)

/-- The exploration finds the subsets after words that are not empty, and no others. -/
theorem mem_subsets (hw : n.WellFormed tags) (he : n.EpsilonFree) {s : Subset n.memberIds} :
    s ∈ n.subsets ↔ s.states ≠ [] ∧ ∃ w, s = n.after w := by
  have h := exploring_subsets hw he
  constructor
  · exact fun hs => h.sound s (.inl hs)
  · intro h'
    obtain ⟨hne, w, rfl⟩ := h'
    induction w using List.reverseRecOn with
    | nil => exact h.root.resolve_right List.not_mem_nil
    | append_singleton w c ih =>
        rw [after_append_singleton] at hne ⊢
        have hne' : (n.after w).states ≠ [] := by
          intro hnil
          obtain ⟨t, ht⟩ := List.exists_mem_of_ne_nil _ hne
          obtain ⟨e, -, -, hs, -⟩ := (mem_image hw).mp ht
          rw [hnil] at hs
          cases hs
        exact (h.frontier _ (ih hne') (c, _) ((mem_moves hw).mpr ⟨rfl, hne⟩)).resolve_right
          List.not_mem_nil

end LexicalAutomata.Nfa
