/-
# `LexicalAutomata.Proofs.Nfa.Closure` — a closure holds exactly what empty moves reach

A search keeps an invariant (`Searching`): whatever it has found or has still to visit is reached by
empty moves, and every empty move out of what it has found leads to something found or still to be
visited.  Taking over a known closure as a whole keeps the invariant because a closure is closed under
empty moves.  When nothing is left to be visited, what was found is the closure (`ClosureOf`).
-/
import LexicalAutomata.Nfa.Closure
import LexicalAutomata.Proofs.Automaton.WellFormed

namespace LexicalAutomata

namespace Automaton.WellFormed

variable {k : Kind} {tags : Tags} {a : Automaton k} {xs : List State}

/-- Carried states are told apart by their numbers, so collections of them hold what is put in. -/
theorem mem_insert_carried (h : a.WellFormed tags) (hxs : ∀ x ∈ xs, x ∈ a.states) {s t : State}
    (hs : s ∈ a.states) : t ∈ Ordered.insert State.order s xs ↔ t = s ∨ t ∈ xs :=
  Ordered.mem_insert_iff fun u hu e => h.eq_of_id (hxs u hu) hs (State.order_eq_iff.mp e).symm

theorem mem_insertAll_carried (h : a.WellFormed tags) {ys : List State}
    (hxs : ∀ x ∈ xs, x ∈ a.states) (hys : ∀ y ∈ ys, y ∈ a.states) {t : State} :
    t ∈ Ordered.insertAll State.order ys xs ↔ t ∈ ys ∨ t ∈ xs :=
  Ordered.mem_insertAll_iff (fun _ _ hs hu e => h.eq_of_id hs hu (State.order_eq_iff.mp e)) hys hxs

end Automaton.WellFormed

namespace Nfa

open Automaton

variable {tags : Tags} {n : Nfa} {known : Closures} {s x : State} {stack found : List State}

/-- The members are the carried states that empty moves lead to from `s`. -/
structure ClosureOf (n : Nfa) (s : State) (members : List State) : Prop where
  ascending : Ordered.Ascending State.order members
  mem_iff : ∀ t, t ∈ members ↔ t ∈ n.states ∧ Reads n s.id [] t.id

theorem mem_emptyTargets {t : State} :
    t ∈ n.emptyTargets s ↔ ∃ e ∈ n.arcs, e.source.id = s.id ∧ e.symbol = .epsilon ∧ e.target = t :=
  mem_targets

theorem ClosureOf.target {members : List State} (h : ClosureOf n s members) {t : State}
    (hw : n.WellFormed tags) (ht : t ∈ members) {e : Arc} (he : e ∈ n.arcs)
    (hs : e.source.id = t.id) (hx : e.symbol = .epsilon) : e.target ∈ members := by
  have r : Reads n t.id [] e.target.id := hs ▸ .empty he hx (.stay _)
  exact (h.mem_iff _).mpr ⟨hw.target_mem e he, ((h.mem_iff t).mp ht).2.append r⟩

/-- What holds while the closure of `s` is searched for. -/
structure Searching (n : Nfa) (s : State) (stack found : List State) : Prop where
  ascending : Ordered.Ascending State.order found
  sound : ∀ t, t ∈ found ∨ t ∈ stack → t ∈ n.states ∧ Reads n s.id [] t.id
  root : s ∈ found ∨ s ∈ stack
  frontier : ∀ t ∈ found, ∀ e ∈ n.arcs, e.source.id = t.id → e.symbol = .epsilon →
    e.target ∈ found ∨ e.target ∈ stack

namespace Searching

theorem init (hs : s ∈ n.states) : Searching n s [s] [] where
  ascending := .nil
  sound t ht := by
    rcases ht with ht | ht
    · cases ht
    · rw [List.mem_singleton.mp ht]
      exact ⟨hs, .stay _⟩
  root := .inr List.mem_cons_self
  frontier _ ht := by cases ht

theorem found_carried (h : Searching n s stack found) : ∀ t ∈ found, t ∈ n.states :=
  fun t ht => (h.sound t (.inl ht)).1

/-- The closure of the state to be visited is known. -/
theorem takeOver (h : Searching n s (x :: stack) found) (hw : n.WellFormed tags)
    {members : List State} (hm : ClosureOf n x members) :
    Searching n s stack (Ordered.insertAll State.order members found) := by
  obtain ⟨hx, rx⟩ := h.sound x (.inr List.mem_cons_self)
  have hmem : ∀ {t}, t ∈ Ordered.insertAll State.order members found ↔ t ∈ members ∨ t ∈ found :=
    hw.mem_insertAll_carried h.found_carried fun t ht => ((hm.mem_iff t).mp ht).1
  have hxm : x ∈ members := (hm.mem_iff x).mpr ⟨hx, .stay _⟩
  have keep : ∀ {t}, t ∈ found ∨ t ∈ x :: stack →
      t ∈ Ordered.insertAll State.order members found ∨ t ∈ stack := by
    intro t h'
    rcases h' with ht | ht
    · exact .inl (hmem.mpr (.inr ht))
    · rcases List.mem_cons.mp ht with rfl | ht
      · exact .inl (hmem.mpr (.inl hxm))
      · exact .inr ht
  refine ⟨Ordered.ascending_insertAll h.ascending, fun t ht => ?_, keep h.root, ?_⟩
  · rcases ht with ht | ht
    · rcases hmem.mp ht with ht | ht
      · obtain ⟨ht, rt⟩ := (hm.mem_iff t).mp ht
        exact ⟨ht, rx.append rt⟩
      · exact h.sound t (.inl ht)
    · exact h.sound t (.inr (List.mem_cons_of_mem _ ht))
  · intro t ht e he hs hy
    rcases hmem.mp ht with ht | ht
    · exact .inl (hmem.mpr (.inl (hm.target hw ht he hs hy)))
    · exact keep (h.frontier t ht e he hs hy)

/-- The state to be visited was visited already. -/
theorem pass (h : Searching n s (x :: stack) found) (hw : n.WellFormed tags)
    (hx : x.isIn found) : Searching n s stack found := by
  obtain ⟨y, hy, e⟩ := State.isIn_iff.mp hx
  have hxf : x ∈ found :=
    hw.eq_of_id (h.found_carried y hy) (h.sound x (.inr List.mem_cons_self)).1 e ▸ hy
  have keep : ∀ {t}, t ∈ found ∨ t ∈ x :: stack → t ∈ found ∨ t ∈ stack := by
    intro t h'
    rcases h' with ht | ht
    · exact .inl ht
    · rcases List.mem_cons.mp ht with rfl | ht
      · exact .inl hxf
      · exact .inr ht
  refine ⟨h.ascending, fun t ht => h.sound t (ht.imp_right (List.mem_cons_of_mem _)), keep h.root, ?_⟩
  intro t ht e he hs hy
  exact keep (h.frontier t ht e he hs hy)

/-- The state to be visited is new. -/
theorem visit (h : Searching n s (x :: stack) found) (hw : n.WellFormed tags) :
    Searching n s ((n.emptyTargets x).reverse ++ stack) (Ordered.insert State.order x found) := by
  obtain ⟨hx, rx⟩ := h.sound x (.inr List.mem_cons_self)
  have hmem : ∀ {t}, t ∈ Ordered.insert State.order x found ↔ t = x ∨ t ∈ found :=
    hw.mem_insert_carried h.found_carried hx
  have keep : ∀ {t}, t ∈ found ∨ t ∈ x :: stack → t ∈ Ordered.insert State.order x found ∨
      t ∈ (n.emptyTargets x).reverse ++ stack := by
    intro t h'
    rcases h' with ht | ht
    · exact .inl (hmem.mpr (.inr ht))
    · rcases List.mem_cons.mp ht with rfl | ht
      · exact .inl (hmem.mpr (.inl rfl))
      · exact .inr (List.mem_append_right _ ht)
  refine ⟨Ordered.ascending_insert x h.ascending, fun t ht => ?_, keep h.root, ?_⟩
  · rcases ht with ht | ht
    · rcases hmem.mp ht with rfl | ht
      · exact ⟨hx, rx⟩
      · exact h.sound t (.inl ht)
    · rcases List.mem_append.mp ht with ht | ht
      · obtain ⟨e, he, hs, hy, rfl⟩ := mem_emptyTargets.mp (List.mem_reverse.mp ht)
        exact ⟨hw.target_mem e he, rx.append (hs ▸ .empty he hy (.stay _))⟩
      · exact h.sound t (.inr (List.mem_cons_of_mem _ ht))
  · intro t ht e he hs hy
    rcases hmem.mp ht with rfl | ht
    · refine .inr (List.mem_append_left _ (List.mem_reverse.mpr ?_))
      exact mem_emptyTargets.mpr ⟨e, he, hs, hy, rfl⟩
    · exact keep (h.frontier t ht e he hs hy)

theorem closureOf (h : Searching n s [] found) (hw : n.WellFormed tags) : ClosureOf n s found := by
  have closed : ∀ {i j : Nat} {w : List Char}, Reads n i w j → w = [] →
      (∃ t ∈ found, t.id = i) → ∃ u ∈ found, u.id = j := by
    intro i j w r
    induction r with
    | stay => exact fun _ ht => ht
    | empty he hx _ ih =>
        rintro rfl ⟨t, ht, e⟩
        rcases h.frontier t ht _ he e.symm hx with hf | hf
        · exact ih rfl ⟨_, hf, rfl⟩
        · cases hf
    | char => intro e; cases e
  have hs : s ∈ found := h.root.resolve_right List.not_mem_nil
  refine ⟨h.ascending, fun t => ⟨fun ht => h.sound t (.inl ht), ?_⟩⟩
  intro h'
  obtain ⟨ht, r⟩ := h'
  obtain ⟨u, hu, e⟩ := closed r rfl ⟨s, hs, rfl⟩
  exact hw.eq_of_id (h.found_carried u hu) ht e ▸ hu

end Searching

/-! ## All closures -/

/-- Every list is the closure of the state it comes with. -/
def Closures.Exact (n : Nfa) (known : Closures) : Prop :=
  ∀ c ∈ known, ClosureOf n c.1 c.2

theorem Closures.Exact.closureOf (h : Closures.Exact n known) {members : List State}
    (hm : known.of? x = some members) : ClosureOf n x members := by
  obtain ⟨c, hc, rfl⟩ := Option.map_eq_some_iff.mp hm
  have hid : c.1.id = x.id := by simpa using List.find?_some hc
  have := h c (List.mem_of_find?_eq_some hc)
  exact ⟨this.ascending, fun t => hid ▸ this.mem_iff t⟩

theorem closureOf_search (hw : n.WellFormed tags) (hk : Closures.Exact n known)
    (h : Searching n s stack found) : ClosureOf n s (n.search known stack found) := by
  fun_induction search n known stack found with
  | case1 => exact h.closureOf hw
  | case2 _ _ _ members hm ih => exact ih (h.takeOver hw (hk.closureOf hm))
  | case3 _ _ _ _ hx ih => exact ih (h.pass hw hx)
  | case4 _ _ _ _ _ ih => exact ih (h.visit hw)

theorem closures_exact (hw : n.WellFormed tags) :
    Closures.Exact n n.closures ∧ n.closures.map Prod.fst = n.states := by
  suffices ∀ ss known, (∀ s ∈ ss, s ∈ n.states) → Closures.Exact n known →
      Closures.Exact n (ss.foldl (fun known s => known ++ [(s, n.search known [s] [])]) known) ∧
        (ss.foldl (fun known s => known ++ [(s, n.search known [s] [])]) known).map Prod.fst =
          known.map Prod.fst ++ ss from
    this n.states [] (fun _ hs => hs) fun _ hc => by cases hc
  intro ss
  induction ss with
  | nil => exact fun known _ hk => ⟨hk, (List.append_nil _).symm⟩
  | cons s ss ih =>
      intro known hss hk
      obtain ⟨hs, hss⟩ := List.forall_mem_cons.mp hss
      have hk' : Closures.Exact n (known ++ [(s, n.search known [s] [])]) := by
        intro c hc
        rcases List.mem_append.mp hc with hc | hc
        · exact hk c hc
        · rw [List.mem_singleton.mp hc]
          exact closureOf_search hw hk (.init hs)
      obtain ⟨he, hmap⟩ := ih _ hss hk'
      refine ⟨he, hmap.trans ?_⟩
      rw [List.map_append, List.append_assoc]
      rfl

end Nfa

end LexicalAutomata
