/-
# `LexicalAutomata.Proofs.Automaton.WellFormed` — what every operation on automata keeps

All states of one supply fit the tags that the supply has given: `s.Of tags` says that `s` is the
state of its number.  For such states equality is equality of numbers, and so the collections of an
automaton hold exactly what was put in.  Every operation is described once, by what it carries and
which arcs there are afterwards, and keeps `WellFormed`; nothing later looks inside an operation.

A deterministic automaton has at most one arc for each state and symbol (`Deterministic`); pruning keeps
that too.
-/
import LexicalAutomata.Automaton.Built
import LexicalAutomata.Automaton.Validity
import LexicalAutomata.Proofs.Automaton.Path
import LexicalAutomata.Proofs.Graph.Search
import LexicalAutomata.Proofs.Ordered

namespace LexicalAutomata

/-- The state is the one that the supply with these tags has issued under its number. -/
def State.Of (tags : Tags) (s : State) : Prop := s = .ofTags tags s.id

theorem State.Of.eq_of_id {tags : Tags} {s t : State} (hs : s.Of tags) (ht : t.Of tags)
    (h : s.id = t.id) : s = t := by
  rw [hs, ht, h]

/-- The tags given before a number was issued, and others from there on. -/
def Tags.goOn (tags : Tags) (first : Nat) (later : Tags) : Tags := fun i =>
  if i < first then tags i else later i

theorem State.Of.goOn_of_lt {tags : Tags} {s : State} {first : Nat} (h : s.Of tags) (hlt : s.id < first)
    (later : Tags) : s.Of (tags.goOn first later) := by
  have e : tags.goOn first later s.id = tags s.id := if_pos hlt
  rw [State.Of, State.ofTags, e]
  exact h

theorem State.Of.goOn_of_le {later : Tags} {s : State} {first : Nat} (h : s.Of later)
    (hle : first ≤ s.id) (tags : Tags) : s.Of (tags.goOn first later) := by
  have e : tags.goOn first later s.id = later s.id := if_neg (Nat.not_lt_of_le hle)
  rw [State.Of, State.ofTags, e]
  exact h

/-- States of different numbers have tags that they all fit. -/
theorem exists_tags (states : List State)
    (h : ∀ s ∈ states, ∀ t ∈ states, s.id = t.id → s = t) :
    ∃ tags : Tags, ∀ s ∈ states, s.Of tags := by
  refine ⟨fun i => (states.find? fun s => s.id == i).bind State.accept, fun s hs => ?_⟩
  cases hf : states.find? fun t => t.id == s.id with
  | none => exact absurd (List.find?_eq_none.mp hf s hs) (by simp)
  | some t =>
      have ht : t.id = s.id := by simpa using List.find?_some hf
      have e : t = s := h t (List.mem_of_find?_eq_some hf) s hs ht
      subst e
      show t = ⟨t.id, (states.find? fun u => u.id == t.id).bind State.accept⟩
      rw [hf]
      rfl

namespace Arc

theorem order_eq_iff {e f : Arc} : order e f = .eq ↔
    e.source.id = f.source.id ∧ e.symbol = f.symbol ∧ e.target.id = f.target.id := by
  simp only [order, compareLex_eq_eq, compareOn, Nat.compare_eq_eq]
  constructor
  · intro h
    obtain ⟨hs, hx, ht⟩ := h
    exact ⟨hs, Symbol.rank_injective hx, ht⟩
  · intro h
    obtain ⟨hs, hx, ht⟩ := h
    exact ⟨hs, by rw [hx], ht⟩

/-- Arcs of one state on different symbols are in the order of their symbols. -/
theorem symbol_order_of_order {e f : Arc} (hs : e.source.id = f.source.id) (hx : e.symbol ≠ f.symbol)
    (h : order e f = .lt) : Symbol.order e.symbol f.symbol = .lt := by
  have hne : Symbol.order e.symbol f.symbol ≠ .eq := fun h =>
    hx (Symbol.rank_injective (Nat.compare_eq_eq.mp h))
  have hs' : compareOn (fun e : Arc => e.source.id) e f = .eq := Nat.compare_eq_eq.mpr hs
  rw [order, compareLex, hs', Ordering.eq_then, compareLex, Ordering.then_eq_lt] at h
  exact h.resolve_right fun h => hne h.1

/-- Arcs of one state are in the order of their symbols. -/
theorem order_of_rank_lt {e f : Arc} (hs : e.source.id = f.source.id)
    (h : e.symbol.rank < f.symbol.rank) : order e f = .lt := by
  have hs' : compareOn (fun e : Arc => e.source.id) e f = .eq := Nat.compare_eq_eq.mpr hs
  have hx : compareOn (fun e : Arc => e.symbol.rank) e f = .lt := Nat.compare_eq_lt.mpr h
  rw [order, compareLex, hs', Ordering.eq_then, compareLex, hx]
  rfl

end Arc

namespace Automaton

variable {k : Kind} {tags : Tags} {a : Automaton k}

/-- At most one arc for each state and symbol. -/
def Deterministic (a : Automaton k) : Prop :=
  ∀ e ∈ a.arcs, ∀ f ∈ a.arcs, e.source.id = f.source.id → e.symbol = f.symbol → e = f

namespace WellFormed

theorem eq_of_id (h : a.WellFormed tags) {s t : State} (hs : s ∈ a.states) (ht : t ∈ a.states)
    (e : s.id = t.id) : s = t :=
  State.Of.eq_of_id (h.tagged s hs) (h.tagged t ht) e

theorem of_mem (h : a.WellFormed tags) {s : State} (hs : s ∈ a.states) : s.Of tags := h.tagged s hs

/-- Only the tags of carried states count. -/
theorem retag (h : a.WellFormed tags) {tags' : Tags} (htags : ∀ s ∈ a.states, s.Of tags') :
    a.WellFormed tags' :=
  { h with tagged := htags }

/-- Lists of carried states are equal if their numbers are. -/
theorem eq_of_map_id (h : a.WellFormed tags) {xs ys : List State} (hxs : ∀ s ∈ xs, s ∈ a.states)
    (hys : ∀ s ∈ ys, s ∈ a.states) (e : xs.map State.id = ys.map State.id) : xs = ys := by
  induction xs generalizing ys with
  | nil =>
      rw [List.map_nil, eq_comm, List.map_eq_nil_iff] at e
      exact e.symm
  | cons x xs ih =>
      cases ys with
      | nil => cases e
      | cons y ys =>
          obtain ⟨hx, hxs⟩ := List.forall_mem_cons.mp hxs
          obtain ⟨hy, hys⟩ := List.forall_mem_cons.mp hys
          rw [List.map_cons, List.map_cons, List.cons.injEq] at e
          rw [h.eq_of_id hx hy e.1, ih hxs hys e.2]

theorem sourceOf_eq (h : a.WellFormed tags) {s : State} (hs : s.Of tags) : a.sourceOf s = s := by
  unfold sourceOf
  cases hf : a.arcs.find? fun e => e.source.id == s.id with
  | none => rfl
  | some e =>
      have he := h.source_mem e (List.mem_of_find?_eq_some hf)
      have hid : e.source.id = s.id := by simpa using List.find?_some hf
      exact State.Of.eq_of_id (h.tagged _ he) hs hid

/-! ### One state, and a state more -/

theorem mem_insert_state (h : a.WellFormed tags) {s t : State} (hs : s.Of tags) :
    t ∈ Ordered.insert State.order s a.states ↔ t = s ∨ t ∈ a.states :=
  Ordered.mem_insert_iff fun u hu e =>
    State.Of.eq_of_id (h.tagged u hu) hs (State.order_eq_iff.mp e).symm

theorem new {s : State} (hs : s.Of tags) : (Automaton.new s : Automaton k).WellFormed tags where
  states_ascending := List.pairwise_singleton _ s
  arcs_ascending := .nil
  start_mem := List.mem_singleton.mpr rfl
  source_mem := fun _ h => by cases h
  target_mem := fun _ h => by cases h
  tagged := fun t h => by rw [List.mem_singleton.mp h]; exact hs

theorem mem_states_addState (h : a.WellFormed tags) {s t : State} (hs : s.Of tags) :
    t ∈ (a.addState s).states ↔ t = s ∨ t ∈ a.states :=
  h.mem_insert_state hs

theorem addState (h : a.WellFormed tags) {s : State} (hs : s.Of tags) :
    (a.addState s).WellFormed tags where
  states_ascending := Ordered.ascending_insert s h.states_ascending
  arcs_ascending := h.arcs_ascending
  start_mem := Ordered.mem_insert_of_mem h.start_mem
  source_mem := fun e he => Ordered.mem_insert_of_mem (h.source_mem e he)
  target_mem := fun e he => Ordered.mem_insert_of_mem (h.target_mem e he)
  tagged := fun t ht => by
    rcases (h.mem_insert_state hs).mp ht with rfl | ht
    · exact hs
    · exact h.tagged t ht

theorem mem_carryEnds (h : a.WellFormed tags) {s t u : State} (hs : s.Of tags) (ht : t.Of tags) :
    u ∈ a.carryEnds s t ↔ u = s ∨ u = t ∨ u ∈ a.states := by
  have := (h.addState hs).mem_states_addState (t := u) ht
  rw [h.mem_states_addState hs] at this
  exact this.trans or_left_comm

/-- An automaton with the arc `s -x-> t` added to some of its arcs. -/
theorem withArc (h : a.WellFormed tags) {s t : State} (x : Symbol) (hs : s.Of tags)
    (ht : t.Of tags) {arcs : List Arc} (hsub : List.Sublist arcs a.arcs) :
    (⟨a.start, a.carryEnds s t, Ordered.insert Arc.order ⟨a.sourceOf s, x, t⟩ arcs⟩ :
      Automaton k).WellFormed tags := by
  have hends := (h.addState hs).addState ht
  have hcarried : ∀ {e}, e ∈ Ordered.insert Arc.order ⟨a.sourceOf s, x, t⟩ arcs →
      e = ⟨s, x, t⟩ ∨ e ∈ a.arcs := by
    intro e he
    rw [h.sourceOf_eq hs] at he
    rcases Ordered.mem_of_mem_insert he with he | he
    · exact .inl he
    · exact .inr (hsub.subset he)
  exact {
    states_ascending := hends.states_ascending
    arcs_ascending := Ordered.ascending_insert _ (h.arcs_ascending.sublist hsub)
    start_mem := hends.start_mem
    source_mem := fun e he => by
      rcases hcarried he with rfl | he
      · exact (h.mem_carryEnds hs ht).mpr (.inl rfl)
      · exact hends.source_mem e he
    target_mem := fun e he => by
      rcases hcarried he with rfl | he
      · exact (h.mem_carryEnds hs ht).mpr (.inr (.inl rfl))
      · exact hends.target_mem e he
    tagged := hends.tagged }

/-- An arc is told from others by the numbers of its ends and the symbol. -/
theorem eq_arc (h : a.WellFormed tags) {s t : State} {x : Symbol} {e : Arc} (he : e ∈ a.arcs)
    (hs : s.Of tags) (ht : t.Of tags) (hsource : e.source.id = s.id) (hsymbol : e.symbol = x)
    (htarget : e.target.id = t.id) : e = ⟨s, x, t⟩ := by
  have es := State.Of.eq_of_id (h.tagged _ (h.source_mem e he)) hs hsource
  have et := State.Of.eq_of_id (h.tagged _ (h.target_mem e he)) ht htarget
  rw [← es, ← hsymbol, ← et]

theorem mem_insert_arc (h : a.WellFormed tags) {s t : State} {x : Symbol} {e : Arc}
    (hs : s.Of tags) (ht : t.Of tags) {arcs : List Arc} (hsub : ∀ f ∈ arcs, f ∈ a.arcs) :
    e ∈ Ordered.insert Arc.order ⟨a.sourceOf s, x, t⟩ arcs ↔ e = ⟨s, x, t⟩ ∨ e ∈ arcs := by
  rw [h.sourceOf_eq hs]
  refine Ordered.mem_insert_iff fun f hf e => ?_
  obtain ⟨hsource, hsymbol, htarget⟩ := Arc.order_eq_iff.mp e
  exact h.eq_arc (hsub f hf) hs ht hsource.symm hsymbol.symm htarget.symm

end WellFormed

/-! ## Arcs of a nondeterministic automaton -/

section Nondeterministic
variable {n : Nfa} {s t : State} {x : Symbol}

theorem WellFormed.addArc (h : n.WellFormed tags) (hs : s.Of tags) (ht : t.Of tags) :
    (Nfa.addArc n s x t).WellFormed tags :=
  h.withArc x hs ht (.refl _)

theorem WellFormed.mem_arcs_addArc (h : n.WellFormed tags) (hs : s.Of tags) (ht : t.Of tags)
    {e : Arc} : e ∈ (Nfa.addArc n s x t).arcs ↔ e = ⟨s, x, t⟩ ∨ e ∈ n.arcs :=
  h.mem_insert_arc hs ht fun _ hf => hf

theorem WellFormed.mem_states_addArc (h : n.WellFormed tags) (hs : s.Of tags) (ht : t.Of tags)
    {u : State} : u ∈ (Nfa.addArc n s x t).states ↔ u = s ∨ u = t ∨ u ∈ n.states :=
  h.mem_carryEnds hs ht

theorem hasArc_iff : Nfa.hasArc n s x t ↔
    ∃ e ∈ n.arcs, e.source.id = s.id ∧ e.symbol = x ∧ e.target.id = t.id := by
  simp only [Nfa.hasArc, State.isIn_iff, targets, arcsFrom, List.mem_map, List.mem_filter,
    beq_iff_eq]
  constructor
  · intro h
    obtain ⟨_, ⟨e, ⟨⟨he, hs⟩, hx⟩, rfl⟩, ht⟩ := h
    exact ⟨e, he, hs, hx, ht⟩
  · intro h
    obtain ⟨e, he, hs, hx, ht⟩ := h
    exact ⟨e.target, ⟨e, ⟨⟨he, hs⟩, hx⟩, rfl⟩, ht⟩

end Nondeterministic

/-! ## Arcs of a deterministic automaton -/

section Deterministic
variable {d : Dfa} {s t : State} {x : Symbol}

/-- The arcs that setting one from `s` on `x` leaves in place. -/
theorem mem_arcs_other {e : Arc} :
    e ∈ d.arcs.filter (fun e => !(e.source.id == s.id && e.symbol == x)) ↔
      e ∈ d.arcs ∧ ¬ (e.source.id = s.id ∧ e.symbol = x) := by
  rw [List.mem_filter, Bool.not_eq_true', Bool.and_eq_false_iff, beq_eq_false_iff_ne,
    beq_eq_false_iff_ne, not_and_or]

theorem WellFormed.setArc (h : d.WellFormed tags) (hs : s.Of tags) (ht : t.Of tags) :
    (Dfa.setArc d s x t).WellFormed tags :=
  h.withArc x hs ht List.filter_sublist

theorem WellFormed.mem_arcs_setArc (h : d.WellFormed tags) (hs : s.Of tags) (ht : t.Of tags)
    {e : Arc} : e ∈ (Dfa.setArc d s x t).arcs ↔
      e = ⟨s, x, t⟩ ∨ e ∈ d.arcs ∧ ¬ (e.source.id = s.id ∧ e.symbol = x) :=
  (h.mem_insert_arc hs ht fun _ hf => (mem_arcs_other.mp hf).1).trans
    (or_congr_right mem_arcs_other)

theorem WellFormed.mem_states_setArc (h : d.WellFormed tags) (hs : s.Of tags) (ht : t.Of tags)
    {u : State} : u ∈ (Dfa.setArc d s x t).states ↔ u = s ∨ u = t ∨ u ∈ d.states :=
  h.mem_carryEnds hs ht

theorem mem_targets {s t : State} {x : Symbol} :
    t ∈ a.targets s x ↔ ∃ e ∈ a.arcs, e.source.id = s.id ∧ e.symbol = x ∧ e.target = t := by
  simp only [targets, arcsFrom, List.mem_map, List.mem_filter, beq_iff_eq, and_assoc]

theorem exists_of_target? (h : d.target? s x = some t) :
    ∃ e ∈ d.arcs, e.source.id = s.id ∧ e.symbol = x ∧ e.target = t :=
  mem_targets.mp (List.mem_of_head? h)

theorem Deterministic.target?_eq_some_iff (hd : d.Deterministic) :
    d.target? s x = some t ↔ ∃ e ∈ d.arcs, e.source.id = s.id ∧ e.symbol = x ∧ e.target = t := by
  refine ⟨exists_of_target?, fun hm => ?_⟩
  rw [← mem_targets] at hm
  rw [Dfa.target?]
  cases hl : d.targets s x with
  | nil =>
      rw [hl] at hm
      cases hm
  | cons u us =>
      have hu : u ∈ d.targets s x := hl ▸ List.mem_cons_self
      obtain ⟨e, he, hes, hex, rfl⟩ := mem_targets.mp hu
      obtain ⟨f, hf, hfs, hfx, rfl⟩ := mem_targets.mp hm
      rw [hd e he f hf (hes.trans hfs.symm) (hex.trans hfx.symm)]
      rfl

theorem target?_eq_none_iff :
    d.target? s x = none ↔ ∀ e ∈ d.arcs, e.source.id = s.id → e.symbol ≠ x := by
  rw [Dfa.target?, List.head?_eq_none_iff, List.eq_nil_iff_forall_not_mem]
  simp only [mem_targets]
  constructor
  · intro h e he hs hx
    exact h e.target ⟨e, he, hs, hx, rfl⟩
  · intro h _ h'
    obtain ⟨e, he, hs, hx, -⟩ := h'
    exact h e he hs hx

end Deterministic

/-! ## Automata that grow -/

/-- `b` is `a` with further states, and with further arcs and their ends. -/
structure Extended (tags : Tags) (a : Automaton k) (states : List State) (arcs : List Arc)
    (b : Automaton k) : Prop where
  wellFormed : b.WellFormed tags
  start : b.start = a.start
  mem_arcs : ∀ e, e ∈ b.arcs ↔ e ∈ a.arcs ∨ e ∈ arcs
  mem_states : ∀ s, s ∈ b.states ↔
    s ∈ a.states ∨ s ∈ states ∨ ∃ e ∈ arcs, s = e.source ∨ s = e.target

theorem WellFormed.extended (h : a.WellFormed tags) : Extended tags a [] [] a :=
  ⟨h, rfl, by simp, by simp⟩

namespace Extended

variable {b c : Automaton k} {states states' : List State} {arcs arcs' : List Arc} {s t : State}
  {x : Symbol}

theorem trans (h : Extended tags a states arcs b) (h' : Extended tags b states' arcs' c) :
    Extended tags a (states ++ states') (arcs ++ arcs') c where
  wellFormed := h'.wellFormed
  start := h'.start.trans h.start
  mem_arcs e := by
    rw [h'.mem_arcs, h.mem_arcs, List.mem_append, or_assoc]
  mem_states s := by
    rw [h'.mem_states, h.mem_states]
    simp only [List.mem_append, or_and_right, exists_or]
    exact Iff.of_eq (by ac_rfl)

theorem addState (h : Extended tags a states arcs b) (hs : s.Of tags) :
    Extended tags a (states ++ [s]) arcs (b.addState s) where
  wellFormed := h.wellFormed.addState hs
  start := h.start
  mem_arcs := h.mem_arcs
  mem_states t := by
    rw [h.wellFormed.mem_states_addState hs, h.mem_states, List.mem_append, List.mem_singleton]
    exact Iff.of_eq (by ac_rfl)

theorem addStates (h : Extended tags a states arcs b) (ss : List State) (hs : ∀ s ∈ ss, s.Of tags) :
    Extended tags a (states ++ ss) arcs (ss.foldl Automaton.addState b) := by
  induction ss generalizing states b with
  | nil =>
      rw [List.append_nil]
      exact h
  | cons s ss ih =>
      obtain ⟨hs, hss⟩ := List.forall_mem_cons.mp hs
      have := ih (h.addState hs) hss
      rwa [List.append_assoc, List.singleton_append] at this

/-- An arc more, by an operation that keeps the other arcs. -/
theorem arc (h : Extended tags a states arcs b) {b' : Automaton k} (wellFormed : b'.WellFormed tags)
    (start : b'.start = b.start) (mem_arcs : ∀ e, e ∈ b'.arcs ↔ e = ⟨s, x, t⟩ ∨ e ∈ b.arcs)
    (mem_states : ∀ u, u ∈ b'.states ↔ u = s ∨ u = t ∨ u ∈ b.states) :
    Extended tags a states (arcs ++ [⟨s, x, t⟩]) b' where
  wellFormed := wellFormed
  start := start.trans h.start
  mem_arcs e := by
    rw [mem_arcs, h.mem_arcs, List.mem_append, List.mem_singleton]
    exact Iff.of_eq (by ac_rfl)
  mem_states u := by
    rw [mem_states, h.mem_states]
    simp only [List.mem_append, List.mem_singleton, or_and_right, exists_or, exists_eq_left]
    exact Iff.of_eq (by ac_rfl)

theorem addArc {n m : Nfa} (h : Extended tags n states arcs m) (hs : s.Of tags) (ht : t.Of tags) :
    Extended tags n states (arcs ++ [⟨s, x, t⟩]) (m.addArc s x t) :=
  h.arc (h.wellFormed.addArc hs ht) rfl (fun _ => h.wellFormed.mem_arcs_addArc hs ht)
    fun _ => h.wellFormed.mem_states_addArc hs ht

/-- Setting an arc takes none away, provided that none on the symbol leads elsewhere. -/
theorem setArc {d m : Dfa} (h : Extended tags d states arcs m) (hs : s.Of tags) (ht : t.Of tags)
    (only : ∀ e ∈ m.arcs, e.source.id = s.id → e.symbol = x → e = ⟨s, x, t⟩) :
    Extended tags d states (arcs ++ [⟨s, x, t⟩]) (m.setArc s x t) := by
  refine h.arc (h.wellFormed.setArc hs ht) rfl (fun e => ?_)
    fun _ => h.wellFormed.mem_states_setArc hs ht
  rw [h.wellFormed.mem_arcs_setArc hs ht]
  constructor
  · intro h'
    rcases h' with rfl | ⟨he, -⟩
    · exact .inl rfl
    · exact .inr he
  · intro h'
    rcases h' with rfl | he
    · exact .inl rfl
    · by_cases hc : e.source.id = s.id ∧ e.symbol = x
      · exact .inl (only e he hc.1 hc.2)
      · exact .inr ⟨he, hc⟩

end Extended

/-! ## Pruning -/

section Prune

theorem isIn_reachable_iff {s : State} : s.isIn a.reachable ↔ Reaches a s.id := by
  rw [reachable, Ordered.ofList, State.isIn_insertAll]
  have : s.isIn (Graph.visit State.id a.links .stack [a.start] []) ↔
      Graph.Leads State.id a.links a.start.id s.id :=
    Graph.seen_visit_iff (x := a.start)
  rw [this, ← connects_iff_leads]
  simp [State.isIn, Connects, Reaches]

theorem WellFormed.mem_reachable (h : a.WellFormed tags) {s : State} :
    s ∈ a.reachable ↔ s ∈ a.states ∧ Reaches a s.id := by
  have hsub : ∀ t ∈ a.reachable, t ∈ a.states := by
    intro t ht
    have hl : ∀ l ∈ a.links, l.2 ∈ a.states := by
      intro l hl
      obtain ⟨e, he, rfl⟩ := List.mem_map.mp hl
      exact h.target_mem e he
    refine Graph.forall_mem_visit hl ?_ ?_ t (Ordered.mem_of_mem_ofList ht)
    · intro x hx
      rw [List.mem_singleton.mp hx]
      exact h.start_mem
    · intro x hx
      cases hx
  constructor
  · intro hs
    exact ⟨hsub s hs, isIn_reachable_iff.mp (State.isIn_iff.mpr ⟨s, hs, rfl⟩)⟩
  · intro h'
    obtain ⟨hs, hr⟩ := h'
    obtain ⟨t, ht, e⟩ := State.isIn_iff.mp (isIn_reachable_iff.mpr hr)
    exact h.eq_of_id (hsub t ht) hs e ▸ ht

theorem WellFormed.mem_states_prune (h : a.WellFormed tags) {s : State} :
    s ∈ a.prune.states ↔ s ∈ a.states ∧ Reaches a s.id :=
  h.mem_reachable

theorem mem_arcs_prune {e : Arc} : e ∈ a.prune.arcs ↔ e ∈ a.arcs ∧ Reaches a e.source.id := by
  rw [prune, List.mem_filter, isIn_reachable_iff]

/-- A state that can be reached keeps its arcs. -/
theorem arcsFrom_prune {s : State} (h : Reaches a s.id) : a.prune.arcsFrom s = a.arcsFrom s := by
  rw [arcsFrom, Automaton.prune, List.filter_filter]
  refine List.filter_congr fun e _ => ?_
  cases hs : e.source.id == s.id with
  | false => rfl
  | true =>
      rw [Bool.true_and, isIn_reachable_iff, beq_iff_eq.mp hs]
      exact h

theorem Reaches.target {e : Arc} (he : e ∈ a.arcs) (h : Reaches a e.source.id) :
    Reaches a e.target.id :=
  Connects.trans h (.of_arc he)

theorem WellFormed.prune (h : a.WellFormed tags) : a.prune.WellFormed tags where
  states_ascending := Ordered.ascending_ofList _
  arcs_ascending := h.arcs_ascending.filter _
  start_mem := h.mem_states_prune.mpr ⟨h.start_mem, reaches_start a⟩
  source_mem := fun e he => by
    obtain ⟨he, hr⟩ := mem_arcs_prune.mp he
    exact h.mem_states_prune.mpr ⟨h.source_mem e he, hr⟩
  target_mem := fun e he => by
    obtain ⟨he, hr⟩ := mem_arcs_prune.mp he
    exact h.mem_states_prune.mpr ⟨h.target_mem e he, hr.target he⟩
  tagged := fun s hs => h.tagged s (h.mem_states_prune.mp hs).1

theorem Deterministic.prune (h : a.Deterministic) : a.prune.Deterministic := by
  intro e he f hf
  exact h e (mem_arcs_prune.mp he).1 f (mem_arcs_prune.mp hf).1

theorem EpsilonFree.prune (h : a.EpsilonFree) : a.prune.EpsilonFree := by
  intro e he
  exact h e (mem_arcs_prune.mp he).1

/-- Pruning takes away no path that begins at a state that can be reached. -/
theorem reads_prune {i j : Nat} {w : List Char} (hi : Reaches a i) :
    Reads a.prune i w j ↔ Reads a i w j := by
  constructor
  · exact Reads.mono fun e he => (mem_arcs_prune.mp he).1
  · intro r
    exact (r.confined (P := Reaches a)
      (fun e he hr => ⟨mem_arcs_prune.mpr ⟨he, hr⟩, hr.target he⟩) hi).2

theorem reaches_prune {i : Nat} : Reaches a.prune i ↔ Reaches a i :=
  exists_congr fun _ => reads_prune (reaches_start a)

end Prune

/-! ## Paths among carried states -/

theorem WellFormed.exists_of_reaches (h : a.WellFormed tags) {i : Nat} (hi : Reaches a i) :
    ∃ s ∈ a.states, s.id = i := by
  obtain ⟨w, r⟩ := hi
  exact (r.confined (P := fun i => ∃ s ∈ a.states, s.id = i)
    (fun e he _ => ⟨he, e.target, h.target_mem e he, rfl⟩) ⟨a.start, h.start_mem, rfl⟩).1

end Automaton

end LexicalAutomata
