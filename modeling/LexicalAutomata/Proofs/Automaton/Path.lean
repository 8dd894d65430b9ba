/-
# `LexicalAutomata.Proofs.Automaton.Path` — paths that stay, paths that leave, paths without empty moves

Most arguments about automata put together from parts have one of two forms.  Either a path cannot
get out of a region, and then it is a path of the part that fills the region (`Reads.confined`).  Or
the region has one gate, and then a path that ends outside splits at the gate (`Reads.leave`).

Where there are no empty moves, a path can be read off the word: no word leads anywhere else, and a
character stands for one arc (`reads_nil_iff`, `reads_cons_iff`).
-/
import LexicalAutomata.Automaton.Path

namespace LexicalAutomata.Automaton

variable {k l : Kind} {a : Automaton k} {b : Automaton l}

/-! ## Connections: paths whose word does not matter -/

/-- Some path leads from `i` to `j`. -/
def Connects (a : Automaton k) (i j : Nat) : Prop := ∃ w, Reads a i w j

theorem Connects.refl (i : Nat) : Connects a i i := ⟨[], .stay i⟩

theorem Connects.trans {i j m : Nat} (h : Connects a i j) (h' : Connects a j m) :
    Connects a i m := by
  obtain ⟨u, hu⟩ := h
  obtain ⟨v, hv⟩ := h'
  exact ⟨u ++ v, hu.append hv⟩

theorem reaches_start (a : Automaton k) : Reaches a a.start.id := ⟨[], .stay _⟩

theorem Reads.of_arc {e : Arc} (he : e ∈ a.arcs) :
    Reads a e.source.id e.symbol.toChar?.toList e.target.id := by
  cases hx : e.symbol with
  | epsilon => exact .empty he hx (.stay _)
  | char c => exact .char he hx (.stay _)

theorem Connects.of_arc {e : Arc} (he : e ∈ a.arcs) : Connects a e.source.id e.target.id :=
  ⟨_, .of_arc he⟩

theorem connects_iff_leads {i j : Nat} :
    Connects a i j ↔ Graph.Leads State.id a.links i j := by
  constructor
  · intro h'
    obtain ⟨w, h⟩ := h'
    induction h with
    | stay i => exact .stay i
    | empty he _ _ ih => exact .step (l := (_, _)) (List.mem_map.mpr ⟨_, he, rfl⟩) ih
    | char he _ _ ih => exact .step (l := (_, _)) (List.mem_map.mpr ⟨_, he, rfl⟩) ih
  · intro h
    induction h with
    | stay i => exact .refl i
    | step hl _ ih =>
        obtain ⟨e, he, rfl⟩ := List.mem_map.mp hl
        exact (Connects.of_arc he).trans ih

/-! ## Regions -/

theorem Reads.mono (h : ∀ e ∈ a.arcs, e ∈ b.arcs) {i j : Nat} {w : List Char}
    (r : Reads a i w j) : Reads b i w j := by
  induction r with
  | stay i => exact .stay i
  | empty he hx _ ih => exact .empty (h _ he) hx ih
  | char he hx _ ih => exact .char (h _ he) hx ih

theorem Connects.mono (h : ∀ e ∈ a.arcs, e ∈ b.arcs) {i j : Nat} (r : Connects a i j) :
    Connects b i j := by
  obtain ⟨w, hw⟩ := r
  exact ⟨w, hw.mono h⟩

section Region
variable {P : Nat → Prop}

/-- A path out of a region whose only gate is `m` either ends in the region, or leads through the
gate. -/
theorem Reads.leave {m : Nat}
    (h : ∀ e ∈ a.arcs, P e.source.id → e ∈ b.arcs ∧ (P e.target.id ∨ e.target.id = m))
    {i j : Nat} {w : List Char} (r : Reads a i w j) (hi : P i) :
    (P j ∧ Reads b i w j) ∨ ∃ u v, w = u ++ v ∧ Reads b i u m ∧ Reads a m v j := by
  induction r with
  | stay i => exact .inl ⟨hi, .stay i⟩
  | @empty e w j he hx r ih =>
      obtain ⟨heb, ht | ht⟩ := h e he hi
      · rcases ih ht with ⟨hj, hr⟩ | ⟨u, v, rfl, hu, hv⟩
        · exact .inl ⟨hj, .empty heb hx hr⟩
        · exact .inr ⟨u, v, rfl, .empty heb hx hu, hv⟩
      · subst ht
        exact .inr ⟨[], w, rfl, .empty heb hx (.stay _), r⟩
  | @char e c w j he hx r ih =>
      obtain ⟨heb, ht | ht⟩ := h e he hi
      · rcases ih ht with ⟨hj, hr⟩ | ⟨u, v, rfl, hu, hv⟩
        · exact .inl ⟨hj, .char heb hx hr⟩
        · exact .inr ⟨c :: u, v, rfl, .char heb hx hu, hv⟩
      · subst ht
        exact .inr ⟨[c], w, rfl, .char heb hx (.stay _), r⟩

/-- A path that begins in a region without a gate stays there. -/
theorem Reads.confined (h : ∀ e ∈ a.arcs, P e.source.id → e ∈ b.arcs ∧ P e.target.id)
    {i j : Nat} {w : List Char} (r : Reads a i w j) (hi : P i) : P j ∧ Reads b i w j := by
  induction r with
  | stay i => exact ⟨hi, .stay i⟩
  | empty he hx _ ih =>
      obtain ⟨heb, ht⟩ := h _ he hi
      exact ⟨(ih ht).1, .empty heb hx (ih ht).2⟩
  | char he hx _ ih =>
      obtain ⟨heb, ht⟩ := h _ he hi
      exact ⟨(ih ht).1, .char heb hx (ih ht).2⟩

theorem Connects.confined (h : ∀ e ∈ a.arcs, P e.source.id → e ∈ b.arcs ∧ P e.target.id)
    {i j : Nat} (r : Connects a i j) (hi : P i) : P j ∧ Connects b i j := by
  obtain ⟨w, hw⟩ := r
  exact ⟨(hw.confined h hi).1, w, (hw.confined h hi).2⟩

end Region

/-- A path stays where it is, or begins with an arc. -/
theorem reads_iff_head {i j : Nat} {w : List Char} : Reads a i w j ↔
    w = [] ∧ j = i ∨ ∃ e ∈ a.arcs, e.source.id = i ∧
      ∃ v, w = e.symbol.toChar?.toList ++ v ∧ Reads a e.target.id v j := by
  constructor
  · intro r
    cases r with
    | stay => exact .inl ⟨rfl, rfl⟩
    | empty he hx r => exact .inr ⟨_, he, rfl, _, by rw [hx]; rfl, r⟩
    | char he hx r => exact .inr ⟨_, he, rfl, _, by rw [hx]; rfl, r⟩
  · intro h
    rcases h with ⟨rfl, rfl⟩ | ⟨e, he, rfl, v, rfl, r⟩
    · exact .stay j
    · exact (Reads.of_arc he).append r

/-- A path that spells a character first makes empty moves, then takes an arc on it. -/
theorem reads_cons_iff {i j : Nat} {c : Char} {w : List Char} : Reads a i (c :: w) j ↔
    ∃ e ∈ a.arcs, Reads a i [] e.source.id ∧ e.symbol = .char c ∧ Reads a e.target.id w j := by
  constructor
  · intro r
    generalize hv : c :: w = v at r
    induction r with
    | stay => cases hv
    | empty he hx _ ih =>
        obtain ⟨f, hf, r, hy, r'⟩ := ih hv
        exact ⟨f, hf, .empty he hx r, hy, r'⟩
    | char he hx r =>
        cases hv
        exact ⟨_, he, .stay _, hx, r⟩
  · intro h
    obtain ⟨e, he, r, hx, r'⟩ := h
    exact r.append (.char he hx r')

/-- Where no arc begins, every path ends. -/
theorem Reads.eq_of_sink {i j : Nat} {w : List Char} (h : ∀ e ∈ a.arcs, e.source.id ≠ i)
    (r : Reads a i w j) : w = [] ∧ j = i := by
  cases r with
  | stay => exact ⟨rfl, rfl⟩
  | empty he => exact absurd rfl (h _ he)
  | char he => exact absurd rfl (h _ he)

/-- Where no arc ends, every path begins. -/
theorem Reads.eq_of_source {i j : Nat} {w : List Char} (h : ∀ e ∈ a.arcs, e.target.id ≠ j)
    (r : Reads a i w j) : w = [] ∧ i = j := by
  induction r with
  | stay => exact ⟨rfl, rfl⟩
  | empty he _ _ ih => exact absurd (ih h).2 (h _ he)
  | char he _ _ ih => exact absurd (ih h).2 (h _ he)

/-! ## Without empty moves -/

theorem EpsilonFree.reads_nil_iff (h : a.EpsilonFree) {i j : Nat} : Reads a i [] j ↔ j = i := by
  constructor
  · intro r
    cases r with
    | stay => rfl
    | empty he hx => exact absurd hx (h _ he)
  · rintro rfl
    exact .stay j

theorem EpsilonFree.reads_cons_iff (h : a.EpsilonFree) {i j : Nat} {c : Char} {w : List Char} :
    Reads a i (c :: w) j ↔
      ∃ e ∈ a.arcs, e.source.id = i ∧ e.symbol = .char c ∧ Reads a e.target.id w j := by
  constructor
  · intro r
    cases r with
    | empty he hx => exact absurd hx (h _ he)
    | char he hx r => exact ⟨_, he, rfl, hx, r⟩
  · intro h'
    obtain ⟨e, he, rfl, hx, r⟩ := h'
    exact .char he hx r

theorem EpsilonFree.reads_snoc_iff (h : a.EpsilonFree) {i j : Nat} {c : Char} {w : List Char} :
    Reads a i (w ++ [c]) j ↔
      ∃ e ∈ a.arcs, e.target.id = j ∧ e.symbol = .char c ∧ Reads a i w e.source.id := by
  induction w generalizing i with
  | nil =>
      rw [List.nil_append, h.reads_cons_iff]
      simp only [h.reads_nil_iff]
      exact ⟨fun ⟨e, he, hs, hx, ht⟩ => ⟨e, he, ht.symm, hx, hs⟩,
        fun ⟨e, he, ht, hx, hs⟩ => ⟨e, he, hs, hx, ht.symm⟩⟩
  | cons d w ih =>
      rw [List.cons_append, h.reads_cons_iff]
      simp only [ih, h.reads_cons_iff]
      constructor
      · intro h'
        obtain ⟨e, he, hs, hx, f, hf, ht, hy, r⟩ := h'
        exact ⟨f, hf, ht, hy, e, he, hs, hx, r⟩
      · intro h'
        obtain ⟨f, hf, ht, hy, e, he, hs, hx, r⟩ := h'
        exact ⟨e, he, hs, hx, f, hf, ht, hy, r⟩

end LexicalAutomata.Automaton
