/-
# `LexicalAutomata.Proofs.Nfa.Fragment` — paths through composed fragments

A fragment `Spans s t next` if its arcs begin in `s` or in a fresh state, and end in `t` or in a fresh
state, where the fresh states are numbered from `next` to the number that the fragment has left.  So
nothing enters `s` and nothing leaves `t`, and fragments over different numbers meet in `s` and `t`
alone.  From this follows what paths spell when fragments are composed:

* in series, through one state between them, words are appended (`reads_serial`);
* side by side, a word is one of either (`reads_parallel`);
* wrapped between two fresh states, with or without a way past them and a way back, a word is the
  empty one or a row of words (`reads_wrapped`).
-/
import LexicalAutomata.Nfa.Fragment
import LexicalAutomata.Proofs.Automaton.Path

namespace LexicalAutomata

open Automaton

/-- Some arcs as an automaton; its start plays no part. -/
def Nfa.ofArcs (arcs : List Arc) : Nfa := ⟨.plain 0, [], arcs⟩

/-- A state without a tag whose number is from `lo` on and below `hi`. -/
def State.Fresh (lo hi : Nat) (s : State) : Prop := s = .plain s.id ∧ lo ≤ s.id ∧ s.id < hi

theorem State.fresh_plain {lo hi i : Nat} (h : lo ≤ i) (h' : i < hi) :
    (State.plain i).Fresh lo hi := ⟨rfl, h, h'⟩

theorem State.Fresh.mono {lo lo' hi hi' : Nat} {s : State} (h : s.Fresh lo hi) (hl : lo' ≤ lo)
    (hh : hi ≤ hi') : s.Fresh lo' hi' :=
  ⟨h.1, Nat.le_trans hl h.2.1, Nat.lt_of_lt_of_le h.2.2 hh⟩

namespace Fragment

/-! ## Where the arcs of a fragment run -/

/-- The arcs run from `s` to `t` over fresh states numbered from `next`. -/
structure Spans (s t : State) (next : Nat) (f : Fragment) : Prop where
  next_le : next ≤ f.2
  source : ∀ e ∈ f.1, e.source = s ∨ e.source.Fresh next f.2
  target : ∀ e ∈ f.1, e.target = t ∨ e.target.Fresh next f.2

theorem spans_one (s : State) (x : Symbol) (t : State) (next : Nat) :
    Spans s t next ([⟨s, x, t⟩], next) := by
  refine ⟨Nat.le_refl _, ?_, ?_⟩
  · intro e he
    rw [List.mem_singleton.mp he]
    exact .inl rfl
  · intro e he
    rw [List.mem_singleton.mp he]
    exact .inl rfl

/-- In series through `m`, a state that is fresh for both. -/
theorem Spans.serial {s m t : State} {next lo : Nat} {f g : Fragment} (hf : Spans s m lo f)
    (hg : Spans m t f.2 g) (hm : m.Fresh next lo) :
    Spans s t next (f.1 ++ g.1, g.2) := by
  have hlo : next ≤ lo := Nat.le_trans hm.2.1 (Nat.le_of_lt hm.2.2)
  have hm' : m.Fresh next g.2 :=
    hm.mono (Nat.le_refl _) (Nat.le_trans hf.next_le hg.next_le)
  refine ⟨Nat.le_trans hlo (Nat.le_trans hf.next_le hg.next_le), ?_, ?_⟩
  · intro e he
    rcases List.mem_append.mp he with he | he
    · exact (hf.source e he).imp_right fun h => h.mono hlo hg.next_le
    · right
      rcases hg.source e he with h | h
      · rwa [h]
      · exact h.mono (Nat.le_trans hlo hf.next_le) (Nat.le_refl _)
  · intro e he
    rcases List.mem_append.mp he with he | he
    · right
      rcases hf.target e he with h | h
      · rwa [h]
      · exact h.mono hlo hg.next_le
    · exact (hg.target e he).imp_right fun h =>
        h.mono (Nat.le_trans hlo hf.next_le) (Nat.le_refl _)

/-- Side by side. -/
theorem Spans.parallel {s t : State} {next : Nat} {f g : Fragment} (hf : Spans s t next f)
    (hg : Spans s t f.2 g) : Spans s t next (f.1 ++ g.1, g.2) := by
  refine ⟨Nat.le_trans hf.next_le hg.next_le, ?_, ?_⟩
  · intro e he
    rcases List.mem_append.mp he with he | he
    · exact (hf.source e he).imp_right fun h => h.mono (Nat.le_refl _) hg.next_le
    · exact (hg.source e he).imp_right fun h => h.mono hf.next_le (Nat.le_refl _)
  · intro e he
    rcases List.mem_append.mp he with he | he
    · exact (hf.target e he).imp_right fun h => h.mono (Nat.le_refl _) hg.next_le
    · exact (hg.target e he).imp_right fun h => h.mono hf.next_le (Nat.le_refl _)

theorem Spans.source_id {s t : State} {next : Nat} {f : Fragment} (h : Spans s t next f) {e : Arc}
    (he : e ∈ f.1) : e.source.id = s.id ∨ next ≤ e.source.id ∧ e.source.id < f.2 :=
  (h.source e he).imp (congrArg State.id) And.right

theorem Spans.target_id {s t : State} {next : Nat} {f : Fragment} (h : Spans s t next f) {e : Arc}
    (he : e ∈ f.1) : e.target.id = t.id ∨ next ≤ e.target.id ∧ e.target.id < f.2 :=
  (h.target e he).imp (congrArg State.id) And.right

/-- `arcs` wrap `body`, which runs between the fresh states `next` and `next + 1`; there may be an arc
past both, and one that lets the body begin again. -/
def Wraps (skip again : Prop) (s t : State) (next : Nat) (body arcs : List Arc) : Prop :=
  ∀ e, e ∈ arcs ↔ (skip ∧ e = .empty s t) ∨ e = .empty s (.plain next) ∨ e ∈ body ∨
    e = .empty (.plain (next + 1)) t ∨ (again ∧ e = loop next)

theorem Wraps.spans {skip again : Prop} {s t : State} {next : Nat} {body : Fragment}
    {arcs : List Arc} (h : Wraps skip again s t next body.1 arcs)
    (hb : Spans (.plain next) (.plain (next + 1)) (next + 2) body) :
    Spans s t next (arcs, body.2) := by
  have hle := hb.next_le
  have ha : (State.plain next).Fresh next body.2 := State.fresh_plain (Nat.le_refl _) (by omega)
  have hb' : (State.plain (next + 1)).Fresh next body.2 := State.fresh_plain (by omega) (by omega)
  refine ⟨by omega, ?_, ?_⟩
  · intro e he
    rcases (h e).mp he with ⟨-, rfl⟩ | rfl | he | rfl | ⟨-, rfl⟩
    · exact .inl rfl
    · exact .inl rfl
    · right
      rcases hb.source e he with hs | hs
      · rwa [hs]
      · exact hs.mono (by omega) (Nat.le_refl _)
    · exact .inr hb'
    · exact .inr hb'
  · intro e he
    rcases (h e).mp he with ⟨-, rfl⟩ | rfl | he | rfl | ⟨-, rfl⟩
    · exact .inl rfl
    · exact .inr ha
    · right
      rcases hb.target e he with hs | hs
      · rwa [hs]
      · exact hs.mono (by omega) (Nat.le_refl _)
    · exact .inl rfl
    · exact .inr ha

/-! ## What composed fragments spell -/

/-- Two different states, both of which were issued before `next`. -/
structure Apart (s t : State) (next : Nat) : Prop where
  left : s.id < next
  right : t.id < next
  ne : s.id ≠ t.id

theorem Apart.mono {s t : State} {lo hi : Nat} (h : Apart s t lo) (hle : lo ≤ hi) : Apart s t hi :=
  ⟨Nat.lt_of_lt_of_le h.left hle, Nat.lt_of_lt_of_le h.right hle, h.ne⟩

/-- A fresh state is apart from both. -/
theorem Apart.between {s t : State} {next : Nat} (h : Apart s t next) :
    Apart s (.plain next) (next + 1) ∧ Apart (.plain next) t (next + 1) := by
  have := h.left
  have := h.right
  exact ⟨⟨by omega, Nat.lt_succ_self _, show s.id ≠ next by omega⟩,
    Nat.lt_succ_self _, by omega, show next ≠ t.id by omega⟩

theorem Apart.wrapped (next : Nat) : Apart (.plain next) (.plain (next + 1)) (next + 2) :=
  ⟨show next < next + 2 by omega, show next + 1 < next + 2 by omega, show next ≠ next + 1 by omega⟩

section Composed
variable {s m t : State} {lo : Nat} {f g : Fragment}

theorem reads_one {x : Symbol} (h : s.id ≠ t.id) {w : List Char} :
    Reads (Nfa.ofArcs [⟨s, x, t⟩]) s.id w t.id ↔ w = x.toChar?.toList := by
  have hin : (⟨s, x, t⟩ : Arc) ∈ (Nfa.ofArcs [⟨s, x, t⟩]).arcs := List.mem_singleton.mpr rfl
  constructor
  · intro r
    rcases reads_iff_head.mp r with ⟨-, e⟩ | ⟨e, he, -, v, rfl, hv⟩
    · exact absurd e.symm h
    · obtain rfl := List.mem_singleton.mp he
      have hsink : ∀ e ∈ (Nfa.ofArcs [⟨s, x, t⟩]).arcs, e.source.id ≠ t.id := by
        intro e he
        rw [List.mem_singleton.mp he]
        exact h
      rw [(hv.eq_of_sink hsink).1, List.append_nil]
  · rintro rfl
    exact Reads.of_arc hin

/-- Where a path through two fragments in series can end. -/
theorem reads_serial_from (hf : Spans s m lo f) (hg : Spans m t f.2 g) (hsm : Apart s m lo)
    (hmt : Apart m t lo) (hst : s.id ≠ t.id) {w : List Char} {j : Nat}
    (r : Reads (Nfa.ofArcs (f.1 ++ g.1)) s.id w j) :
    ((j = s.id ∨ lo ≤ j ∧ j < f.2) ∧ Reads (Nfa.ofArcs f.1) s.id w j) ∨
      ∃ u v, w = u ++ v ∧ Reads (Nfa.ofArcs f.1) s.id u m.id ∧
        (j = m.id ∨ j = t.id ∨ f.2 ≤ j) ∧ Reads (Nfa.ofArcs g.1) m.id v j := by
  have hle := hf.next_le
  have := hsm.left
  have := hmt.right
  have := hmt.left
  -- The first part is a region whose gate is `m`, the second part one without a gate.
  have h₁ : ∀ e ∈ (Nfa.ofArcs (f.1 ++ g.1)).arcs,
      (e.source.id = s.id ∨ lo ≤ e.source.id ∧ e.source.id < f.2) →
        e ∈ (Nfa.ofArcs f.1).arcs ∧ ((e.target.id = s.id ∨ lo ≤ e.target.id ∧ e.target.id < f.2) ∨
          e.target.id = m.id) := by
    intro e he hs
    rcases List.mem_append.mp he with he | he
    · exact ⟨he, (hf.target_id he).symm.imp_left .inr⟩
    · have := hg.source_id he
      have := hsm.ne
      omega
  have h₂ : ∀ e ∈ (Nfa.ofArcs (f.1 ++ g.1)).arcs,
      (e.source.id = m.id ∨ e.source.id = t.id ∨ f.2 ≤ e.source.id) →
        e ∈ (Nfa.ofArcs g.1).arcs ∧
          (e.target.id = m.id ∨ e.target.id = t.id ∨ f.2 ≤ e.target.id) := by
    intro e he hs
    rcases List.mem_append.mp he with he | he
    · have := hf.source_id he
      have := hsm.ne
      omega
    · have := hg.target_id he
      exact ⟨he, by omega⟩
  rcases r.leave (P := fun i => i = s.id ∨ lo ≤ i ∧ i < f.2) h₁ (.inl rfl) with
    h | ⟨u, v, rfl, hu, hv⟩
  · exact .inl h
  · exact .inr ⟨u, v, rfl, hu,
      hv.confined (P := fun i => i = m.id ∨ i = t.id ∨ f.2 ≤ i) h₂ (.inl rfl)⟩

theorem reads_serial (hf : Spans s m lo f) (hg : Spans m t f.2 g) (hsm : Apart s m lo)
    (hmt : Apart m t lo) (hst : s.id ≠ t.id) {w : List Char} :
    Reads (Nfa.ofArcs (f.1 ++ g.1)) s.id w t.id ↔ ∃ u v, w = u ++ v ∧
      Reads (Nfa.ofArcs f.1) s.id u m.id ∧ Reads (Nfa.ofArcs g.1) m.id v t.id := by
  constructor
  · intro r
    rcases reads_serial_from hf hg hsm hmt hst r with ⟨ht, -⟩ | ⟨u, v, rfl, hu, -, hv⟩
    · have := hmt.right
      omega
    · exact ⟨u, v, rfl, hu, hv⟩
  · intro h
    obtain ⟨u, v, rfl, hu, hv⟩ := h
    exact (hu.mono fun e he => List.mem_append_left _ he).append
      (hv.mono fun e he => List.mem_append_right _ he)

/-- Where a path through one of two fragments side by side can end. -/
theorem reads_parallel_from (hf : Spans s t lo f) (hg : Spans s t f.2 g) (hst : Apart s t lo)
    {w : List Char} {j : Nat} (r : Reads (Nfa.ofArcs (f.1 ++ g.1)) s.id w j) :
    (w = [] ∧ j = s.id) ∨
      ((j = t.id ∨ lo ≤ j ∧ j < f.2) ∧ Reads (Nfa.ofArcs f.1) s.id w j) ∨
      ((j = t.id ∨ f.2 ≤ j) ∧ Reads (Nfa.ofArcs g.1) s.id w j) := by
  have hle := hf.next_le
  have := hst.left
  have := hst.right
  rcases reads_iff_head.mp r with h | ⟨e, he, hs, v, rfl, hv⟩
  · exact .inl h
  · right
    rw [← hs]
    rcases List.mem_append.mp he with he | he
    · left
      refine (hv.confined (P := fun i => i = t.id ∨ lo ≤ i ∧ i < f.2) ?_ (hf.target_id he)).imp_right
        (Reads.of_arc (a := Nfa.ofArcs f.1) he).append
      intro e he hs
      rcases List.mem_append.mp he with he | he
      · exact ⟨he, hf.target_id he⟩
      · have := hg.source_id he
        have := hst.ne
        omega
    · right
      refine (hv.confined (P := fun i => i = t.id ∨ f.2 ≤ i) ?_
        ((hg.target_id he).imp_right And.left)).imp_right
        (Reads.of_arc (a := Nfa.ofArcs g.1) he).append
      intro e he hs
      rcases List.mem_append.mp he with he | he
      · have := hf.source_id he
        have := hst.ne
        omega
      · exact ⟨he, (hg.target_id he).imp_right And.left⟩

theorem reads_parallel (hf : Spans s t lo f) (hg : Spans s t f.2 g) (hst : Apart s t lo)
    {w : List Char} :
    Reads (Nfa.ofArcs (f.1 ++ g.1)) s.id w t.id ↔
      Reads (Nfa.ofArcs f.1) s.id w t.id ∨ Reads (Nfa.ofArcs g.1) s.id w t.id := by
  constructor
  · intro r
    rcases reads_parallel_from hf hg hst r with ⟨-, h⟩ | ⟨-, r⟩ | ⟨-, r⟩
    · exact absurd h.symm hst.ne
    · exact .inl r
    · exact .inr r
  · intro h'
    rcases h' with r | r
    · exact r.mono fun e he => List.mem_append_left _ he
    · exact r.mono fun e he => List.mem_append_right _ he

end Composed

/-- Words of `L` in a row; more than none only if it is possible to begin again. -/
inductive Row (again : Prop) (L : List Char → Prop) : List Char → Prop
  | nil : Row again L []
  | cons {u v : List Char} : again → L u → Row again L v → Row again L (u ++ v)

section Wrapped
variable {skip again : Prop} {s t : State} {next : Nat} {body : Fragment} {arcs : List Arc}

theorem Wraps.of_source_left (h : Wraps skip again s t next body.1 arcs)
    (hb : Spans (.plain next) (.plain (next + 1)) (next + 2) body) (hst : Apart s t next) {e : Arc}
    (he : e ∈ arcs) (hs : e.source.id = s.id) :
    (skip ∧ e = .empty s t) ∨ e = .empty s (.plain next) := by
  have := hst.left
  rcases (h e).mp he with he | he | he | rfl | ⟨-, rfl⟩
  · exact .inl he
  · exact .inr he
  · have : e.source.id = next ∨ _ := hb.source_id he
    omega
  · have : next + 1 = s.id := hs
    omega
  · have : next + 1 = s.id := hs
    omega

theorem Wraps.of_source_inside (h : Wraps skip again s t next body.1 arcs)
    (hb : Spans (.plain next) (.plain (next + 1)) (next + 2) body) (hlt : s.id < next) {e : Arc}
    (he : e ∈ arcs) (hs : next ≤ e.source.id) :
    (e ∈ body.1 ∧ next ≤ e.target.id) ∨ e = .empty (.plain (next + 1)) t ∨ again ∧ e = loop next := by
  rcases (h e).mp he with ⟨-, rfl⟩ | rfl | he | he | he
  · have : next ≤ s.id := hs
    omega
  · have : next ≤ s.id := hs
    omega
  · have : e.target.id = next + 1 ∨ _ := hb.target_id he
    exact .inl ⟨he, by omega⟩
  · exact .inr (.inl he)
  · exact .inr (.inr he)

theorem Wraps.sink (h : Wraps skip again s t next body.1 arcs)
    (hb : Spans (.plain next) (.plain (next + 1)) (next + 2) body) (hst : Apart s t next) :
    ∀ e ∈ (Nfa.ofArcs arcs).arcs, e.source.id ≠ t.id := by
  intro e he
  have := (h.spans hb).source_id he
  have := hst.right
  have := hst.ne
  omega

/-- From inside, a path leads to the end of the body, then perhaps to its beginning again. -/
theorem row_of_reads (h : Wraps skip again s t next body.1 arcs)
    (hb : Spans (.plain next) (.plain (next + 1)) (next + 2) body) (hst : Apart s t next)
    {i : Nat} {w : List Char} (r : Reads (Nfa.ofArcs arcs) i w t.id) (hi : next ≤ i) :
    ∃ u v, w = u ++ v ∧ Reads (Nfa.ofArcs body.1) i u (next + 1) ∧
      Row again (fun u => Reads (Nfa.ofArcs body.1) next u (next + 1)) v := by
  generalize hj : t.id = j at r
  induction r with
  | stay i =>
      have := hst.right
      omega
  | empty he hx r ih =>
      rcases h.of_source_inside hb hst.left he hi with ⟨he, ht⟩ | rfl | ⟨hk, rfl⟩
      · obtain ⟨u, v, rfl, hu, hv⟩ := ih ht hj
        exact ⟨u, v, rfl, .empty he hx hu, hv⟩
      · obtain ⟨rfl, -⟩ := r.eq_of_sink (h.sink hb hst)
        exact ⟨[], [], rfl, .stay _, .nil⟩
      · obtain ⟨u, v, rfl, hu, hv⟩ := ih (Nat.le_refl _) hj
        exact ⟨[], u ++ v, rfl, .stay _, .cons hk hu hv⟩
  | @char e c w j he hx r ih =>
      rcases h.of_source_inside hb hst.left he hi with ⟨he, ht⟩ | rfl | ⟨hk, rfl⟩
      · obtain ⟨u, v, rfl, hu, hv⟩ := ih ht hj
        exact ⟨c :: u, v, rfl, .char he hx hu, hv⟩
      · cases hx
      · cases hx

theorem reads_wrapped (h : Wraps skip again s t next body.1 arcs)
    (hb : Spans (.plain next) (.plain (next + 1)) (next + 2) body) (hst : Apart s t next)
    {w : List Char} :
    Reads (Nfa.ofArcs arcs) s.id w t.id ↔ (skip ∧ w = []) ∨ ∃ u v, w = u ++ v ∧
      Reads (Nfa.ofArcs body.1) next u (next + 1) ∧
      Row again (fun u => Reads (Nfa.ofArcs body.1) next u (next + 1)) v := by
  have hin : ∀ {e}, e ∈ arcs → e ∈ (Nfa.ofArcs arcs).arcs := fun he => he
  constructor
  · intro r
    rcases reads_iff_head.mp r with ⟨-, e⟩ | ⟨e, he, hs, v, rfl, hv⟩
    · exact absurd e.symm hst.ne
    · rcases h.of_source_left hb hst he hs with ⟨hk, rfl⟩ | rfl
      · exact .inl ⟨hk, (hv.eq_of_sink (h.sink hb hst)).1⟩
      · exact .inr (row_of_reads h hb hst hv (Nat.le_refl _))
  · intro h'
    rcases h' with ⟨hk, rfl⟩ | ⟨u, v, rfl, hu, hv⟩
    · exact .of_arc (hin ((h (.empty s t)).mpr (.inl ⟨hk, rfl⟩)))
    · have hbody : ∀ {u}, Reads (Nfa.ofArcs body.1) next u (next + 1) →
          Reads (Nfa.ofArcs arcs) next u (next + 1) :=
        fun r => r.mono fun e he => (h e).mpr (.inr (.inr (.inl he)))
      have henter : Reads (Nfa.ofArcs arcs) s.id [] next :=
        .of_arc (hin ((h (.empty s (.plain next))).mpr (.inr (.inl rfl))))
      refine henter.append ((hbody hu).append ?_)
      induction hv with
      | nil =>
          exact .of_arc (hin ((h (.empty (.plain (next + 1)) t)).mpr (.inr (.inr (.inr (.inl rfl))))))
      | cons hk hu _ ih =>
          have hback : Reads (Nfa.ofArcs arcs) (next + 1) [] next :=
            .of_arc (hin ((h (loop next)).mpr (.inr (.inr (.inr (.inr ⟨hk, rfl⟩))))))
          exact hback.append ((hbody hu).append ih)

end Wrapped

end Fragment

end LexicalAutomata
