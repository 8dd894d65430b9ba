/-
# `LexicalAutomata.Proofs.Nfa.Spelling` — a fragment spells exactly the words of its expression

A fragment `Spells` a language if its paths from `s` to `t` spell the words of that language and no
others, no arc occurs in it twice, and a condition decides between two cases: either every arc lies on
a path from `s` to `t` (`Live`), or `t` cannot be reached, or some fresh state that has an arc cannot
(`Blocked`).  For the fragment of an expression, the condition is that the expression is productive.

Side by side, a branch without words does not show at `t` any more.  It shows inside: a wrapped part
that cannot be passed strands the state behind it, and that state stays out of reach whatever the
fragment is put into.

Main statement: the fragment of an expression spells its language (`spells_fragment`).
-/
import LexicalAutomata.Proofs.Expr.Language
import LexicalAutomata.Proofs.Nfa.Fragment

namespace LexicalAutomata.Fragment

open Automaton

/-! ## Where every state lies on a path -/

/-- Every arc lies on a path from `s` to `t`, and there is one. -/
structure Live (arcs : List Arc) (s t : State) : Prop where
  through : Connects (Nfa.ofArcs arcs) s.id t.id
  reached : ∀ e ∈ arcs, Connects (Nfa.ofArcs arcs) s.id e.source.id
  leads : ∀ e ∈ arcs, Connects (Nfa.ofArcs arcs) e.target.id t.id

theorem live_one (s : State) (x : Symbol) (t : State) : Live [⟨s, x, t⟩] s t := by
  have hin : (⟨s, x, t⟩ : Arc) ∈ (Nfa.ofArcs [⟨s, x, t⟩]).arcs := List.mem_singleton.mpr rfl
  refine ⟨Connects.of_arc hin, ?_, ?_⟩
  · intro e he
    rw [List.mem_singleton.mp he]
    exact .refl _
  · intro e he
    rw [List.mem_singleton.mp he]
    exact .refl _

theorem Live.serial {s m t : State} {xs ys : List Arc} (hx : Live xs s m) (hy : Live ys m t) :
    Live (xs ++ ys) s t := by
  have left : ∀ {i j}, Connects (Nfa.ofArcs xs) i j → Connects (Nfa.ofArcs (xs ++ ys)) i j :=
    fun r => r.mono fun e he => List.mem_append_left _ he
  have right : ∀ {i j}, Connects (Nfa.ofArcs ys) i j → Connects (Nfa.ofArcs (xs ++ ys)) i j :=
    fun r => r.mono fun e he => List.mem_append_right _ he
  refine ⟨(left hx.through).trans (right hy.through), ?_, ?_⟩
  · intro e he
    rcases List.mem_append.mp he with he | he
    · exact left (hx.reached e he)
    · exact (left hx.through).trans (right (hy.reached e he))
  · intro e he
    rcases List.mem_append.mp he with he | he
    · exact (left (hx.leads e he)).trans (right hy.through)
    · exact right (hy.leads e he)

theorem Live.parallel {s t : State} {xs ys : List Arc} (hx : Live xs s t) (hy : Live ys s t) :
    Live (xs ++ ys) s t := by
  have left : ∀ {i j}, Connects (Nfa.ofArcs xs) i j → Connects (Nfa.ofArcs (xs ++ ys)) i j :=
    fun r => r.mono fun e he => List.mem_append_left _ he
  have right : ∀ {i j}, Connects (Nfa.ofArcs ys) i j → Connects (Nfa.ofArcs (xs ++ ys)) i j :=
    fun r => r.mono fun e he => List.mem_append_right _ he
  refine ⟨left hx.through, ?_, ?_⟩
  · intro e he
    rcases List.mem_append.mp he with he | he
    · exact left (hx.reached e he)
    · exact right (hy.reached e he)
  · intro e he
    rcases List.mem_append.mp he with he | he
    · exact left (hx.leads e he)
    · exact right (hy.leads e he)

theorem Wraps.live {skip again : Prop} {s t : State} {next : Nat} {body arcs : List Arc}
    (h : Wraps skip again s t next body arcs)
    (hb : Live body (.plain next) (.plain (next + 1))) : Live arcs s t := by
  have inside : ∀ {i j}, Connects (Nfa.ofArcs body) i j → Connects (Nfa.ofArcs arcs) i j :=
    fun r => r.mono fun e he => (h e).mpr (.inr (.inr (.inl he)))
  have enter : Connects (Nfa.ofArcs arcs) s.id next :=
    Connects.of_arc (a := Nfa.ofArcs arcs) ((h (.empty s (.plain next))).mpr (.inr (.inl rfl)))
  have leave : Connects (Nfa.ofArcs arcs) (next + 1) t.id :=
    Connects.of_arc (a := Nfa.ofArcs arcs)
      ((h (.empty (.plain (next + 1)) t)).mpr (.inr (.inr (.inr (.inl rfl)))))
  have across : Connects (Nfa.ofArcs arcs) next (next + 1) := inside hb.through
  refine ⟨enter.trans (across.trans leave), ?_, ?_⟩
  · intro e he
    rcases (h e).mp he with ⟨-, rfl⟩ | rfl | he | rfl | ⟨-, rfl⟩
    · exact .refl _
    · exact .refl _
    · exact enter.trans (inside (hb.reached e he))
    · exact enter.trans across
    · exact enter.trans across
  · intro e he
    rcases (h e).mp he with ⟨-, rfl⟩ | rfl | he | rfl | ⟨-, rfl⟩
    · exact .refl _
    · exact across.trans leave
    · exact (inside (hb.leads e he)).trans leave
    · exact .refl _
    · exact across.trans leave

/-! ## Where one does not -/

/-- Some fresh state that has an arc cannot be reached from `s`. -/
def Stranded (arcs : List Arc) (s : State) (next : Nat) : Prop :=
  ∃ e ∈ arcs, next ≤ e.source.id ∧ ¬ Connects (Nfa.ofArcs arcs) s.id e.source.id

/-- Either `t` cannot be reached, or some fresh state that has an arc. -/
def Blocked (arcs : List Arc) (s t : State) (next : Nat) : Prop :=
  ¬ Connects (Nfa.ofArcs arcs) s.id t.id ∨ Stranded arcs s next

section Composed
variable {s m t : State} {next lo : Nat} {f g : Fragment}

theorem Blocked.serial_left (hf : Spans s m lo f) (hg : Spans m t f.2 g) (hsm : Apart s m lo)
    (hmt : Apart m t lo) (hst : s.id ≠ t.id) (hlo : next ≤ lo) (h : Blocked f.1 s m lo) :
    Blocked (f.1 ++ g.1) s t next := by
  have hle := hf.next_le
  have := hmt.left
  have := hmt.right
  have := hsm.left
  rcases h with h | ⟨e, he, hs, hn⟩
  · left
    intro h'
    obtain ⟨w, r⟩ := h'
    obtain ⟨u, v, -, hu, -⟩ := (reads_serial hf hg hsm hmt hst).mp r
    exact h ⟨u, hu⟩
  · right
    refine ⟨e, List.mem_append_left _ he, Nat.le_trans hlo hs, ?_⟩
    intro h'
    obtain ⟨w, r⟩ := h'
    rcases reads_serial_from hf hg hsm hmt hst r with ⟨-, r⟩ | ⟨u, v, -, -, hj, -⟩
    · exact hn ⟨w, r⟩
    · have := hf.source_id he
      omega

theorem Blocked.serial_right (hf : Spans s m lo f) (hg : Spans m t f.2 g) (hsm : Apart s m lo)
    (hmt : Apart m t lo) (hst : s.id ≠ t.id) (hlo : next ≤ lo) (h : Blocked g.1 m t f.2) :
    Blocked (f.1 ++ g.1) s t next := by
  have hle := hf.next_le
  have := hsm.left
  rcases h with h | ⟨e, he, hs, hn⟩
  · left
    intro h'
    obtain ⟨w, r⟩ := h'
    obtain ⟨u, v, -, -, hv⟩ := (reads_serial hf hg hsm hmt hst).mp r
    exact h ⟨v, hv⟩
  · right
    refine ⟨e, List.mem_append_right _ he, by omega, ?_⟩
    intro h'
    obtain ⟨w, r⟩ := h'
    rcases reads_serial_from hf hg hsm hmt hst r with ⟨hj, -⟩ | ⟨u, v, -, -, -, hv⟩
    · omega
    · exact hn ⟨v, hv⟩

theorem Stranded.parallel_left (hf : Spans s t lo f) (hg : Spans s t f.2 g) (hst : Apart s t lo)
    (h : Stranded f.1 s lo) : Stranded (f.1 ++ g.1) s lo := by
  have := hst.left
  have := hst.right
  obtain ⟨e, he, hs, hn⟩ := h
  refine ⟨e, List.mem_append_left _ he, hs, ?_⟩
  intro h'
  obtain ⟨w, r⟩ := h'
  rcases reads_parallel_from hf hg hst r with ⟨-, hj⟩ | ⟨-, r⟩ | ⟨hj, -⟩
  · omega
  · exact hn ⟨w, r⟩
  · have := hf.source_id he
    omega

theorem Stranded.parallel_right (hf : Spans s t lo f) (hg : Spans s t f.2 g) (hst : Apart s t lo)
    (h : Stranded g.1 s f.2) : Stranded (f.1 ++ g.1) s lo := by
  have hle := hf.next_le
  have := hst.left
  have := hst.right
  obtain ⟨e, he, hs, hn⟩ := h
  refine ⟨e, List.mem_append_right _ he, Nat.le_trans hle hs, ?_⟩
  intro h'
  obtain ⟨w, r⟩ := h'
  rcases reads_parallel_from hf hg hst r with ⟨-, hj⟩ | ⟨hj, -⟩ | ⟨-, r⟩
  · omega
  · omega
  · exact hn ⟨w, r⟩

/-- The way past the body and the way back lead to no state of the body that it does not reach by
itself; so a wrapped part without words strands the state behind it. -/
theorem Wraps.stranded {skip again : Prop} {body : Fragment} {arcs : List Arc}
    (h : Wraps skip again s t next body.1 arcs)
    (hb : Spans (.plain next) (.plain (next + 1)) (next + 2) body) (hst : Apart s t next)
    (hn : Blocked body.1 (.plain next) (.plain (next + 1)) (next + 2)) : Stranded arcs s next := by
  have := hst.left
  have := hst.right
  have closed : ∀ e ∈ (Nfa.ofArcs arcs).arcs,
      (e.source.id = s.id ∨ e.source.id = t.id ∨ Connects (Nfa.ofArcs body.1) next e.source.id) →
        e ∈ (Nfa.ofArcs arcs).arcs ∧
          (e.target.id = s.id ∨ e.target.id = t.id ∨
            Connects (Nfa.ofArcs body.1) next e.target.id) := by
    intro e he hs
    refine ⟨he, ?_⟩
    rcases (h e).mp he with ⟨-, rfl⟩ | rfl | he | rfl | ⟨-, rfl⟩
    · exact .inr (.inl rfl)
    · exact .inr (.inr (.refl _))
    · have : e.source.id = next ∨ _ := hb.source_id he
      rcases hs with hs | hs | hs
      · omega
      · omega
      · exact .inr (.inr (hs.trans (.of_arc he)))
    · exact .inr (.inl rfl)
    · exact .inr (.inr (.refl _))
  have only : ∀ {i}, next ≤ i → Connects (Nfa.ofArcs arcs) s.id i →
      Connects (Nfa.ofArcs body.1) next i := by
    intro i hi r
    rcases (r.confined (P := fun i => i = s.id ∨ i = t.id ∨ Connects (Nfa.ofArcs body.1) next i)
      closed (.inl rfl)).1 with rfl | rfl | r
    · omega
    · omega
    · exact r
  rcases hn with hn | ⟨e, he, hs, hn⟩
  · refine ⟨.empty (.plain (next + 1)) t, (h _).mpr (.inr (.inr (.inr (.inl rfl)))),
      Nat.le_succ next, fun r => hn (only (Nat.le_succ next) r)⟩
  · exact ⟨e, (h e).mpr (.inr (.inr (.inl he))), by omega, fun r => hn (only (by omega) r)⟩

/-! ## No arc occurs twice -/

theorem nodup_serial (hf : Spans s m lo f) (hg : Spans m t f.2 g) (hsm : Apart s m lo)
    (nf : f.1.Nodup) (ng : g.1.Nodup) : (f.1 ++ g.1).Nodup := by
  refine List.nodup_append.mpr ⟨nf, ng, ?_⟩
  rintro e he _ he' rfl
  have := hf.source_id he
  have := hg.source_id he'
  have := hf.next_le
  have := hsm.left
  have := hsm.right
  have := hsm.ne
  omega

/-- Of two fragments side by side, one must have no arc from `s` to `t`. -/
theorem nodup_parallel (hf : Spans s t lo f) (hg : Spans s t f.2 g) (hs : s.id < lo)
    (ht : t.id < lo) (inner : ∀ e ∈ f.1, lo ≤ e.source.id ∨ lo ≤ e.target.id) (nf : f.1.Nodup)
    (ng : g.1.Nodup) : (f.1 ++ g.1).Nodup := by
  refine List.nodup_append.mpr ⟨nf, ng, ?_⟩
  rintro e he _ he' rfl
  have := inner e he
  have := hf.source_id he
  have := hf.target_id he
  have := hg.source_id he'
  have := hg.target_id he'
  have := hf.next_le
  omega

end Composed

/-! ## The wrappings that occur -/

section Wrappings
variable {again : Prop} {inner : State → State → Nat → Fragment} {s t : State} {next : Nat}
  {body : Fragment} {arcs : List Arc}

theorem wraps_wrap (inner : State → State → Nat → Fragment) (s t : State) (next : Nat) :
    Wraps False False s t next (inner (.plain next) (.plain (next + 1)) (next + 2)).1
      (wrap inner s t next).1 := by
  intro e
  simp only [wrap, List.mem_append, List.mem_cons, List.not_mem_nil, or_false, false_and, false_or,
    or_assoc]

theorem Wraps.skipping (h : Wraps False again s t next body.1 arcs) :
    Wraps True again s t next body.1 (.empty s t :: arcs) := by
  intro e
  simp only [List.mem_cons, h e, true_and, false_and, false_or]

theorem Wraps.repeating {skip : Prop} (h : Wraps skip False s t next body.1 arcs) :
    Wraps skip True s t next body.1 (arcs ++ [loop next]) := by
  intro e
  simp only [List.mem_append, List.mem_singleton, h e, true_and, false_and, or_false, or_assoc]

/-- Without a way past the body, no arc leads from `s` to `t`. -/
theorem Wraps.fresh_end (h : Wraps False again s t next body.1 arcs)
    (hb : Spans (.plain next) (.plain (next + 1)) (next + 2) body) :
    ∀ e ∈ arcs, next ≤ e.source.id ∨ next ≤ e.target.id := by
  intro e he
  rcases (h e).mp he with ⟨hf, -⟩ | rfl | he | rfl | ⟨-, rfl⟩
  · exact hf.elim
  · exact .inr (Nat.le_refl _)
  · left
    rcases hb.source_id he with hs | hs
    · exact Nat.le_of_eq hs.symm
    · omega
  · exact .inl (Nat.le_succ _)
  · exact .inl (Nat.le_succ _)

theorem Wraps.nodup_skipping (h : Wraps False again s t next body.1 arcs)
    (hb : Spans (.plain next) (.plain (next + 1)) (next + 2) body) (hs : s.id < next)
    (ht : t.id < next) (ha : arcs.Nodup) : (.empty s t :: arcs).Nodup := by
  refine List.nodup_cons.mpr ⟨fun he => ?_, ha⟩
  rcases h.fresh_end hb _ he with h | h
  · have : next ≤ s.id := h
    omega
  · have : next ≤ t.id := h
    omega

theorem Wraps.nodup_repeating {skip : Prop} (h : Wraps skip False s t next body.1 arcs)
    (hb : Spans (.plain next) (.plain (next + 1)) (next + 2) body) (hs : s.id < next)
    (ht : t.id < next) (ha : arcs.Nodup) : (arcs ++ [loop next]).Nodup := by
  refine List.nodup_append.mpr ⟨ha, List.pairwise_singleton _ _, ?_⟩
  intro e he _ he' heq
  rw [List.mem_singleton.mp he'] at heq
  subst heq
  rcases h.of_source_inside hb hs he (Nat.le_succ next) with ⟨he, -⟩ | e | ⟨hf, -⟩
  · have : next + 1 = next ∨ next + 2 ≤ next + 1 ∧ _ := hb.source_id he
    omega
  · have : next = t.id := congrArg (fun e => e.target.id) e
    omega
  · exact hf

theorem nodup_wrap (hb : Spans (.plain next) (.plain (next + 1)) (next + 2)
      (inner (.plain next) (.plain (next + 1)) (next + 2))) (hs : s.id < next)
    (nb : (inner (.plain next) (.plain (next + 1)) (next + 2)).1.Nodup) :
    (wrap inner s t next).1.Nodup := by
  refine List.nodup_append.mpr ⟨List.nodup_cons.mpr ⟨fun he => ?_, nb⟩,
    List.pairwise_singleton _ _, ?_⟩
  · have : s.id = next ∨ next + 2 ≤ s.id ∧ _ := hb.source_id he
    omega
  · rintro e he _ he' rfl
    rw [List.mem_singleton.mp he'] at he
    rcases List.mem_cons.mp he with e | he
    · have : next + 1 = s.id := congrArg (fun e => e.source.id) e
      omega
    · have : next + 1 = next ∨ next + 2 ≤ next + 1 ∧ _ := hb.source_id he
      omega

end Wrappings

theorem row_false_iff {L : List Char → Prop} {w : List Char} : Row False L w ↔ w = [] := by
  constructor
  · intro h
    cases h with
    | nil => rfl
    | cons hf => exact hf.elim
  · rintro rfl
    exact .nil

theorem row_true_iff {e : Expr} {w : List Char} :
    Row True (Expr.Lang e) w ↔ Expr.Lang (.zeroOrMore e) w := by
  constructor
  · intro h
    induction h with
    | nil => exact .stop e
    | cons _ hu _ ih => exact .again hu ih
  · intro h
    generalize he : Expr.zeroOrMore e = x at h
    induction h with
    | stop => exact .nil
    | again hu _ _ ih =>
        cases he
        exact .cons trivial hu (ih rfl)
    | _ => cases he

/-! ## Fragments of expressions -/

/-- The fragment spells the words of `L`; all of it lies on paths if `P` holds, and some state cannot
be reached if not. -/
structure Spells (L : List Char → Prop) (P : Prop) (s t : State) (next : Nat) (f : Fragment) :
    Prop where
  spans : Spans s t next f
  nodup : f.1.Nodup
  reads : ∀ w, Reads (Nfa.ofArcs f.1) s.id w t.id ↔ L w
  live : P → Live f.1 s t
  blocked : ¬ P → Blocked f.1 s t next

section Spells
variable {L M : List Char → Prop} {P Q : Prop} {s m t : State} {next lo : Nat} {f g : Fragment}

theorem Spells.congr (h : Spells L P s t next f) (hL : ∀ w, L w ↔ M w) (hP : P ↔ Q) :
    Spells M Q s t next f where
  spans := h.spans
  nodup := h.nodup
  reads w := (h.reads w).trans (hL w)
  live hq := h.live (hP.mpr hq)
  blocked hq := h.blocked (mt hP.mp hq)

theorem spells_one (x : Symbol) (h : s.id ≠ t.id) :
    Spells (fun w => w = x.toChar?.toList) True s t next ([⟨s, x, t⟩], next) where
  spans := spans_one s x t next
  nodup := List.pairwise_singleton _ _
  reads _ := reads_one h
  live _ := live_one s x t
  blocked hf := absurd trivial hf

theorem Spells.serial (hf : Spells L P s m lo f) (hg : Spells M Q m t f.2 g)
    (hm : m.Fresh next lo) (hsm : Apart s m lo) (hmt : Apart m t lo) (hst : s.id ≠ t.id) :
    Spells (fun w => ∃ u v, w = u ++ v ∧ L u ∧ M v) (P ∧ Q) s t next (f.1 ++ g.1, g.2) where
  spans := hf.spans.serial hg.spans hm
  nodup := nodup_serial hf.spans hg.spans hsm hf.nodup hg.nodup
  reads w := by
    rw [reads_serial hf.spans hg.spans hsm hmt hst]
    simp only [hf.reads, hg.reads]
  live h := (hf.live h.1).serial (hg.live h.2)
  blocked h := by
    have hlo : next ≤ lo := Nat.le_trans hm.2.1 (Nat.le_of_lt hm.2.2)
    rcases Classical.not_and_iff_not_or_not.mp h with h | h
    · exact (hf.blocked h).serial_left hf.spans hg.spans hsm hmt hst hlo
    · exact (hg.blocked h).serial_right hf.spans hg.spans hsm hmt hst hlo

theorem Wraps.spells {skip again : Prop} {body : Fragment} {arcs : List Arc}
    (h : Wraps skip again s t next body.1 arcs)
    (hb : Spells L P (.plain next) (.plain (next + 1)) (next + 2) body) (hst : Apart s t next)
    (nodup : arcs.Nodup) :
    Spells (fun w => (skip ∧ w = []) ∨ ∃ u v, w = u ++ v ∧ L u ∧ Row again L v) P s t next
      (arcs, body.2) where
  spans := h.spans hb.spans
  nodup := nodup
  reads w := by
    rw [reads_wrapped h hb.spans hst]
    have e : ∀ u, Reads (Nfa.ofArcs body.1) next u (next + 1) ↔ L u := hb.reads
    simp only [e]
  live hp := h.live (hb.live hp)
  blocked hp := .inr (h.stranded hb.spans hst (hb.blocked hp))

/-- Side by side, both stranding a state where they are not live. -/
theorem Spells.parallel (hf : Spells L P s t next f) (hg : Spells M Q s t f.2 g)
    (hst : Apart s t next) (inner : ∀ e ∈ f.1, next ≤ e.source.id ∨ next ≤ e.target.id)
    (hp : ¬ P → Stranded f.1 s next) (hq : ¬ Q → Stranded g.1 s f.2) :
    Spells (fun w => L w ∨ M w) (P ∧ Q) s t next (f.1 ++ g.1, g.2) ∧
      (¬ (P ∧ Q) → Stranded (f.1 ++ g.1) s next) := by
  have stranded : ¬ (P ∧ Q) → Stranded (f.1 ++ g.1) s next := by
    intro h
    rcases Classical.not_and_iff_not_or_not.mp h with h | h
    · exact (hp h).parallel_left hf.spans hg.spans hst
    · exact (hq h).parallel_right hf.spans hg.spans hst
  refine ⟨?_, stranded⟩
  exact {
    spans := hf.spans.parallel hg.spans
    nodup := nodup_parallel hf.spans hg.spans hst.left hst.right inner hf.nodup hg.nodup
    reads := fun w => by
      rw [reads_parallel hf.spans hg.spans hst]
      simp only [hf.reads, hg.reads]
    live := fun h => (hf.live h.1).parallel (hg.live h.2)
    blocked := fun h => .inr (stranded h) }

theorem spells_none (hst : Apart s t next) :
    Spells (Expr.Lang (.alternation [])) (Expr.Productive (.alternation [])) s t next
      ([], next) := by
  have hn : ∀ w, ¬ Reads (Nfa.ofArcs []) s.id w t.id := fun w r =>
    hst.ne (r.eq_of_sink fun _ h => by cases h).2.symm
  exact {
    spans := ⟨Nat.le_refl _, fun _ h => (by cases h), fun _ h => (by cases h)⟩
    nodup := .nil
    reads := fun w => by simp [hn w, Expr.lang_alternation]
    live := fun h => absurd rfl (Expr.productive_alternation.mp h).1
    blocked := fun _ => .inl fun ⟨w, r⟩ => hn w r }

theorem spells_spell (cs : List Char) (hst : Apart s t next) :
    Spells (fun w => w = cs) True s t next (spell s t cs next) := by
  induction cs generalizing s next with
  | nil => exact spells_one .epsilon hst.ne
  | cons c cs ih =>
      obtain ⟨hsm, hmt⟩ := hst.between
      refine ((spells_one (.char c) hsm.ne).serial (ih hmt)
        (State.fresh_plain (Nat.le_refl _) (Nat.lt_succ_self _)) hsm hmt hst.ne).congr ?_ (and_self_iff)
      intro w
      exact ⟨fun ⟨_, _, hw, hu, hv⟩ => by rw [hw, hu, hv]; rfl, fun hw => ⟨[c], cs, hw, rfl, rfl⟩⟩

theorem spells_wrap {inner : State → State → Nat → Fragment}
    (hb : Spells L P (.plain next) (.plain (next + 1)) (next + 2)
      (inner (.plain next) (.plain (next + 1)) (next + 2))) (hst : Apart s t next) :
    Spells L P s t next (wrap inner s t next) := by
  refine ((wraps_wrap inner s t next).spells hb hst
    (nodup_wrap hb.spans hst.left hb.nodup)).congr ?_ Iff.rfl
  intro w
  simp [row_false_iff]

end Spells

mutual

/-- The fragment of an expression spells its language. -/
theorem spells_fragment : ∀ (e : Expr) {s t : State} {next : Nat}, Apart s t next →
    Spells (Expr.Lang e) (Expr.Productive e) s t next (e.fragment s t next)
  | .literal text, s, t, next, hst => by
      obtain ⟨hsm, hmt⟩ := hst.between
      refine ((spells_one .epsilon hsm.ne).serial (spells_spell text.toList hmt)
        (State.fresh_plain (Nat.le_refl _) (Nat.lt_succ_self _)) hsm hmt hst.ne).congr ?_ ?_
      · intro w
        rw [Expr.lang_literal]
        exact ⟨fun ⟨_, _, hw, hu, hv⟩ => by rw [hw, hu, hv]; rfl,
          fun hw => ⟨[], w, rfl, rfl, hw⟩⟩
      · exact ⟨fun _ => Expr.productive_literal text, fun _ => ⟨trivial, trivial⟩⟩
  | .sequence es, _, _, _, hst => spells_inTurn es hst
  | .alternation es, s, t, next, hst => by
      by_cases hes : es = []
      · subst hes
        exact spells_none hst
      · exact (spells_ofEach es hes hst).1
  | .optional e, s, t, next, hst => by
      have hb := spells_fragment e (Apart.wrapped next)
      have hw := wraps_wrap e.fragment s t next
      have nodup := hw.nodup_skipping hb.spans hst.left hst.right
        (nodup_wrap hb.spans hst.left hb.nodup)
      refine (hw.skipping.spells hb hst nodup).congr ?_ Expr.productive_optional.symm
      intro w
      simp [row_false_iff, Expr.lang_optional]
  | .zeroOrMore e, s, t, next, hst => by
      have hb := spells_fragment e (Apart.wrapped next)
      have hw := wraps_wrap e.fragment s t next
      have nodup := hw.skipping.nodup_repeating hb.spans hst.left hst.right
        (hw.nodup_skipping hb.spans hst.left hst.right (nodup_wrap hb.spans hst.left hb.nodup))
      refine (hw.skipping.repeating.spells hb hst nodup).congr ?_ Expr.productive_zeroOrMore.symm
      intro w
      simp only [row_true_iff, true_and]
      exact Expr.lang_zeroOrMore.symm
  | .oneOrMore e, s, t, next, hst => by
      have hb := spells_fragment e (Apart.wrapped next)
      have hw := wraps_wrap e.fragment s t next
      have nodup := hw.nodup_repeating hb.spans hst.left hst.right
        (nodup_wrap hb.spans hst.left hb.nodup)
      refine (hw.repeating.spells hb hst nodup).congr ?_ Expr.productive_oneOrMore.symm
      intro w
      simp only [row_true_iff, false_and, false_or]
      exact Expr.lang_oneOrMore.symm

theorem spells_inTurn : ∀ (es : List Expr) {s t : State} {next : Nat}, Apart s t next →
    Spells (Expr.Lang (.sequence es)) (Expr.Productive (.sequence es)) s t next
      (Expr.fragmentInTurn es s t next)
  | [], s, t, next, hst => by
      refine (spells_one .epsilon hst.ne).congr (fun w => Expr.lang_sequence_nil.symm) ?_
      simp [Expr.productive_sequence]
  | [e], s, t, next, hst => by
      refine (spells_fragment e hst).congr (fun w => Expr.lang_sequence_singleton.symm) ?_
      simp [Expr.productive_sequence]
  | e :: e' :: es, s, t, next, hst => by
      obtain ⟨hsm, hmt⟩ := hst.between
      have hf := spells_fragment e hsm
      have hg := spells_inTurn (e' :: es) (hmt.mono hf.spans.next_le)
      refine (hf.serial hg (State.fresh_plain (Nat.le_refl _) (Nat.lt_succ_self _)) hsm hmt
        hst.ne).congr (fun w => Expr.lang_sequence_cons.symm) ?_
      simp [Expr.productive_sequence]

theorem spells_ofEach : ∀ (es : List Expr), es ≠ [] → ∀ {s t : State} {next : Nat},
    Apart s t next →
    Spells (Expr.Lang (.alternation es)) (Expr.Productive (.alternation es)) s t next
        (Expr.fragmentOfEach es s t next) ∧
      (¬ Expr.Productive (.alternation es) → Stranded (Expr.fragmentOfEach es s t next).1 s next)
  | [], hes, _, _, _, _ => absurd rfl hes
  | [e], _, s, t, next, hst => by
      have hb := spells_fragment e (Apart.wrapped next)
      have hP : Expr.Productive e ↔ Expr.Productive (.alternation [e]) := by
        simp [Expr.productive_alternation]
      rw [show Expr.fragmentOfEach [e] s t next = wrap e.fragment s t next by
        simp [Expr.fragmentOfEach]]
      refine ⟨(spells_wrap hb hst).congr (fun w => by simp [Expr.lang_alternation]) hP, fun hn => ?_⟩
      exact (wraps_wrap e.fragment s t next).stranded hb.spans hst (hb.blocked (mt hP.mp hn))
  | e :: e' :: es, _, s, t, next, hst => by
      have hb := spells_fragment e (Apart.wrapped next)
      have hw := wraps_wrap e.fragment s t next
      have hf := spells_wrap hb hst
      have hg := spells_ofEach (e' :: es) (List.cons_ne_nil _ _) (hst.mono hf.spans.next_le)
      have hP : Expr.Productive e ∧ Expr.Productive (.alternation (e' :: es)) ↔
          Expr.Productive (.alternation (e :: e' :: es)) := by
        simp [Expr.productive_alternation]
      have h := hf.parallel hg.1 hst (hw.fresh_end hb.spans)
        (fun hn => hw.stranded hb.spans hst (hb.blocked hn)) hg.2
      exact ⟨h.1.congr (fun w => Expr.lang_alternation_cons.symm) hP, fun hn => h.2 (mt hP.mp hn)⟩

end

end LexicalAutomata.Fragment
