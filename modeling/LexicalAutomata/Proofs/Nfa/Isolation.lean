/-
# `LexicalAutomata.Proofs.Nfa.Isolation` — a fragment touches an automaton in two states alone

Wherever a fragment is put, also where it leads back to the state that it comes from, it numbers
`Expr.budget` states and joins only these, its first state and its last (`laid_fragment`).  One of its
arcs can be there already: the empty move from the first state to the last, which it has if nothing is
wrapped or put in between (`Expr.Direct`, `mem_issued_iff`).  If that move is there, the fragment cannot
be added; if not, the automaton keeps its arcs, and no new one enters the first state or leaves the last
(`addFragment_isolated`).
-/
import Mathlib.Algebra.GroupWithZero.Nat
import LexicalAutomata.Proofs.Automaton.Built
import LexicalAutomata.Proofs.Nfa.Construction
import LexicalAutomata.Proofs.Nfa.Elimination

namespace LexicalAutomata

namespace Expr

/-- How many states the fragment of an expression takes, besides the two that it runs between. -/
def budget : Expr → Nat
  | .literal text => text.length + 1
  | .sequence items => (items.length - 1) + (items.map budget).sum
  | .alternation choices => (choices.map fun e => 2 + budget e).sum
  | .optional body => 2 + budget body
  | .zeroOrMore body => 2 + budget body
  | .oneOrMore body => 2 + budget body

/-- The fragment begins with an empty move from its first state to its last. -/
inductive Direct : Expr → Prop
  | optional (e : Expr) : Direct (.optional e)
  | zeroOrMore (e : Expr) : Direct (.zeroOrMore e)
  | emptySequence : Direct (.sequence [])
  | sequence {e : Expr} : Direct e → Direct (.sequence [e])

end Expr

namespace Fragment

open Automaton

variable {s m t : State} {next lo size : Nat} {f g : Fragment} {arcs : List Arc}

/-! ## Fragments between any two states -/

theorem plain_lt (i : Nat) : (State.plain i).id < i + 1 := Nat.lt_succ_self i

/-- The arcs run from `s` to `t` over `size` fresh states, and none occurs twice. -/
structure Laid (size : Nat) (s t : State) (next : Nat) (f : Fragment) : Prop where
  issued : f.2 = next + size
  spans : Spans s t next f
  nodup : f.1.Nodup

theorem laid_one (s : State) (x : Symbol) (t : State) (next : Nat) :
    Laid 0 s t next ([⟨s, x, t⟩], next) :=
  ⟨rfl, spans_one s x t next, List.pairwise_singleton _ _⟩

theorem laid_none (s t : State) (next : Nat) : Laid 0 s t next ([], next) :=
  ⟨rfl, ⟨Nat.le_refl _, fun _ h => (by cases h), fun _ h => (by cases h)⟩, .nil⟩

/-- In series through a fresh state, which also keeps the two parts from sharing an arc. -/
theorem Laid.serial {size' : Nat} (hf : Laid size s (.plain next) (next + 1) f)
    (hg : Laid size' (.plain next) t f.2 g) (hs : s.id < next) :
    Laid (1 + size + size') s t next (f.1 ++ g.1, g.2) where
  issued := by
    have := hf.issued
    have : g.2 = f.2 + size' := hg.issued
    show g.2 = next + (1 + size + size')
    omega
  spans := hf.spans.serial hg.spans (State.fresh_plain (Nat.le_refl _) (Nat.lt_succ_self _))
  nodup := nodup_serial hf.spans hg.spans
    ⟨Nat.lt_succ_of_lt hs, Nat.lt_succ_self _, Nat.ne_of_lt hs⟩ hf.nodup hg.nodup

theorem Laid.of_eq {size' : Nat} (h : Laid size s t next f) (e : size = size') :
    Laid size' s t next f := e ▸ h

/-- Side by side; one of the two must have no arc from `s` to `t`. -/
theorem Laid.parallel {size' : Nat} (hf : Laid size s t next f) (hg : Laid size' s t f.2 g)
    (hs : s.id < next) (ht : t.id < next)
    (inner : ∀ e ∈ f.1, next ≤ e.source.id ∨ next ≤ e.target.id) :
    Laid (size + size') s t next (f.1 ++ g.1, g.2) where
  issued := by
    have : g.2 = f.2 + size' := hg.issued
    rw [this, hf.issued, Nat.add_assoc]
  spans := hf.spans.parallel hg.spans
  nodup := nodup_parallel hf.spans hg.spans hs ht inner hf.nodup hg.nodup

theorem Wraps.laid {skip again : Prop} {body : Fragment}
    (h : Wraps skip again s t next body.1 arcs)
    (hb : Laid size (.plain next) (.plain (next + 1)) (next + 2) body) (nodup : arcs.Nodup) :
    Laid (2 + size) s t next (arcs, body.2) where
  issued := by
    rw [hb.issued, Nat.add_assoc]
  spans := h.spans hb.spans
  nodup := nodup

theorem laid_wrap {inner : State → State → Nat → Fragment}
    (hb : Laid size (.plain next) (.plain (next + 1)) (next + 2)
      (inner (.plain next) (.plain (next + 1)) (next + 2))) (hs : s.id < next) :
    Laid (2 + size) s t next (wrap inner s t next) :=
  (wraps_wrap inner s t next).laid hb (nodup_wrap hb.spans hs hb.nodup)

theorem laid_spell (cs : List Char) (hs : s.id < next) :
    Laid cs.length s t next (spell s t cs next) := by
  induction cs generalizing s next with
  | nil => exact laid_one s .epsilon t next
  | cons c cs ih =>
      exact ((laid_one s (.char c) (.plain next) (next + 1)).serial (ih (Nat.lt_succ_self _)) hs).of_eq
        (Nat.add_comm 1 cs.length)

mutual

/-- The fragment of an expression takes as many states as its budget says. -/
theorem laid_fragment : ∀ (e : Expr) {s t : State} {next : Nat}, s.id < next → t.id < next →
    Laid e.budget s t next (e.fragment s t next)
  | .literal text, s, t, next, hs, _ => by
      refine ((laid_one s .epsilon (.plain next) (next + 1)).serial
        (laid_spell text.toList (Nat.lt_succ_self next)) hs).of_eq ?_
      rw [String.length_toList, Nat.add_comm, Expr.budget]
  | .sequence es, _, _, _, hs, ht => (laid_inTurn es hs ht).of_eq (by rw [Expr.budget])
  | .alternation es, _, _, _, hs, ht => (laid_ofEach es hs ht).of_eq (by rw [Expr.budget])
  | .optional e, s, t, next, hs, ht => by
      have hb := laid_fragment e (Apart.wrapped next).left (Apart.wrapped next).right
      have hw := wraps_wrap e.fragment s t next
      rw [Expr.budget]
      exact hw.skipping.laid hb
        (hw.nodup_skipping hb.spans hs ht (nodup_wrap hb.spans hs hb.nodup))
  | .zeroOrMore e, s, t, next, hs, ht => by
      have hb := laid_fragment e (Apart.wrapped next).left (Apart.wrapped next).right
      have hw := wraps_wrap e.fragment s t next
      rw [Expr.budget]
      exact hw.skipping.repeating.laid hb (hw.skipping.nodup_repeating hb.spans hs ht
        (hw.nodup_skipping hb.spans hs ht (nodup_wrap hb.spans hs hb.nodup)))
  | .oneOrMore e, s, t, next, hs, ht => by
      have hb := laid_fragment e (Apart.wrapped next).left (Apart.wrapped next).right
      have hw := wraps_wrap e.fragment s t next
      rw [Expr.budget]
      exact hw.repeating.laid hb (hw.nodup_repeating hb.spans hs ht (nodup_wrap hb.spans hs hb.nodup))

theorem laid_inTurn : ∀ (es : List Expr) {s t : State} {next : Nat}, s.id < next → t.id < next →
    Laid ((es.length - 1) + (es.map Expr.budget).sum) s t next (Expr.fragmentInTurn es s t next)
  | [], s, t, next, _, _ => laid_one s .epsilon t next
  | [e], _, _, _, hs, ht => (laid_fragment e hs ht).of_eq (Nat.zero_add _).symm
  | e :: e' :: es, s, t, next, hs, ht => by
      have hf := laid_fragment e (Nat.lt_succ_of_lt hs) (plain_lt next)
      have hg := laid_inTurn (e' :: es) (Nat.lt_of_lt_of_le (plain_lt next) hf.spans.next_le)
        (Nat.lt_of_lt_of_le (Nat.lt_succ_of_lt ht) hf.spans.next_le)
      refine (hf.serial hg hs).of_eq ?_
      simp only [List.length_cons, List.map_cons, List.sum_cons]
      omega

theorem laid_ofEach : ∀ (es : List Expr) {s t : State} {next : Nat}, s.id < next → t.id < next →
    Laid (es.map fun e => 2 + e.budget).sum s t next (Expr.fragmentOfEach es s t next)
  | [], s, t, next, _, _ => laid_none s t next
  | e :: es, s, t, next, hs, ht => by
      have hb := laid_fragment e (Apart.wrapped next).left (Apart.wrapped next).right
      have hf : Laid (2 + e.budget) s t next (wrap e.fragment s t next) := laid_wrap hb hs
      have hg := laid_ofEach es (Nat.lt_of_lt_of_le hs hf.spans.next_le)
        (Nat.lt_of_lt_of_le ht hf.spans.next_le)
      exact hf.parallel hg hs ht ((wraps_wrap e.fragment s t next).fresh_end hb.spans)

end

/-! ## The one arc that can be there already -/

theorem not_issued_of_inner {a : Arc} (inner : ∀ e ∈ arcs, next ≤ e.source.id ∨ next ≤ e.target.id) :
    ¬ (a ∈ arcs ∧ a.source.id < next ∧ a.target.id < next) := by
  intro h
  obtain ⟨ha, hs, ht⟩ := h
  have := inner a ha
  omega

theorem inner_serial (hf : Spans s (.plain next) (next + 1) f) (hg : Spans (.plain next) t f.2 g) :
    ∀ e ∈ f.1 ++ g.1, next ≤ e.source.id ∨ next ≤ e.target.id := by
  have := hf.next_le
  intro e he
  rcases List.mem_append.mp he with he | he
  · have : e.target.id = next ∨ _ := hf.target_id he
    omega
  · have : e.source.id = next ∨ _ := hg.source_id he
    omega

theorem inner_ofEach (es : List Expr) (hs : s.id < next) (ht : t.id < next) :
    ∀ e ∈ (Expr.fragmentOfEach es s t next).1, next ≤ e.source.id ∨ next ≤ e.target.id := by
  induction es generalizing next with
  | nil =>
      intro e he
      cases he
  | cons x es ih =>
      have hb := laid_fragment x (Apart.wrapped next).left (Apart.wrapped next).right
      have hle : next ≤ (wrap x.fragment s t next).2 :=
        (laid_wrap (s := s) (t := t) hb hs).spans.next_le
      intro e he
      rcases List.mem_append.mp he with he | he
      · exact (wraps_wrap x.fragment s t next).fresh_end hb.spans e he
      · exact (ih (Nat.lt_of_lt_of_le hs hle) (Nat.lt_of_lt_of_le ht hle) e he).imp
          (Nat.le_trans hle) (Nat.le_trans hle)

theorem mem_issued_cons (hs : s.id < next) (ht : t.id < next) {a : Arc}
    (inner : ∀ e ∈ arcs, next ≤ e.source.id ∨ next ≤ e.target.id) :
    a ∈ .empty s t :: arcs ∧ a.source.id < next ∧ a.target.id < next ↔ a = .empty s t := by
  constructor
  · intro h
    obtain ⟨ha, h⟩ := h
    rcases List.mem_cons.mp ha with e | ha
    · exact e
    · exact absurd ⟨ha, h⟩ (not_issued_of_inner inner)
  · rintro rfl
    exact ⟨List.mem_cons_self, hs, ht⟩

/-- Between two states that were issued before runs one arc of the fragment, or none. -/
theorem mem_issued_iff {a : Arc} : ∀ (e : Expr) {s t : State} {next : Nat}, s.id < next → t.id < next →
    (a ∈ (e.fragment s t next).1 ∧ a.source.id < next ∧ a.target.id < next ↔
      e.Direct ∧ a = .empty s t)
  | .literal text, s, t, next, hs, _ => by
      have hf := laid_one s .epsilon (.plain next) (next + 1)
      have hg : Laid _ (.plain next) t _ _ := laid_spell text.toList (Nat.lt_succ_self next)
      refine iff_of_false (not_issued_of_inner (inner_serial hf.spans hg.spans)) ?_
      rintro ⟨h, -⟩
      cases h
  | .sequence [], s, t, next, hs, ht =>
      (mem_issued_cons hs ht fun _ h => (by cases h)).trans (and_iff_right .emptySequence).symm
  | .sequence [e], s, t, next, hs, ht => by
      refine (mem_issued_iff e hs ht).trans (and_congr_left' ⟨.sequence, fun h => ?_⟩)
      cases h with
      | sequence h => exact h
  | .sequence (e :: e' :: es), s, t, next, hs, ht => by
      have hf := laid_fragment e (Nat.lt_succ_of_lt hs) (plain_lt next)
      have hg := laid_inTurn (e' :: es) (Nat.lt_of_lt_of_le (plain_lt next) hf.spans.next_le)
        (Nat.lt_of_lt_of_le (Nat.lt_succ_of_lt ht) hf.spans.next_le)
      refine iff_of_false (not_issued_of_inner (inner_serial hf.spans hg.spans)) ?_
      rintro ⟨h, -⟩
      cases h
  | .alternation es, s, t, next, hs, ht => by
      refine iff_of_false (not_issued_of_inner (inner_ofEach es hs ht)) ?_
      rintro ⟨h, -⟩
      cases h
  | .optional e, s, t, next, hs, ht => by
      have hb := laid_fragment e (Apart.wrapped next).left (Apart.wrapped next).right
      exact (mem_issued_cons hs ht ((wraps_wrap e.fragment s t next).fresh_end hb.spans)).trans
        (and_iff_right (.optional e)).symm
  | .zeroOrMore e, s, t, next, hs, ht => by
      have hb := laid_fragment e (Apart.wrapped next).left (Apart.wrapped next).right
      exact (mem_issued_cons hs ht
        ((wraps_wrap e.fragment s t next).repeating.fresh_end hb.spans)).trans
        (and_iff_right (.zeroOrMore e)).symm
  | .oneOrMore e, s, t, next, hs, ht => by
      have hb := laid_fragment e (Apart.wrapped next).left (Apart.wrapped next).right
      refine iff_of_false (not_issued_of_inner
        ((wraps_wrap e.fragment s t next).repeating.fresh_end hb.spans)) ?_
      rintro ⟨h, -⟩
      cases h

end Fragment

namespace Nfa

open Automaton Fragment

variable {tags : Tags} {n m : Nfa}

/-- The automaton `n` became `m` by arcs that meet it in `s`, which they leave, and `t`, which they
enter; their other states are numbered from `lo` on and below `hi`. -/
structure Isolated (n m : Nfa) (s t : State) (lo hi : Nat) : Prop where
  kept : ∀ e ∈ n.arcs, e ∈ m.arcs
  source : ∀ e ∈ m.arcs, e ∉ n.arcs → e.source = s ∨ e.source.Fresh lo hi
  target : ∀ e ∈ m.arcs, e ∉ n.arcs → e.target = t ∨ e.target.Fresh lo hi
  apart : s ≠ t → ∀ e ∈ m.arcs, e ∉ n.arcs → e.target ≠ s ∧ e.source ≠ t

theorem isolated_of_extended {s t : State} {next : Nat} {f : Fragment}
    (h : Extended tags n [] f.1 m) (hf : Spans s t next f) (hs : s.id < next) (ht : t.id < next) :
    Isolated n m s t next f.2 := by
  have added : ∀ e ∈ m.arcs, e ∉ n.arcs → e ∈ f.1 := fun e he hn =>
    ((h.mem_arcs e).mp he).resolve_left hn
  refine ⟨fun e he => (h.mem_arcs e).mpr (.inl he), fun e he hn => hf.source e (added e he hn),
    fun e he hn => hf.target e (added e he hn), ?_⟩
  intro hst e he hn
  constructor
  · rintro rfl
    exact (hf.target e (added e he hn)).elim hst fun h => Nat.not_lt_of_le h.2.1 hs
  · rintro rfl
    exact (hf.source e (added e he hn)).elim (fun h => hst h.symm) fun h => Nat.not_lt_of_le h.2.1 ht

/-- The ends of the arcs have the tags given so far, or none, whatever the supply gives to later states. -/
theorem of_goOn_ends {s t : State} {next : Nat} {f : Fragment} (hf : Spans s t next f) (hs : s.Of tags)
    (ht : t.Of tags) (hs' : s.id < next) (ht' : t.id < next) :
    ∀ a ∈ f.1, a.source.Of (tags.goOn next fun _ => none) ∧
      a.target.Of (tags.goOn next fun _ => none) := by
  have hfresh : ∀ {u : State}, u.Fresh next f.2 → u.Of (tags.goOn next fun _ => none) := by
    intro u h
    have hplain : u.Of fun _ => none := h.1
    exact hplain.goOn_of_le h.2.1 tags
  intro a ha
  constructor
  · rcases hf.source a ha with h | h
    · exact h ▸ hs.goOn_of_lt hs' _
    · exact hfresh h
  · rcases hf.target a ha with h | h
    · exact h ▸ ht.goOn_of_lt ht' _
    · exact hfresh h

theorem run_addFragment_error {e : Expr} {s t : State} {σ : Session} {err : Error}
    (h : n.addNewArcs (e.fragment s t σ.supply.issued).1 = .error err) :
    (n.addFragment e s t).run σ = (.error err, σ.issue (e.fragment s t σ.supply.issued).2) := by
  rw [addFragment, Stage.run_bind_ok Stage.run_issued, Stage.run_bind_ok (Stage.run_setIssued _), h]
  rfl

/-- A fragment cannot be put between two states exactly if its first arc leads from one to the other
and is there already.  Otherwise it takes as many states as its budget says, and is isolated. -/
theorem addFragment_isolated (tags : Tags) (n : Nfa) (hb : n.Built tags) (σ : Session)
    (hn : ∀ s ∈ n.states, s.id < σ.supply.issued) (e : Expr) (i j : Nat)
    (hi : i < σ.supply.issued) (hj : j < σ.supply.issued) :
    let s := State.ofTags tags i
    let t := State.ofTags tags j
    ((∃ τ, (n.addFragment e s t).run σ = (.error (.defect (.repeatedArc (.empty s t))), τ)) ↔
      n.hasArc s .epsilon t ∧ e.Direct) ∧
    (¬ (n.hasArc s .epsilon t ∧ e.Direct) →
      ∃ m, (n.addFragment e s t).run σ = (.ok m, σ.issue (σ.supply.issued + e.budget)) ∧
        Isolated n m s t σ.supply.issued (σ.supply.issued + e.budget)) := by
  intro s t
  have hw := hb.wellFormed
  have hw' : n.WellFormed (tags.goOn σ.supply.issued fun _ => none) :=
    hw.retag fun u hu => (hw.of_mem hu).goOn_of_lt (hn u hu) _
  have hl := laid_fragment e (s := s) (t := t) hi hj
  have hs : s.Of tags := rfl
  have ht : t.Of tags := rfl
  have hends := of_goOn_ends hl.spans hs ht hi hj
  have hsource := fun a ha => (hends a ha).1
  have htarget := fun a ha => (hends a ha).2
  -- An arc of the fragment that is there already runs between two states that were issued.
  have hthere : ∀ a ∈ (e.fragment s t σ.supply.issued).1, a ∈ n.arcs → e.Direct ∧ a = .empty s t :=
    fun a ha hmem => (mem_issued_iff e hi hj).mp
      ⟨ha, hn _ (hw.source_mem a hmem), hn _ (hw.target_mem a hmem)⟩
  have hhas : n.hasArc s .epsilon t ↔ Arc.empty s t ∈ n.arcs :=
    hasArc_iff_mem hw (e := .empty s t) rfl rfl
  have hok : ¬ (n.hasArc s .epsilon t ∧ e.Direct) →
      ∃ m, (n.addFragment e s t).run σ = (.ok m, σ.issue (σ.supply.issued + e.budget)) ∧
        Isolated n m s t σ.supply.issued (σ.supply.issued + e.budget) := by
    intro hno
    have hnew : ∀ a ∈ (e.fragment s t σ.supply.issued).1, a ∉ n.arcs := by
      intro a ha hmem
      obtain ⟨hd, rfl⟩ := hthere a ha hmem
      exact hno ⟨hhas.mpr hmem, hd⟩
    obtain ⟨m, hm, hext⟩ := addNewArcs_ok hw' hl.nodup hnew hsource htarget
    rw [← hl.issued]
    exact ⟨m, run_addFragment hm, isolated_of_extended hext hl.spans hi hj⟩
  refine ⟨⟨fun herror => ?_, fun hyes => ?_⟩, hok⟩
  · obtain ⟨τ, hrun⟩ := herror
    by_contra hno
    obtain ⟨m, hrun', -⟩ := hok hno
    cases hrun'.symm.trans hrun
  · obtain ⟨h, hd⟩ := hyes
    have hfirst : Arc.empty s t ∈ (e.fragment s t σ.supply.issued).1 :=
      ((mem_issued_iff e hi hj).mpr ⟨hd, rfl⟩).1
    exact ⟨_, run_addFragment_error (addNewArcs_eq_error hw' hl.nodup hsource htarget hfirst
      (hhas.mp h) fun a ha hmem => (hthere a ha hmem).2)⟩

theorem addFragment_isolated_circling :
    (∃ τ, (circling.addFragment (.sequence [.optional (.literal "a")]) (.ofTags circlingTags 0)
        (.ofTags circlingTags 1)).run ⟨⟨4⟩, []⟩ =
      (.error (.defect (.repeatedArc (.empty (.ofTags circlingTags 0) (.ofTags circlingTags 1)))), τ)) ∧
    ∃ m, (circling.addFragment (.oneOrMore (.literal "a")) (.ofTags circlingTags 1)
        (.ofTags circlingTags 1)).run ⟨⟨4⟩, []⟩ = (.ok m, ⟨⟨8⟩, []⟩) ∧
      Isolated circling m (.ofTags circlingTags 1) (.ofTags circlingTags 1) 4 8 := by
  have hissued : ∀ s ∈ circling.states, s.id < 4 := by decide
  constructor
  · exact (addFragment_isolated circlingTags circling built_circling ⟨⟨4⟩, []⟩ hissued _ 0 1
      (by decide) (by decide)).1.mpr ⟨by decide, .sequence (.optional _)⟩
  · have hbudget : Expr.budget (.oneOrMore (.literal "a")) = 4 := by
      rw [Expr.budget, Expr.budget]
      rfl
    have h := (addFragment_isolated circlingTags circling built_circling ⟨⟨4⟩, []⟩ hissued
      (.oneOrMore (.literal "a")) 1 1 (by decide) (by decide)).2 fun h => nomatch h.2
    rwa [hbudget] at h

end Nfa

end LexicalAutomata
