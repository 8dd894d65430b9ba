/-
# `LexicalAutomata.Proofs.Nfa.Construction` — productions side by side

Adding a production lets one more branch leave the start: an empty move to a fresh entry, and the
fragment of the body from there to a fresh exit.  Nothing enters the start, so a path that has chosen
a branch stays in it: it ends where it could end before, or it is a path of the new fragment
(`reads_branch`).  `Assembled` collects what follows for any number of productions, whatever their
names and ranks; a further production keeps it (`Assembled.branch`), so it holds of the whole list
(`run_ofProductions`).
-/
import LexicalAutomata.Nfa.Construction
import LexicalAutomata.Proofs.Automaton.Validity
import LexicalAutomata.Proofs.Nfa.Spelling
import LexicalAutomata.Proofs.Stage

namespace LexicalAutomata.Nfa

open Automaton Fragment

variable {tags : Tags} {n m : Nfa} {next : Nat}

/-! ## New arcs -/

/-- Among states of one supply, an arc is there if it is one of the arcs. -/
theorem hasArc_iff_mem (h : n.WellFormed tags) {e : Arc} (hs : e.source.Of tags)
    (ht : e.target.Of tags) : n.hasArc e.source e.symbol e.target ↔ e ∈ n.arcs := by
  rw [hasArc_iff]
  constructor
  · intro h'
    obtain ⟨f, hf, hfs, hfx, hft⟩ := h'
    have es := State.Of.eq_of_id (h.tagged _ (h.source_mem f hf)) hs hfs
    have et := State.Of.eq_of_id (h.tagged _ (h.target_mem f hf)) ht hft
    have ef : f = e := by
      cases e
      cases f
      cases es
      cases hfx
      cases et
      rfl
    exact ef ▸ hf
  · exact fun he => ⟨e, he, rfl, rfl, rfl⟩

/-- Arcs that are new are added without a failure. -/
theorem addNewArcs_ok (h : n.WellFormed tags) {arcs : List Arc} (nodup : arcs.Nodup)
    (new : ∀ e ∈ arcs, e ∉ n.arcs) (hs : ∀ e ∈ arcs, e.source.Of tags)
    (ht : ∀ e ∈ arcs, e.target.Of tags) :
    ∃ m, n.addNewArcs arcs = .ok m ∧ Extended tags n [] arcs m := by
  refine foldlM_ok (I := fun done m => Extended tags n [] done m) h.extended ?_
  rintro done e rest m rfl hm
  have he : e ∈ done ++ e :: rest := List.mem_append_right _ List.mem_cons_self
  have hnew : e ∉ m.arcs := by
    intro hmem
    rcases (hm.mem_arcs e).mp hmem with hn | hd
    · exact new e he hn
    · exact (List.nodup_append.mp nodup).2.2 e hd e List.mem_cons_self rfl
  refine ⟨addArc m e.source e.symbol e.target, if_neg ?_, hm.addArc (hs e he) (ht e he)⟩
  exact mt (hasArc_iff_mem hm.wellFormed (hs e he) (ht e he)).mp hnew

/-- One arc that is there already is found, wherever it stands among new ones. -/
theorem addNewArcs_eq_error (h : n.WellFormed tags) {arcs : List Arc} {a : Arc} (nodup : arcs.Nodup)
    (hs : ∀ e ∈ arcs, e.source.Of tags) (ht : ∀ e ∈ arcs, e.target.Of tags) (ha : a ∈ arcs)
    (hn : a ∈ n.arcs) (only : ∀ e ∈ arcs, e ∈ n.arcs → e = a) :
    n.addNewArcs arcs = .error (.defect (.repeatedArc a)) := by
  obtain ⟨before, after, rfl⟩ := List.append_of_mem ha
  obtain ⟨hnodup, -, hdisjoint⟩ := List.nodup_append.mp nodup
  have new : ∀ e ∈ before, e ∉ n.arcs := fun e he hmem =>
    hdisjoint e he a List.mem_cons_self (only e (List.mem_append_left _ he) hmem)
  obtain ⟨m, hm, hext⟩ := addNewArcs_ok h hnodup new
    (fun e he => hs e (List.mem_append_left _ he)) fun e he => ht e (List.mem_append_left _ he)
  have hrepeated : m.addNewArc a = .error (.defect (.repeatedArc a)) :=
    if_pos ((hasArc_iff_mem hext.wellFormed (hs a ha) (ht a ha)).mpr ((hext.mem_arcs a).mpr (.inl hn)))
  rw [addNewArcs] at hm ⊢
  rw [List.foldlM_append, hm]
  show (a :: after).foldlM addNewArc m = _
  rw [List.foldlM_cons, hrepeated]
  rfl

/-! ## One more branch -/

/-- All numbers are below `next`, and nothing enters the start. -/
structure Rooted (n : Nfa) (next : Nat) : Prop where
  wellFormed : ∃ tags, n.WellFormed tags
  below : ∀ s ∈ n.states, s.id < next
  isolated : ∀ e ∈ n.arcs, e.target.id ≠ n.start.id

/-- `m` is `n` with one more branch, which runs from `entry` to `exit`. -/
structure Branches (n : Nfa) (entry exit : State) (arcs : List Arc) (m : Nfa) : Prop where
  start : m.start = n.start
  mem_arcs : ∀ e, e ∈ m.arcs ↔ e ∈ n.arcs ∨ e = .empty n.start entry ∨ e ∈ arcs
  mem_states : ∀ s, s ∈ m.states ↔ s ∈ n.states ∨ s = entry ∨ s = exit ∨
    ∃ e ∈ arcs, s = e.source ∨ s = e.target

section Branch
variable {entry exit : State} {f : Fragment}

theorem Rooted.start_lt (h : n.Rooted next) : n.start.id < next := by
  obtain ⟨tags, hw⟩ := h.wellFormed
  exact h.below _ hw.start_mem

theorem Rooted.source_lt (h : n.Rooted next) {e : Arc} (he : e ∈ n.arcs) : e.source.id < next := by
  obtain ⟨tags, hw⟩ := h.wellFormed
  exact h.below _ (hw.source_mem e he)

theorem Rooted.target_lt (h : n.Rooted next) {e : Arc} (he : e ∈ n.arcs) : e.target.id < next := by
  obtain ⟨tags, hw⟩ := h.wellFormed
  exact h.below _ (hw.target_mem e he)

/-- A path that left the start for a state that was there stays among those. -/
theorem Branches.reads_old (h : n.Rooted next) (hm : Branches n entry exit f.1 m)
    (hentry : entry.id = next) (hf : Spans entry exit (next + 2) f) {i j : Nat} {w : List Char}
    (r : Reads m i w j) (hi : i < next) (hne : i ≠ n.start.id) : j < next ∧ Reads n i w j := by
  have hclosed : ∀ e ∈ m.arcs, (e.source.id < next ∧ e.source.id ≠ n.start.id) →
      e ∈ n.arcs ∧ (e.target.id < next ∧ e.target.id ≠ n.start.id) := by
    intro e he h'
    obtain ⟨hlt, hne⟩ := h'
    rcases (hm.mem_arcs e).mp he with he | rfl | he
    · exact ⟨he, h.target_lt he, h.isolated e he⟩
    · exact absurd rfl hne
    · have := hf.source_id he
      omega
  obtain ⟨hj, r⟩ := r.confined (P := fun i => i < next ∧ i ≠ n.start.id) hclosed ⟨hi, hne⟩
  exact ⟨hj.1, r⟩

/-- A path that has entered the branch stays in it. -/
theorem Branches.reads_new (h : n.Rooted next) (hm : Branches n entry exit f.1 m)
    (hexit : exit.id = next + 1) (hf : Spans entry exit (next + 2) f) {i j : Nat} {w : List Char}
    (r : Reads m i w j) (hi : next ≤ i) : next ≤ j ∧ Reads (ofArcs f.1) i w j := by
  have hroot := h.start_lt
  have hclosed : ∀ e ∈ m.arcs, next ≤ e.source.id →
      e ∈ (ofArcs f.1).arcs ∧ next ≤ e.target.id := by
    intro e he hle
    rcases (hm.mem_arcs e).mp he with he | rfl | he
    · have := h.source_lt he
      omega
    · have : next ≤ n.start.id := hle
      omega
    · have := hf.target_id he
      exact ⟨he, by omega⟩
  exact r.confined (P := fun i => next ≤ i) hclosed hi

/-- A path from the start is one that there was already, or one of the new fragment. -/
theorem reads_branch (h : n.Rooted next) (hm : Branches n entry exit f.1 m)
    (hentry : entry.id = next) (hexit : exit.id = next + 1)
    (hf : Spans entry exit (next + 2) f) {w : List Char} {j : Nat} :
    Reads m m.start.id w j ↔ (j < next ∧ Reads n n.start.id w j) ∨
      (next ≤ j ∧ Reads (ofArcs f.1) entry.id w j) := by
  have hroot := h.start_lt
  have enter : Arc.empty n.start entry ∈ m.arcs := (hm.mem_arcs _).mpr (.inr (.inl rfl))
  rw [hm.start]
  constructor
  · intro r
    rcases reads_iff_head.mp r with ⟨rfl, rfl⟩ | ⟨e, he, hs, v, rfl, hv⟩
    · exact .inl ⟨hroot, .stay _⟩
    · rcases (hm.mem_arcs e).mp he with he | rfl | he
      · obtain ⟨hj, r⟩ := hm.reads_old h hentry hf hv (h.target_lt he) (h.isolated e he)
        exact .inl ⟨hj, hs ▸ (Reads.of_arc he).append r⟩
      · exact .inr (hm.reads_new h hexit hf hv (Nat.le_of_eq hentry.symm))
      · have := hf.source_id he
        omega
  · intro h'
    rcases h' with ⟨-, r⟩ | ⟨-, r⟩
    · exact r.mono fun e he => (hm.mem_arcs e).mpr (.inl he)
    · exact (Reads.of_arc enter).append (r.mono fun e he => (hm.mem_arcs e).mpr (.inr (.inr he)))

theorem reaches_branch (h : n.Rooted next) (hm : Branches n entry exit f.1 m)
    (hentry : entry.id = next) (hexit : exit.id = next + 1)
    (hf : Spans entry exit (next + 2) f) {j : Nat} :
    Reaches m j ↔ (j < next ∧ Reaches n j) ∨
      (next ≤ j ∧ Connects (ofArcs f.1) entry.id j) := by
  unfold Reaches Connects
  simp only [reads_branch h hm hentry hexit hf, exists_or, exists_and_left]

end Branch

/-! ## All branches -/

/-- A production with its rank and the state that completes it. -/
structure Exit where
  production : Production
  rank : Nat
  state : State

/-- The accepting states are the exits, in order; each is reached by the words of its production.
Behind the start, a state leads to one exit at most.  If all productions are productive, every state
lies on a path from the start to an exit; if not, some state cannot be reached. -/
structure Assembled (exits : List Exit) (n : Nfa) : Prop where
  mem_states : ∀ x ∈ exits, x.state ∈ n.states
  accept : ∀ x ∈ exits, x.state.accept = some ⟨x.production.name, x.rank⟩
  accepting : ∀ s ∈ n.states, s.accepting → ∃ x ∈ exits, x.state = s
  ascending : exits.Pairwise fun x y => x.state.id < y.state.id
  reads : ∀ x ∈ exits, ∀ w, Reads n n.start.id w x.state.id ↔ x.production.body.Lang w
  apart : ∀ s ∈ n.states, s ≠ n.start → ∀ x ∈ exits, ∀ y ∈ exits,
    Connects n s.id x.state.id → Connects n s.id y.state.id → x = y
  connected : (∀ x ∈ exits, x.production.body.Productive) → n.Connected
  live : (∀ x ∈ exits, x.production.body.Productive) →
    ∀ s ∈ n.states, s = n.start ∨ ∃ x ∈ exits, Connects n s.id x.state.id
  stranded : (∃ x ∈ exits, ¬ x.production.body.Productive) → ¬ n.Connected

namespace Assembled

variable {exits : List Exit}

/-- The words of a production complete its tag, and nothing else does. -/
theorem completes_iff (h : Assembled exits n) {w : List Char} {tag : Accept} :
    n.Completes w tag ↔
      ∃ x ∈ exits, tag = ⟨x.production.name, x.rank⟩ ∧ x.production.body.Lang w := by
  constructor
  · intro h'
    obtain ⟨s, hs, r, ha⟩ := h'
    obtain ⟨x, hx, rfl⟩ := h.accepting s hs (accepting_of_accept ha)
    rw [h.accept x hx] at ha
    exact ⟨x, hx, (Option.some_inj.mp ha).symm, (h.reads x hx w).mp r⟩
  · intro h'
    obtain ⟨x, hx, rfl, hw⟩ := h'
    exact ⟨x.state, h.mem_states x hx, (h.reads x hx w).mpr hw, h.accept x hx⟩

theorem hasFinal_iff (h : Assembled exits n) : n.HasFinal ↔ exits ≠ [] := by
  constructor
  · intro h'
    obtain ⟨s, hs, ha⟩ := h'
    obtain ⟨x, hx, -⟩ := h.accepting s hs ha
    exact List.ne_nil_of_mem hx
  · intro hne
    obtain ⟨x, hx⟩ := List.exists_mem_of_ne_nil _ hne
    exact ⟨x.state, h.mem_states x hx, accepting_of_accept (h.accept x hx)⟩

theorem noDeadEnd (h : Assembled exits n) (hne : exits ≠ [])
    (hp : ∀ x ∈ exits, x.production.body.Productive) : n.NoDeadEnd := by
  have hexit : ∀ {i}, (∃ x ∈ exits, Connects n i x.state.id) →
      ∃ t ∈ n.states, t.accepting ∧ Connects n i t.id := by
    intro i h'
    obtain ⟨x, hx, r⟩ := h'
    exact ⟨x.state, h.mem_states x hx, accepting_of_accept (h.accept x hx), r⟩
  intro s hs
  rcases h.live hp s hs with rfl | hr
  · obtain ⟨x, hx⟩ := List.exists_mem_of_ne_nil _ hne
    exact hexit ⟨x, hx, h.connected hp _ (h.mem_states x hx)⟩
  · exact hexit hr

end Assembled

theorem forall_mem_snoc {α : Type} {P : α → Prop} {xs : List α} {x : α} :
    (∀ y ∈ xs ++ [x], P y) ↔ (∀ y ∈ xs, P y) ∧ P x := by
  rw [List.forall_mem_append, List.forall_mem_singleton]

theorem not_accepting_of_fresh {lo hi : Nat} {s : State} (h : s.Fresh lo hi) : ¬ s.accepting := by
  rw [h.1]
  exact Bool.false_ne_true

section Branch
variable {exits : List Exit} {p : Production} {rank : Nat} {exit : State} {f : Fragment}

theorem Branches.accepting (h : Assembled exits n) (hm : Branches n (.plain next) exit f.1 m)
    (hf : Spans (.plain next) exit (next + 2) f) :
    ∀ s ∈ m.states, s.accepting → (∃ x ∈ exits, x.state = s) ∨ s = exit := by
  intro s hs ha
  rcases (hm.mem_states s).mp hs with hs | rfl | rfl | ⟨e, he, rfl | rfl⟩
  · exact .inl (h.accepting s hs ha)
  · exact absurd ha Bool.false_ne_true
  · exact .inr rfl
  · rcases hf.source e he with hs | hs
    · rw [hs] at ha
      exact absurd ha Bool.false_ne_true
    · exact absurd ha (not_accepting_of_fresh hs)
  · rcases hf.target e he with hs | hs
    · exact .inr hs
    · exact absurd ha (not_accepting_of_fresh hs)

/-- Where every state of the fragment lies on a path, so does every state of the branch. -/
theorem Branches.live (hm : Branches n (.plain next) exit f.1 m)
    (hl : Live f.1 (.plain next) exit) :
    ∀ s ∈ m.states, s ∈ n.states ∨
      Connects (ofArcs f.1) next s.id ∧ Connects (ofArcs f.1) s.id exit.id := by
  intro s hs
  rcases (hm.mem_states s).mp hs with hs | rfl | rfl | ⟨e, he, rfl | rfl⟩
  · exact .inl hs
  · exact .inr ⟨.refl _, hl.through⟩
  · exact .inr ⟨hl.through, .refl _⟩
  · exact .inr ⟨hl.reached e he, (Connects.of_arc (a := ofArcs f.1) he).trans (hl.leads e he)⟩
  · exact .inr ⟨(hl.reached e he).trans (Connects.of_arc (a := ofArcs f.1) he), hl.leads e he⟩

theorem Branches.not_connected (h : n.Rooted next) (hm : Branches n (.plain next) exit f.1 m)
    (hexit : exit.id = next + 1) (hf : Spans (.plain next) exit (next + 2) f)
    (hb : Blocked f.1 (.plain next) exit (next + 2)) : ¬ m.Connected := by
  intro hc
  have reached : ∀ s ∈ m.states, next ≤ s.id → Connects (ofArcs f.1) next s.id := by
    intro s hs hle
    rcases (reaches_branch h hm rfl hexit hf).mp (hc s hs) with ⟨hlt, -⟩ | ⟨-, r⟩
    · omega
    · exact r
  rcases hb with hb | ⟨e, he, hle, hb⟩
  · exact hb (reached exit ((hm.mem_states _).mpr (.inr (.inr (.inl rfl)))) (by omega))
  · exact hb (reached e.source ((hm.mem_states _).mpr (.inr (.inr (.inr ⟨e, he, .inl rfl⟩))))
      (by omega))

/-- The branch is entered from the start, so what its entry leads to can be reached. -/
theorem Branches.connected (h : n.Rooted next) (hm : Branches n (.plain next) exit f.1 m)
    (hexit : exit.id = next + 1) (hf : Spans (.plain next) exit (next + 2) f)
    (hl : Live f.1 (.plain next) exit) (hc : n.Connected) : m.Connected := by
  intro s hs
  rcases hm.live hl s hs with hs | ⟨r, -⟩
  · exact (reaches_branch h hm rfl hexit hf).mpr (.inl ⟨h.below s hs, hc s hs⟩)
  · have hle : next ≤ s.id := by
      obtain ⟨w, r⟩ := r
      exact (hm.reads_new h hexit hf (r.mono fun e he => (hm.mem_arcs e).mpr (.inr (.inr he)))
        (Nat.le_refl next)).1
    exact (reaches_branch h hm rfl hexit hf).mpr (.inr ⟨hle, r⟩)

/-- A branch leads to no state that was there. -/
theorem Branches.connected_old (h : n.Rooted next) (hm : Branches n (.plain next) exit f.1 m)
    (hexit : exit.id = next + 1) (hf : Spans (.plain next) exit (next + 2) f)
    (hc : m.Connected) : n.Connected := by
  intro s hs
  rcases (reaches_branch h hm rfl hexit hf).mp (hc s ((hm.mem_states s).mpr (.inl hs))) with
    ⟨-, r⟩ | ⟨hle, -⟩
  · exact r
  · have := h.below s hs
    omega

theorem Branches.mem_or_le (hm : Branches n (.plain next) exit f.1 m)
    (hexit : exit.id = next + 1) (hf : Spans (.plain next) exit (next + 2) f) {s : State}
    (hs : s ∈ m.states) : s ∈ n.states ∨ next ≤ s.id := by
  rcases (hm.mem_states s).mp hs with hs | rfl | rfl | ⟨e, he, rfl | rfl⟩
  · exact .inl hs
  · exact .inr (Nat.le_refl next)
  · exact .inr (by omega)
  · have : e.source.id = next ∨ _ := hf.source_id he
    exact .inr (by omega)
  · have := hf.target_id he
    exact .inr (by omega)

/-- A path behind the start stays in its branch, so it cannot end in the exit of another. -/
theorem Branches.apart (h : Assembled exits n) (hr : n.Rooted next)
    (hm : Branches n (.plain next) exit f.1 m) (hexit : exit.id = next + 1)
    (hf : Spans (.plain next) exit (next + 2) f) {s : State} (hs : s ∈ m.states)
    (hne : s ≠ m.start) : ∀ x ∈ exits ++ [⟨p, rank, exit⟩], ∀ y ∈ exits ++ [⟨p, rank, exit⟩],
      Connects m s.id x.state.id → Connects m s.id y.state.id → x = y := by
  obtain ⟨tags, hw⟩ := hr.wellFormed
  intro x hx y hy rx ry
  rcases hm.mem_or_le hexit hf hs with hs | hle
  · have hstart : s.id ≠ n.start.id := fun e => hne (hm.start ▸ hw.eq_of_id hs hw.start_mem e)
    have old : ∀ z ∈ exits ++ [⟨p, rank, exit⟩], Connects m s.id z.state.id →
        z ∈ exits ∧ Connects n s.id z.state.id := by
      intro z hz r
      obtain ⟨w, r⟩ := r
      obtain ⟨hlt, r⟩ := hm.reads_old hr rfl hf r (hr.below s hs) hstart
      rcases List.mem_append.mp hz with hz | hz
      · exact ⟨hz, w, r⟩
      · rw [List.mem_singleton.mp hz] at hlt
        have : exit.id < next := hlt
        omega
    obtain ⟨hx, rx⟩ := old x hx rx
    obtain ⟨hy, ry⟩ := old y hy ry
    exact h.apart s hs (hm.start ▸ hne) x hx y hy rx ry
  · have new : ∀ z ∈ exits ++ [⟨p, rank, exit⟩], Connects m s.id z.state.id →
        z = ⟨p, rank, exit⟩ := by
      intro z hz r
      obtain ⟨w, r⟩ := r
      have hle := (hm.reads_new hr hexit hf r hle).1
      rcases List.mem_append.mp hz with hz | hz
      · exact absurd (hr.below _ (h.mem_states z hz)) (Nat.not_lt_of_le hle)
      · exact List.mem_singleton.mp hz
    rw [new x hx rx, new y hy ry]

/-- A further branch keeps all this. -/
theorem Assembled.branch (h : Assembled exits n) (hr : n.Rooted next)
    (hm : Branches n (.plain next) ⟨next + 1, some ⟨p.name, rank⟩⟩ f.1 m)
    (hf : Spells p.body.Lang p.body.Productive (.plain next) ⟨next + 1, some ⟨p.name, rank⟩⟩
      (next + 2) f) :
    Assembled (exits ++ [⟨p, rank, ⟨next + 1, some ⟨p.name, rank⟩⟩⟩]) m := by
  have hlt : ∀ x ∈ exits, x.state.id < next := fun x hx => hr.below _ (h.mem_states x hx)
  refine ⟨?mem_states, ?accept, ?accepting, ?ascending, ?reads, ?apart, ?connected, ?live,
    ?stranded⟩
  case mem_states =>
    refine forall_mem_snoc.mpr ⟨fun x hx => ?_, ?_⟩
    · exact (hm.mem_states _).mpr (.inl (h.mem_states x hx))
    · exact (hm.mem_states _).mpr (.inr (.inr (.inl rfl)))
  case accept => exact forall_mem_snoc.mpr ⟨h.accept, rfl⟩
  case accepting =>
    intro s hs ha
    rcases hm.accepting h hf.spans s hs ha with ⟨x, hx, e⟩ | e
    · exact ⟨x, List.mem_append_left _ hx, e⟩
    · exact ⟨_, List.mem_append_right _ List.mem_cons_self, e.symm⟩
  case ascending =>
    refine List.pairwise_append.mpr ⟨h.ascending, List.pairwise_singleton _ _, ?_⟩
    intro x hx y hy
    rw [List.mem_singleton.mp hy]
    exact Nat.lt_succ_of_lt (hlt x hx)
  case reads =>
    refine forall_mem_snoc.mpr ⟨fun x hx w => ?_, fun w => ?_⟩
    · have := hlt x hx
      rw [reads_branch hr hm rfl rfl hf.spans]
      simp only [this, Nat.not_le_of_lt this, true_and, false_and, or_false, h.reads x hx]
    · rw [reads_branch hr hm rfl rfl hf.spans]
      simp only [Nat.not_lt_of_le (Nat.le_succ next), Nat.le_succ next, true_and, false_and,
        false_or]
      exact hf.reads w
  case apart => exact fun s hs hne => hm.apart h hr rfl hf.spans hs hne
  case connected =>
    intro hp
    obtain ⟨hold, hnew⟩ := forall_mem_snoc.mp hp
    exact hm.connected hr rfl hf.spans (hf.live hnew) (h.connected hold)
  case live =>
    intro hp s hs
    obtain ⟨hold, hnew⟩ := forall_mem_snoc.mp hp
    rw [hm.start]
    rcases hm.live (hf.live hnew) s hs with hs | ⟨-, r⟩
    · rcases h.live hold s hs with e | ⟨x, hx, r⟩
      · exact .inl e
      · refine .inr ⟨x, List.mem_append_left _ hx, r.mono fun e he => ?_⟩
        exact (hm.mem_arcs e).mpr (.inl he)
    · refine .inr ⟨_, List.mem_append_right _ List.mem_cons_self, r.mono fun e he => ?_⟩
      exact (hm.mem_arcs e).mpr (.inr (.inr he))
  case stranded =>
    intro h'
    obtain ⟨x, hx, hp⟩ := h'
    rcases List.mem_append.mp hx with hx | hx
    · exact fun hc => h.stranded ⟨x, hx, hp⟩ (hm.connected_old hr rfl hf.spans hc)
    · rw [List.mem_singleton.mp hx] at hp
      exact hm.not_connected hr rfl hf.spans (hf.blocked hp)

end Branch

/-! ## The stage -/

/-- The tags after the two states of a branch are issued. -/
def branchTags (tags : Tags) (next : Nat) (accept : Accept) : Tags := fun i =>
  if i < next then tags i else if i = next + 1 then some accept else none

theorem of_branchTags_of_lt {s : State} {accept : Accept} (h : s.Of tags) (hlt : s.id < next) :
    s.Of (branchTags tags next accept) :=
  h.goOn_of_lt hlt _

theorem of_branchTags_exit (tags : Tags) (next : Nat) (accept : Accept) :
    State.Of (branchTags tags next accept) ⟨next + 1, some accept⟩ := by
  show (⟨next + 1, some accept⟩ : State) = ⟨next + 1, branchTags tags next accept (next + 1)⟩
  simp [branchTags]

theorem of_branchTags_plain (tags : Tags) {i : Nat} (accept : Accept) (hle : next ≤ i)
    (hne : i ≠ next + 1) : State.Of (branchTags tags next accept) (.plain i) := by
  show State.plain i = ⟨i, branchTags tags next accept i⟩
  simp [branchTags, Nat.not_lt_of_le hle, hne, State.plain]

theorem Rooted.branch {exit : State} {f : Fragment} (h : n.Rooted next)
    (hm : Branches n (.plain next) exit f.1 m) (hexit : exit.id = next + 1)
    (hf : Spans (.plain next) exit (next + 2) f) (hw : ∃ tags, m.WellFormed tags) :
    m.Rooted f.2 where
  wellFormed := hw
  below s hs := by
    have hle := hf.next_le
    rcases (hm.mem_states s).mp hs with hs | rfl | rfl | ⟨e, he, rfl | rfl⟩
    · have := h.below s hs
      omega
    · show next < f.2
      omega
    · omega
    · have : e.source.id = next ∨ _ := hf.source_id he
      omega
    · have := hf.target_id he
      omega
  isolated e he := by
    have hroot := h.start_lt
    rw [hm.start]
    rcases (hm.mem_arcs e).mp he with he | rfl | he
    · exact h.isolated e he
    · exact Nat.ne_of_gt hroot
    · have := hf.target_id he
      omega

theorem of_branchTags_fresh (tags : Tags) (accept : Accept) {s : State} {hi : Nat}
    (h : s.Fresh (next + 2) hi) : s.Of (branchTags tags next accept) := by
  have := h.2.1
  rw [h.1]
  exact of_branchTags_plain tags accept (by omega) (by omega)

section Issued
variable {L : List Char → Prop} {P : Prop} {accept : Accept} {f : Fragment}

/-- The ends of the arcs of a branch have the tags that are issued for it. -/
theorem of_branchTags_ends (hw : n.WellFormed (branchTags tags next accept))
    (hf : Spans (.plain next) ⟨next + 1, some accept⟩ (next + 2) f) :
    ∀ e ∈ .empty n.start (.plain next) :: f.1, e.source.Of (branchTags tags next accept) ∧
      e.target.Of (branchTags tags next accept) := by
  have hentry : State.Of (branchTags tags next accept) (.plain next) :=
    of_branchTags_plain tags accept (Nat.le_refl _) (Nat.ne_of_lt (Nat.lt_succ_self _))
  intro e he
  rcases List.mem_cons.mp he with rfl | he
  · exact ⟨hw.tagged _ hw.start_mem, hentry⟩
  · constructor
    · rcases hf.source e he with hs | hs
      · rw [hs]
        exact hentry
      · exact of_branchTags_fresh tags accept hs
    · rcases hf.target e he with ht | ht
      · rw [ht]
        exact of_branchTags_exit tags next accept
      · exact of_branchTags_fresh tags accept ht

/-- The arcs of a branch leave the start for its entry, or leave a state that is not issued. -/
theorem branch_source (hf : Spans (.plain next) ⟨next + 1, some accept⟩ (next + 2) f) :
    ∀ e ∈ f.1, next ≤ e.source.id := by
  intro e he
  have : e.source.id = next ∨ _ := hf.source_id he
  omega

theorem branch_not_mem (h : n.Rooted next)
    (hf : Spans (.plain next) ⟨next + 1, some accept⟩ (next + 2) f) :
    ∀ e ∈ .empty n.start (.plain next) :: f.1, e ∉ n.arcs := by
  intro e he hn
  rcases List.mem_cons.mp he with rfl | he
  · exact Nat.lt_irrefl next (h.target_lt hn)
  · exact Nat.not_lt_of_le (branch_source hf e he) (h.source_lt hn)

/-- What carries the exit and has the arcs of a branch has one more branch. -/
theorem branches_of_extended {exit : State} {arcs : List Arc} (h : n.start ∈ n.states)
    (hm : Extended tags n [exit] (.empty n.start (.plain next) :: arcs) m) :
    Branches n (.plain next) exit arcs m := by
  refine ⟨hm.start, fun e => ?_, fun s => ?_⟩
  · rw [hm.mem_arcs]
    exact or_congr_right List.mem_cons
  · rw [hm.mem_states]
    constructor
    · intro h'
      rcases h' with hs | hs | ⟨e, he, hs⟩
      · exact .inl hs
      · exact .inr (.inr (.inl (List.mem_singleton.mp hs)))
      · rcases List.mem_cons.mp he with rfl | he
        · rcases hs with rfl | rfl
          · exact .inl h
          · exact .inr (.inl rfl)
        · exact .inr (.inr (.inr ⟨e, he, hs⟩))
    · intro h'
      rcases h' with hs | rfl | rfl | ⟨e, he, hs⟩
      · exact .inl hs
      · exact .inr (.inr ⟨_, List.mem_cons_self, .inr rfl⟩)
      · exact .inr (.inl List.mem_cons_self)
      · exact .inr (.inr ⟨e, List.mem_cons_of_mem _ he, hs⟩)

/-- The arcs of a branch are all new. -/
theorem addBranch_ok (h : n.Rooted next)
    (hf : Spells L P (.plain next) ⟨next + 1, some accept⟩ (next + 2) f) :
    ∃ m, Nfa.addNewArcs (n.addState ⟨next + 1, some accept⟩)
        (.empty n.start (.plain next) :: f.1) = .ok m ∧
      Branches n (.plain next) ⟨next + 1, some accept⟩ f.1 m ∧ ∃ tags, m.WellFormed tags := by
  obtain ⟨tags, hw⟩ := h.wellFormed
  have hroot := h.start_lt
  have hw' : n.WellFormed (branchTags tags next accept) :=
    hw.retag fun s hs => of_branchTags_of_lt (hw.tagged s hs) (h.below s hs)
  have hcarried := hw'.extended.addState (of_branchTags_exit tags next accept)
  have hends := of_branchTags_ends hw' hf.spans
  have hnodup : (.empty n.start (.plain next) :: f.1).Nodup := by
    refine List.nodup_cons.mpr ⟨fun he => ?_, hf.nodup⟩
    have : next ≤ n.start.id := branch_source hf.spans _ he
    omega
  obtain ⟨m, hm, hext⟩ := addNewArcs_ok hcarried.wellFormed hnodup (branch_not_mem h hf.spans)
    (fun e he => (hends e he).1) fun e he => (hends e he).2
  have hall := hcarried.trans hext
  exact ⟨m, hm, branches_of_extended hw.start_mem hall, _, hall.wellFormed⟩

end Issued

theorem run_fresh {σ : Session} : fresh.run σ =
    (.ok (Automaton.new (.plain σ.supply.issued)), σ.issue (σ.supply.issued + 1)) := rfl

theorem rooted_new (i : Nat) : Rooted (Automaton.new (.plain i)) (i + 1) where
  wellFormed := ⟨fun _ => none, WellFormed.new rfl⟩
  below s hs := by
    rw [List.mem_singleton.mp hs]
    exact Nat.lt_succ_self i
  isolated _ he := by cases he

theorem run_addFragment {e : Expr} {s t : State} {σ : Session}
    (h : n.addNewArcs (e.fragment s t σ.supply.issued).1 = .ok m) :
    (n.addFragment e s t).run σ = (.ok m, σ.issue (e.fragment s t σ.supply.issued).2) := by
  rw [addFragment, Stage.run_bind_ok Stage.run_issued, Stage.run_bind_ok (Stage.run_setIssued _), h]
  rfl

/-- Adding a production does not fail, and adds a branch. -/
theorem run_addProduction (p : Production) (rank : Nat) {σ : Session}
    (h : n.Rooted σ.supply.issued) :
    ∃ m f, (n.addProduction p rank).run σ =
        (.ok (m, ⟨σ.supply.issued + 1, some ⟨p.name, rank⟩⟩), σ.issue f.2) ∧
      Branches n (.plain σ.supply.issued) ⟨σ.supply.issued + 1, some ⟨p.name, rank⟩⟩ f.1 m ∧
      Spells p.body.Lang p.body.Productive (.plain σ.supply.issued)
        ⟨σ.supply.issued + 1, some ⟨p.name, rank⟩⟩ (σ.supply.issued + 2) f ∧
      m.Rooted f.2 := by
  have hst : Apart (.plain σ.supply.issued) ⟨σ.supply.issued + 1, some ⟨p.name, rank⟩⟩
      (σ.supply.issued + 2) :=
    ⟨Nat.lt_succ_of_lt (Nat.lt_succ_self _), Nat.lt_succ_self _, Nat.ne_of_lt (Nat.lt_succ_self _)⟩
  have hf := spells_fragment p.body hst
  obtain ⟨m, hm, hb, hw⟩ := addBranch_ok h hf
  refine ⟨m, _, ?_, hb, hf, h.branch hb rfl hf.spans hw⟩
  rw [addNewArcs, List.foldlM_cons] at hm
  cases he : addNewArc (n.addState ⟨σ.supply.issued + 1, some ⟨p.name, rank⟩⟩)
      (.empty n.start (.plain σ.supply.issued)) with
  | error e =>
      rw [he] at hm
      cases hm
  | ok entered =>
      rw [he] at hm
      rw [addProduction, Stage.run_bind_ok (Stage.run_freshState none),
        Stage.run_bind_ok (Stage.run_freshState _)]
      have hentered : (Stage.ofExcept (addNewArc
          (n.addState ⟨σ.supply.issued + 1, some ⟨p.name, rank⟩⟩)
          (.empty n.start (.plain σ.supply.issued)))).run (σ.issue (σ.supply.issued + 2)) =
            (.ok entered, σ.issue (σ.supply.issued + 2)) := by
        rw [he]
        rfl
      exact (Stage.run_bind_ok hentered).trans (Stage.run_bind_ok (run_addFragment hm))

/-- What is known while productions are added. -/
structure Adding (ranking : Ranking) (done : List Production) (n : Nfa) (σ : Session) : Prop where
  rooted : n.Rooted σ.supply.issued
  assembled : ∃ exits, exits.map Exit.production = done ∧
    (∀ x ∈ exits, ranking.rank? x.production.name = some x.rank) ∧ Assembled exits n

theorem assembled_new (s : State) (h : ¬ s.accepting) : Assembled [] (Automaton.new s) where
  mem_states _ hx := by cases hx
  accept _ hx := by cases hx
  accepting t ht ha := by
    rw [List.mem_singleton.mp ht] at ha
    exact absurd ha h
  ascending := .nil
  reads _ hx := by cases hx
  apart _ _ _ _ hx := by cases hx
  connected _ t ht := by
    rw [List.mem_singleton.mp ht]
    exact reaches_start _
  live _ t ht := .inl (List.mem_singleton.mp ht)
  stranded := fun ⟨_, hx, _⟩ => by cases hx

theorem Adding.add {ranking : Ranking} {done : List Production} {σ : Session}
    (h : Adding ranking done n σ) {p : Production} {rank : Nat}
    (hrank : ranking.rank? p.name = some rank) :
    ∃ m τ, (addRanked ranking n p).run σ = (.ok m, τ) ∧ Adding ranking (done ++ [p]) m τ := by
  obtain ⟨exits, hmap, hranks, ha⟩ := h.assembled
  obtain ⟨m, f, hrun, hb, hf, hroot⟩ := run_addProduction p rank h.rooted
  refine ⟨m, σ.issue f.2, ?_, hroot, _, ?_, forall_mem_snoc.mpr ⟨hranks, hrank⟩,
    ha.branch h.rooted hb hf⟩
  · simp only [addRanked, hrank]
    rw [Stage.run_bind_ok hrun]
    rfl
  · rw [List.map_append, hmap, List.map_singleton]

/-- Productions that are productive give an automaton that passes its check. -/
theorem Adding.check_eq_ok {ranking : Ranking} {done : List Production} {σ : Session}
    (h : Adding ranking done n σ) (hne : done ≠ []) (hp : ∀ p ∈ done, p.body.Productive) :
    n.graph.checkEpsilonNfa = .ok () := by
  obtain ⟨exits, rfl, -, ha⟩ := h.assembled
  have hexits : exits ≠ [] := fun e => hne (congrArg (List.map Exit.production) e)
  exact checkEpsilonNfa_eq_ok (ha.hasFinal_iff.mpr hexits)
    (ha.connected fun x hx => hp _ (List.mem_map.mpr ⟨x, hx, rfl⟩))

/-- Where every production has a rank, construction gives an assembled automaton, which is then
checked. -/
theorem run_ofProductions {ranking : Ranking} {productions : List Production} (σ : Session)
    (h : ∀ p ∈ productions, ∃ rank, ranking.rank? p.name = some rank) :
    ∃ n τ, Adding ranking productions n τ ∧ (ofProductions productions ranking).run σ =
      (n.graph.checkEpsilonNfa.map fun _ => n,
        τ.record (.epsilonNfa n.states.length n.arcs.length)) := by
  have hinit : Adding ranking [] (Automaton.new (.plain σ.supply.issued))
      (σ.issue (σ.supply.issued + 1)) :=
    ⟨rooted_new _, [], rfl, fun _ hx => (by cases hx), assembled_new (.plain _) Bool.false_ne_true⟩
  have hstep : ∀ done p rest n σ, productions = done ++ p :: rest → Adding ranking done n σ →
      ∃ m τ, (addRanked ranking n p).run σ = (.ok m, τ) ∧ Adding ranking (done ++ [p]) m τ := by
    rintro done p rest n σ rfl hadd
    obtain ⟨rank, hrank⟩ := h p (List.mem_append_right _ List.mem_cons_self)
    exact hadd.add hrank
  obtain ⟨n, τ, hrun, hadd⟩ := Stage.run_foldlM hinit hstep
  refine ⟨n, τ, hadd, ?_⟩
  rw [ofProductions, Stage.run_bind_ok run_fresh, Stage.run_bind_ok hrun, Stage.run_finish]

end LexicalAutomata.Nfa
