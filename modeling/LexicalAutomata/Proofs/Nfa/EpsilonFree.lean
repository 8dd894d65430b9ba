/-
# `LexicalAutomata.Proofs.Nfa.EpsilonFree` — merging closures keeps what paths spell

Merging gives every carried state an image.  An arc leads from the image of `s` to the image of `t`
exactly if empty moves lead from `s` to a state that has an arc to `t` (`Images`).  So the automaton of
the images walks one arc for each character where the automaton with empty moves walks some of these
first, and is always a few empty moves behind (`Images.reads_iff`).  What it has still ahead of it is
in the closure, and the image has the tag of the closure's first accepting member.
-/
import LexicalAutomata.Nfa.EpsilonFree
import LexicalAutomata.Proofs.Automaton.Validity
import LexicalAutomata.Proofs.Nfa.Closure
import LexicalAutomata.Proofs.Stage

namespace LexicalAutomata.Nfa

open Automaton

variable {tags : Tags} {n c : Nfa}

/-! ## The first accepting member -/

theorem firstAccept_eq_none_iff {members : List State} :
    firstAccept members = none ↔ ∀ s ∈ members, s.accept = none :=
  List.findSome?_eq_none_iff

theorem of_firstAccept_eq_some {members : List State} {a : Accept}
    (h : Ordered.Ascending State.order members) (ha : firstAccept members = some a) :
    ∃ s ∈ members, s.accept = some a ∧ ∀ t ∈ members, t.accepting → s.id ≤ t.id := by
  induction members with
  | nil => cases ha
  | cons s ss ih =>
      obtain ⟨hs, hss⟩ := List.pairwise_cons.mp h
      rw [firstAccept, List.findSome?_cons] at ha
      cases hacc : s.accept with
      | some b =>
          rw [hacc] at ha
          cases ha
          refine ⟨s, List.mem_cons_self, hacc, fun t ht _ => ?_⟩
          rcases List.mem_cons.mp ht with rfl | ht
          · exact Nat.le_refl _
          · exact Nat.le_of_lt (Nat.compare_eq_lt.mp (hs t ht))
      | none =>
          rw [hacc] at ha
          obtain ⟨u, hu, ha, hfirst⟩ := ih hss ha
          refine ⟨u, List.mem_cons_of_mem _ hu, ha, fun t ht htacc => ?_⟩
          rcases List.mem_cons.mp ht with rfl | ht
          · rw [State.accepting, hacc] at htacc
            cases htacc
          · exact hfirst t ht htacc

/-! ## Merging -/

/-- The carried states with their closures, and images of different numbers. -/
structure Merging (n : Nfa) (all : List Merged) : Prop where
  states : all.map Merged.state = n.states
  closureOf : ∀ m ∈ all, ClosureOf n m.state m.closure
  accept : ∀ m ∈ all, m.image.accept = firstAccept m.closure
  injective : ∀ m ∈ all, ∀ m' ∈ all, m.image.id = m'.image.id → m = m'

theorem exists_of_mem_merged {first : Nat} {m : Merged} (hm : m ∈ n.merged first) :
    ∃ c i, n.closures[i]? = some c ∧ m = ⟨c.1, c.2, ⟨first + i, firstAccept c.2⟩⟩ := by
  obtain ⟨x, hx, rfl⟩ := List.mem_map.mp hm
  exact ⟨x.1, x.2, List.mem_zipIdx_iff_getElem?.mp hx, rfl⟩

theorem merging_merged (h : n.WellFormed tags) (first : Nat) : Merging n (n.merged first) := by
  obtain ⟨hexact, hmap⟩ := closures_exact h
  refine ⟨?_, ?_, ?_, ?_⟩
  · have e : Merged.state ∘ (fun x : (State × List State) × Nat =>
        (⟨x.1.1, x.1.2, ⟨first + x.2, firstAccept x.1.2⟩⟩ : Merged)) = Prod.fst ∘ Prod.fst := rfl
    rw [merged, List.map_map, e, ← List.map_map, List.zipIdx_map_fst, hmap]
  · intro m hm
    obtain ⟨x, i, hx, rfl⟩ := exists_of_mem_merged hm
    exact hexact x (List.mem_of_getElem? hx)
  · intro m hm
    obtain ⟨x, i, -, rfl⟩ := exists_of_mem_merged hm
    rfl
  · intro m hm m' hm' e
    obtain ⟨x, i, hx, rfl⟩ := exists_of_mem_merged hm
    obtain ⟨y, j, hy, rfl⟩ := exists_of_mem_merged hm'
    obtain rfl : i = j := Nat.add_left_cancel e
    rw [hx] at hy
    cases hy
    rfl

/-- The image of a carried state. -/
def imageIn (all : List Merged) (s : State) : State :=
  match imageOf all s with
  | .ok t => t
  | .error _ => s

namespace Merging

variable {all : List Merged}

theorem mem_states (h : Merging n all) {m : Merged} (hm : m ∈ all) : m.state ∈ n.states :=
  h.states ▸ List.mem_map.mpr ⟨m, hm, rfl⟩

theorem imageOf_eq (h : Merging n all) (hw : n.WellFormed tags) {m : Merged} (hm : m ∈ all) :
    imageOf all m.state = .ok m.image := by
  have hnodup : (all.map Merged.state).Nodup := h.states ▸ hw.states_ascending.nodup
  unfold imageOf
  cases hf : all.find? fun x => x.state.id == m.state.id with
  | none => exact absurd (List.find?_eq_none.mp hf m hm) (by simp)
  | some x =>
      have hx := List.mem_of_find?_eq_some hf
      have hid : x.state.id = m.state.id := by simpa using List.find?_some hf
      have e := hw.eq_of_id (h.mem_states hx) (h.mem_states hm) hid
      obtain rfl := List.inj_on_of_nodup_map hnodup hx hm e
      rfl

theorem imageIn_eq (h : Merging n all) (hw : n.WellFormed tags) {m : Merged} (hm : m ∈ all) :
    imageIn all m.state = m.image := by
  rw [imageIn, h.imageOf_eq hw hm]

theorem exists_of_mem (h : Merging n all) {s : State} (hs : s ∈ n.states) :
    ∃ m ∈ all, m.state = s :=
  List.mem_map.mp (h.states ▸ hs)

theorem imageOf_ok (h : Merging n all) (hw : n.WellFormed tags) {s : State} (hs : s ∈ n.states) :
    imageOf all s = .ok (imageIn all s) := by
  obtain ⟨m, hm, rfl⟩ := h.exists_of_mem hs
  rw [h.imageOf_eq hw hm, h.imageIn_eq hw hm]

theorem exists_tags (h : Merging n all) : ∃ tags : Tags, ∀ m ∈ all, m.image.Of tags := by
  have hinj : ∀ s ∈ all.map Merged.image, ∀ t ∈ all.map Merged.image, s.id = t.id → s = t := by
    intro s hs t ht e
    obtain ⟨m, hm, rfl⟩ := List.mem_map.mp hs
    obtain ⟨m', hm', rfl⟩ := List.mem_map.mp ht
    rw [h.injective m hm m' hm' e]
  obtain ⟨tags, htags⟩ := LexicalAutomata.exists_tags _ hinj
  exact ⟨tags, fun m hm => htags _ (List.mem_map.mpr ⟨m, hm, rfl⟩)⟩

end Merging

/-- The arcs that an image takes over. -/
def takenOver (n : Nfa) (all : List Merged) (m : Merged) : List Arc :=
  (m.closure.flatMap n.readingArcs).map fun e => ⟨m.image, e.symbol, imageIn all e.target⟩

section Complete
variable {all : List Merged}

theorem mem_readingArcs {s : State} {e : Arc} :
    e ∈ n.readingArcs s ↔ e ∈ n.arcs ∧ e.source.id = s.id ∧ e.symbol ≠ .epsilon := by
  simp only [readingArcs, arcsFrom, List.mem_filter, beq_iff_eq, bne_iff_ne, and_assoc]

theorem Merging.mem_takenOver (h : Merging n all) (hw : n.WellFormed tags) {m : Merged}
    (hm : m ∈ all) {f : Arc} : f ∈ takenOver n all m ↔
      ∃ e ∈ n.arcs, e.symbol ≠ .epsilon ∧ Reads n m.state.id [] e.source.id ∧
        f = ⟨m.image, e.symbol, imageIn all e.target⟩ := by
  simp only [takenOver, List.mem_map, List.mem_flatMap, mem_readingArcs]
  constructor
  · intro h'
    obtain ⟨e, ⟨t, ht, he, hs, hx⟩, rfl⟩ := h'
    exact ⟨e, he, hx, hs ▸ (((h.closureOf m hm).mem_iff t).mp ht).2, rfl⟩
  · intro h'
    obtain ⟨e, he, hx, r, rfl⟩ := h'
    exact ⟨e, ⟨e.source, ((h.closureOf m hm).mem_iff _).mpr ⟨hw.source_mem e he, r⟩, he, rfl, hx⟩,
      rfl⟩

theorem addMerged_ok (h : Merging n all) (hw : n.WellFormed tags) {tags' : Tags}
    (htags : ∀ m ∈ all, m.image.Of tags') {base acc : Nfa} {states : List State} {arcs : List Arc}
    (hacc : Extended tags' base states arcs acc) {m : Merged} (hm : m ∈ all) :
    ∃ acc', n.addMerged all acc m = .ok acc' ∧
      Extended tags' base (states ++ [m.image]) (arcs ++ takenOver n all m) acc' := by
  refine foldlM_ok (I := fun done acc' => Extended tags' base (states ++ [m.image])
    (arcs ++ done.map fun e : Arc => ⟨m.image, e.symbol, imageIn all e.target⟩) acc') ?_ ?_
  · rw [List.map_nil, List.append_nil]
    exact hacc.addState (htags m hm)
  · intro done e rest acc' hall hacc'
    have he : e ∈ m.closure.flatMap n.readingArcs :=
      hall ▸ List.mem_append_right _ List.mem_cons_self
    obtain ⟨t, -, he⟩ := List.mem_flatMap.mp he
    have ht := hw.target_mem e (mem_readingArcs.mp he).1
    obtain ⟨m', hm', hstate⟩ := h.exists_of_mem ht
    have htarget : (imageIn all e.target).Of tags' := by
      rw [← hstate, h.imageIn_eq hw hm']
      exact htags m' hm'
    refine ⟨addArc acc' m.image e.symbol (imageIn all e.target), ?_, ?_⟩
    · rw [h.imageOf_ok hw ht]
      rfl
    · rw [List.map_append, ← List.append_assoc]
      exact hacc'.addArc (htags m hm) htarget

end Complete

/-! ## The automaton of the images -/

/-- `c` is the automaton of the images of the carried states of `n`. -/
structure Images (n : Nfa) (image : State → State) (c : Nfa) : Prop where
  wellFormed : ∃ tags, c.WellFormed tags
  start : c.start = image n.start
  injective : ∀ s ∈ n.states, ∀ t ∈ n.states, (image s).id = (image t).id → s = t
  mem_states : ∀ u, u ∈ c.states ↔ ∃ s ∈ n.states, image s = u
  mem_arcs : ∀ f, f ∈ c.arcs ↔ ∃ s ∈ n.states, ∃ e ∈ n.arcs, e.symbol ≠ .epsilon ∧
    Reads n s.id [] e.source.id ∧ f = ⟨image s, e.symbol, image e.target⟩
  accept : ∀ s ∈ n.states, ∃ members, ClosureOf n s members ∧
    (image s).accept = firstAccept members

theorem Merging.images {all : List Merged} (h : Merging n all) (hw : n.WellFormed tags)
    {tags' : Tags} (hext : Extended tags' (Automaton.new (imageIn all n.start))
      (all.map Merged.image) (all.flatMap (takenOver n all)) c) : Images n (imageIn all) c := by
  have himage : ∀ {s}, s ∈ n.states → ∃ m ∈ all, m.state = s ∧ imageIn all s = m.image := by
    intro s hs
    obtain ⟨m, hm, rfl⟩ := h.exists_of_mem hs
    exact ⟨m, hm, rfl, h.imageIn_eq hw hm⟩
  have hmem : ∀ {m}, m ∈ all → m.image ∈ c.states := fun hm =>
    (hext.mem_states _).mpr (.inr (.inl (List.mem_map.mpr ⟨_, hm, rfl⟩)))
  have harcs : ∀ f, f ∈ c.arcs ↔ ∃ s ∈ n.states, ∃ e ∈ n.arcs, e.symbol ≠ .epsilon ∧
      Reads n s.id [] e.source.id ∧ f = ⟨imageIn all s, e.symbol, imageIn all e.target⟩ := by
    intro f
    rw [hext.mem_arcs, List.mem_flatMap]
    constructor
    · intro h'
      rcases h' with hf | ⟨m, hm, hf⟩
      · cases hf
      · rw [h.mem_takenOver hw hm] at hf
        rw [← h.imageIn_eq hw hm] at hf
        exact ⟨m.state, h.mem_states hm, hf⟩
    · intro h'
      obtain ⟨s, hs, e, he, hx, r, rfl⟩ := h'
      obtain ⟨m, hm, rfl, hi⟩ := himage hs
      exact .inr ⟨m, hm, (h.mem_takenOver hw hm).mpr ⟨e, he, hx, r, by rw [hi]⟩⟩
  refine ⟨⟨tags', hext.wellFormed⟩, hext.start, ?_, fun u => ⟨?_, ?_⟩, harcs, ?_⟩
  · intro s hs t ht e
    obtain ⟨m, hm, rfl, hi⟩ := himage hs
    obtain ⟨m', hm', rfl, hi'⟩ := himage ht
    rw [hi, hi'] at e
    rw [h.injective m hm m' hm' e]
  · intro hu
    rcases (hext.mem_states u).mp hu with hu | hu | ⟨f, hf, hu⟩
    · exact ⟨n.start, hw.start_mem, (List.mem_singleton.mp hu).symm⟩
    · obtain ⟨m, hm, rfl⟩ := List.mem_map.mp hu
      exact ⟨m.state, h.mem_states hm, h.imageIn_eq hw hm⟩
    · obtain ⟨s, hs, e, he, -, -, rfl⟩ := (harcs f).mp ((hext.mem_arcs f).mpr (.inr hf))
      rcases hu with rfl | rfl
      · exact ⟨s, hs, rfl⟩
      · exact ⟨e.target, hw.target_mem e he, rfl⟩
  · intro h'
    obtain ⟨s, hs, rfl⟩ := h'
    obtain ⟨m, hm, -, hi⟩ := himage hs
    exact hi ▸ hmem hm
  · intro s hs
    obtain ⟨m, hm, rfl, hi⟩ := himage hs
    exact ⟨m.closure, h.closureOf m hm, by rw [hi, h.accept m hm]⟩

theorem mergeClosures_ok (hw : n.WellFormed tags) (first : Nat) :
    ∃ c, Images n (imageIn (n.merged first)) c ∧ n.mergeClosures first = .ok c.prune := by
  have h := merging_merged hw first
  generalize hall : n.merged first = all at h
  obtain ⟨tags', htags⟩ := h.exists_tags
  obtain ⟨m₀, hm₀, hstart⟩ := h.exists_of_mem hw.start_mem
  have himage : imageIn all n.start = m₀.image := by
    rw [← hstart, h.imageIn_eq hw hm₀]
  have hnew : WellFormed tags' (Automaton.new (imageIn all n.start) : Nfa) :=
    .new (himage ▸ htags m₀ hm₀)
  have hstep : ∀ done m rest acc, all = done ++ m :: rest →
      Extended tags' (Automaton.new (imageIn all n.start)) (done.map Merged.image)
        (done.flatMap (takenOver n all)) acc →
      ∃ acc', n.addMerged all acc m = .ok acc' ∧
        Extended tags' (Automaton.new (imageIn all n.start)) ((done ++ [m]).map Merged.image)
          ((done ++ [m]).flatMap (takenOver n all)) acc' := by
    intro done m rest acc hdone hacc
    have hm : m ∈ all := hdone ▸ List.mem_append_right _ List.mem_cons_self
    rw [List.map_append, List.flatMap_append, List.map_singleton, List.flatMap_singleton]
    exact addMerged_ok h hw htags hacc hm
  obtain ⟨c, hc, hext⟩ := foldlM_ok (I := fun done acc => Extended tags'
    (Automaton.new (imageIn all n.start)) (done.map Merged.image) (done.flatMap (takenOver n all))
      acc) hnew.extended hstep
  refine ⟨c, h.images hw hext, ?_⟩
  rw [mergeClosures, hall, h.imageOf_ok hw hw.start_mem]
  show (all.foldlM (n.addMerged all) (Automaton.new (imageIn all n.start)) >>= _) = _
  rw [hc]
  rfl

/-- Empty moves are removed without a failure; the result is then checked. -/
theorem run_eliminateEpsilon (hw : n.WellFormed tags) (σ : Session) :
    ∃ c, Images n (imageIn (n.merged σ.supply.issued)) c ∧ n.eliminateEpsilon.run σ =
      (c.prune.graph.checkNfa.map fun _ => c.prune,
        (σ.issue (σ.supply.issued + n.states.length)).record
          (.nfa c.prune.states.length c.prune.arcs.length)) := by
  obtain ⟨c, hi, hc⟩ := mergeClosures_ok hw σ.supply.issued
  refine ⟨c, hi, ?_⟩
  rw [eliminateEpsilon, Stage.run_bind_ok Stage.run_issued,
    Stage.run_bind_ok (Stage.run_setIssued _), hc, Stage.run_bind_ok (Stage.run_ofExcept _),
    Stage.run_finish]

/-- Removing the empty moves breaks no promise. -/
theorem fst_run_eliminateEpsilon_ne_defect (hw : n.WellFormed tags) (σ : Session) (cause : Defect) :
    (n.eliminateEpsilon.run σ).1 ≠ .error (.defect cause) := by
  obtain ⟨c, -, hrun⟩ := run_eliminateEpsilon hw σ
  rw [hrun]
  exact map_ne_error (c.prune.graph.checkNfa_ne_defect cause)

/-! ## What the images read -/

namespace Images

variable {image : State → State}

theorem epsilonFree (h : Images n image c) : c.EpsilonFree := by
  intro f hf
  obtain ⟨s, -, e, -, hx, -, rfl⟩ := (h.mem_arcs f).mp hf
  exact hx

/-- Where there are images, arcs on a character are arcs after empty moves. -/
theorem reads_of_image (h : Images n image c) (hw : n.WellFormed tags) {i j : Nat} {w : List Char}
    (r : Reads c i w j) : ∀ s ∈ n.states, (image s).id = i →
      ∃ t ∈ n.states, (image t).id = j ∧ Reads n s.id w t.id := by
  induction r with
  | stay i => exact fun s hs e => ⟨s, hs, e, .stay _⟩
  | empty hf hx => exact absurd hx (h.epsilonFree _ hf)
  | @char f x w j hf hx _ ih =>
      intro s hs hi
      obtain ⟨s', hs', e, he, -, r, rfl⟩ := (h.mem_arcs f).mp hf
      obtain rfl := h.injective s hs s' hs' hi
      obtain ⟨t, ht, hj, r'⟩ := ih e.target (hw.target_mem e he) rfl
      exact ⟨t, ht, hj, r.append (.char he hx r')⟩

theorem image_of_reads (h : Images n image c) (hw : n.WellFormed tags) {w : List Char} {j : Nat}
    {s : State} (hs : s ∈ n.states) (r : Reads n s.id w j) :
    ∃ t ∈ n.states, Reads c (image s).id w (image t).id ∧ Reads n t.id [] j := by
  induction w generalizing s with
  | nil => exact ⟨s, hs, .stay _, r⟩
  | cons x w ih =>
      obtain ⟨e, he, r, hx, r'⟩ := reads_cons_iff.mp r
      obtain ⟨t, ht, rt, rj⟩ := ih (hw.target_mem e he) r'
      have hf : (⟨image s, e.symbol, image e.target⟩ : Arc) ∈ c.arcs :=
        (h.mem_arcs _).mpr ⟨s, hs, e, he, by rw [hx]; exact Symbol.noConfusion, r, rfl⟩
      exact ⟨t, ht, .char hf hx rt, rj⟩

/-- The images read the word, and then empty moves lead on. -/
theorem reads_iff (h : Images n image c) (hw : n.WellFormed tags) {w : List Char} {j : Nat}
    {s : State} (hs : s ∈ n.states) : Reads n s.id w j ↔
      ∃ t ∈ n.states, Reads c (image s).id w (image t).id ∧ Reads n t.id [] j := by
  constructor
  · exact h.image_of_reads hw hs
  · intro h'
    obtain ⟨t, ht, r, rj⟩ := h'
    obtain ⟨t', ht', e, r'⟩ := h.reads_of_image hw r s hs rfl
    obtain rfl := h.injective t ht t' ht' e.symm
    have := r'.append rj
    rwa [List.append_nil] at this

/-! ### Tags -/

theorem accept_eq_some (h : Images n image c) {s : State} (hs : s ∈ n.states) {a : Accept}
    (ha : (image s).accept = some a) : ∃ u ∈ n.states, Reads n s.id [] u.id ∧ u.accept = some a ∧
      ∀ v ∈ n.states, Reads n s.id [] v.id → v.accepting → u.id ≤ v.id := by
  obtain ⟨members, hm, he⟩ := h.accept s hs
  obtain ⟨u, hu, hacc, hfirst⟩ := of_firstAccept_eq_some hm.ascending (he.symm.trans ha)
  obtain ⟨hu, r⟩ := (hm.mem_iff u).mp hu
  exact ⟨u, hu, r, hacc, fun v hv rv => hfirst v ((hm.mem_iff v).mpr ⟨hv, rv⟩)⟩

theorem accepting_iff (h : Images n image c) {s : State} (hs : s ∈ n.states) :
    (image s).accepting ↔ ∃ u ∈ n.states, Reads n s.id [] u.id ∧ u.accepting := by
  obtain ⟨members, hm, he⟩ := h.accept s hs
  rw [State.accepting, he]
  constructor
  · intro ha
    obtain ⟨a, ha⟩ := Option.isSome_iff_exists.mp ha
    obtain ⟨u, hu, hacc, -⟩ := of_firstAccept_eq_some hm.ascending ha
    obtain ⟨hu, r⟩ := (hm.mem_iff u).mp hu
    exact ⟨u, hu, r, by rw [State.accepting, hacc]; rfl⟩
  · intro h'
    obtain ⟨u, hu, r, hacc⟩ := h'
    rw [Option.isSome_iff_ne_none]
    intro hn
    have := firstAccept_eq_none_iff.mp hn u ((hm.mem_iff u).mpr ⟨hu, r⟩)
    rw [State.accepting, this] at hacc
    cases hacc

/-! ### What is completed -/

/-- An image has the tag of a state that is reached by the same words. -/
theorem completes_of_completes (h : Images n image c) (hw : n.WellFormed tags) {w : List Char}
    {tag : Accept} (hc : c.Completes w tag) : n.Completes w tag := by
  obtain ⟨u, hu, r, ha⟩ := hc
  obtain ⟨s, hs, rfl⟩ := (h.mem_states u).mp hu
  rw [h.start] at r
  obtain ⟨v, hv, rv, hacc, -⟩ := h.accept_eq_some hs ha
  exact ⟨v, hv, (h.reads_iff hw hw.start_mem).mpr ⟨s, hs, r, rv⟩, hacc⟩

/-- Where states issued earlier rank lower, the images lose no tag but to one that ranks lower. -/
theorem exists_completes (h : Images n image c) (hw : n.WellFormed tags)
    (hrank : ∀ s ∈ n.states, ∀ t ∈ n.states, ∀ a ∈ s.accept, ∀ b ∈ t.accept, s.id ≤ t.id →
      a.priority ≤ b.priority) {w : List Char} {tag : Accept} (hn : n.Completes w tag) :
    ∃ tag', c.Completes w tag' ∧ tag'.priority ≤ tag.priority := by
  obtain ⟨u, hu, r, ha⟩ := hn
  obtain ⟨s, hs, rs, ru⟩ := (h.reads_iff hw hw.start_mem).mp r
  obtain ⟨tag', htag⟩ := Option.isSome_iff_exists.mp
    ((h.accepting_iff hs).mpr ⟨u, hu, ru, accepting_of_accept ha⟩)
  obtain ⟨v, hv, -, hacc, hfirst⟩ := h.accept_eq_some hs htag
  refine ⟨tag', ⟨image s, (h.mem_states _).mpr ⟨s, hs, rfl⟩, h.start ▸ rs, htag⟩, ?_⟩
  exact hrank v hv u hu tag' hacc tag ha (hfirst u hu ru (accepting_of_accept ha))

theorem noDeadEnd (h : Images n image c) (hw : n.WellFormed tags) (hn : n.NoDeadEnd) :
    c.NoDeadEnd := by
  intro u hu
  obtain ⟨s, hs, rfl⟩ := (h.mem_states u).mp hu
  obtain ⟨t, ht, ha, w, r⟩ := hn s hs
  obtain ⟨v, hv, rv, rt⟩ := (h.reads_iff hw hs).mp r
  exact ⟨image v, (h.mem_states _).mpr ⟨v, hv, rfl⟩, (h.accepting_iff hv).mpr ⟨t, ht, rt, ha⟩, w, rv⟩

end Images

/-- Where there are no dead ends, removing empty moves does not fail and leaves none. -/
theorem run_eliminateEpsilon_ok (hw : n.WellFormed tags) (hn : n.NoDeadEnd) (σ : Session) :
    ∃ image c τ, Images n image c ∧ c.prune.NoDeadEnd ∧
      n.eliminateEpsilon.run σ = (.ok c.prune, τ) := by
  obtain ⟨c, hi, hrun⟩ := run_eliminateEpsilon hw σ
  obtain ⟨tags', hwc⟩ := hi.wellFormed
  have hnc := (hi.noDeadEnd hw hn).prune hwc
  rw [checkNfa_eq_ok (hnc.hasFinal hwc.prune) (connected_prune hwc) hi.epsilonFree.prune] at hrun
  exact ⟨_, c, _, hi, hnc, hrun⟩

end LexicalAutomata.Nfa
