/-
# `LexicalAutomata.Proofs.Dfa.Minimal` — classes of states that are the same

The places left over by a search for representatives are pairwise not alike, and every place is alike
to one of them; so classes are numbered by their representatives, and two states have the same class
exactly if nothing tells them apart (`classNumber_eq_iff`).  An arc of the quotient stands for the arcs
of a whole class.  These lead into one class, so no two of them disagree (`quotient_ok`).  What can be
seen of a state can be seen of its class (`QuotientOf.same`), and different classes can be told
apart.
-/
import LexicalAutomata.Proofs.Automaton.Validity
import LexicalAutomata.Proofs.Dfa.Separation

namespace LexicalAutomata.Dfa

open Automaton

/-! ## Representatives -/

section Representatives
variable {r : Nat → Nat → Bool} {n i j : Nat}

theorem representatives_succ (r : Nat → Nat → Bool) (n : Nat) : representatives r (n + 1) =
    if (representatives r n).any fun x => r x n then representatives r n
    else representatives r n ++ [n] := by
  rw [representatives, List.range_succ, List.foldl_append]
  rfl

theorem lt_of_mem_representatives (h : i ∈ representatives r n) : i < n := by
  induction n with
  | zero => cases h
  | succ n ih =>
      rw [representatives_succ] at h
      split at h
      · exact Nat.lt_succ_of_lt (ih h)
      · rcases List.mem_append.mp h with h | h
        · exact Nat.lt_succ_of_lt (ih h)
        · rw [List.mem_singleton.mp h]
          exact Nat.lt_succ_self n

/-- Every place is alike to a representative that is no larger. -/
theorem exists_representative (refl : ∀ i, r i i) (h : i < n) :
    ∃ x ∈ representatives r n, x ≤ i ∧ r x i := by
  induction n with
  | zero => cases h
  | succ n ih =>
      rw [representatives_succ]
      rcases Nat.lt_succ_iff_lt_or_eq.mp h with h | rfl
      · obtain ⟨x, hx, hr⟩ := ih h
        split
        · exact ⟨x, hx, hr⟩
        · exact ⟨x, List.mem_append_left _ hx, hr⟩
      · split
        · next hany =>
            obtain ⟨x, hx, hr⟩ := List.any_eq_true.mp hany
            exact ⟨x, hx, Nat.le_of_lt (lt_of_mem_representatives hx), hr⟩
        · exact ⟨i, List.mem_append_right _ List.mem_cons_self, Nat.le_refl i, refl i⟩

theorem representatives_ascending (r : Nat → Nat → Bool) (n : Nat) :
    (representatives r n).Pairwise (· < ·) := by
  induction n with
  | zero => exact .nil
  | succ n ih =>
      rw [representatives_succ]
      split
      · exact ih
      · refine List.pairwise_append.mpr ⟨ih, List.pairwise_singleton _ _, fun x hx y hy => ?_⟩
        rw [List.mem_singleton.mp hy]
        exact lt_of_mem_representatives hx

/-- No representative is alike to a later one. -/
theorem representatives_pairwise (r : Nat → Nat → Bool) (n : Nat) :
    (representatives r n).Pairwise fun x y => ¬ r x y := by
  induction n with
  | zero => exact .nil
  | succ n ih =>
      rw [representatives_succ]
      split
      · exact ih
      · next hany =>
          refine List.pairwise_append.mpr ⟨ih, List.pairwise_singleton _ _, ?_⟩
          intro x hx y hy hr
          rw [List.mem_singleton.mp hy] at hr
          exact hany (List.any_eq_true.mpr ⟨x, hx, hr⟩)

/-- The class of a place: the place of its representative among the representatives. -/
def classAt (r : Nat → Nat → Bool) (n i : Nat) : Nat :=
  (representatives r n).findIdx fun x => r x i

theorem classAt_spec (refl : ∀ i, r i i) (h : i < n) :
    ∃ x, (representatives r n)[classAt r n i]? = some x ∧ r x i := by
  obtain ⟨x, hx, -, hr⟩ := exists_representative refl h
  have hlt := List.findIdx_lt_length_of_exists (p := fun x => r x i) ⟨x, hx, hr⟩
  exact ⟨_, List.getElem?_eq_getElem hlt, List.findIdx_getElem (w := hlt)⟩

/-- The representative of a place is no larger than the place. -/
theorem representative_le (refl : ∀ i, r i i) (h : i < n) {x : Nat}
    (hx : (representatives r n)[classAt r n i]? = some x) : x ≤ i := by
  obtain ⟨y, hy, hle, hr⟩ := exists_representative refl h
  obtain ⟨k, hk, rfl⟩ := List.getElem_of_mem hy
  obtain ⟨hlt, rfl⟩ := List.getElem?_eq_some_iff.mp hx
  refine Nat.le_trans ?_ hle
  rcases Nat.lt_trichotomy (classAt r n i) k with hlt' | heq | hgt
  · exact Nat.le_of_lt
      (List.pairwise_iff_getElem.mp (representatives_ascending r n) _ k hlt hk hlt')
  · exact Nat.le_of_eq (getElem_congr_idx heq)
  · have hfalse := List.not_of_lt_findIdx hgt
    rw [hr] at hfalse
    cases hfalse

theorem classAt_representative (refl : ∀ i, r i i) {k : Nat}
    (h : (representatives r n)[k]? = some i) : classAt r n i = k := by
  obtain ⟨hlt, e⟩ := List.getElem?_eq_some_iff.mp h
  refine (List.findIdx_eq hlt).mpr ⟨e ▸ refl _, fun j hj => ?_⟩
  have := List.pairwise_iff_getElem.mp (representatives_pairwise r n) j k
    (Nat.lt_trans hj hlt) hlt hj
  rw [e] at this
  exact Bool.eq_false_iff.mpr this

theorem classAt_eq_iff (refl : ∀ i, r i i) (symm : ∀ {i j}, i < n → j < n → r i j → r j i)
    (trans : ∀ {i j k}, i < n → j < n → k < n → r i j → r j k → r i k) (hi : i < n) (hj : j < n) :
    classAt r n i = classAt r n j ↔ r i j := by
  constructor
  · intro e
    obtain ⟨x, hx, hxi⟩ := classAt_spec refl hi
    obtain ⟨y, hy, hyj⟩ := classAt_spec refl hj
    rw [e, hy] at hx
    obtain rfl := Option.some_inj.mp hx
    have hlt := lt_of_mem_representatives (List.mem_of_getElem? hy)
    exact trans hi hlt hj (symm hlt hi hxi) hyj
  · intro hij
    have e : ∀ x ∈ representatives r n, r x i = r x j := by
      intro x hx
      have hlt := lt_of_mem_representatives hx
      exact Bool.eq_iff_iff.mpr ⟨fun h => trans hlt hi hj h hij,
        fun h => trans hlt hj hi h (symm hi hj hij)⟩
    obtain ⟨y, hy, -⟩ := classAt_spec refl hj
    obtain ⟨hlt, -⟩ := List.getElem?_eq_some_iff.mp hy
    obtain ⟨htrue, hfalse⟩ := (List.findIdx_eq hlt).mp rfl
    refine (List.findIdx_eq hlt).mpr ⟨?_, fun k hk => ?_⟩
    · rw [e _ (List.getElem_mem hlt)]
      exact htrue
    · rw [e _ (List.getElem_mem _)]
      exact hfalse k hk

end Representatives

/-! ## The classes of states -/

section Classes
variable {tags : Tags} {d : Dfa} {first : Nat} {s t : State}

/-- The classes, by the pairs of places that are left. -/
def classesOf (d : Dfa) : Classes :=
  ⟨d.ordered, representatives (alike d.leftPairs) d.ordered.length,
    (List.range d.ordered.length).map (classAt (alike d.leftPairs) d.ordered.length)⟩

theorem classes_eq_ok (h : d.WellFormed tags) : d.classes = .ok d.classesOf := by
  show (d.ordered.mapM (d.outline d.ordered) >>= _) = _
  rw [outlines_eq_ok h]
  rfl

/-- The class of a state. -/
def classNumber (d : Dfa) (s : State) : Nat :=
  classAt (alike d.leftPairs) d.ordered.length (d.place s)

/-- The fresh state of the class of a state. -/
def classState (d : Dfa) (first : Nat) (s : State) : State :=
  d.classesOf.state first (d.classNumber s)

theorem stateOf_eq_ok (h : d.WellFormed tags) (hs : s ∈ d.states) :
    d.classesOf.stateOf first s = .ok (d.classState first s) := by
  have hclass : d.classesOf.classOf[d.place s]? = some (d.classNumber s) := by
    rw [classesOf, List.getElem?_map, List.getElem?_range (place_lt h hs)]
    rfl
  have hplace : placeOf d.classesOf.order s = .ok (d.place s) := placeOf_ordered h hs
  rw [Classes.stateOf, hplace]
  simp only [bind, Except.bind, hclass]
  rfl

theorem classNumber_eq_iff_alike (h : d.WellFormed tags) (hd : d.Deterministic) (hs : s ∈ d.states)
    (ht : t ∈ d.states) : d.classNumber s = d.classNumber t ↔ AlikeIn d d.leftPairs s t :=
  classAt_eq_iff (alike_refl _) (fun _ _ => alike_symm) (alike_trans h hd) (place_lt h hs) (place_lt h ht)

/-- States have the same class if nothing tells them apart. -/
theorem classNumber_eq_iff (h : d.WellFormed tags) (hd : d.Deterministic) (he : d.EpsilonFree)
    (hs : s ∈ d.states) (ht : t ∈ d.states) :
    d.classNumber s = d.classNumber t ↔ Same d s d t :=
  (classNumber_eq_iff_alike h hd hs ht).trans (alike_iff_same h hd he hs ht)

/-- A class has the tag of one of its members. -/
theorem exists_representative_state (h : d.WellFormed tags) (hd : d.Deterministic)
    (he : d.EpsilonFree) (hs : s ∈ d.states) :
    ∃ u ∈ d.states, Same d u d s ∧ (d.classState first s).accept = u.accept := by
  obtain ⟨x, hx, ha⟩ := classAt_spec (alike_refl d.leftPairs) (place_lt h hs)
  have hlt := lt_of_mem_representatives (List.mem_of_getElem? hx)
  obtain ⟨u, hu, rfl, hget⟩ := exists_of_lt h hlt
  refine ⟨u, hu, (alike_iff_same h hd he hu hs).mp ha, ?_⟩
  have hrep : d.classesOf.representatives[d.classNumber s]? = some (d.place u) := hx
  show (do (← d.classesOf.order[← d.classesOf.representatives[d.classNumber s]?]?).accept) = _
  rw [hrep]
  show (do (← d.ordered[d.place u]?).accept) = _
  rw [hget]
  rfl

theorem mem_classStates (h : d.WellFormed tags) {u : State} :
    u ∈ d.classesOf.states first ↔ ∃ s ∈ d.states, d.classState first s = u := by
  rw [Classes.states, List.mem_map]
  constructor
  · intro h'
    obtain ⟨k, hk, rfl⟩ := h'
    have hget := List.getElem?_eq_getElem (List.mem_range.mp hk)
    have hlt := lt_of_mem_representatives (List.mem_of_getElem? hget)
    obtain ⟨s, hs, hp, -⟩ := exists_of_lt h hlt
    refine ⟨s, hs, ?_⟩
    have hk' : d.classNumber s = k := by
      rw [classNumber, hp]
      exact classAt_representative (alike_refl _) hget
    rw [classState, hk']
  · intro h'
    obtain ⟨s, hs, rfl⟩ := h'
    obtain ⟨x, hx, -⟩ := classAt_spec (alike_refl d.leftPairs) (place_lt h hs)
    exact ⟨d.classNumber s, List.mem_range.mpr (List.getElem?_eq_some_iff.mp hx).1, rfl⟩

theorem classState_eq_of_id (e : (d.classState first s).id = (d.classState first t).id) :
    d.classState first s = d.classState first t := by
  have : d.classNumber s = d.classNumber t := Nat.add_left_cancel e
  rw [classState, this, classState]

theorem classState_eq_iff_classNumber :
    d.classState first s = d.classState first t ↔ d.classNumber s = d.classNumber t := by
  constructor
  · intro e
    exact Nat.add_left_cancel (congrArg State.id e)
  · intro e
    rw [classState, e, classState]

theorem classState_eq_iff (h : d.WellFormed tags) (hd : d.Deterministic) (he : d.EpsilonFree)
    (hs : s ∈ d.states) (ht : t ∈ d.states) :
    d.classState first s = d.classState first t ↔ Same d s d t :=
  classState_eq_iff_classNumber.trans (classNumber_eq_iff h hd he hs ht)

/-- Where empty moves are symbols like others, states of one class are those that no word separates. -/
theorem classState_eq_iff_inseparable (h : d.WellFormed tags) (hd : d.Deterministic)
    (hs : s ∈ d.states) (ht : t ∈ d.states) :
    d.classState first s = d.classState first t ↔ d.Inseparable s t :=
  classState_eq_iff_classNumber.trans
    ((classNumber_eq_iff_alike h hd hs ht).trans (alike_iff_inseparable h hd hs ht))

end Classes

/-! ## The quotient -/

/-- `q` is the automaton of the classes of states of `d`. -/
structure QuotientOf (d : Dfa) (toClass : State → State) (q : Dfa) : Prop where
  wellFormed : ∃ tags, q.WellFormed tags
  start : q.start = toClass d.start
  eq_iff : ∀ s ∈ d.states, ∀ t ∈ d.states, toClass s = toClass t ↔ Same d s d t
  mem_states : ∀ u, u ∈ q.states ↔ ∃ s ∈ d.states, toClass s = u
  mem_arcs : ∀ f, f ∈ q.arcs ↔ ∃ e ∈ d.arcs, f = ⟨toClass e.source, e.symbol, toClass e.target⟩
  accept : ∀ s ∈ d.states, ∃ u ∈ d.states, Same d u d s ∧ (toClass s).accept = u.accept

section Construction
variable {tags tags' : Tags} {d m : Dfa} {first : Nat}

/-- The arc of the classes of an arc's ends. -/
def classArc (d : Dfa) (first : Nat) (e : Arc) : Arc :=
  ⟨d.classState first e.source, e.symbol, d.classState first e.target⟩

/-- Arcs of one class on one symbol lead to one class. -/
theorem classArc_eq (h : d.WellFormed tags) (hd : d.Deterministic) {e f : Arc}
    (hem : e ∈ d.arcs) (hfm : f ∈ d.arcs)
    (hs : (d.classState first f.source).id = (d.classState first e.source).id)
    (hx : f.symbol = e.symbol) : d.classArc first f = d.classArc first e := by
  have hsource := classState_eq_of_id hs
  have hinseparable :=
    (classState_eq_iff_inseparable h hd (h.source_mem f hfm) (h.source_mem e hem)).mp hsource
  have htarget : d.classState first f.target = d.classState first e.target := by
    have hr := hinseparable.target? e.symbol
    rw [hd.target?_eq_some_iff.mpr ⟨f, hfm, rfl, hx, rfl⟩,
      hd.target?_eq_some_iff.mpr ⟨e, hem, rfl, rfl, rfl⟩] at hr
    cases hr with
    | some hr =>
        exact (classState_eq_iff_inseparable h hd (h.target_mem f hfm) (h.target_mem e hem)).mpr hr
  rw [classArc, classArc, hsource, hx, htarget]

theorem setClassArc_ok (h : d.WellFormed tags) (hd : d.Deterministic)
    (htags : ∀ s ∈ d.states, (d.classState first s).Of tags') {base : Dfa} {states : List State}
    {done : List Arc} (hbase : base.arcs = []) (hdone : ∀ e ∈ done, e ∈ d.arcs)
    (hm : Extended tags' base states (done.map (d.classArc first)) m) {e : Arc} (hem : e ∈ d.arcs) :
    ∃ m', setClassArc d.classesOf first m e = .ok m' ∧
      Extended tags' base states ((done ++ [e]).map (d.classArc first)) m' := by
  have hs := h.source_mem e hem
  have ht := h.target_mem e hem
  have honly : ∀ f ∈ m.arcs, f.source.id = (d.classState first e.source).id →
      f.symbol = e.symbol → f = d.classArc first e := by
    intro f hf hsource hx
    rcases (hm.mem_arcs f).mp hf with hf | hf
    · rw [hbase] at hf
      cases hf
    · obtain ⟨e', he', rfl⟩ := List.mem_map.mp hf
      exact classArc_eq h hd hem (hdone e' he') hsource hx
  refine ⟨m.setArc (d.classState first e.source) e.symbol (d.classState first e.target), ?_, ?_⟩
  · rw [setClassArc, stateOf_eq_ok h hs, stateOf_eq_ok h ht]
    cases htarget : m.target? (d.classState first e.source) e.symbol with
    | none =>
        simp only [bind, Except.bind, htarget]
        rfl
    | some old =>
        simp only [bind, Except.bind, htarget]
        obtain ⟨f, hf, hsource, hx, rfl⟩ := mem_targets.mp (List.mem_of_head? htarget)
        rw [honly f hf hsource hx]
        exact if_pos rfl
  · rw [List.map_append]
    exact hm.setArc (htags _ hs) (htags _ ht) honly

/-- What carries the states of all classes and has the arcs of all arcs is the quotient. -/
theorem quotientOf_of_extended (h : d.WellFormed tags) (hd : d.Deterministic) (he : d.EpsilonFree)
    {q : Dfa} (hext : Extended tags' (Automaton.new (d.classState first d.start))
      (d.classesOf.states first) (d.arcs.map (d.classArc first)) q) :
    QuotientOf d (d.classState first) q := by
  have harcs : ∀ f, f ∈ q.arcs ↔
      ∃ e ∈ d.arcs, f = ⟨d.classState first e.source, e.symbol, d.classState first e.target⟩ := by
    intro f
    rw [hext.mem_arcs, List.mem_map]
    refine (or_iff_right List.not_mem_nil).trans ?_
    exact exists_congr fun e => and_congr_right fun _ => eq_comm
  refine ⟨⟨tags', hext.wellFormed⟩, hext.start,
    fun s hs t ht => classState_eq_iff h hd he hs ht, fun u => ⟨?_, ?_⟩, harcs,
    fun s hs => exists_representative_state h hd he hs⟩
  · intro hu
    rcases (hext.mem_states u).mp hu with hu | hu | ⟨f, hf, hu⟩
    · exact ⟨d.start, h.start_mem, (List.mem_singleton.mp hu).symm⟩
    · exact (mem_classStates h).mp hu
    · obtain ⟨e, hem, rfl⟩ := (harcs f).mp ((hext.mem_arcs f).mpr (.inr hf))
      rcases hu with rfl | rfl
      · exact ⟨e.source, h.source_mem e hem, rfl⟩
      · exact ⟨e.target, h.target_mem e hem, rfl⟩
  · intro hu
    exact (hext.mem_states u).mpr (.inr (.inl ((mem_classStates h).mpr hu)))

/-- The quotient is made without a failure, whether or not there are empty moves. -/
theorem quotient_extended (h : d.WellFormed tags) (hd : d.Deterministic) (first : Nat) :
    ∃ tags' q, Extended tags' (Automaton.new (d.classState first d.start)) (d.classesOf.states first)
      (d.arcs.map (d.classArc first)) q ∧ d.quotient d.classesOf first = .ok q.prune := by
  obtain ⟨tags', htags⟩ := exists_tags (d.states.map (d.classState first)) (by
    intro u hu v hv e
    obtain ⟨s, -, rfl⟩ := List.mem_map.mp hu
    obtain ⟨t, -, rfl⟩ := List.mem_map.mp hv
    exact classState_eq_of_id e)
  have htags : ∀ s ∈ d.states, (d.classState first s).Of tags' :=
    fun s hs => htags _ (List.mem_map.mpr ⟨s, hs, rfl⟩)
  have hnew : WellFormed tags' (Automaton.new (d.classState first d.start) : Dfa) :=
    .new (htags _ h.start_mem)
  have hcarried := hnew.extended.addStates (d.classesOf.states first) (by
    intro u hu
    obtain ⟨s, hs, rfl⟩ := (mem_classStates h).mp hu
    exact htags s hs)
  rw [List.nil_append] at hcarried
  obtain ⟨q, hq, hext⟩ := foldlM_ok (I := fun done m => Extended tags'
    (Automaton.new (d.classState first d.start)) (d.classesOf.states first)
    (done.map (d.classArc first)) m) hcarried
    fun done e rest m (hall : d.arcs = done ++ e :: rest) hm =>
      setClassArc_ok h hd htags rfl (fun f hf => hall ▸ List.mem_append_left _ hf) hm
        (hall ▸ List.mem_append_right _ List.mem_cons_self)
  refine ⟨tags', q, hext, ?_⟩
  rw [quotient, stateOf_eq_ok h h.start_mem]
  show (d.arcs.foldlM (setClassArc d.classesOf first) _ >>= _) = _
  rw [hq]
  rfl

theorem quotient_ok (h : d.WellFormed tags) (hd : d.Deterministic) (he : d.EpsilonFree)
    (first : Nat) : ∃ q, QuotientOf d (d.classState first) q ∧
      d.quotient d.classesOf first = .ok q.prune := by
  obtain ⟨tags', q, hext, hok⟩ := quotient_extended h hd first
  exact ⟨q, quotientOf_of_extended h hd he hext, hok⟩

/-- What minimization does where the quotient is made: the quotient is checked. -/
theorem run_minimize_of_quotient (h : d.WellFormed tags) (σ : Session)
    (hok : d.quotient d.classesOf σ.supply.issued = .ok m) : d.minimize.run σ =
      (m.graph.checkDfa.map fun _ => m,
        (σ.issue (σ.supply.issued + d.classesOf.representatives.length)).record
          (.minimized m.states.length d.states.length m.arcs.length)) := by
  rw [minimize, classes_eq_ok h, Stage.run_bind_ok (Stage.run_ofExcept _),
    Stage.run_bind_ok Stage.run_issued, Stage.run_bind_ok (Stage.run_setIssued _), hok,
    Stage.run_bind_ok (Stage.run_ofExcept _), Stage.run_finish]

/-- Minimization breaks no promise, whether or not there are empty moves. -/
theorem fst_run_minimize_ne_defect (h : d.WellFormed tags) (hd : d.Deterministic) (σ : Session)
    (cause : Defect) : (d.minimize.run σ).1 ≠ .error (.defect cause) := by
  obtain ⟨tags', q, -, hok⟩ := quotient_extended h hd σ.supply.issued
  rw [run_minimize_of_quotient h σ hok]
  exact map_ne_error (q.prune.graph.checkDfa_ne_defect cause)

/-- Minimization does not fail; the result is then checked. -/
theorem run_minimize (h : d.WellFormed tags) (hd : d.Deterministic) (he : d.EpsilonFree)
    (σ : Session) : ∃ toClass q, QuotientOf d toClass q ∧ d.minimize.run σ =
      (q.prune.graph.checkDfa.map fun _ => q.prune,
        (σ.issue (σ.supply.issued + d.classesOf.representatives.length)).record
          (.minimized q.prune.states.length d.states.length q.prune.arcs.length)) := by
  obtain ⟨q, hq, hok⟩ := quotient_ok h hd he σ.supply.issued
  exact ⟨_, q, hq, run_minimize_of_quotient h σ hok⟩

end Construction

/-! ## What can be seen of a class -/

namespace QuotientOf

variable {tags : Tags} {d q : Dfa} {toClass : State → State} {s t : State}

theorem epsilonFree (h : QuotientOf d toClass q) (he : d.EpsilonFree) : q.EpsilonFree := by
  intro f hf
  obtain ⟨e, hem, rfl⟩ := (h.mem_arcs f).mp hf
  exact he e hem

theorem eq_of_id (h : QuotientOf d toClass q) (hs : s ∈ d.states) (ht : t ∈ d.states)
    (e : (toClass s).id = (toClass t).id) : toClass s = toClass t := by
  obtain ⟨tags', hw⟩ := h.wellFormed
  exact hw.eq_of_id ((h.mem_states _).mpr ⟨s, hs, rfl⟩) ((h.mem_states _).mpr ⟨t, ht, rfl⟩) e

theorem target_eq (h : QuotientOf d toClass q) (hw : d.WellFormed tags) (hd : d.Deterministic)
    (he : d.EpsilonFree) {e : Arc} (hem : e ∈ d.arcs) (hs : s ∈ d.states)
    (hid : (toClass e.source).id = (toClass s).id) :
    ∃ t, d.target? s e.symbol = some t ∧ toClass e.target = toClass t := by
  have hsame := (h.eq_iff _ (hw.source_mem e hem) s hs).mp (h.eq_of_id (hw.source_mem e hem) hs hid)
  cases hc : e.symbol with
  | epsilon => exact absurd hc (he e hem)
  | char c =>
      have hr := hsame.step c
      rw [(step_eq_some_iff hd).mpr ⟨e, hem, rfl, hc, rfl⟩] at hr
      cases hstep : d.step s c with
      | none =>
          rw [hstep] at hr
          cases hr
      | some t =>
          rw [hstep] at hr
          cases hr with
          | some hr =>
              exact ⟨t, hstep, (h.eq_iff _ (hw.target_mem e hem) t (step_mem hw hd hstep)).mpr hr⟩

theorem deterministic (h : QuotientOf d toClass q) (hw : d.WellFormed tags) (hd : d.Deterministic)
    (he : d.EpsilonFree) : q.Deterministic := by
  intro f hf g hg hs hx
  obtain ⟨e, hem, rfl⟩ := (h.mem_arcs f).mp hf
  obtain ⟨e', hem', rfl⟩ := (h.mem_arcs g).mp hg
  have hsource := h.eq_of_id (hw.source_mem e hem) (hw.source_mem e' hem') hs
  obtain ⟨t, ht, htarget⟩ := h.target_eq hw hd he hem (hw.source_mem e' hem') hs
  obtain ⟨f', hf', hs', hx', rfl⟩ := hd.target?_eq_some_iff.mp ht
  rw [hd f' hf' e' hem' hs' (hx'.trans hx)] at htarget
  exact congr (congr (congrArg Arc.mk hsource) hx) htarget

theorem step_eq (h : QuotientOf d toClass q) (hw : d.WellFormed tags) (hd : d.Deterministic)
    (he : d.EpsilonFree) (hs : s ∈ d.states) (c : Char) :
    q.step (toClass s) c = (d.step s c).map toClass := by
  cases hstep : d.step s c with
  | none =>
      refine target?_eq_none_iff.mpr fun f hf hid hx => ?_
      obtain ⟨e, hem, rfl⟩ := (h.mem_arcs f).mp hf
      obtain ⟨t, ht, -⟩ := h.target_eq hw hd he hem hs hid
      have hx : e.symbol = .char c := hx
      rw [hx] at ht
      rw [step, ht] at hstep
      cases hstep
  | some t =>
      obtain ⟨e, hem, hsource, hx, rfl⟩ := (step_eq_some_iff hd).mp hstep
      refine (step_eq_some_iff (h.deterministic hw hd he)).mpr
        ⟨_, (h.mem_arcs _).mpr ⟨e, hem, rfl⟩, ?_, hx, rfl⟩
      rw [hw.eq_of_id (hw.source_mem e hem) hs hsource]

theorem runFrom_eq (h : QuotientOf d toClass q) (hw : d.WellFormed tags) (hd : d.Deterministic)
    (he : d.EpsilonFree) (hs : s ∈ d.states) (w : List Char) :
    q.runFrom (toClass s) w = (d.runFrom s w).map toClass := by
  induction w generalizing s with
  | nil => rfl
  | cons c w ih =>
      rw [runFrom_cons, runFrom_cons, h.step_eq hw hd he hs c]
      cases hstep : d.step s c with
      | none => rfl
      | some t => exact ih (step_mem hw hd hstep)

theorem run_eq (h : QuotientOf d toClass q) (hw : d.WellFormed tags) (hd : d.Deterministic)
    (he : d.EpsilonFree) (w : List Char) : q.run w = (d.run w).map toClass := by
  rw [run, h.start]
  exact h.runFrom_eq hw hd he hw.start_mem w

theorem token_eq (h : QuotientOf d toClass q) (hs : s ∈ d.states) :
    (toClass s).token = s.token := by
  obtain ⟨u, -, hsame, hacc⟩ := h.accept s hs
  rw [State.token, hacc]
  exact hsame.token

/-- A state is the same as its class. -/
theorem same (h : QuotientOf d toClass q) (hw : d.WellFormed tags) (hd : d.Deterministic)
    (he : d.EpsilonFree) (hs : s ∈ d.states) : Same q (toClass s) d s := by
  intro w
  rw [seenAfter, seenAfter, h.runFrom_eq hw hd he hs]
  cases hr : d.runFrom s w with
  | none => rfl
  | some t => exact congrArg some (h.token_eq (runFrom_mem hw hd he hs hr))

/-- Different classes can be told apart. -/
theorem eq_of_same (h : QuotientOf d toClass q) (hw : d.WellFormed tags) (hd : d.Deterministic)
    (he : d.EpsilonFree) {u v : State} (hu : u ∈ q.states) (hv : v ∈ q.states)
    (hsame : Same q u q v) : u = v := by
  obtain ⟨s, hs, rfl⟩ := (h.mem_states u).mp hu
  obtain ⟨t, ht, rfl⟩ := (h.mem_states v).mp hv
  exact (h.eq_iff s hs t ht).mpr
    (((h.same hw hd he hs).symm.trans hsame).trans (h.same hw hd he ht))

theorem noDeadEnd (h : QuotientOf d toClass q) (hw : d.WellFormed tags) (hd : d.Deterministic)
    (he : d.EpsilonFree) (hn : d.NoDeadEnd) : q.NoDeadEnd := by
  obtain ⟨tags', hwq⟩ := h.wellFormed
  intro u hu
  obtain ⟨s, hs, rfl⟩ := (h.mem_states u).mp hu
  obtain ⟨t, ht, ha, w, r⟩ := hn s hs
  have hrun := (runFrom_eq_some_iff hw hd he hs).mpr ⟨ht, r⟩
  have hq : q.runFrom (toClass s) w = some (toClass t) := by
    rw [h.runFrom_eq hw hd he hs, hrun]
    rfl
  refine ⟨toClass t, (h.mem_states _).mpr ⟨t, ht, rfl⟩, ?_, w,
    ((runFrom_eq_some_iff hwq (h.deterministic hw hd he) (h.epsilonFree he) hu).mp hq).2⟩
  have htoken := congrArg Option.isSome (h.token_eq ht)
  rw [State.token, State.token, Option.isSome_map, Option.isSome_map] at htoken
  rw [State.accepting, htoken]
  exact ha

end QuotientOf

end LexicalAutomata.Dfa
