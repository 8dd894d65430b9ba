/-
# `LexicalAutomata.Proofs.Expr.Matching` — the reference matcher computes the language

A factor of the input is a part of it that belongs to the language of an expression: `Factor input e
p q` says that one begins at position `p` and ends at `q`.  The matcher maps a set of positions to
the positions where factors that begin at one of them end (`mem_ends`).  For repetition this rests on
a least fixed point: the closure holds what finitely many factors in a row lead to, no more because
every position put in was reached, no less because at the end nothing new can be reached.

Main statement: matching a whole text decides membership in the language (`accepts_iff_lang`).
-/
import Mathlib.Logic.Relation
import LexicalAutomata.Expr.Matching
import LexicalAutomata.Proofs.Expr.Language
import LexicalAutomata.Proofs.Ordered

namespace LexicalAutomata.Expr

/-! ## Factors -/

/-- `Factor input e p q`: what stands between the positions `p` and `q` of the input belongs to the
language of `e`. -/
def Factor (input : List Char) (e : Expr) (p q : Nat) : Prop :=
  ∃ u v, input.drop p = u ++ v ∧ Lang e u ∧ q = p + u.length

variable {input : List Char}

/-- A factor ends within the input, or where it begins. -/
theorem Factor.le_length_or_eq {e : Expr} {p q : Nat} (h : Factor input e p q) :
    q ≤ input.length ∨ q = p := by
  obtain ⟨u, v, huv, -, rfl⟩ := h
  have := congrArg List.length huv
  rw [List.length_drop, List.length_append] at this
  omega

/-- What follows a factor is the rest of the input from its end on. -/
theorem drop_add_of_append {p : Nat} {u v : List Char} (h : input.drop p = u ++ v) :
    input.drop (p + u.length) = v := by
  rw [← List.drop_drop, h, List.drop_left]

theorem factor_literal {text : String} {p q : Nat} :
    Factor input (.literal text) p q ↔
      text.toList.isPrefixOf (input.drop p) ∧ q = p + text.toList.length := by
  simp only [Factor, lang_literal, List.isPrefixOf_iff_prefix]
  constructor
  · intro h
    obtain ⟨_, v, huv, rfl, rfl⟩ := h
    exact ⟨⟨v, huv.symm⟩, rfl⟩
  · intro h
    obtain ⟨⟨v, hv⟩, rfl⟩ := h
    exact ⟨_, v, hv.symm, rfl, rfl⟩

theorem factor_sequence_nil {p q : Nat} : Factor input (.sequence []) p q ↔ q = p := by
  simp only [Factor, lang_sequence_nil]
  constructor
  · intro h
    obtain ⟨_, _, _, rfl, rfl⟩ := h
    rfl
  · rintro rfl
    exact ⟨[], input.drop q, rfl, rfl, rfl⟩

/-- Two factors in a row make a factor of whatever the two words make together. -/
theorem Factor.comp {e f g : Expr} (h : ∀ u v, Lang e u → Lang f v → Lang g (u ++ v))
    {p q r : Nat} (he : Factor input e p q) (hf : Factor input f q r) : Factor input g p r := by
  obtain ⟨u, u', huu', hu, rfl⟩ := he
  obtain ⟨v, v', hvv', hv, rfl⟩ := hf
  rw [drop_add_of_append huu'] at hvv'
  refine ⟨u ++ v, v', ?_, h u v hu hv, ?_⟩
  · rw [huu', hvv', List.append_assoc]
  · rw [List.length_append, Nat.add_assoc]

/-- A factor whose word splits is two factors in a row. -/
theorem exists_factor_of_append {e f : Expr} {p : Nat} {u v w : List Char}
    (h : input.drop p = (u ++ v) ++ w) (hu : Lang e u) (hv : Lang f v) :
    ∃ q, Factor input e p q ∧ Factor input f q (p + (u ++ v).length) := by
  rw [List.append_assoc] at h
  refine ⟨p + u.length, ⟨u, v ++ w, h, hu, rfl⟩, ⟨v, w, drop_add_of_append h, hv, ?_⟩⟩
  rw [List.length_append, Nat.add_assoc]

theorem factor_sequence_cons {e : Expr} {es : List Expr} {p r : Nat} :
    Factor input (.sequence (e :: es)) p r ↔
      ∃ q, Factor input e p q ∧ Factor input (.sequence es) q r := by
  constructor
  · intro h
    obtain ⟨_, w, hw, hl, rfl⟩ := h
    obtain ⟨u, v, rfl, hu, hv⟩ := lang_sequence_cons.mp hl
    exact exists_factor_of_append hw hu hv
  · intro h
    obtain ⟨q, he, hes⟩ := h
    exact Factor.comp (fun u v => .sequence) he hes

theorem factor_alternation {es : List Expr} {p q : Nat} :
    Factor input (.alternation es) p q ↔ ∃ e ∈ es, Factor input e p q := by
  simp only [Factor, lang_alternation]
  constructor
  · intro h
    obtain ⟨u, v, huv, ⟨e, he, hu⟩, rfl⟩ := h
    exact ⟨e, he, u, v, huv, hu, rfl⟩
  · intro h
    obtain ⟨e, he, u, v, huv, hu, rfl⟩ := h
    exact ⟨u, v, huv, ⟨e, he, hu⟩, rfl⟩

theorem factor_optional {e : Expr} {p q : Nat} :
    Factor input (.optional e) p q ↔ q = p ∨ Factor input e p q := by
  simp only [Factor, lang_optional]
  constructor
  · intro h
    obtain ⟨u, v, huv, rfl | hu, rfl⟩ := h
    · exact .inl rfl
    · exact .inr ⟨u, v, huv, hu, rfl⟩
  · intro h
    rcases h with rfl | ⟨u, v, huv, hu, rfl⟩
    · exact ⟨[], _, rfl, .inl rfl, rfl⟩
    · exact ⟨u, v, huv, .inr hu, rfl⟩

/-- Repetition leads wherever factors in a row lead. -/
theorem factor_zeroOrMore {e : Expr} {p q : Nat} :
    Factor input (.zeroOrMore e) p q ↔ Relation.ReflTransGen (Factor input e) p q := by
  constructor
  · intro h'
    obtain ⟨w, rest, hw, hl, rfl⟩ := h'
    -- The induction is on the derivation, one rule of which adds a word at the front.
    generalize he : Expr.zeroOrMore e = e' at hl
    induction hl generalizing p with
    | stop => exact .refl
    | @again e₀ u v hu hv _ ih =>
        obtain rfl := Expr.zeroOrMore.inj he
        obtain ⟨q, hq, hq'⟩ := exists_factor_of_append hw hu hv
        rw [List.append_assoc] at hw
        have := ih (drop_add_of_append hw) rfl
        rw [List.length_append, ← Nat.add_assoc]
        exact .head ⟨u, _, hw, hu, rfl⟩ this
    | literal | emptySequence | sequence | alternation | absent | present | oneOrMore =>
        exact Expr.noConfusion he
  · intro h
    induction h using Relation.ReflTransGen.head_induction_on with
    | refl => exact ⟨[], input.drop q, rfl, .stop e, rfl⟩
    | head h _ ih => exact Factor.comp (fun u v => .again) h ih

theorem factor_oneOrMore {e : Expr} {p r : Nat} :
    Factor input (.oneOrMore e) p r ↔
      ∃ q, Factor input e p q ∧ Factor input (.zeroOrMore e) q r := by
  constructor
  · intro h
    obtain ⟨_, w, hw, hl, rfl⟩ := h
    obtain ⟨u, v, rfl, hu, hv⟩ := lang_oneOrMore.mp hl
    exact exists_factor_of_append hw hu hv
  · intro h
    obtain ⟨q, he, hes⟩ := h
    exact Factor.comp (fun u v => .oneOrMore) he hes

/-! ## The closure of a set of positions -/

theorem mem_joinPositions {p : Nat} {fresh found : List Nat} :
    p ∈ joinPositions fresh found ↔ p ∈ fresh ∨ p ∈ found :=
  Ordered.mem_insertAll

theorem mem_newPositions {last p : Nat} {step : List Nat → List Nat} {found frontier : List Nat} :
    p ∈ newPositions last step found frontier ↔ p ∈ step frontier ∧ p ≤ last ∧ p ∉ found := by
  simp [newPositions]

section Closure
variable {last : Nat} {step : List Nat → List Nat} {R : Nat → Nat → Prop}

/-- What is in the closure was reached from what was found. -/
theorem exists_of_mem_closure (hstep : ∀ {qs q}, q ∈ step qs → ∃ p ∈ qs, R p q)
    {found frontier : List Nat} (hf : ∀ p ∈ frontier, p ∈ found) {q : Nat}
    (hq : q ∈ closure last step found frontier) :
    ∃ p ∈ found, Relation.ReflTransGen R p q := by
  fun_induction closure last step found frontier with
  | case1 => exact ⟨q, hq, .refl⟩
  | case2 found frontier _ ih =>
      obtain ⟨p, hp, hpq⟩ := ih (fun p hp => mem_joinPositions.mpr (.inl hp)) hq
      rcases mem_joinPositions.mp hp with hp | hp
      · obtain ⟨p', hp', h⟩ := hstep (mem_newPositions.mp hp).1
        exact ⟨p', hf p' hp', .head h hpq⟩
      · exact ⟨p, hp, hpq⟩

theorem mem_closure_of_mem {found frontier : List Nat} {q : Nat} (hq : q ∈ found) :
    q ∈ closure last step found frontier := by
  fun_induction closure last step found frontier with
  | case1 => exact hq
  | case2 _ _ _ ih => exact ih (mem_joinPositions.mpr (.inr hq))

/-- Nothing within the input leads out of the closure, provided that nothing leads out of what was
found except from the frontier. -/
theorem mem_closure_of_step (hstep : ∀ {qs p q}, p ∈ qs → R p q → q ∈ step qs)
    {found frontier : List Nat} (hinv : ∀ p ∈ found, p ∈ frontier ∨ ∀ q ≤ last, R p q → q ∈ found)
    {p q : Nat} (hp : p ∈ closure last step found frontier) (h : R p q) (hq : q ≤ last) :
    q ∈ closure last step found frontier := by
  fun_induction closure last step found frontier with
  | case1 found frontier hnew =>
      rcases hinv p hp with hfr | hcl
      · by_contra hnot
        have : q ∈ newPositions last step found frontier :=
          mem_newPositions.mpr ⟨hstep hfr h, hq, hnot⟩
        rw [hnew] at this
        cases this
      · exact hcl q hq h
  | case2 found frontier _ ih =>
      refine ih (fun p hp => ?_) hp
      rcases mem_joinPositions.mp hp with hp | hp
      · exact .inl hp
      · right
        intro q hq h
        rw [mem_joinPositions, mem_newPositions]
        rcases hinv p hp with hfr | hcl
        · by_cases hqf : q ∈ found
          · exact .inr hqf
          · exact .inl ⟨hstep hfr h, hq, hqf⟩
        · exact .inr (hcl q hq h)

theorem mem_closure_iff (hstep : ∀ {qs q}, q ∈ step qs ↔ ∃ p ∈ qs, R p q)
    (hlast : ∀ {p q}, R p q → q ≤ last ∨ q = p) {starts : List Nat} {q : Nat} :
    q ∈ closure last step starts starts ↔ ∃ p ∈ starts, Relation.ReflTransGen R p q := by
  constructor
  · exact exists_of_mem_closure (fun h => hstep.mp h) fun p hp => hp
  · intro h'
    obtain ⟨p, hp, h⟩ := h'
    induction h with
    | refl => exact mem_closure_of_mem hp
    | tail _ h ih =>
        rcases hlast h with hq | rfl
        · exact mem_closure_of_step (R := R) (fun hp h => hstep.mpr ⟨_, hp, h⟩)
            (fun p hp => .inl hp) ih h hq
        · exact ih

end Closure

/-! ## Where matches end -/

mutual
theorem mem_ends : ∀ (e : Expr) {starts : List Nat} {q : Nat},
    q ∈ ends input e starts ↔ ∃ p ∈ starts, Factor input e p q
  | .literal text, starts, q => by
      simp only [ends, List.mem_map, List.mem_filter, factor_literal]
      constructor
      · intro h'
        obtain ⟨p, ⟨hp, hpre⟩, rfl⟩ := h'
        exact ⟨p, hp, hpre, rfl⟩
      · intro h'
        obtain ⟨p, hp, hpre, rfl⟩ := h'
        exact ⟨p, ⟨hp, hpre⟩, rfl⟩
  | .sequence items, starts, q => by
      rw [ends]
      exact mem_endsInTurn items
  | .alternation choices, starts, q => by
      rw [ends]
      exact mem_endsOfAny choices
  | .optional body, starts, q => by
      rw [ends, mem_joinPositions, mem_ends body]
      simp only [factor_optional]
      constructor
      · intro h'
        rcases h' with hq | ⟨p, hp, h⟩
        · exact ⟨q, hq, .inl rfl⟩
        · exact ⟨p, hp, .inr h⟩
      · intro h'
        obtain ⟨p, hp, rfl | h⟩ := h'
        · exact .inl hp
        · exact .inr ⟨p, hp, h⟩
  | .zeroOrMore body, starts, q => by
      rw [ends, mem_closure_iff (mem_ends body) Factor.le_length_or_eq]
      simp only [factor_zeroOrMore]
  | .oneOrMore body, starts, q => by
      rw [ends, mem_closure_iff (mem_ends body) Factor.le_length_or_eq]
      simp only [factor_oneOrMore, factor_zeroOrMore, mem_ends body]
      constructor
      · intro h'
        obtain ⟨r, ⟨p, hp, hpr⟩, h⟩ := h'
        exact ⟨p, hp, r, hpr, h⟩
      · intro h'
        obtain ⟨p, hp, r, hpr, h⟩ := h'
        exact ⟨r, ⟨p, hp, hpr⟩, h⟩
theorem mem_endsInTurn : ∀ (es : List Expr) {starts : List Nat} {q : Nat},
    q ∈ endsInTurn input es starts ↔ ∃ p ∈ starts, Factor input (.sequence es) p q
  | [], starts, q => by
      simp only [endsInTurn, factor_sequence_nil]
      exact ⟨fun h => ⟨q, h, rfl⟩, fun ⟨_, hp, e⟩ => e ▸ hp⟩
  | e :: es, starts, q => by
      rw [endsInTurn, mem_endsInTurn es]
      simp only [mem_ends e, factor_sequence_cons]
      constructor
      · intro h'
        obtain ⟨r, ⟨p, hp, hpr⟩, h⟩ := h'
        exact ⟨p, hp, r, hpr, h⟩
      · intro h'
        obtain ⟨p, hp, r, hpr, h⟩ := h'
        exact ⟨r, ⟨p, hp, hpr⟩, h⟩
theorem mem_endsOfAny : ∀ (es : List Expr) {starts : List Nat} {q : Nat},
    q ∈ endsOfAny input es starts ↔ ∃ p ∈ starts, Factor input (.alternation es) p q
  | [], starts, q => by
      simp [endsOfAny, factor_alternation]
  | e :: es, starts, q => by
      rw [endsOfAny, mem_joinPositions, mem_ends e, mem_endsOfAny es]
      simp only [factor_alternation, List.mem_cons, exists_eq_or_imp]
      constructor
      · intro h'
        rcases h' with ⟨p, hp, h⟩ | ⟨p, hp, h⟩
        · exact ⟨p, hp, .inr h⟩
        · exact ⟨p, hp, .inl h⟩
      · intro h'
        obtain ⟨p, hp, h | h⟩ := h'
        · exact .inr ⟨p, hp, h⟩
        · exact .inl ⟨p, hp, h⟩
end

/-- Matching a whole text decides whether it is a word of the expression. -/
theorem accepts_iff_lang {e : Expr} {w : String} : e.accepts w ↔ Lang e w.toList := by
  rw [accepts, List.contains_iff_mem, mem_ends]
  simp only [List.mem_singleton, exists_eq_left, Factor, List.drop_zero, Nat.zero_add]
  constructor
  · intro h'
    obtain ⟨u, v, huv, hu, hlen⟩ := h'
    have hv : v = [] := by
      have := congrArg List.length huv
      rw [List.length_append] at this
      exact List.length_eq_zero_iff.mp (by omega)
    rwa [huv, hv, List.append_nil]
  · intro h
    exact ⟨w.toList, [], (List.append_nil _).symm, h, rfl⟩

end LexicalAutomata.Expr
