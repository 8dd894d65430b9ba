/-
# `LexicalAutomata.Proofs.Tandem` — computations that run side by side

Two computations are in tandem if they give results that stand in a relation, or fail with errors that
differ in the names of states alone (`Tandem`).  Two stages are in tandem at a distance if this holds in any
two sessions of which the second has issued so many numbers more than the first, and they keep the distance
and leave the same records (`Stage.Tandem`).  Steps in tandem can be put one after the other, and repeated;
so whether stages are in tandem is seen from their steps.
-/
import LexicalAutomata.Proofs.Automaton.Renumbering
import LexicalAutomata.Proofs.Stage

namespace LexicalAutomata

/-! ## Errors without names -/

/-- The defect with the numbers of states left out. -/
def Defect.anonymous : Defect → Defect
  | .repeatedArc arc => .repeatedArc (arc.renumber fun _ => 0)
  | .arcSetTwice state symbol => .arcSetTwice (state.renumber fun _ => 0) symbol
  | .classesDisagree state symbol => .classesDisagree (state.renumber fun _ => 0) symbol
  | .unknownState state => .unknownState (state.renumber fun _ => 0)

/-- The error with the names of states left out. -/
def Error.anonymous : Error → Error
  | .unexpectedEpsilon _ => .unexpectedEpsilon ""
  | .duplicateTransition _ symbol => .duplicateTransition "" symbol
  | .defect cause => .defect cause.anonymous
  | e => e

/-! ## Computations -/

variable {α β γ δ ι κ : Type} {R : α → β → Prop} {S : γ → δ → Prop}

/-- Both give results that stand in a relation, or both fail alike. -/
inductive Tandem (R : α → β → Prop) : Except Error α → Except Error β → Prop
  | ok {a : α} {b : β} : R a b → Tandem R (.ok a) (.ok b)
  | error {e e' : Error} : e.anonymous = e'.anonymous → Tandem R (.error e) (.error e')

namespace Tandem

theorem refl (x : Except Error α) : Tandem Eq x x := by
  cases x with
  | ok a => exact .ok rfl
  | error e => exact .error rfl

theorem bind {x : Except Error α} {y : Except Error β} {f : α → Except Error γ}
    {g : β → Except Error δ} (h : Tandem R x y) (hfg : ∀ a b, R a b → Tandem S (f a) (g b)) :
    Tandem S (x >>= f) (y >>= g) := by
  cases h with
  | ok hab => exact hfg _ _ hab
  | error he => exact .error he

/-- Loops are in tandem if their rounds are. -/
theorem foldlM {T : ι → κ → Prop} {f : α → ι → Except Error α} {g : β → κ → Except Error β}
    {xs : List ι} {ys : List κ} (h : List.Forall₂ T xs ys)
    (hfg : ∀ a b x y, R a b → T x y → Tandem R (f a x) (g b y)) {a : α} {b : β} (hab : R a b) :
    Tandem R (xs.foldlM f a) (ys.foldlM g b) := by
  induction h generalizing a b with
  | nil => exact .ok hab
  | cons hxy _ ih =>
      rw [List.foldlM_cons, List.foldlM_cons]
      exact (hfg a b _ _ hab hxy).bind fun _ _ => ih

/-- Loops over a list and over its image. -/
theorem foldlM_map {f : α → ι → Except Error α} {g : β → κ → Except Error β} {image : ι → κ}
    (hfg : ∀ a b x, R a b → Tandem R (f a x) (g b (image x))) (xs : List ι) {a : α} {b : β}
    (hab : R a b) : Tandem R (xs.foldlM f a) ((xs.map image).foldlM g b) := by
  refine foldlM (T := fun x y => image x = y) ?_ (fun a b x y hab hxy => hxy ▸ hfg a b x hab) hab
  rw [List.forall₂_map_right_iff, List.forall₂_same]
  exact fun _ _ => rfl

/-- Loops over one list. -/
theorem foldlM_same {f : α → ι → Except Error α} {g : β → ι → Except Error β}
    (hfg : ∀ a b x, R a b → Tandem R (f a x) (g b x)) (xs : List ι) {a : α} {b : β}
    (hab : R a b) : Tandem R (xs.foldlM f a) (xs.foldlM g b) := by
  exact foldlM (List.forall₂_same.mpr fun _ _ => rfl) (fun a b x _ hab hxy => hxy ▸ hfg a b x hab) hab

/-- Loops over two images of a list. -/
theorem forM_map {μ : Type} {f : κ → Except Error Unit} {g : μ → Except Error Unit} {image : ι → κ}
    {image' : ι → μ} (hfg : ∀ x, Tandem Eq (f (image x)) (g (image' x))) (xs : List ι) :
    Tandem Eq ((xs.map image).forM f) ((xs.map image').forM g) := by
  induction xs with
  | nil => exact .ok rfl
  | cons x xs ih => exact (hfg x).bind fun _ _ _ => ih

end Tandem

/-! ## Stages -/

namespace Stage

variable {distance : Nat}

/-- In tandem in sessions of which the second is ahead by a distance, which stays the same. -/
def Tandem (distance : Nat) (R : α → β → Prop) (x : Stage α) (y : Stage β) : Prop :=
  ∀ σ τ : Session, τ.supply.issued = σ.supply.issued + distance →
    (y.run τ).2.supply.issued = (x.run σ).2.supply.issued + distance ∧
    (∃ events, (x.run σ).2.log = σ.log ++ events ∧ (y.run τ).2.log = τ.log ++ events) ∧
    LexicalAutomata.Tandem R (x.run σ).1 (y.run τ).1

theorem tandem_ofExcept {x : Except Error α} {y : Except Error β} (h : LexicalAutomata.Tandem R x y) :
    Tandem distance R (ofExcept x) (ofExcept y) := by
  intro σ τ hστ
  rw [run_ofExcept, run_ofExcept]
  exact ⟨hστ, ⟨[], (List.append_nil _).symm, (List.append_nil _).symm⟩, h⟩

theorem tandem_pure {a : α} {b : β} (h : R a b) :
    Tandem distance R (pure a : Stage α) (pure b : Stage β) :=
  tandem_ofExcept (.ok h)

theorem tandem_throw (e : Error) : Tandem distance R (throw e : Stage α) (throw e : Stage β) :=
  tandem_ofExcept (.error rfl)

theorem tandem_issued : Tandem distance (fun i j => j = i + distance) issued issued :=
  fun _ _ hστ => ⟨hστ, ⟨[], (List.append_nil _).symm, (List.append_nil _).symm⟩, .ok hστ⟩

theorem tandem_setIssued (i : Nat) :
    Tandem distance Eq (setIssued i) (setIssued (i + distance)) :=
  fun _ _ _ => ⟨rfl, ⟨[], (List.append_nil _).symm, (List.append_nil _).symm⟩, .ok rfl⟩

theorem tandem_freshState (accept : Option Accept) :
    Tandem distance (State.Ahead distance) (freshState accept)
      (freshState accept) := by
  intro σ τ hστ
  rw [run_freshState, run_freshState]
  refine ⟨?_, ⟨[], (List.append_nil _).symm, (List.append_nil _).symm⟩, .ok (by rw [hστ]; rfl)⟩
  show τ.supply.issued + 1 = σ.supply.issued + 1 + distance
  omega

theorem tandem_note (e : Event) : Tandem distance Eq (note e) (note e) :=
  fun _ _ hστ => ⟨hστ, ⟨[e], rfl, rfl⟩, .ok rfl⟩

theorem Tandem.bind {x : Stage α} {y : Stage β} {f : α → Stage γ} {g : β → Stage δ}
    (h : Tandem distance R x y) (hfg : ∀ a b, R a b → Tandem distance S (f a) (g b)) :
    Tandem distance S (x >>= f) (y >>= g) := by
  intro σ τ hστ
  obtain ⟨hissued, ⟨events, hσ, hτ⟩, hxy⟩ := h σ τ hστ
  cases hx : x.run σ with
  | mk r σ' =>
      cases hy : y.run τ with
      | mk r' τ' =>
          rw [hx, hy] at hissued hxy
          rw [hx] at hσ
          rw [hy] at hτ
          cases hxy with
          | error he =>
              rw [run_bind_error hx, run_bind_error hy]
              exact ⟨hissued, ⟨events, hσ, hτ⟩, .error he⟩
          | ok hab =>
              rw [run_bind_ok hx, run_bind_ok hy]
              obtain ⟨hissued', ⟨more, hσ', hτ'⟩, hfg⟩ := hfg _ _ hab σ' τ' hissued
              refine ⟨hissued', ⟨events ++ more, ?_, ?_⟩, hfg⟩
              · rw [hσ', hσ, List.append_assoc]
              · rw [hτ', hτ, List.append_assoc]

/-- Loops over one list are in tandem if their rounds are. -/
theorem Tandem.foldlM {f : α → ι → Stage α} {g : β → ι → Stage β}
    (hfg : ∀ a b x, R a b → Tandem distance R (f a x) (g b x)) (xs : List ι) {a : α} {b : β}
    (hab : R a b) : Tandem distance R (xs.foldlM f a) (xs.foldlM g b) := by
  induction xs generalizing a b with
  | nil => exact tandem_pure hab
  | cons x xs ih =>
      rw [List.foldlM_cons, List.foldlM_cons]
      exact (hfg a b x hab).bind fun _ _ => ih

end Stage

end LexicalAutomata
