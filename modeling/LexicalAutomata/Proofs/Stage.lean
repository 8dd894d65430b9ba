/-
# `LexicalAutomata.Proofs.Stage` — what a stage does in a session

A stage run in a session gives a result or an error, and the session afterwards.  Each step is
described once, by an equation for its run; a stage is then taken apart step by step.

Automata are put together by loops that may fail at every round.  Such a loop succeeds if an
invariant, which may speak of the rounds done so far, lets every round succeed and is kept by it
(`foldlM_ok`, `run_foldlM`); and what every round that succeeds keeps holds in the end, if the loop
succeeds (`foldlM_keeps`).  A loop over a list that gives a list succeeds exactly if every round does
(`mapM_eq_ok_iff`), and where it fails, a round fails in the same way (`mapM_ne_error`).
-/
import Mathlib.Data.List.Forall2
import LexicalAutomata.Stage

namespace LexicalAutomata

/-- The session after the numbers below `n` are issued. -/
def Session.issue (σ : Session) (n : Nat) : Session := { σ with supply := ⟨n⟩ }

/-- The session after an event is recorded. -/
def Session.record (σ : Session) (e : Event) : Session := { σ with log := σ.log ++ [e] }

namespace Stage

variable {α β : Type} {k : Automaton.Kind} {σ τ : Session}

theorem run_bind_ok {x : Stage α} {f : α → Stage β} {a : α} (h : x.run σ = (.ok a, τ)) :
    (x >>= f).run σ = (f a).run τ := by
  show (ExceptT.bindCont f (x.run σ).1) (x.run σ).2 = _
  rw [h]
  rfl

theorem run_bind_error {x : Stage α} {f : α → Stage β} {e : Error}
    (h : x.run σ = (.error e, τ)) : (x >>= f).run σ = (.error e, τ) := by
  show (ExceptT.bindCont f (x.run σ).1) (x.run σ).2 = _
  rw [h]
  rfl

/-- A run of whose result something can be computed has a result, of which just this holds. -/
theorem exists_run_of_toOption (x : Stage α) (σ : Session) (f : α → β) (b : β)
    (h : (x.run σ).1.toOption.map f = some b) : ∃ a τ, x.run σ = (.ok a, τ) ∧ f a = b := by
  obtain ⟨a, ha, hb⟩ := Option.map_eq_some_iff.mp h
  cases hr : x.run σ with
  | mk r τ =>
      rw [hr] at ha
      cases r with
      | error e => cases ha
      | ok a' => exact ⟨a, τ, by rw [Option.some_inj.mp ha], hb⟩

/-- Where two steps succeed, so does the first, and the second goes on from its result. -/
theorem exists_of_run_bind {x : Stage α} {f : α → Stage β} {b : β}
    (h : (x >>= f).run σ = (.ok b, τ)) :
    ∃ a ρ, x.run σ = (.ok a, ρ) ∧ (f a).run ρ = (.ok b, τ) := by
  cases hx : x.run σ with
  | mk r ρ =>
      cases r with
      | error e =>
          rw [run_bind_error hx] at h
          cases h
      | ok a => exact ⟨a, ρ, rfl, (run_bind_ok hx).symm.trans h⟩

theorem run_issued : issued.run σ = (.ok σ.supply.issued, σ) := rfl

theorem run_setIssued (n : Nat) : (setIssued n).run σ = (.ok (), σ.issue n) := rfl

theorem run_freshState (accept : Option Accept) : (freshState accept).run σ =
    (.ok ⟨σ.supply.issued, accept⟩, σ.issue (σ.supply.issued + 1)) := rfl

theorem run_note (e : Event) : (note e).run σ = (.ok (), σ.record e) := rfl

theorem run_ofExcept (r : Except Error α) : (ofExcept r).run σ = (r, σ) := by
  cases r with
  | ok a => rfl
  | error e => rfl

theorem run_finish (a : Automaton k) (event : Event) (check : Graph → Except Error Unit) :
    (finish a event check).run σ = ((check a.graph).map fun _ => a, σ.record event) := by
  rw [finish, run_bind_ok (run_note event)]
  cases h : check a.graph with
  | ok u => rw [run_bind_ok (run_ofExcept _)]; rfl
  | error e => rw [run_bind_error (run_ofExcept _)]; rfl

theorem of_run_ofExcept {r : Except Error α} {a : α} (h : (ofExcept r).run σ = (.ok a, τ)) :
    r = .ok a ∧ τ = σ := by
  rw [run_ofExcept] at h
  exact ⟨congrArg Prod.fst h, (congrArg Prod.snd h).symm⟩

theorem of_run_finish {a b : Automaton k} {event : Event} {check : Graph → Except Error Unit}
    (h : (finish a event check).run σ = (.ok b, τ)) : b = a ∧ τ = σ.record event := by
  rw [run_finish] at h
  cases hcheck : check a.graph with
  | error e =>
      rw [hcheck] at h
      cases h
  | ok u =>
      rw [hcheck] at h
      cases h
      exact ⟨rfl, rfl⟩

end Stage

/-! ## Loops -/

section Loops
variable {α β : Type} {xs : List β} {a : α}

theorem foldlM_ok {ε : Type} {step : α → β → Except ε α} {I : List β → α → Prop}
    (h₀ : I [] a)
    (h : ∀ done x rest a, xs = done ++ x :: rest → I done a →
      ∃ b, step a x = .ok b ∧ I (done ++ [x]) b) :
    ∃ b, xs.foldlM step a = .ok b ∧ I xs b := by
  suffices ∀ rest done a, xs = done ++ rest → I done a →
      ∃ b, rest.foldlM step a = .ok b ∧ I xs b from this xs [] a rfl h₀
  intro rest
  induction rest with
  | nil =>
      intro done a e hd
      rw [List.append_nil] at e
      exact ⟨a, rfl, e ▸ hd⟩
  | cons x rest ih =>
      intro done a e hd
      obtain ⟨b, hb, hd⟩ := h done x rest a e hd
      rw [List.foldlM_cons, hb]
      exact ih (done ++ [x]) b (by rw [e, List.append_assoc, List.singleton_append]) hd

/-- A loop that succeeds keeps what every round that succeeds keeps. -/
theorem foldlM_keeps {ε : Type} {step : α → β → Except ε α} {I : List β → α → Prop} {b : α}
    (h₀ : I [] a) (h : ∀ done x a b, I done a → step a x = .ok b → I (done ++ [x]) b)
    (hok : xs.foldlM step a = .ok b) : I xs b := by
  suffices ∀ rest done a, I done a → rest.foldlM step a = .ok b → I (done ++ rest) b from
    this xs [] a h₀ hok
  intro rest
  induction rest with
  | nil =>
      intro done a hd hok
      rw [List.append_nil]
      exact Except.ok.inj hok ▸ hd
  | cons x rest ih =>
      intro done a hd hok
      rw [List.foldlM_cons] at hok
      cases hx : step a x with
      | error e =>
          rw [hx] at hok
          cases hok
      | ok c =>
          rw [hx] at hok
          have := ih (done ++ [x]) c (h done x a c hd hx) hok
          rwa [List.append_assoc, List.singleton_append] at this

theorem mapM_eq_pure {m : Type → Type} [Monad m] [LawfulMonad m] {γ : Type} {f : β → m γ}
    {g : β → γ} (h : ∀ x ∈ xs, f x = pure (g x)) : xs.mapM f = pure (xs.map g) := by
  induction xs with
  | nil => rfl
  | cons x xs ih =>
      obtain ⟨hx, hxs⟩ := List.forall_mem_cons.mp h
      rw [List.mapM_cons, hx, ih hxs, pure_bind, pure_bind]
      rfl

theorem exists_of_bind {ε γ : Type} {x : Except ε β} {f : β → Except ε γ} {c : γ}
    (h : x >>= f = .ok c) : ∃ b, x = .ok b ∧ f b = .ok c := by
  cases x with
  | error e => cases h
  | ok b => exact ⟨b, rfl, h⟩

theorem exists_of_map {ε γ : Type} {x : Except ε β} {f : β → γ} {c : γ} (h : x.map f = .ok c) :
    ∃ b, x = .ok b ∧ f b = c := by
  cases x with
  | error e => cases h
  | ok b => exact ⟨b, rfl, Except.ok.inj h⟩

/-- A loop gives a list if its rounds give the members. -/
theorem mapM_eq_ok_iff {ε γ : Type} {f : β → Except ε γ} {ys : List γ} :
    xs.mapM f = .ok ys ↔ List.Forall₂ (fun x y => f x = .ok y) xs ys := by
  induction xs generalizing ys with
  | nil =>
      rw [List.mapM_nil, List.forall₂_nil_left_iff]
      exact ⟨fun h => (Except.ok.inj h).symm, fun h => h ▸ rfl⟩
  | cons x xs ih =>
      rw [List.mapM_cons, List.forall₂_cons_left_iff]
      cases hx : f x with
      | error e => simp [bind, Except.bind]
      | ok y =>
          cases hxs : xs.mapM f with
          | error e => simp [bind, Except.bind, ← ih, hxs]
          | ok zs =>
              simp only [bind, Except.bind, pure, Except.pure, ← ih, hxs, Except.ok.injEq,
                exists_and_left, exists_eq_left']
              exact eq_comm

/-- A loop whose rounds give images, where they give anything, gives the list of images. -/
theorem eq_map_of_mapM {ε γ : Type} {f : β → Except ε γ} {g : β → γ} {ys : List γ}
    (h : ∀ x y, f x = .ok y → y = g x) (hok : xs.mapM f = .ok ys) : ys = xs.map g := by
  rw [← List.forall₂_eq_eq_eq, List.forall₂_map_right_iff]
  exact (mapM_eq_ok_iff.mp hok).flip.imp fun y x hxy => h x y hxy

theorem bind_ne_error {ε γ : Type} {x : Except ε β} {f : β → Except ε γ} {e : ε}
    (hx : x ≠ .error e) (hf : ∀ b, f b ≠ .error e) : x >>= f ≠ .error e := by
  cases x with
  | error e' => exact fun h => hx (congrArg _ (Except.error.inj h))
  | ok b => exact hf b

theorem map_ne_error {ε γ : Type} {x : Except ε β} {f : β → γ} {e : ε} (hx : x ≠ .error e) :
    x.map f ≠ .error e := by
  cases x with
  | error e' => exact fun h => hx (congrArg _ (Except.error.inj h))
  | ok b => exact nofun

/-- A loop fails only with an error of one of its rounds. -/
theorem mapM_ne_error {ε γ : Type} {f : β → Except ε γ} {e : ε} (h : ∀ x ∈ xs, f x ≠ .error e) :
    xs.mapM f ≠ .error e := by
  induction xs with
  | nil => exact nofun
  | cons x xs ih =>
      obtain ⟨hx, hxs⟩ := List.forall_mem_cons.mp h
      rw [List.mapM_cons]
      cases hfx : f x with
      | error e' => exact fun h' => hx (hfx.trans (congrArg _ (Except.error.inj h')))
      | ok y =>
          cases hfxs : xs.mapM f with
          | error e' => exact fun h' => ih hxs (hfxs.trans (congrArg _ (Except.error.inj h')))
          | ok ys => exact nofun

/-- Loops over two lists do the same if their rounds do. -/
theorem mapM_eq_of_forall₂ {ε γ δ : Type} {R : β → γ → Prop} {ys : List γ} {f : β → Except ε δ}
    {g : γ → Except ε δ} (h : List.Forall₂ R xs ys) (hfg : ∀ x y, R x y → f x = g y) :
    xs.mapM f = ys.mapM g := by
  induction h with
  | nil => rfl
  | cons hxy _ ih => rw [List.mapM_cons, List.mapM_cons, hfg _ _ hxy, ih]

/-- What a loop gives, one of its rounds gives. -/
theorem exists_of_mem_forall₂ {γ : Type} {R : β → γ → Prop} {ys : List γ}
    (h : List.Forall₂ R xs ys) {y : γ} (hy : y ∈ ys) : ∃ x ∈ xs, R x y := by
  obtain ⟨i, hi, rfl⟩ := List.getElem_of_mem hy
  have hi' : i < xs.length := by rwa [h.length_eq]
  exact ⟨xs[i], List.getElem_mem hi', h.get hi' hi⟩

/-- A loop whose rounds take the images of valid results, and nothing else, gives back what it is the
image of. -/
theorem mapM_eq_ok_iff_map {ε γ : Type} {f : β → Except ε γ} {g : γ → β} {valid : γ → Prop}
    (h : ∀ x y, f x = .ok y ↔ valid y ∧ x = g y) {ys : List γ} :
    xs.mapM f = .ok ys ↔ (∀ y ∈ ys, valid y) ∧ xs = ys.map g := by
  have hflip : List.Forall₂ (fun x y => f x = .ok y) xs ys ↔
      List.Forall₂ (fun y x => valid y ∧ g y = x) ys xs := by
    simp only [h, eq_comm]
    exact ⟨.flip, .flip⟩
  rw [mapM_eq_ok_iff, hflip, List.forall₂_and_left, ← List.forall₂_map_left_iff,
    List.forall₂_eq_eq_eq, eq_comm]

theorem Stage.run_foldlM {step : α → β → Stage α} {I : List β → α → Session → Prop}
    {σ : Session} (h₀ : I [] a σ)
    (h : ∀ done x rest a σ, xs = done ++ x :: rest → I done a σ →
      ∃ b τ, (step a x).run σ = (.ok b, τ) ∧ I (done ++ [x]) b τ) :
    ∃ b τ, (xs.foldlM step a).run σ = (.ok b, τ) ∧ I xs b τ := by
  suffices ∀ rest done a σ, xs = done ++ rest → I done a σ →
      ∃ b τ, (rest.foldlM step a).run σ = (.ok b, τ) ∧ I xs b τ from this xs [] a σ rfl h₀
  intro rest
  induction rest with
  | nil =>
      intro done a σ e hd
      rw [List.append_nil] at e
      exact ⟨a, σ, rfl, e ▸ hd⟩
  | cons x rest ih =>
      intro done a σ e hd
      obtain ⟨b, τ, hb, hd⟩ := h done x rest a σ e hd
      rw [List.foldlM_cons, Stage.run_bind_ok hb]
      exact ih (done ++ [x]) b τ (by rw [e, List.append_assoc, List.singleton_append]) hd

end Loops

end LexicalAutomata
