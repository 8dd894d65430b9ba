/-
# `LexicalAutomata.Proofs.Ordered` — an ascending list is determined by its members

What a collection holds does not depend on the order in which its members were put in: two ascending
lists with the same members are the same list (`Ascending.ext`).  Every later argument that two
automata, two tables or two drawings are equal ends in this fact.

Insertion puts in exactly what it is given, provided that no member already there compares as equal
to something else.  For characters, names and numbers that is always so; for states and arcs it is
what well-formedness of an automaton provides.

A function that keeps the comparison commutes with insertion, whatever the members are (`map_insert`).
-/
import Mathlib.Data.List.Sort
import LexicalAutomata.Ordered

namespace LexicalAutomata.Ordered

variable {α : Type} {cmp : α → α → Ordering}

/-! ## What is in a collection -/

theorem mem_of_mem_insertAll {y : α} {xs ys : List α} (h : y ∈ insertAll cmp xs ys) :
    y ∈ xs ∨ y ∈ ys := by
  induction xs generalizing ys with
  | nil => exact .inr h
  | cons x xs ih =>
      rcases ih h with h | h
      · exact .inl (List.mem_cons_of_mem _ h)
      · rcases mem_of_mem_insert h with rfl | h
        · exact .inl List.mem_cons_self
        · exact .inr h

theorem mem_of_mem_ofList {y : α} {xs : List α} (h : y ∈ ofList cmp xs) : y ∈ xs := by
  rcases mem_of_mem_insertAll h with h | h
  · exact h
  · cases h

theorem mem_insert_iff [Std.ReflCmp cmp] {x y : α} {xs : List α}
    (h : ∀ z ∈ xs, cmp x z = .eq → z = x) : y ∈ insert cmp x xs ↔ y = x ∨ y ∈ xs := by
  constructor
  · exact mem_of_mem_insert
  · intro h'
    rcases h' with rfl | hy
    · obtain ⟨z, hz, e⟩ := @exists_eq_mem_insert α cmp _ y xs
      rcases mem_of_mem_insert hz with rfl | hz'
      · exact hz
      · exact h z hz' e ▸ hz
    · exact mem_insert_of_mem hy

/-- Where comparison tells the members of a kind apart, a collection of them holds what is put in. -/
theorem mem_insertAll_iff [Std.ReflCmp cmp] {P : α → Prop}
    (hP : ∀ x y, P x → P y → cmp x y = .eq → x = y) {xs ys : List α} (hx : ∀ x ∈ xs, P x)
    (hy : ∀ y ∈ ys, P y) {z : α} : z ∈ insertAll cmp xs ys ↔ z ∈ xs ∨ z ∈ ys := by
  induction xs generalizing ys with
  | nil => simp [insertAll]
  | cons x xs ih =>
      obtain ⟨hpx, hx⟩ := List.forall_mem_cons.mp hx
      have hins : ∀ y ∈ insert cmp x ys, P y := by
        intro y h
        rcases mem_of_mem_insert h with rfl | h
        · exact hpx
        · exact hy y h
      show z ∈ insertAll cmp xs (insert cmp x ys) ↔ _
      rw [ih hx hins, mem_insert_iff fun y h e => (hP x y hpx (hy y h) e).symm, List.mem_cons]
      exact or_left_comm.trans (or_assoc (a := z = x)).symm

theorem mem_ofList_iff [Std.ReflCmp cmp] {xs : List α}
    (hxs : ∀ x ∈ xs, ∀ y ∈ xs, cmp x y = .eq → x = y) {z : α} : z ∈ ofList cmp xs ↔ z ∈ xs := by
  have hP : ∀ x y, x ∈ xs → y ∈ xs → cmp x y = .eq → x = y := fun x y hx hy => hxs x hx y hy
  rw [ofList, mem_insertAll_iff hP (fun _ hx => hx) fun y hy => by cases hy]
  exact or_iff_left List.not_mem_nil

section Lawful
variable [Std.LawfulEqCmp cmp]

theorem mem_insertAll {y : α} {xs ys : List α} : y ∈ insertAll cmp xs ys ↔ y ∈ xs ∨ y ∈ ys :=
  @mem_insertAll_iff α cmp _ (fun _ => True) (fun _ _ _ _ => Std.LawfulEqCmp.eq_of_compare) xs ys
    (fun _ _ => trivial) (fun _ _ => trivial) y

theorem mem_ofList {y : α} {xs : List α} : y ∈ ofList cmp xs ↔ y ∈ xs := by
  simp [ofList, mem_insertAll]

end Lawful

/-! ## Ascending lists -/

theorem cmp_self_ne_lt [Std.ReflCmp cmp] (x : α) : cmp x x ≠ .lt := by
  have e : cmp x x = .eq := Std.ReflCmp.compare_self
  simp [e]

theorem Ascending.nodup [Std.ReflCmp cmp] {xs : List α} (h : Ascending cmp xs) : xs.Nodup := by
  refine List.Pairwise.imp ?_ h
  rintro x _ e rfl
  exact cmp_self_ne_lt x e

theorem Ascending.ext [Std.TransCmp cmp] {xs ys : List α} (hx : Ascending cmp xs)
    (hy : Ascending cmp ys) (h : ∀ x, x ∈ xs ↔ x ∈ ys) : xs = ys := by
  have hirr : Std.Irrefl fun x y => cmp x y = .lt :=
    ⟨cmp_self_ne_lt⟩
  have hanti : Std.Antisymm fun x y => cmp x y = .lt :=
    ⟨fun x y e e' => absurd e' (Std.OrientedCmp.not_lt_of_lt e)⟩
  exact List.Pairwise.eq_of_mem_iff hx hy h

theorem Ascending.filter {xs : List α} (p : α → Bool) (h : Ascending cmp xs) :
    Ascending cmp (xs.filter p) :=
  List.Pairwise.filter p h

/-- A collection depends only on its members, not on the order in which they were put in. -/
theorem ofList_eq_iff [Std.TransCmp cmp] {xs ys : List α}
    (hxs : ∀ x ∈ xs, ∀ y ∈ xs, cmp x y = .eq → x = y) (hys : ∀ x ∈ ys, ∀ y ∈ ys, cmp x y = .eq → x = y) :
    ofList cmp xs = ofList cmp ys ↔ ∀ x, x ∈ xs ↔ x ∈ ys := by
  constructor
  · intro h x
    rw [← mem_ofList_iff hxs, h, mem_ofList_iff hys]
  · intro h
    refine Ascending.ext (ascending_ofList xs) (ascending_ofList ys) fun x => ?_
    rw [mem_ofList_iff hxs, mem_ofList_iff hys]
    exact h x

/-! ## Images -/

section Images
variable {β : Type} {cmp' : β → β → Ordering} {g : α → β}

theorem map_insert (hg : ∀ x y, cmp' (g x) (g y) = cmp x y) (x : α) (xs : List α) :
    (insert cmp x xs).map g = insert cmp' (g x) (xs.map g) := by
  induction xs with
  | nil => rfl
  | cons y ys ih =>
      rw [insert, List.map_cons, insert, hg]
      split
      · rfl
      · rfl
      · rw [List.map_cons, ih]

theorem map_insertAll (hg : ∀ x y, cmp' (g x) (g y) = cmp x y) (xs ys : List α) :
    (insertAll cmp xs ys).map g = insertAll cmp' (xs.map g) (ys.map g) := by
  induction xs generalizing ys with
  | nil => rfl
  | cons x xs ih => exact (ih (insert cmp x ys)).trans (congrArg _ (map_insert hg x ys))

theorem map_ofList (hg : ∀ x y, cmp' (g x) (g y) = cmp x y) (xs : List α) :
    (ofList cmp xs).map g = ofList cmp' (xs.map g) :=
  map_insertAll hg xs []

end Images

end LexicalAutomata.Ordered
