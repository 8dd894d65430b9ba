/-
# `LexicalAutomata.Ordered` — collections as ascending lists

States, arcs, characters and positions are all collected in ascending lists without repetition, so a
collection has one listing and two collections with the same members are the same list.  A comparison
may look at a part of the members only: states are compared by their numbers, whatever their tags.
Of members that compare as equal the one that came first stays.
-/

namespace LexicalAutomata.Ordered

variable {α : Type} (cmp : α → α → Ordering)

/-- Put `x` at its place in the ascending list, unless an equal member is there already. -/
def insert (x : α) : List α → List α
  | [] => [x]
  | y :: ys =>
      match cmp x y with
      | .lt => x :: y :: ys
      | .eq => y :: ys
      | .gt => y :: insert x ys

/-- Put in the members of `xs` one after the other. -/
def insertAll (xs ys : List α) : List α :=
  xs.foldl (fun acc x => insert cmp x acc) ys

/-- The ascending list of the members of `xs`. -/
def ofList (xs : List α) : List α := insertAll cmp xs []

/-- Ascending, without repetition. -/
def Ascending (xs : List α) : Prop := xs.Pairwise fun x y => cmp x y = .lt

/-! ## What insertion keeps -/

variable {cmp}

theorem mem_of_mem_insert {x y : α} {xs : List α} (h : y ∈ insert cmp x xs) : y = x ∨ y ∈ xs := by
  induction xs with
  | nil => simpa [insert] using h
  | cons z zs ih =>
      rw [insert] at h
      split at h <;> grind

theorem mem_insert_of_mem {x y : α} {xs : List α} (h : y ∈ xs) : y ∈ insert cmp x xs := by
  induction xs with
  | nil => cases h
  | cons z zs ih =>
      rw [insert]
      split <;> grind

theorem mem_insertAll_of_mem {y : α} {xs ys : List α} (h : y ∈ ys) : y ∈ insertAll cmp xs ys := by
  induction xs generalizing ys with
  | nil => exact h
  | cons x xs ih => exact ih (mem_insert_of_mem h)

/-- After an insertion some member compares as equal to what was inserted. -/
theorem exists_eq_mem_insert [Std.ReflCmp cmp] (x : α) (xs : List α) :
    ∃ y ∈ insert cmp x xs, cmp x y = .eq := by
  induction xs with
  | nil => exact ⟨x, by simp [insert], Std.ReflCmp.compare_self⟩
  | cons z zs ih =>
      rw [insert]
      split
      · exact ⟨x, by simp, Std.ReflCmp.compare_self⟩
      · next h => exact ⟨z, by simp, h⟩
      · obtain ⟨y, hy, e⟩ := ih
        exact ⟨y, by simp [hy], e⟩

theorem ascending_insert [Std.TransCmp cmp] {xs : List α} (x : α) (h : Ascending cmp xs) :
    Ascending cmp (insert cmp x xs) := by
  induction xs with
  | nil => simp [insert, Ascending]
  | cons z zs ih =>
      obtain ⟨hz, hzs⟩ := List.pairwise_cons.mp h
      rw [insert]
      split
      · next hlt =>
        refine List.pairwise_cons.mpr ⟨fun y hy => ?_, h⟩
        rcases List.mem_cons.mp hy with rfl | hy
        · exact hlt
        · exact Std.TransCmp.lt_trans hlt (hz y hy)
      · exact h
      · next hgt =>
        refine List.pairwise_cons.mpr ⟨fun y hy => ?_, ih hzs⟩
        rcases mem_of_mem_insert hy with rfl | hy
        · exact Std.OrientedCmp.lt_of_gt hgt
        · exact hz y hy

theorem ascending_insertAll [Std.TransCmp cmp] {xs ys : List α} (h : Ascending cmp ys) :
    Ascending cmp (insertAll cmp xs ys) := by
  induction xs generalizing ys with
  | nil => exact h
  | cons x xs ih => exact ih (ascending_insert x h)

theorem ascending_ofList [Std.TransCmp cmp] (xs : List α) : Ascending cmp (ofList cmp xs) :=
  ascending_insertAll List.Pairwise.nil

/-! ## A pair in order -/

/-- Whether `x` and `y` come in order, then the smaller and the larger of them. -/
def pair [LE α] [DecidableLE α] (x y : α) : Bool × α × α :=
  if x ≤ y then (true, x, y) else (false, y, x)

end LexicalAutomata.Ordered
