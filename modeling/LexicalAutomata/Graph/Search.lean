/-
# `LexicalAutomata.Graph.Search` — visiting what can be reached

One search serves every stage.  It keeps the nodes still to be visited in a frontier, which is a
stack or a queue, and lists the nodes in the order of their first visit; a node that was visited
already is passed over.  Nodes are told apart by a number, so that a list of visited nodes holds of
each number the occurrence that was met first.

The search ends because each visit uses up the links that leave the node: the frontier and the links
of nodes not yet visited become fewer together.  Main statement: whatever the frontier, a search that
begins at one node visits exactly the numbers that some path leads to (`seen_visit_iff`).
-/

namespace LexicalAutomata.Graph

variable {ν : Type} (number : ν → Nat)

/-- Which of the nodes to be visited comes next: the one found last, or the one found first. -/
inductive Frontier where
  | stack
  | queue

/-- Add the nodes `found`, in this order, to those still to be visited. -/
def Frontier.add : Frontier → (found pending : List ν) → List ν
  | .stack, found, pending => found.reverse ++ pending
  | .queue, found, pending => pending ++ found

@[simp]
theorem Frontier.length_add (f : Frontier) (found pending : List ν) :
    (f.add found pending).length = found.length + pending.length := by
  cases f <;> simp [Frontier.add, Nat.add_comm]

@[simp]
theorem Frontier.mem_add {f : Frontier} {found pending : List ν} {x : ν} :
    x ∈ f.add found pending ↔ x ∈ found ∨ x ∈ pending := by
  cases f <;> simp [Frontier.add, or_comm]

/-- Whether a node of this number is among the visited ones. -/
def seen (visited : List ν) (x : ν) : Bool := visited.any fun y => number y == number x

/-- The ends of the links that leave the node, in the order of the links. -/
def successors (links : List (ν × ν)) (x : ν) : List ν :=
  (links.filter fun l => number l.1 == number x).map Prod.snd

/-- How many links leave nodes that are not visited. -/
def unused (links : List (ν × ν)) (visited : List ν) : Nat :=
  (links.filter fun l => !seen number visited l.1).length

theorem unused_append (links : List (ν × ν)) {visited : List ν} {x : ν}
    (h : seen number visited x = false) :
    unused number links (visited ++ [x]) + (successors number links x).length =
      unused number links visited := by
  induction links with
  | nil => rfl
  | cons l ls ih =>
      simp only [unused, successors, seen, List.filter_cons] at *
      grind

/-- The visited nodes in the order of their first visit, when `pending` are still to be visited. -/
def visit (links : List (ν × ν)) (f : Frontier) : (pending visited : List ν) → List ν
  | [], visited => visited
  | x :: pending, visited =>
      if seen number visited x then visit links f pending visited
      else visit links f (f.add (successors number links x) pending) (visited ++ [x])
termination_by pending visited => pending.length + unused number links visited
decreasing_by
  · simp
  · have := unused_append number links (Bool.eq_false_iff.mpr ‹_›)
    simp only [Frontier.length_add, List.length_cons]
    omega

/-! ## The search is exact -/

/-- A path along the links leads from one number to another. -/
inductive Leads (links : List (ν × ν)) : Nat → Nat → Prop
  | stay (i : Nat) : Leads links i i
  | step {l : ν × ν} {j : Nat} : l ∈ links → Leads links (number l.2) j →
      Leads links (number l.1) j

variable {number}

theorem seen_iff {visited : List ν} {x : ν} :
    seen number visited x ↔ ∃ y ∈ visited, number y = number x := by
  simp [seen]

theorem mem_successors {links : List (ν × ν)} {x y : ν} :
    y ∈ successors number links x ↔ ∃ l ∈ links, number l.1 = number x ∧ l.2 = y := by
  simp [successors, and_assoc]

/-- What is visited stays visited. -/
theorem mem_visit_of_mem {links : List (ν × ν)} {f : Frontier} {pending visited : List ν} {x : ν}
    (h : x ∈ visited) : x ∈ visit number links f pending visited := by
  fun_induction visit number links f pending visited with
  | case1 => exact h
  | case2 _ _ _ _ ih => exact ih h
  | case3 _ _ _ _ ih => exact ih (List.mem_append_left _ h)

/-- Only what the frontier leads to is visited anew. -/
theorem leads_of_mem_visit {links : List (ν × ν)} {f : Frontier} {pending visited : List ν} {x : ν}
    (h : x ∈ visit number links f pending visited) :
    x ∈ visited ∨ ∃ y ∈ pending, Leads number links (number y) (number x) := by
  fun_induction visit number links f pending visited with
  | case1 => exact .inl h
  | case2 y pending visited _ ih =>
      rcases ih h with h | ⟨z, hz, p⟩
      · exact .inl h
      · exact .inr ⟨z, List.mem_cons_of_mem _ hz, p⟩
  | case3 y pending visited _ ih =>
      rcases ih h with h | ⟨z, hz, p⟩
      · rcases List.mem_append.mp h with h | h
        · exact .inl h
        · obtain rfl := List.mem_singleton.mp h
          exact .inr ⟨x, List.mem_cons_self, .stay _⟩
      · rcases Frontier.mem_add.mp hz with hz | hz
        · obtain ⟨l, hl, e, rfl⟩ := mem_successors.mp hz
          exact .inr ⟨y, List.mem_cons_self, e ▸ .step hl p⟩
        · exact .inr ⟨z, List.mem_cons_of_mem _ hz, p⟩

/-- Every link out of a visited node leads to one that is visited or pending. -/
def Expanded (number : ν → Nat) (links : List (ν × ν)) (pending visited : List ν) : Prop :=
  ∀ x ∈ visited, ∀ y ∈ successors number links x, seen number visited y ∨ seen number pending y

theorem seen_visit_of_pending {links : List (ν × ν)} {f : Frontier} {pending visited : List ν}
    {x : ν} (h : x ∈ pending) : seen number (visit number links f pending visited) x := by
  fun_induction visit number links f pending visited with
  | case1 => cases h
  | case2 y pending visited hy ih =>
      rcases List.mem_cons.mp h with rfl | h
      · obtain ⟨z, hz, e⟩ := seen_iff.mp hy
        exact seen_iff.mpr ⟨z, mem_visit_of_mem hz, e⟩
      · exact ih h
  | case3 y pending visited _ ih =>
      rcases List.mem_cons.mp h with rfl | h
      · exact seen_iff.mpr ⟨x, mem_visit_of_mem (by simp), rfl⟩
      · exact ih (Frontier.mem_add.mpr (.inr h))

theorem expanded_visit {links : List (ν × ν)} {f : Frontier} {pending visited : List ν}
    (h : Expanded number links pending visited) :
    Expanded number links [] (visit number links f pending visited) := by
  fun_induction visit number links f pending visited with
  | case1 => exact h
  | case2 y pending visited hy ih =>
      refine ih fun x hx z hz => ?_
      rcases h x hx z hz with h | h
      · exact .inl h
      · obtain ⟨w, hw, e⟩ := seen_iff.mp h
        rcases List.mem_cons.mp hw with rfl | hw
        · obtain ⟨v, hv, e'⟩ := seen_iff.mp hy
          exact .inl (seen_iff.mpr ⟨v, hv, e'.trans e⟩)
        · exact .inr (seen_iff.mpr ⟨w, hw, e⟩)
  | case3 y pending visited hy ih =>
      refine ih fun x hx z hz => ?_
      rcases List.mem_append.mp hx with hx | hx
      · rcases h x hx z hz with h | h
        · obtain ⟨w, hw, e⟩ := seen_iff.mp h
          exact .inl (seen_iff.mpr ⟨w, List.mem_append_left _ hw, e⟩)
        · obtain ⟨w, hw, e⟩ := seen_iff.mp h
          rcases List.mem_cons.mp hw with rfl | hw
          · exact .inl (seen_iff.mpr ⟨w, by simp, e⟩)
          · exact .inr (seen_iff.mpr ⟨w, Frontier.mem_add.mpr (.inr hw), e⟩)
      · obtain rfl := List.mem_singleton.mp hx
        exact .inr (seen_iff.mpr ⟨z, Frontier.mem_add.mpr (.inl hz), rfl⟩)

theorem seen_of_leads {links : List (ν × ν)} {visited : List ν} {i j : Nat}
    (h : Expanded number links [] visited) (p : Leads number links i j)
    (hi : ∃ x ∈ visited, number x = i) : ∃ y ∈ visited, number y = j := by
  induction p with
  | stay => exact hi
  | @step l j hl _ ih =>
      obtain ⟨x, hx, e⟩ := hi
      have hs : l.2 ∈ successors number links x := mem_successors.mpr ⟨l, hl, e.symm, rfl⟩
      rcases h x hx _ hs with hs | hs
      · exact ih (seen_iff.mp hs)
      · simp [seen] at hs

/-- A search that begins at one node visits exactly what some path leads to. -/
theorem seen_visit_iff {links : List (ν × ν)} {f : Frontier} {x y : ν} :
    seen number (visit number links f [x] []) y ↔ Leads number links (number x) (number y) := by
  constructor
  · intro h
    obtain ⟨z, hz, e⟩ := seen_iff.mp h
    rcases leads_of_mem_visit hz with h | ⟨w, hw, p⟩
    · cases h
    · obtain rfl := List.mem_singleton.mp hw
      exact e ▸ p
  · intro p
    have hx : ∃ z ∈ visit number links f [x] [], number z = number x :=
      seen_iff.mp (seen_visit_of_pending (by simp))
    exact seen_iff.mpr
      (seen_of_leads (expanded_visit (fun _ h => by cases h)) p hx)

end LexicalAutomata.Graph
