/-
# `LexicalAutomata.Proofs.Dfa.Access` — breadth first is by least access words

Words are compared by their lengths, and words of one length by the first place where they differ
(`Before`).  In a deterministic automaton, the states that are found breadth first come in the order of the
least words that lead to them (`exists_access`).  Words are made of symbols, and the empty move is one of
them; without empty moves they are words of characters, and lead where runs do (`exists_access_run`).

The search itself keeps no words.  Beside it, every state that was visited or is pending is given the word
along which it was found, and `Searching` says what holds of these words: they ascend, from the first
visited state to the last pending one; those of visited states are least; and a step out of a visited state
leads to a visited one, or to a pending one along the word that the step makes longer.
-/
import Mathlib.Data.List.Induction
import Mathlib.Data.List.Shortlex
import Mathlib.Data.Prod.Lex
import Mathlib.Data.Set.List
import Mathlib.Order.Lex
import LexicalAutomata.Proofs.Automaton.Order
import LexicalAutomata.Proofs.Automaton.Run
import LexicalAutomata.Proofs.Stage

namespace LexicalAutomata

/-! ## The order of words -/

theorem lex_map_iff {α β : Type} {r : β → β → Prop} {f : α → β} (hf : Function.Injective f)
    {u v : List α} :
    List.Lex r (u.map f) (v.map f) ↔ List.Lex (fun x y => r (f x) (f y)) u v := by
  constructor
  · intro h
    induction u generalizing v with
    | nil =>
        cases v with
        | nil => cases h
        | cons y v => exact .nil
    | cons x u ih =>
        cases v with
        | nil => cases h
        | cons y v =>
            rcases List.cons_lex_cons_iff.mp h with hr | ⟨hxy, htail⟩
            · exact .rel hr
            · obtain rfl := hf hxy
              exact .cons (ih htail)
  · intro h
    induction h with
    | nil => exact .nil
    | cons _ ih => exact .cons ih
    | rel hr => exact .rel hr

theorem lex_append {α : Type} {r : α → α → Prop} {u v : List α} (h : List.Lex r u v)
    (hlength : u.length = v.length) (a b : List α) : List.Lex r (u ++ a) (v ++ b) := by
  induction h with
  | nil => cases hlength
  | cons _ ih => exact .cons (ih (Nat.succ.inj hlength))
  | rel hr => exact .rel hr

namespace Symbol

variable {u v w : List Symbol} {x y : Symbol}

/-- One word comes before another: it is shorter, or of the same length and smaller where they first
differ. -/
def Before (u v : List Symbol) : Prop := List.Shortlex (fun x y => x.rank < y.rank) u v

/-- What words are compared by. -/
def key (u : List Symbol) : ℕ ×ₗ List ℕ := toLex (u.length, u.map rank)

theorem before_iff_key : Before u v ↔ key u < key v := by
  rw [Before, List.shortlex_def, key, key, Prod.Lex.toLex_lt_toLex,
    ← lex_map_iff (r := (· < ·)) fun _ _ => rank_injective]
  rfl

theorem key_injective (h : key u = key v) : u = v :=
  List.map_injective_iff.mpr (fun _ _ => rank_injective) (congrArg Prod.snd (toLex_inj.mp h))

theorem not_before_iff_key : ¬ Before u v ↔ key v ≤ key u := by
  rw [before_iff_key, not_lt]

theorem not_before_nil : ¬ Before u [] := List.not_shortlex_nil_right

theorem Before.append (h : Before u v) (x y : Symbol) : Before (u ++ [x]) (v ++ [y]) := by
  rcases List.shortlex_def.mp h with hlt | ⟨heq, hlex⟩
  · refine .of_length_lt ?_
    rw [List.length_append, List.length_append]
    exact Nat.add_lt_add_right hlt 1
  · refine .of_lex ?_ (lex_append hlex heq _ _)
    rw [List.length_append, List.length_append, heq]
    rfl

theorem before_append_symbol (u : List Symbol) (h : x.rank < y.rank) :
    Before (u ++ [x]) (u ++ [y]) :=
  .append_left ((List.shortlex_singleton_iff x y).mpr h) u

theorem before_append (u : List Symbol) (x : Symbol) : Before u (u ++ [x]) := by
  refine .of_length_lt ?_
  rw [List.length_append]
  exact Nat.lt_succ_self _

theorem key_le_append (u : List Symbol) (x : Symbol) : key u ≤ key (u ++ [x]) :=
  le_of_lt (before_iff_key.mp (before_append u x))

theorem Before.trans (h : Before u v) (h' : Before v w) : Before u w :=
  before_iff_key.mpr ((before_iff_key.mp h).trans (before_iff_key.mp h'))

theorem before_nil_append (u : List Symbol) (x : Symbol) : Before [] (u ++ [x]) := by
  refine .of_length_lt ?_
  rw [List.length_append]
  exact Nat.succ_pos _

theorem key_append_le (h : key u ≤ key v) (x : Symbol) : key (u ++ [x]) ≤ key (v ++ [x]) := by
  rcases h.lt_or_eq with hlt | heq
  · exact le_of_lt (before_iff_key.mp ((before_iff_key.mpr hlt).append x x))
  · rw [key_injective heq]

end Symbol

namespace Dfa

open Automaton LexicalAutomata.Symbol

variable {d : Dfa} {s t : State} {x : Symbol} {u v w : List Symbol} {i : Nat}

/-! ## Access words -/

/-- The state that a word of symbols leads to from the start, where an empty move counts as a symbol. -/
def trace (d : Dfa) (w : List Symbol) : Option State := w.foldlM d.target? d.start

/-- The word leads from the start to this number. -/
def LeadsTo (d : Dfa) (w : List Symbol) (i : Nat) : Prop := ∃ s, d.trace w = some s ∧ s.id = i

/-- Of the words that lead to this number, this one comes first. -/
structure Least (d : Dfa) (w : List Symbol) (i : Nat) : Prop where
  leadsTo : d.LeadsTo w i
  least : ∀ v, d.LeadsTo v i → ¬ Before v w

theorem trace_append (w : List Symbol) (x : Symbol) :
    d.trace (w ++ [x]) = (d.trace w).bind fun s => d.target? s x := by
  rw [trace, List.foldlM_append]
  refine congrArg (Option.bind (d.trace w)) (funext fun s => ?_)
  exact Option.bind_fun_some _

/-- Where arcs lead depends on the number alone. -/
theorem target?_congr (h : s.id = t.id) (x : Symbol) : d.target? s x = d.target? t x := by
  rw [target?, target?, targets, targets, arcsFrom_congr h]

theorem leadsTo_nil_iff : d.LeadsTo [] i ↔ d.start.id = i := by
  constructor
  · rintro ⟨s, hs, rfl⟩
    cases hs
    rfl
  · rintro rfl
    exact ⟨d.start, rfl, rfl⟩

theorem LeadsTo.append (h : d.LeadsTo w s.id) (hx : d.target? s x = some t) :
    d.LeadsTo (w ++ [x]) t.id := by
  obtain ⟨s', hs', hid⟩ := h
  refine ⟨t, ?_, rfl⟩
  rw [trace_append, hs', Option.bind_some, target?_congr hid, hx]

theorem exists_of_leadsTo_append (h : d.LeadsTo (w ++ [x]) i) :
    ∃ s t, d.LeadsTo w s.id ∧ d.target? s x = some t ∧ t.id = i := by
  obtain ⟨t, ht, hid⟩ := h
  rw [trace_append] at ht
  obtain ⟨s, hs, hx⟩ := Option.bind_eq_some_iff.mp ht
  exact ⟨s, t, ⟨s, hs, rfl⟩, hx, hid⟩

/-! ## The search with the words along which states are found -/

/-- What holds of visited and pending states, each with the word along which it was found. -/
structure Searching (d : Dfa) (visited pending : List (List Symbol × State)) : Prop where
  ascending : (visited ++ pending).Pairwise fun p q => Before p.1 q.1
  leadsTo : ∀ p ∈ visited ++ pending, d.LeadsTo p.1 p.2.id
  least : ∀ p ∈ visited, d.Least p.1 p.2.id
  root : ∃ p ∈ visited ++ pending, p.1 = []
  parent : ∀ p ∈ pending, p.1 = [] ∨ ∃ q ∈ visited, ∃ x, p.1 = q.1 ++ [x]
  expanded : ∀ p ∈ visited, ∀ x t, d.target? p.2 x = some t →
    (∃ q ∈ visited, q.2.id = t.id) ∨ ∃ q ∈ pending, q.1 = p.1 ++ [x] ∧ q.2.id = t.id

namespace Searching

variable {p : List Symbol × State} {visited pending : List (List Symbol × State)}

theorem init (d : Dfa) : Searching d [] [([], d.start)] where
  ascending := List.pairwise_singleton _ _
  leadsTo q hq := by
    rw [List.mem_singleton.mp hq]
    exact leadsTo_nil_iff.mpr rfl
  least := nofun
  root := ⟨_, List.mem_cons_self, rfl⟩
  parent q hq := by
    rw [List.mem_singleton.mp hq]
    exact .inl rfl
  expanded := nofun

/-- The word of the first pending state comes before those of the others. -/
theorem key_le (h : Searching d visited (p :: pending)) :
    ∀ q ∈ p :: pending, key p.1 ≤ key q.1 := by
  intro q hq
  rcases List.mem_cons.mp hq with rfl | hq
  · exact le_rfl
  · have := List.rel_of_pairwise_cons (List.pairwise_append.mp h.ascending).2.1 hq
    exact le_of_lt (before_iff_key.mp this)

/-- The words that follow the word of the first pending state come behind all words there are. -/
theorem before_append_word (h : Searching d visited (p :: pending)) (x : Symbol) :
    ∀ q ∈ visited ++ p :: pending, Before q.1 (p.1 ++ [x]) := by
  obtain ⟨-, -, hbefore⟩ := List.pairwise_append.mp h.ascending
  intro q hq
  rcases List.mem_append.mp hq with hvisited | hpending
  · exact (hbefore q hvisited p List.mem_cons_self).trans (before_append p.1 x)
  · rcases h.parent q hpending with hnil | ⟨r, hr, y, hword⟩
    · rw [hnil]
      exact before_nil_append p.1 x
    · rw [hword]
      exact (hbefore r hr p List.mem_cons_self).append y x

/-- A word leads to a visited state, or does not come before the word of the first pending one. -/
theorem visited_or_key_le (h : Searching d visited (p :: pending)) :
    ∀ w i, d.LeadsTo w i → (∃ q ∈ visited, q.2.id = i) ∨ key p.1 ≤ key w := by
  intro w
  induction w using List.reverseRecOn with
  | nil =>
      intro i hi
      obtain ⟨q, hq, hnil⟩ := h.root
      rcases List.mem_append.mp hq with hvisited | hpending
      · have hstart := h.leadsTo q hq
        rw [hnil, leadsTo_nil_iff] at hstart
        exact .inl ⟨q, hvisited, hstart.symm.trans (leadsTo_nil_iff.mp hi)⟩
      · exact .inr (hnil ▸ h.key_le q hpending)
  | append_singleton w x ih =>
      intro i hi
      obtain ⟨s, t, hs, hx, rfl⟩ := exists_of_leadsTo_append hi
      rcases ih s.id hs with ⟨q, hq, hid⟩ | hle
      · have hleast := not_before_iff_key.mp ((h.least q hq).least w (hid ▸ hs))
        rcases h.expanded q hq x t (target?_congr hid x ▸ hx) with hvisited | ⟨r, hr, hword, -⟩
        · exact .inl hvisited
        · refine .inr ((h.key_le r hr).trans ?_)
          rw [hword]
          exact key_append_le hleast x
      · exact .inr (hle.trans (key_le_append w x))

/-- A pending state whose number was visited is passed over. -/
theorem pass (h : Searching d visited (p :: pending)) (hp : ∃ q ∈ visited, q.2.id = p.2.id) :
    Searching d visited pending := by
  have hsub : List.Sublist (visited ++ pending) (visited ++ p :: pending) :=
    (List.sublist_cons_self p pending).append_left visited
  refine ⟨h.ascending.sublist hsub, fun q hq => h.leadsTo q (hsub.subset hq), h.least, ?_,
    fun q hq => h.parent q (List.mem_cons_of_mem p hq), fun q hq x t hx => ?_⟩
  · obtain ⟨q, hq, hnil⟩ := h.root
    rcases List.mem_append.mp hq with hq | hq
    · exact ⟨q, List.mem_append_left _ hq, hnil⟩
    · rcases List.mem_cons.mp hq with rfl | hq
      · -- Nothing comes before the empty word, so nothing was visited.
        obtain ⟨r, hr, -⟩ := hp
        have hbefore := (List.pairwise_append.mp h.ascending).2.2 r hr q List.mem_cons_self
        rw [hnil] at hbefore
        exact absurd hbefore not_before_nil
      · exact ⟨q, List.mem_append_right _ hq, hnil⟩
  · rcases h.expanded q hq x t hx with hvisited | ⟨r, hr, hword, hid⟩
    · exact .inl hvisited
    · rcases List.mem_cons.mp hr with rfl | hr
      · obtain ⟨r', hr', hid'⟩ := hp
        exact .inl ⟨r', hr', hid'.trans hid⟩
      · exact .inr ⟨r, hr, hword, hid⟩

/-- The states that follow, with the words along which they are found. -/
def next (d : Dfa) (p : List Symbol × State) : List (List Symbol × State) :=
  (d.arcsFrom p.2).map fun e => (p.1 ++ [e.symbol], e.target)

theorem mem_next (hd : d.Deterministic) {q : List Symbol × State} :
    q ∈ next d p ↔ ∃ x, d.target? p.2 x = some q.2 ∧ q.1 = p.1 ++ [x] := by
  constructor
  · intro hq
    obtain ⟨e, he, rfl⟩ := List.mem_map.mp hq
    exact ⟨e.symbol, target?_of_mem hd he, rfl⟩
  · rintro ⟨x, hx, hword⟩
    obtain ⟨e, he, hs, rfl, ht⟩ := exists_of_target? hx
    exact List.mem_map.mpr ⟨e, mem_arcsFrom.mpr ⟨he, hs⟩, Prod.ext hword.symm ht⟩

theorem ascending_next (ha : Ordered.Ascending Arc.order d.arcs) (hd : d.Deterministic) :
    (next d p).Pairwise fun q r => Before q.1 r.1 := by
  have hsymbols := symbols_ascending ha hd p.2
  rw [Ordered.Ascending, List.pairwise_map] at hsymbols
  refine List.pairwise_map.mpr (hsymbols.imp fun hlt => ?_)
  exact before_append_symbol p.1 (Nat.compare_eq_lt.mp hlt)

/-- A pending state whose number was not visited is visited, and the states that follow are pending. -/
theorem visit (ha : Ordered.Ascending Arc.order d.arcs) (hd : d.Deterministic)
    (h : Searching d visited (p :: pending)) (hp : ∀ q ∈ visited, q.2.id ≠ p.2.id) :
    Searching d (visited ++ [p]) (pending ++ next d p) := by
  have happend : visited ++ [p] ++ (pending ++ next d p) =
      (visited ++ p :: pending) ++ next d p := by simp
  have hmem : p ∈ visited ++ p :: pending := List.mem_append_right _ List.mem_cons_self
  refine ⟨?_, ?_, fun q hq => ?_, ?_, fun q hq => ?_, fun q hq x t hx => ?_⟩
  · rw [happend]
    refine List.pairwise_append.mpr ⟨h.ascending, ascending_next ha hd, fun q hq r hr => ?_⟩
    obtain ⟨x, -, hword⟩ := (mem_next hd).mp hr
    rw [hword]
    exact h.before_append_word x q hq
  · rw [happend]
    intro q hq
    rcases List.mem_append.mp hq with hq | hq
    · exact h.leadsTo q hq
    · obtain ⟨x, hx, hword⟩ := (mem_next hd).mp hq
      rw [hword]
      exact (h.leadsTo p hmem).append hx
  · rcases List.mem_append.mp hq with hq | hq
    · exact h.least q hq
    · obtain rfl := List.mem_singleton.mp hq
      refine ⟨h.leadsTo q hmem, fun w hw => not_before_iff_key.mpr ?_⟩
      exact (h.visited_or_key_le w _ hw).resolve_left fun ⟨r, hr, hid⟩ => hp r hr hid
  · obtain ⟨q, hq, hnil⟩ := h.root
    rw [happend]
    exact ⟨q, List.mem_append_left _ hq, hnil⟩
  · rcases List.mem_append.mp hq with hq | hq
    · rcases h.parent q (List.mem_cons_of_mem p hq) with hnil | ⟨r, hr, x, hword⟩
      · exact .inl hnil
      · exact .inr ⟨r, List.mem_append_left _ hr, x, hword⟩
    · obtain ⟨x, -, hword⟩ := (mem_next hd).mp hq
      exact .inr ⟨p, List.mem_append_right _ List.mem_cons_self, x, hword⟩
  · rcases List.mem_append.mp hq with hq | hq
    · rcases h.expanded q hq x t hx with ⟨r, hr, hid⟩ | ⟨r, hr, hword, hid⟩
      · exact .inl ⟨r, List.mem_append_left _ hr, hid⟩
      · rcases List.mem_cons.mp hr with rfl | hr
        · exact .inl ⟨r, List.mem_append_right _ List.mem_cons_self, hid⟩
        · exact .inr ⟨r, List.mem_append_left _ hr, hword, hid⟩
    · obtain rfl := List.mem_singleton.mp hq
      have hnext : (q.1 ++ [x], t) ∈ next d q := (mem_next hd).mpr ⟨x, hx, rfl⟩
      exact .inr ⟨_, List.mem_append_right _ hnext, rfl, rfl⟩

theorem snd_next (d : Dfa) (p : List Symbol × State) :
    (next d p).map Prod.snd = Graph.successors State.id d.links p.2 := by
  rw [next, List.map_map, successors_links]
  rfl

/-- What a search lists in the end are states with words of which this holds. -/
theorem exists_of_visit (ha : Ordered.Ascending Arc.order d.arcs) (hd : d.Deterministic)
    (visited pending : List (List Symbol × State)) (h : Searching d visited pending) :
    ∃ found, Searching d found [] ∧ found.map Prod.snd =
      Graph.visit State.id d.links .queue (pending.map Prod.snd) (visited.map Prod.snd) := by
  generalize hp : pending.map Prod.snd = states
  generalize hv : visited.map Prod.snd = done
  fun_induction Graph.visit State.id d.links .queue states done generalizing pending visited with
  | case1 done =>
      obtain rfl := List.map_eq_nil_iff.mp hp
      exact ⟨visited, h, hv⟩
  | case2 s states done hs ih =>
      obtain ⟨p, pending, rfl, rfl, rfl⟩ := List.map_eq_cons_iff.mp hp
      obtain ⟨t, ht, hid⟩ := Graph.seen_iff.mp hs
      obtain ⟨q, hq, rfl⟩ := List.mem_map.mp (hv ▸ ht)
      exact ih visited pending (h.pass ⟨q, hq, hid⟩) rfl hv
  | case3 s states done hs ih =>
      obtain ⟨p, pending, rfl, rfl, rfl⟩ := List.map_eq_cons_iff.mp hp
      refine ih (visited ++ [p]) (pending ++ next d p) (h.visit ha hd fun q hq hid => ?_) ?_ ?_
      · exact hs (Graph.seen_iff.mpr ⟨q.2, hv ▸ List.mem_map.mpr ⟨q, hq, rfl⟩, hid⟩)
      · rw [List.map_append, snd_next]
        rfl
      · rw [List.map_append, hv]
        rfl

end Searching

/-! ## The order of the states that are found -/

/-- The states that a search finds come in the order of the least words that lead to them. -/
theorem exists_access (ha : Ordered.Ascending Arc.order d.arcs) (hd : d.Deterministic) :
    ∃ words, List.Forall₂ (fun w s => d.Least w s.id) words d.found ∧ words.Pairwise Before := by
  obtain ⟨found, hfound, hstates⟩ := Searching.exists_of_visit ha hd [] _ (.init d)
  have hascending := hfound.ascending
  rw [List.append_nil] at hascending
  refine ⟨found.map Prod.fst, ?_, List.pairwise_map.mpr hascending⟩
  have hd : d.found = found.map Prod.snd := hstates.symm
  rw [hd, List.forall₂_map_left_iff, List.forall₂_map_right_iff, List.forall₂_same]
  exact hfound.least

/-- To an earlier state leads a word that is no later. -/
theorem exists_key_le (ha : Ordered.Ascending Arc.order d.arcs) (hd : d.Deterministic) {j : Nat}
    (hij : i ≤ j) (hs : d.found[i]? = some s) (ht : d.found[j]? = some t) (hv : d.LeadsTo v t.id) :
    ∃ u, d.LeadsTo u s.id ∧ key u ≤ key v := by
  obtain ⟨words, hwords, hascending⟩ := exists_access ha hd
  obtain ⟨hi, rfl⟩ := List.getElem?_eq_some_iff.mp hs
  obtain ⟨hj, rfl⟩ := List.getElem?_eq_some_iff.mp ht
  have hlength := hwords.length_eq
  have hi' : i < words.length := hlength ▸ hi
  have hj' : j < words.length := hlength ▸ hj
  have hle : key words[i] ≤ key words[j] := by
    rcases Nat.lt_or_eq_of_le hij with hlt | rfl
    · exact le_of_lt (before_iff_key.mp
        (List.pairwise_iff_getElem.mp hascending i j hi' hj' hlt))
    · exact le_rfl
  refine ⟨words[i], (hwords.get hi' hi).leadsTo, hle.trans ?_⟩
  exact not_before_iff_key.mp ((hwords.get hj' hj).least v hv)

/-! ## Words of characters -/

/-- Of the words of characters that a run reads to the state of this number, this one comes first. -/
structure LeastRun (d : Dfa) (w : List Char) (i : Nat) : Prop where
  run : ∃ s, d.run w = some s ∧ s.id = i
  least : ∀ v s, d.run v = some s → s.id = i → ¬ List.Shortlex (· < ·) v w

theorem run_eq_trace (d : Dfa) (w : List Char) : d.run w = d.trace (w.map .char) := by
  rw [run, runFrom, trace, List.foldlM_map]
  rfl

theorem before_map_char_iff {u v : List Char} :
    Before (u.map .char) (v.map .char) ↔ List.Shortlex (· < ·) u v := by
  have hrank : (fun c c' : Char => (Symbol.char c).rank < (Symbol.char c').rank) = (· < ·) :=
    funext₂ fun c c' => propext (Nat.succ_lt_succ_iff.trans Char.lt_def.symm)
  rw [Before, List.shortlex_def, List.shortlex_def, List.length_map, List.length_map,
    lex_map_iff fun _ _ => Symbol.char.inj, hrank]

/-- Without empty moves, words of symbols that lead anywhere are words of characters. -/
theorem exists_chars (he : d.EpsilonFree) (h : d.LeadsTo w i) : ∃ v : List Char, w = v.map .char := by
  induction w using List.reverseRecOn generalizing i with
  | nil => exact ⟨[], rfl⟩
  | append_singleton w x ih =>
      obtain ⟨s, t, hs, hx, -⟩ := exists_of_leadsTo_append h
      obtain ⟨v, rfl⟩ := ih hs
      obtain ⟨e, hem, -, rfl, -⟩ := exists_of_target? hx
      cases hc : e.symbol with
      | epsilon => exact absurd hc (he e hem)
      | char c => exact ⟨v ++ [c], by rw [List.map_append]; rfl⟩

theorem Least.leastRun {v : List Char} (h : d.Least (v.map .char) i) : d.LeastRun v i where
  run := by
    rw [run_eq_trace]
    exact h.leadsTo
  least u s hu hs := by
    rw [← before_map_char_iff]
    rw [run_eq_trace] at hu
    exact h.least _ ⟨s, hu, hs⟩

/-- Without empty moves, the states that a search finds come in the order of the least words of
characters that run into them. -/
theorem exists_access_run (ha : Ordered.Ascending Arc.order d.arcs) (hd : d.Deterministic)
    (he : d.EpsilonFree) : ∃ words : List (List Char),
      List.Forall₂ (fun w s => d.LeastRun w s.id) words d.found ∧
        words.Pairwise (List.Shortlex (· < ·)) := by
  obtain ⟨words, hwords, hascending⟩ := exists_access ha hd
  have hchars : words ∈ Set.range (List.map (List.map Symbol.char)) := by
    rw [Set.range_list_map]
    intro w hw
    obtain ⟨s, -, hs⟩ := exists_of_mem_forall₂ hwords.flip hw
    obtain ⟨v, hv⟩ := exists_chars he hs.leadsTo
    exact ⟨v, hv.symm⟩
  obtain ⟨words, rfl⟩ := hchars
  rw [List.forall₂_map_left_iff] at hwords
  exact ⟨words, hwords.imp fun _ _ hw => hw.leastRun,
    (List.pairwise_map.mp hascending).imp before_map_char_iff.mp⟩

/-! ## Pruning -/

theorem LeadsTo.reaches (h : d.LeadsTo w i) : Reaches d i := by
  induction w using List.reverseRecOn generalizing i with
  | nil => exact leadsTo_nil_iff.mp h ▸ reaches_start d
  | append_singleton w x ih =>
      obtain ⟨s, t, hs, hx, rfl⟩ := exists_of_leadsTo_append h
      exact reaches_of_target? (ih hs) hx

/-- Pruning changes nothing that words lead to. -/
theorem trace_prune (d : Dfa) (w : List Symbol) : trace d.prune w = d.trace w := by
  induction w using List.reverseRecOn with
  | nil => rfl
  | append_singleton w x ih =>
      rw [trace_append, trace_append, ih]
      cases hw : d.trace w with
      | none => rfl
      | some s => exact target?_prune (LeadsTo.reaches ⟨s, hw, rfl⟩)

end Dfa

end LexicalAutomata
