/-
# `LexicalAutomata.Proofs.Nfa.Renumbering` — fragments and closures under numbers further on

A fragment numbers its fresh states from the first number that is left; from a number further on, between
states as much further on, it is the same fragment further on (`fragment_shift`).  Construction and the
removal of empty moves ask of their new states only how these compare with each other, so from a number
further on each step gives the same automaton further on, or fails in the same way.  The states that closures
are made of belong to the automaton that is given, and stay as they are.
-/
import LexicalAutomata.Nfa.Construction
import LexicalAutomata.Nfa.EpsilonFree
import LexicalAutomata.Proofs.Graph.Renumbering

namespace LexicalAutomata

variable {distance : Nat} {s t : State} {next : Nat}

/-! ## Fragments -/

/-- The fragment with all numbers further on. -/
def Fragment.shift (distance : Nat) (f : Fragment) : Fragment :=
  (f.1.map (Arc.renumber (· + distance)), f.2 + distance)

namespace Fragment

theorem snd_shift (f : Fragment) : (shift distance f).2 = f.2 + distance := rfl

theorem append_shift (f g : Fragment) : shift distance (f.1 ++ g.1, g.2) =
    ((shift distance f).1 ++ (shift distance g).1, (shift distance g).2) :=
  Prod.ext List.map_append rfl

theorem plain_shift (i : Nat) : State.plain (i + distance) = (State.plain i).renumber (· + distance) := rfl

theorem spell_shift (last t : State) (text : List Char) (next : Nat) :
    spell (last.renumber (· + distance)) (t.renumber (· + distance)) text (next + distance) =
      shift distance (spell last t text next) := by
  induction text generalizing last next with
  | nil => rfl
  | cons c text ih =>
      simp only [spell, plain_shift, Nat.add_right_comm next distance, ih]
      rfl

theorem loop_shift (next : Nat) :
    loop (next + distance) = (loop next).renumber (· + distance) := by
  rw [loop, Nat.add_right_comm]
  rfl

theorem wrap_shift {inner : State → State → Nat → Fragment}
    (h : ∀ s t next, inner (s.renumber (· + distance)) (t.renumber (· + distance)) (next + distance) =
      shift distance (inner s t next)) (s t : State) (next : Nat) :
    wrap inner (s.renumber (· + distance)) (t.renumber (· + distance)) (next + distance) =
      shift distance (wrap inner s t next) := by
  simp only [wrap, Nat.add_right_comm next distance, plain_shift, h, shift, List.map_append,
    List.map_cons, List.map_nil]
  rfl

end Fragment

namespace Expr

open Fragment

mutual

theorem fragment_shift : ∀ (e : Expr) (s t : State) (next : Nat),
    e.fragment (s.renumber (· + distance)) (t.renumber (· + distance)) (next + distance) =
      Fragment.shift distance (e.fragment s t next)
  | .literal text, s, t, next => by
      simp only [fragment, plain_shift, Nat.add_right_comm next distance, spell_shift]
      rfl
  | .sequence items, s, t, next => by
      rw [fragment, fragment]
      exact fragmentInTurn_shift items s t next
  | .alternation choices, s, t, next => by
      rw [fragment, fragment]
      exact fragmentOfEach_shift choices s t next
  | .optional body, s, t, next => by
      simp only [fragment, wrap_shift (fragment_shift body)]
      rfl
  | .zeroOrMore body, s, t, next => by
      simp only [fragment, wrap_shift (fragment_shift body), loop_shift, Fragment.shift, List.map_append,
        List.map_cons, List.map_nil]
      rfl
  | .oneOrMore body, s, t, next => by
      simp only [fragment, wrap_shift (fragment_shift body), loop_shift, Fragment.shift, List.map_append,
        List.map_cons, List.map_nil]

theorem fragmentInTurn_shift : ∀ (es : List Expr) (s t : State) (next : Nat),
    fragmentInTurn es (s.renumber (· + distance)) (t.renumber (· + distance)) (next + distance) =
      Fragment.shift distance (fragmentInTurn es s t next)
  | [], s, t, next => rfl
  | [e], s, t, next => by
      rw [fragmentInTurn, fragmentInTurn]
      exact fragment_shift e s t next
  | e :: e' :: es, s, t, next => by
      simp only [fragmentInTurn, plain_shift, Nat.add_right_comm next distance, fragment_shift e,
        snd_shift, fragmentInTurn_shift (e' :: es)]
      exact (append_shift _ _).symm

theorem fragmentOfEach_shift : ∀ (es : List Expr) (s t : State) (next : Nat),
    fragmentOfEach es (s.renumber (· + distance)) (t.renumber (· + distance)) (next + distance) =
      Fragment.shift distance (fragmentOfEach es s t next)
  | [], s, t, next => rfl
  | e :: es, s, t, next => by
      simp only [fragmentOfEach, wrap_shift (fragment_shift e), snd_shift, fragmentOfEach_shift es]
      exact (append_shift _ _).symm

end

end Expr

/-! ## Construction -/

namespace Nfa

open Automaton

variable {n m : Nfa}

theorem tandem_addNewArc (h : n.Ahead distance m) (e : Arc) :
    Tandem (Ahead distance) (n.addNewArc e) (m.addNewArc (e.renumber (· + distance))) := by
  have hhas : m.hasArc (e.source.renumber (· + distance)) e.symbol
      (e.target.renumber (· + distance)) = n.hasArc e.source e.symbol e.target := by
    rw [h, hasArc_renumber (strictMono_add distance)]
  simp only [addNewArc, Arc.source_renumber, Arc.symbol_renumber, Arc.target_renumber, hhas]
  split
  · exact .error rfl
  · exact .ok (h.addArc rfl _ rfl)

theorem tandem_fresh : Stage.Tandem distance (Ahead distance) fresh fresh :=
  (Stage.tandem_freshState none).bind fun _ _ hst => Stage.tandem_pure hst.new

theorem tandem_addFragment (h : n.Ahead distance m) (e : Expr) {s s' t t' : State}
    (hs : s.Ahead distance s') (ht : t.Ahead distance t') :
    Stage.Tandem distance (Ahead distance) (n.addFragment e s t) (m.addFragment e s' t') := by
  refine Stage.tandem_issued.bind fun i j hij => ?_
  rw [hij, hs, ht, Expr.fragment_shift]
  refine (Stage.tandem_setIssued _).bind fun _ _ _ => Stage.tandem_ofExcept ?_
  exact .foldlM_map (fun _ _ e hab => tandem_addNewArc hab e) _ h

theorem tandem_addProduction (h : n.Ahead distance m) (p : Production) (rank : Nat) :
    Stage.Tandem distance (fun r r' => r.1.Ahead distance r'.1 ∧ r.2.Ahead distance r'.2)
      (n.addProduction p rank) (m.addProduction p rank) := by
  refine (Stage.tandem_freshState none).bind fun entry entry' hentry => ?_
  refine (Stage.tandem_freshState _).bind fun exit exit' hexit => ?_
  have harc : Arc.empty m.start entry' = (Arc.empty n.start entry).renumber (· + distance) := by
    rw [h, hentry]
    rfl
  have hentered := tandem_addNewArc (h.addState hexit) (.empty n.start entry)
  refine (Stage.tandem_ofExcept (harc ▸ hentered)).bind fun _ _ hentered => ?_
  refine (tandem_addFragment hentered p.body hentry hexit).bind fun _ _ hab => ?_
  exact Stage.tandem_pure ⟨hab, hexit⟩

theorem tandem_addRanked (ranking : Ranking) (h : n.Ahead distance m) (p : Production) :
    Stage.Tandem distance (Ahead distance) (addRanked ranking n p) (addRanked ranking m p) := by
  simp only [addRanked]
  cases ranking.rank? p.name with
  | none => exact Stage.tandem_throw _
  | some rank => exact (tandem_addProduction h p rank).bind fun _ _ hr => Stage.tandem_pure hr.1

theorem tandem_ofProductions (productions : List Production) (ranking : Ranking) :
    Stage.Tandem distance (Ahead distance) (ofProductions productions ranking)
      (ofProductions productions ranking) := by
  refine tandem_fresh.bind fun n m h => ?_
  refine (Stage.Tandem.foldlM (fun _ _ p hab => tandem_addRanked ranking hab p) productions h).bind
    fun n m h => ?_
  exact Stage.tandem_finish tandem_checkEpsilonNfa h (by simp only [h.length_states, h.length_arcs])

/-! ## Removal of empty moves -/

/-- The merged state with its image further on. -/
def Merged.shift (distance : Nat) (m : Merged) : Merged :=
  { m with image := m.image.renumber (· + distance) }

theorem merged_shift (n : Nfa) (first : Nat) :
    n.merged (first + distance) = (n.merged first).map (Merged.shift distance) := by
  simp only [merged, List.map_map, Function.comp_def, Merged.shift, State.renumber,
    Nat.add_right_comm first]

theorem tandem_imageOf (all : List Merged) (s : State) :
    Tandem (State.Ahead distance) (imageOf all s) (imageOf (all.map (Merged.shift distance)) s) := by
  simp only [imageOf, List.find?_map, Function.comp_def, Merged.shift]
  cases all.find? fun m => m.state.id == s.id with
  | none => exact .error rfl
  | some m => exact .ok rfl

theorem tandem_addMerged (n : Nfa) (all : List Merged) {acc acc' : Nfa} (h : acc.Ahead distance acc')
    (m : Merged) : Tandem (Ahead distance) (n.addMerged all acc m)
      (n.addMerged (all.map (Merged.shift distance)) acc' (m.shift distance)) := by
  refine .foldlM_same (fun _ _ e hab => ?_) _ (h.addState rfl)
  exact (tandem_imageOf all e.target).bind fun _ _ hst => .ok (hab.addArc rfl e.symbol hst)

theorem tandem_mergeClosures (n : Nfa) (first : Nat) :
    Tandem (Ahead distance) (n.mergeClosures first) (n.mergeClosures (first + distance)) := by
  simp only [mergeClosures, merged_shift]
  refine (tandem_imageOf _ n.start).bind fun _ _ hst => ?_
  exact (Tandem.foldlM_map (fun _ _ m hab => tandem_addMerged n _ hab m) _ hst.new).bind
    fun _ _ hab => .ok hab.prune

theorem tandem_eliminateEpsilon (n : Nfa) :
    Stage.Tandem distance (Ahead distance) n.eliminateEpsilon n.eliminateEpsilon := by
  refine Stage.tandem_make tandem_checkNfa (tandem_mergeClosures n) fun h => ?_
  rw [h.length_states, h.length_arcs]

end Nfa

end LexicalAutomata
