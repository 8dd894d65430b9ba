/-
# `LexicalAutomata.Proofs.Expr.Rounds` — how many rounds matching takes

The matcher drops positions past the end of the input when it repeats, and so it is seen to stop.  Here
is the matcher without that: it repeats for as long as a round finds something new.  It fails where it
has to look past the end of the input, and it fails where a repetition takes more rounds than allowed.

From positions within the input neither happens, if the rounds allowed are three more than the
characters of the input (`ends?_eq`).  A factor that begins within the input ends there, so each round
is given positions within the input again; and each but the last two finds one that was missing.

Main statement: the matcher decides the language of an expression, and needs no bound for that
(`matching_exact`).
-/
import LexicalAutomata.Proofs.Expr.Matching
import LexicalAutomata.Proofs.Expr.Regular

namespace LexicalAutomata.Expr

/-! ## The matcher without a bound -/

/-- What stands from a position on, if the position is within the input. -/
def suffix? (input : List Char) (p : Nat) : Option (List Char) :=
  if p ≤ input.length then some (input.drop p) else none

/-- Where the text ends that stands at some of the positions. -/
def literalEnds? (input text : List Char) : List Nat → Option (List Nat)
  | [] => some []
  | p :: ps => do
      let rest ← suffix? input p
      let ends ← literalEnds? input text ps
      return if text.isPrefixOf rest then (p + text.length) :: ends else ends

/-- What `step` reaches from `found`; `frontier` is what the round before found. -/
def closure? (step : List Nat → Option (List Nat)) :
    (rounds : Nat) → (found frontier : List Nat) → Option (List Nat)
  | 0, _, _ => none
  | rounds + 1, found, frontier =>
      if frontier.isEmpty then some found
      else do
        let reached ← step frontier
        let fresh := reached.filter fun p => !found.contains p
        closure? step rounds (joinPositions fresh found) fresh

mutual

/-- Where a match of the expression that begins at one of `starts` may end. -/
def ends? (rounds : Nat) (input : List Char) : Expr → List Nat → Option (List Nat)
  | .literal text, starts => literalEnds? input text.toList starts
  | .sequence items, starts => endsInTurn? rounds input items starts
  | .alternation choices, starts => endsOfAny? rounds input choices starts
  | .optional body, starts => do return joinPositions starts (← ends? rounds input body starts)
  | .zeroOrMore body, starts => closure? (ends? rounds input body) rounds starts starts
  | .oneOrMore body, starts => do
      let once ← ends? rounds input body starts
      closure? (ends? rounds input body) rounds once once

/-- Where matches of the expressions, one after the other, may end. -/
def endsInTurn? (rounds : Nat) (input : List Char) : List Expr → List Nat → Option (List Nat)
  | [], starts => some starts
  | e :: es, starts => do endsInTurn? rounds input es (← ends? rounds input e starts)

/-- Where matches of any of the expressions may end. -/
def endsOfAny? (rounds : Nat) (input : List Char) : List Expr → List Nat → Option (List Nat)
  | [], _ => some []
  | e :: es, starts => do
      let first ← ends? rounds input e starts
      return joinPositions (← endsOfAny? rounds input es starts) first

end

/-- Whether a match that begins at the start of the input may end at its end. -/
def accepts? (rounds : Nat) (e : Expr) (input : String) : Option Bool := do
  return (← ends? rounds input.toList e [0]).contains input.toList.length

/-! ## Positions within the input -/

variable {rounds : Nat} {input : List Char}

/-- The positions are within the input, or at its end. -/
def Within (input : List Char) (ps : List Nat) : Prop := ∀ p ∈ ps, p ≤ input.length

theorem Within.ends {ps : List Nat} (h : Within input ps) (e : Expr) :
    Within input (ends input e ps) := by
  intro q hq
  obtain ⟨p, hp, hpq⟩ := (mem_ends e).mp hq
  rcases hpq.le_length_or_eq with hle | rfl
  · exact hle
  · exact h q hp

theorem ends_nil (e : Expr) : ends input e [] = [] := by
  refine List.eq_nil_iff_forall_not_mem.mpr fun q hq => ?_
  obtain ⟨p, hp, -⟩ := (mem_ends e).mp hq
  cases hp

theorem literalEnds?_eq {text : List Char} {ps : List Nat} (h : Within input ps) :
    literalEnds? input text ps =
      some ((ps.filter fun p => text.isPrefixOf (input.drop p)).map (· + text.length)) := by
  induction ps with
  | nil => rfl
  | cons p ps ih =>
      obtain ⟨hp, hps⟩ := List.forall_mem_cons.mp h
      rw [literalEnds?, suffix?, if_pos hp, ih hps, List.filter_cons]
      show some (if text.isPrefixOf (input.drop p) then _ else _) = _
      by_cases hpre : text.isPrefixOf (input.drop p)
      · rw [if_pos hpre, if_pos hpre, List.map_cons]
      · rw [if_neg hpre, if_neg hpre]

/-! ## Rounds -/

theorem closure?_nil (step : List Nat → Option (List Nat)) (found : List Nat) :
    closure? step (rounds + 1) found [] = some found := rfl

/-- A round drops no position that is within the input. -/
theorem closure?_round {body : Expr} {found frontier : List Nat} (hne : frontier ≠ [])
    {step : List Nat → Option (List Nat)} (hstep : step frontier = some (ends input body frontier))
    (h : Within input frontier) : closure? step (rounds + 1) found frontier =
      closure? step rounds
        (joinPositions (newPositions input.length (ends input body) found frontier) found)
        (newPositions input.length (ends input body) found frontier) := by
  have hfresh : (ends input body frontier).filter (fun p => !found.contains p) =
      newPositions input.length (ends input body) found frontier := by
    refine List.filter_congr fun p hp => ?_
    rw [decide_eq_true (h.ends body p hp), Bool.true_and]
  rw [closure?, if_neg (by simpa using hne), hstep, ← hfresh]
  rfl

/-- A repetition takes two rounds more than there are positions that it may find. -/
theorem closure?_eq {body : Expr} {step : List Nat → Option (List Nat)}
    (hstep : ∀ ps, Within input ps → step ps = some (ends input body ps))
    {found frontier : List Nat} (h : Within input frontier)
    (hrounds : missing input.length found + 2 ≤ rounds) :
    closure? step rounds found frontier =
      some (closure input.length (ends input body) found frontier) := by
  fun_induction closure input.length (ends input body) found frontier generalizing rounds with
  | case1 found frontier hnew =>
      -- The round that finds nothing is seen to be the last in the round after it.
      obtain ⟨rounds, rfl⟩ : ∃ more, rounds = more + 2 := Nat.exists_eq_add_of_le' (by omega)
      by_cases hnil : frontier = []
      · rw [hnil]
        exact closure?_nil step found
      · rw [closure?_round hnil (hstep frontier h) h, hnew]
        exact closure?_nil step found
  | case2 found frontier hnew ih =>
      obtain ⟨rounds, rfl⟩ : ∃ more, rounds = more + 1 := Nat.exists_eq_add_of_le' (by omega)
      have hne : frontier ≠ [] := by
        rintro rfl
        rw [newPositions, ends_nil] at hnew
        exact hnew rfl
      have hlt := missing_lt hnew
      rw [closure?_round hne (hstep frontier h) h]
      exact ih (fun p hp => (mem_newPositions.mp hp).2.1) (by omega)

theorem missing_le (last : Nat) (found : List Nat) : missing last found ≤ last + 1 := by
  have := List.length_filter_le (fun p => !found.contains p) (List.range (last + 1))
  rwa [List.length_range] at this

/-! ## The two matchers agree -/

mutual
theorem ends?_eq (hrounds : input.length + 3 ≤ rounds) : ∀ (e : Expr) {starts : List Nat},
    Within input starts → ends? rounds input e starts = some (ends input e starts)
  | .literal text, starts, h => by
      rw [ends?, ends]
      exact literalEnds?_eq h
  | .sequence items, starts, h => by
      rw [ends?, ends]
      exact endsInTurn?_eq hrounds items h
  | .alternation choices, starts, h => by
      rw [ends?, ends]
      exact endsOfAny?_eq hrounds choices h
  | .optional body, starts, h => by
      rw [ends?, ends, ends?_eq hrounds body h]
      rfl
  | .zeroOrMore body, starts, h => by
      have hmissing := missing_le input.length starts
      rw [ends?, ends]
      exact closure?_eq (fun ps hps => ends?_eq hrounds body hps) h (by omega)
  | .oneOrMore body, starts, h => by
      have hmissing := missing_le input.length (ends input body starts)
      rw [ends?, ends, ends?_eq hrounds body h]
      exact closure?_eq (fun ps hps => ends?_eq hrounds body hps) (h.ends body) (by omega)
theorem endsInTurn?_eq (hrounds : input.length + 3 ≤ rounds) : ∀ (es : List Expr)
    {starts : List Nat}, Within input starts →
      endsInTurn? rounds input es starts = some (endsInTurn input es starts)
  | [], starts, h => by
      rw [endsInTurn?, endsInTurn]
  | e :: es, starts, h => by
      rw [endsInTurn?, endsInTurn, ends?_eq hrounds e h]
      exact endsInTurn?_eq hrounds es (h.ends e)
theorem endsOfAny?_eq (hrounds : input.length + 3 ≤ rounds) : ∀ (es : List Expr)
    {starts : List Nat}, Within input starts →
      endsOfAny? rounds input es starts = some (endsOfAny input es starts)
  | [], starts, h => by
      rw [endsOfAny?, endsOfAny]
  | e :: es, starts, h => by
      rw [endsOfAny?, endsOfAny, ends?_eq hrounds e h, endsOfAny?_eq hrounds es h]
      rfl
end

theorem accepts?_eq (e : Expr) {w : String} (hrounds : w.toList.length + 3 ≤ rounds) :
    accepts? rounds e w = some (e.accepts w) := by
  have h : Within w.toList [0] := fun p hp => by
    rw [List.mem_singleton.mp hp]
    exact Nat.zero_le _
  rw [accepts?, ends?_eq hrounds e h]
  rfl

theorem factor_iff {e : Expr} {p q : Nat} :
    Factor input e p q ↔ ∃ u ∈ e.language, u <+: input.drop p ∧ q = p + u.length := by
  simp only [Factor, mem_language]
  constructor
  · intro h
    obtain ⟨u, v, huv, hu, rfl⟩ := h
    exact ⟨u, hu, ⟨v, huv.symm⟩, rfl⟩
  · intro h
    obtain ⟨u, hu, ⟨v, hv⟩, rfl⟩ := h
    exact ⟨u, v, hv.symm, hu, rfl⟩

/-- Matching a text tells whether the text is in the language of the expression; with three rounds more
than characters, no repetition is cut short, and none looks past the end of the text.  So does matching
from any positions within an input: it gives the positions where those parts of the input end that begin
at one of them and are in the language of the expression. -/
theorem matching_exact (e : Expr) :
    (∀ w : String, (e.accepts w ↔ w.toList ∈ e.language) ∧
      ∀ rounds ≥ w.toList.length + 3, accepts? rounds e w = some (e.accepts w)) ∧
    ∀ (input : List Char) (starts : List Nat), (∀ p ∈ starts, p ≤ input.length) →
      (∀ q, q ∈ ends input e starts ↔
        ∃ p ∈ starts, ∃ u ∈ e.language, u <+: input.drop p ∧ q = p + u.length) ∧
      ∀ rounds ≥ input.length + 3, ends? rounds input e starts = some (ends input e starts) := by
  refine ⟨fun w => ⟨?_, fun rounds hrounds => accepts?_eq e hrounds⟩, fun input starts h =>
    ⟨fun q => ?_, fun rounds hrounds => ends?_eq hrounds e h⟩⟩
  · rw [accepts_iff_lang, mem_language]
  · rw [mem_ends]
    simp only [factor_iff]

/-- A repetition whose part has the empty word. -/
def nullableLoop : Expr := .zeroOrMore (.optional (.literal "ab"))

theorem matching_exact_nullableLoop :
    (∃ qs, ends? 8 "xabab".toList nullableLoop [1] = some qs ∧ 5 ∈ qs) ∧
      accepts? 7 nullableLoop "abab" = some true := by
  have hword : "ab".toList ++ ("ab".toList ++ []) ∈ nullableLoop.language :=
    (mem_language _).mpr (.again (.present (.literal "ab")) (.again (.present (.literal "ab")) (.stop _)))
  obtain ⟨htexts, hpositions⟩ := matching_exact nullableLoop
  obtain ⟨hends, hrun⟩ := hpositions "xabab".toList [1] (by decide)
  obtain ⟨haccepts, haccepted⟩ := htexts "abab"
  constructor
  · exact ⟨_, hrun 8 (by decide),
      (hends 5).mpr ⟨1, List.mem_singleton.mpr rfl, _, hword, by decide, by decide⟩⟩
  · rw [haccepted 7 (by decide), haccepts.mpr (by exact hword)]

end LexicalAutomata.Expr
