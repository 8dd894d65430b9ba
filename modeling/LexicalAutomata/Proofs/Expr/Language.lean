/-
# `LexicalAutomata.Proofs.Expr.Language` — the words of an expression, and where it has none

`Lang` has one rule for each way a word arises; read backwards, the rules say which words an
expression has (`lang_sequence_cons` and so on).

`Part x e` says that `x` occurs in `e` at any depth.  An alternation without alternatives is the only
expression without words of its own making, so an expression in which none occurs is `Productive`.
The converse fails: an optional part without words leaves the empty word.  What an automaton can see
is the occurrence, not the missing words.
-/
import LexicalAutomata.Expr.Basic

namespace LexicalAutomata.Expr

/-! ## The rules read backwards -/

theorem lang_literal {text : String} {w : List Char} :
    Lang (.literal text) w ↔ w = text.toList := by
  constructor
  · intro h
    cases h with
    | literal => rfl
  · rintro rfl
    exact .literal text

theorem lang_sequence_nil {w : List Char} : Lang (.sequence []) w ↔ w = [] := by
  constructor
  · intro h
    cases h with
    | emptySequence => rfl
  · rintro rfl
    exact .emptySequence

theorem lang_sequence_cons {e : Expr} {es : List Expr} {w : List Char} :
    Lang (.sequence (e :: es)) w ↔ ∃ u v, w = u ++ v ∧ Lang e u ∧ Lang (.sequence es) v := by
  constructor
  · intro h
    cases h with
    | sequence hu hv => exact ⟨_, _, rfl, hu, hv⟩
  · intro h'
    obtain ⟨u, v, rfl, hu, hv⟩ := h'
    exact .sequence hu hv

theorem lang_sequence_singleton {e : Expr} {w : List Char} :
    Lang (.sequence [e]) w ↔ Lang e w := by
  rw [lang_sequence_cons]
  constructor
  · intro h'
    obtain ⟨u, v, rfl, hu, hv⟩ := h'
    rw [lang_sequence_nil] at hv
    rwa [hv, List.append_nil]
  · intro h
    exact ⟨w, [], (List.append_nil w).symm, h, .emptySequence⟩

theorem lang_alternation {es : List Expr} {w : List Char} :
    Lang (.alternation es) w ↔ ∃ e ∈ es, Lang e w := by
  constructor
  · intro h
    cases h with
    | alternation he hw => exact ⟨_, he, hw⟩
  · intro h'
    obtain ⟨e, he, hw⟩ := h'
    exact .alternation he hw

theorem lang_alternation_cons {e : Expr} {es : List Expr} {w : List Char} :
    Lang (.alternation (e :: es)) w ↔ Lang e w ∨ Lang (.alternation es) w := by
  simp [lang_alternation]

theorem lang_optional {e : Expr} {w : List Char} :
    Lang (.optional e) w ↔ w = [] ∨ Lang e w := by
  constructor
  · intro h
    cases h with
    | absent => exact .inl rfl
    | present hw => exact .inr hw
  · intro h'
    rcases h' with rfl | hw
    · exact .absent e
    · exact .present hw

theorem lang_zeroOrMore {e : Expr} {w : List Char} :
    Lang (.zeroOrMore e) w ↔ w = [] ∨ ∃ u v, w = u ++ v ∧ Lang e u ∧ Lang (.zeroOrMore e) v := by
  constructor
  · intro h
    cases h with
    | stop => exact .inl rfl
    | again hu hv => exact .inr ⟨_, _, rfl, hu, hv⟩
  · intro h'
    rcases h' with rfl | ⟨u, v, rfl, hu, hv⟩
    · exact .stop e
    · exact .again hu hv

theorem lang_oneOrMore {e : Expr} {w : List Char} :
    Lang (.oneOrMore e) w ↔ ∃ u v, w = u ++ v ∧ Lang e u ∧ Lang (.zeroOrMore e) v := by
  constructor
  · intro h
    cases h with
    | oneOrMore hu hv => exact ⟨_, _, rfl, hu, hv⟩
  · intro h'
    obtain ⟨u, v, rfl, hu, hv⟩ := h'
    exact .oneOrMore hu hv

/-! ## Parts -/

/-- `Part x e`: the expression `x` occurs in `e`, at any depth. -/
inductive Part (x : Expr) : Expr → Prop
  | whole : Part x x
  | item {e : Expr} {es : List Expr} : e ∈ es → Part x e → Part x (.sequence es)
  | choice {e : Expr} {es : List Expr} : e ∈ es → Part x e → Part x (.alternation es)
  | optional {e : Expr} : Part x e → Part x (.optional e)
  | zeroOrMore {e : Expr} : Part x e → Part x (.zeroOrMore e)
  | oneOrMore {e : Expr} : Part x e → Part x (.oneOrMore e)

/-- No alternation without alternatives occurs in the expression. -/
def Productive (e : Expr) : Prop := ¬ Part (.alternation []) e

theorem productive_literal (text : String) : Productive (.literal text) := by
  intro h
  cases h

theorem productive_sequence {es : List Expr} :
    Productive (.sequence es) ↔ ∀ e ∈ es, Productive e := by
  constructor
  · intro h e he hp
    exact h (.item he hp)
  · intro h hp
    cases hp with
    | item he hp => exact h _ he hp

theorem productive_alternation {es : List Expr} :
    Productive (.alternation es) ↔ es ≠ [] ∧ ∀ e ∈ es, Productive e := by
  constructor
  · intro h
    refine ⟨?_, fun e he hp => h (.choice he hp)⟩
    rintro rfl
    exact h .whole
  · intro h' hp
    obtain ⟨hne, h⟩ := h'
    cases hp with
    | whole => exact hne rfl
    | choice he hp => exact h _ he hp

theorem productive_optional {e : Expr} : Productive (.optional e) ↔ Productive e := by
  refine not_congr ⟨fun h => ?_, .optional⟩
  cases h with
  | optional h => exact h

theorem productive_zeroOrMore {e : Expr} : Productive (.zeroOrMore e) ↔ Productive e := by
  refine not_congr ⟨fun h => ?_, .zeroOrMore⟩
  cases h with
  | zeroOrMore h => exact h

theorem productive_oneOrMore {e : Expr} : Productive (.oneOrMore e) ↔ Productive e := by
  refine not_congr ⟨fun h => ?_, .oneOrMore⟩
  cases h with
  | oneOrMore h => exact h

end LexicalAutomata.Expr
