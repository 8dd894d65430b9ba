/-
# `LexicalAutomata.Proofs.Expr.Regular` — the language of an expression by operations on languages

`Lang` says how a single word arises.  The same language can be computed as a whole from the languages
of the parts: items in turn stand for a product of languages, choices for a sum, an optional part adds
the empty word, and repetition is the star, which holds the words cut into any number of words of the
part.  Main statement: both give one language (`mem_language`).
-/
import Mathlib.Computability.Language
import LexicalAutomata.Proofs.Expr.Language

namespace LexicalAutomata.Expr

open Computability

mutual

/-- The language of an expression. -/
def language : Expr → Language Char
  | .literal text => {text.toList}
  | .sequence items => languageInTurn items
  | .alternation choices => languageOfAny choices
  | .optional body => 1 + language body
  | .zeroOrMore body => (language body)∗
  | .oneOrMore body => language body * (language body)∗

/-- The words of the expressions, one after the other. -/
def languageInTurn : List Expr → Language Char
  | [] => 1
  | e :: es => language e * languageInTurn es

/-- The words of any of the expressions. -/
def languageOfAny : List Expr → Language Char
  | [] => 0
  | e :: es => language e + languageOfAny es

end

/-- Words of a part in a row are the words of its repetition. -/
theorem lang_zeroOrMore_iff_mem_kstar {e : Expr} {l : Language Char}
    (h : ∀ w, w ∈ l ↔ Lang e w) {w : List Char} : Lang (.zeroOrMore e) w ↔ w ∈ l∗ := by
  constructor
  · intro hw
    -- The induction is on the derivation, one rule of which adds a word at the front.
    generalize he : Expr.zeroOrMore e = e' at hw
    induction hw with
    | stop => exact Language.nil_mem_kstar l
    | @again e₀ u v hu _ _ ih =>
        obtain rfl := Expr.zeroOrMore.inj he
        obtain ⟨words, rfl, hwords⟩ := Language.mem_kstar.mp (ih rfl)
        exact Language.mem_kstar.mpr
          ⟨u :: words, rfl, List.forall_mem_cons.mpr ⟨(h u).mpr hu, hwords⟩⟩
    | literal | emptySequence | sequence | alternation | absent | present | oneOrMore =>
        exact Expr.noConfusion he
  · rw [Language.mem_kstar]
    intro hw
    obtain ⟨words, rfl, hwords⟩ := hw
    induction words with
    | nil => exact .stop e
    | cons u words ih =>
        obtain ⟨hu, hwords⟩ := List.forall_mem_cons.mp hwords
        exact .again ((h u).mp hu) (ih hwords)

mutual
theorem mem_language : ∀ (e : Expr) {w : List Char}, w ∈ language e ↔ Lang e w
  | .literal text, w => by
      rw [language, lang_literal]
      exact Set.mem_singleton_iff
  | .sequence items, w => by
      rw [language]
      exact mem_languageInTurn items
  | .alternation choices, w => by
      rw [language]
      exact mem_languageOfAny choices
  | .optional body, w => by
      rw [language, Language.mem_add, Language.mem_one, mem_language body, lang_optional]
  | .zeroOrMore body, w => by
      rw [language, lang_zeroOrMore_iff_mem_kstar fun w => mem_language body]
  | .oneOrMore body, w => by
      rw [language, Language.mem_mul, lang_oneOrMore]
      simp only [mem_language body, lang_zeroOrMore_iff_mem_kstar fun w => mem_language body]
      constructor
      · intro h
        obtain ⟨u, hu, v, hv, rfl⟩ := h
        exact ⟨u, v, rfl, hu, hv⟩
      · intro h
        obtain ⟨u, v, rfl, hu, hv⟩ := h
        exact ⟨u, hu, v, hv, rfl⟩
theorem mem_languageInTurn : ∀ (es : List Expr) {w : List Char},
    w ∈ languageInTurn es ↔ Lang (.sequence es) w
  | [], w => by
      rw [languageInTurn, Language.mem_one, lang_sequence_nil]
  | e :: es, w => by
      rw [languageInTurn, Language.mem_mul, lang_sequence_cons]
      simp only [mem_language e, mem_languageInTurn es]
      constructor
      · intro h
        obtain ⟨u, hu, v, hv, rfl⟩ := h
        exact ⟨u, v, rfl, hu, hv⟩
      · intro h
        obtain ⟨u, v, rfl, hu, hv⟩ := h
        exact ⟨u, hu, v, hv, rfl⟩
theorem mem_languageOfAny : ∀ (es : List Expr) {w : List Char},
    w ∈ languageOfAny es ↔ Lang (.alternation es) w
  | [], w => by
      simp [languageOfAny, lang_alternation, Language.notMem_zero]
  | e :: es, w => by
      rw [languageOfAny, Language.mem_add, mem_language e, mem_languageOfAny es,
        lang_alternation_cons]
end

end LexicalAutomata.Expr
