/-
# `LexicalAutomata.Proofs.Grammar` — which production wins a word

A production whose body matches a word offers its name, at the rank of its place in the declaration.
Of the offers for one word the one of the lowest rank wins.  Ranks are different, so one offer wins if
there is any (`exists_wins`), and no other does (`Wins.unique`); and it is that of the production
declared first among those that match (`wins_iff`), which is what the matcher finds
(`firstMatch?_eq_some_of_wins`).
-/
import LexicalAutomata.Expr.Basic
import LexicalAutomata.Grammar
import LexicalAutomata.Proofs.Expr.Matching
import LexicalAutomata.Proofs.Ordered

namespace LexicalAutomata.Grammar

variable {g : Grammar} {w : List Char} {tag tag' : Accept} {p q : Production} {i j : Nat}

/-! ## Names and ranks -/

theorem rank?_eq (h : g.productions[i]? = some p) : g.ranking.rank? p.name = some (i + 1) := by
  obtain ⟨hi, e⟩ := List.getElem?_eq_some_iff.mp h
  have hlt : i < (g.productions.map Production.name).length := by rwa [List.length_map]
  have hfind : (g.productions.map Production.name).findIdx (fun n => n == p.name) = i := by
    refine (List.findIdx_eq hlt).mpr ⟨by simp [e], fun j hj => ?_⟩
    have hne := List.nodup_iff_getElem?_ne_getElem?.mp g.names_nodup j i hj hlt
    rw [List.getElem?_map, List.getElem?_map, h,
      List.getElem?_eq_getElem (Nat.lt_trans hj hi)] at hne
    simpa using hne
  have : (g.productions.map Production.name).findIdx? (fun n => n == p.name) = some i :=
    List.findIdx?_eq_some_iff_findIdx_eq.mpr ⟨hlt, hfind⟩
  rw [Ranking.rank?, ranking, this]
  rfl

theorem eq_of_name (hp : p ∈ g.productions) (hq : q ∈ g.productions) (e : p.name = q.name) : p = q :=
  List.inj_on_of_nodup_map g.names_nodup hp hq e

theorem mem_tokenNames {name : String} :
    name ∈ g.tokenNames ↔ ∃ p ∈ g.productions, p.name = name := by
  rw [tokenNames, Ordered.mem_ofList, List.mem_map]

theorem mem_skippableTokens {name : String} :
    name ∈ g.skippableTokens ↔ ∃ p ∈ g.productions, p.skippable ∧ p.name = name := by
  simp only [skippableTokens, Ordered.mem_ofList, List.mem_map, List.mem_filter, and_assoc]

/-- There is no production, or one that is not productive, or neither. -/
theorem productive_cases (g : Grammar) : g.productions = [] ∨
    (∃ p ∈ g.productions, ¬ p.body.Productive) ∨
    (g.productions ≠ [] ∧ ∀ p ∈ g.productions, p.body.Productive) := by
  by_cases hnil : g.productions = []
  · exact .inl hnil
  · by_cases hp : ∀ p ∈ g.productions, p.body.Productive
    · exact .inr (.inr ⟨hnil, hp⟩)
    · simp only [not_forall] at hp
      obtain ⟨p, hp, hdead⟩ := hp
      exact .inr (.inl ⟨p, hp, hdead⟩)

/-! ## Offers -/

/-- A production that matches the word has this tag. -/
def Offers (g : Grammar) (w : List Char) (tag : Accept) : Prop :=
  ∃ i p, g.productions[i]? = some p ∧ p.body.Lang w ∧ tag = ⟨p.name, i + 1⟩

/-- The offer of the lowest rank. -/
def Wins (g : Grammar) (w : List Char) (tag : Accept) : Prop :=
  g.Offers w tag ∧ ∀ tag', g.Offers w tag' → tag.priority ≤ tag'.priority

theorem Offers.eq_of_priority (h : g.Offers w tag) {v : List Char} (h' : g.Offers v tag')
    (e : tag.priority = tag'.priority) : tag = tag' := by
  obtain ⟨i, p, hp, -, rfl⟩ := h
  obtain ⟨j, q, hq, -, rfl⟩ := h'
  obtain rfl : i = j := Nat.succ_injective e
  rw [hp] at hq
  cases hq
  rfl

theorem Offers.eq_of_token (h : g.Offers w tag) {v : List Char} (h' : g.Offers v tag')
    (e : tag.token = tag'.token) : tag = tag' := by
  obtain ⟨i, p, hp, -, rfl⟩ := h
  obtain ⟨j, q, hq, -, rfl⟩ := h'
  have e : p.name = q.name := e
  have hrank := rank?_eq hp
  rw [e, rank?_eq hq] at hrank
  rw [e, Option.some_inj.mp hrank]

theorem Wins.unique (h : g.Wins w tag) (h' : g.Wins w tag') : tag = tag' :=
  h.1.eq_of_priority h'.1 (Nat.le_antisymm (h.2 _ h'.1) (h'.2 _ h.1))

theorem exists_wins (h : g.Offers w tag) : ∃ tag', g.Wins w tag' := by
  generalize hn : tag.priority = n
  induction n using Nat.strongRecOn generalizing tag with
  | ind n ih =>
      by_cases hbest : ∀ tag', g.Offers w tag' → tag.priority ≤ tag'.priority
      · exact ⟨tag, h, hbest⟩
      · simp only [not_forall] at hbest
        obtain ⟨tag', h', hlt⟩ := hbest
        exact ih tag'.priority (hn ▸ Nat.lt_of_not_le hlt) h' rfl

/-- The production declared first among those that match wins. -/
theorem wins_iff : g.Wins w tag ↔ ∃ i p, g.productions[i]? = some p ∧ p.body.Lang w ∧
    (∀ j < i, ∀ q, g.productions[j]? = some q → ¬ q.body.Lang w) ∧ tag = ⟨p.name, i + 1⟩ := by
  constructor
  · intro h
    obtain ⟨⟨i, p, hp, hw, rfl⟩, hbest⟩ := h
    refine ⟨i, p, hp, hw, fun j hj q hq hqw => ?_, rfl⟩
    have : i + 1 ≤ j + 1 := hbest _ ⟨j, q, hq, hqw, rfl⟩
    omega
  · intro h
    obtain ⟨i, p, hp, hw, hfirst, rfl⟩ := h
    refine ⟨⟨i, p, hp, hw, rfl⟩, ?_⟩
    intro _ h
    obtain ⟨j, q, hq, hqw, rfl⟩ := h
    exact Nat.succ_le_succ (Nat.le_of_not_lt fun hj => hfirst j hj q hq hqw)

theorem offers_nothing_iff :
    (∀ tag, ¬ g.Offers w tag) ↔ ∀ p ∈ g.productions, ¬ p.body.Lang w := by
  constructor
  · intro h p hp hw
    obtain ⟨i, hi⟩ := List.mem_iff_getElem?.mp hp
    exact h _ ⟨i, p, hi, hw, rfl⟩
  · intro h tag h'
    obtain ⟨i, p, hp, hw, -⟩ := h'
    exact h p (List.mem_of_getElem? hp) hw

/-! ## As the matcher tells -/

/-- The production declared first among those that match. -/
def firstMatch? (g : Grammar) (text : String) : Option Production :=
  g.productions.find? fun p => p.body.accepts text

/-- Some production matches a text that begins so. -/
def Viable (g : Grammar) (u : List Char) : Prop :=
  ∃ p ∈ g.productions, ∃ text : String, p.body.accepts text ∧ u <+: text.toList

theorem firstMatch?_eq_none_iff {text : String} :
    g.firstMatch? text = none ↔ ∀ p ∈ g.productions, ¬ p.body.accepts text :=
  List.find?_eq_none

theorem viable_iff_firstMatch? {u : List Char} :
    g.Viable u ↔ ∃ text : String, u <+: text.toList ∧ g.firstMatch? text ≠ none := by
  simp only [Viable, ne_eq, firstMatch?_eq_none_iff]
  constructor
  · intro h'
    obtain ⟨p, hp, text, ha, hu⟩ := h'
    exact ⟨text, hu, fun h => h p hp ha⟩
  · intro h'
    obtain ⟨text, hu, h⟩ := h'
    simp only [not_forall, not_not] at h
    obtain ⟨p, hp, ha⟩ := h
    exact ⟨p, hp, text, ha, hu⟩

/-- The production that wins is the first that matches. -/
theorem firstMatch?_eq_some_of_wins {text : String} (h : g.Wins text.toList tag) :
    ∃ p, g.firstMatch? text = some p ∧ p.name = tag.token := by
  obtain ⟨i, p, hp, hw, hfirst, rfl⟩ := wins_iff.mp h
  obtain ⟨hi, hpi⟩ := List.getElem?_eq_some_iff.mp hp
  refine ⟨p, List.find?_eq_some_iff_getElem.mpr ⟨Expr.accepts_iff_lang.mpr hw, i, hi, hpi, ?_⟩, rfl⟩
  intro j hj
  rw [Bool.not_eq_true', Bool.eq_false_iff]
  exact fun ha => hfirst j hj _ (List.getElem?_eq_getElem _) (Expr.accepts_iff_lang.mp ha)

theorem viable_iff {u : List Char} : g.Viable u ↔ ∃ v tag, g.Offers (u ++ v) tag := by
  constructor
  · intro h
    obtain ⟨p, hp, text, ha, v, e⟩ := h
    obtain ⟨i, hi⟩ := List.mem_iff_getElem?.mp hp
    exact ⟨v, _, i, p, hi, e ▸ Expr.accepts_iff_lang.mp ha, rfl⟩
  · intro h
    obtain ⟨v, -, i, p, hp, hw, rfl⟩ := h
    refine ⟨p, List.mem_of_getElem? hp, String.ofList (u ++ v), ?_, v, String.toList_ofList.symm⟩
    exact Expr.accepts_iff_lang.mpr (String.toList_ofList.symm ▸ hw)

end LexicalAutomata.Grammar
