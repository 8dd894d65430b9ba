/-
# `LexicalAutomata.Automaton.State` — states, input symbols and arcs

A state is told from others by its number alone; the tag it may carry says what it completes.  Two
occurrences of one number may carry different tags, and then a collection keeps the occurrence it met
first.  An input symbol is a character or the empty move, which comes before every character.
-/
import LexicalAutomata.Ordered
import LexicalAutomata.Text.Quoted

namespace LexicalAutomata

/-- What an accepting state completes: the token of a production, and the production's rank. -/
structure Accept where
  /-- The name of the token. -/
  token : String
  /-- The rank of the production; a lower one wins. -/
  priority : Nat
deriving DecidableEq

/-- A state: its number, and its tag if it accepts. -/
structure State where
  /-- The number. -/
  id : Nat
  /-- The tag of an accepting state. -/
  accept : Option Accept
deriving DecidableEq

namespace State

/-- States compare by their numbers. -/
def order : State → State → Ordering := compareOn State.id

/-- Whether the state accepts. -/
def accepting (s : State) : Bool := s.accept.isSome

/-- The token that the state completes. -/
def token (s : State) : Option String := s.accept.map Accept.token

/-- The number behind a `q`, and the token in brackets. -/
def label (s : State) : String :=
  match s.accept with
  | none => s!"q{s.id}"
  | some a => s!"q{s.id}[{a.token}]"

/-- Whether a state of this number is among the states. -/
def isIn (s : State) (states : List State) : Bool := states.any fun t => t.id == s.id

/-- The place among the states of the first one of this number. -/
def position? (s : State) (states : List State) : Option Nat :=
  states.findIdx? fun t => t.id == s.id

instance : Std.TransCmp order := inferInstanceAs (Std.TransCmp (compareOn State.id))

/-- A state accepts if it has a token. -/
theorem isSome_token (s : State) : s.token.isSome = s.accepting := Option.isSome_map

theorem accepting_iff_token {s : State} : s.accepting ↔ ∃ token, s.token = some token := by
  rw [← isSome_token, Option.isSome_iff_exists]

theorem order_eq_iff {s t : State} : order s t = .eq ↔ s.id = t.id := Nat.compare_eq_eq

theorem isIn_iff {s : State} {states : List State} : s.isIn states ↔ ∃ t ∈ states, t.id = s.id := by
  simp [isIn]

theorem isIn_insert {s t : State} {states : List State} :
    s.isIn (Ordered.insert order t states) ↔ s.id = t.id ∨ s.isIn states := by
  simp only [isIn_iff]
  constructor
  · rintro ⟨u, hu, e⟩
    rcases Ordered.mem_of_mem_insert hu with rfl | hu
    · exact .inl e.symm
    · exact .inr ⟨u, hu, e⟩
  · rintro (e | ⟨u, hu, e⟩)
    · obtain ⟨u, hu, e'⟩ := @Ordered.exists_eq_mem_insert _ order _ t states
      exact ⟨u, hu, by rw [e, order_eq_iff.mp e']⟩
    · exact ⟨u, Ordered.mem_insert_of_mem hu, e⟩

theorem isIn_insertAll {s : State} {ts states : List State} :
    s.isIn (Ordered.insertAll order ts states) ↔ s.isIn ts ∨ s.isIn states := by
  induction ts generalizing states with
  | nil => simp [Ordered.insertAll, isIn]
  | cons t ts ih =>
      have e : Ordered.insertAll order (t :: ts) states =
          Ordered.insertAll order ts (Ordered.insert order t states) := rfl
      rw [e, ih, isIn_insert]
      simp only [isIn_iff, List.mem_cons]
      grind

end State

/-- What an arc reads: nothing, or one character. -/
inductive Symbol where
  /-- The empty move. -/
  | epsilon
  /-- A character. -/
  | char (c : Char)
deriving DecidableEq

namespace Symbol

/-- The character that is read. -/
def toChar? : Symbol → Option Char
  | .epsilon => none
  | .char c => some c

/-- The empty move ranks before every character, characters rank by code point. -/
def rank : Symbol → Nat
  | .epsilon => 0
  | .char c => c.toNat + 1

/-- Symbols compare by their ranks. -/
def order : Symbol → Symbol → Ordering := compareOn Symbol.rank

/-- The symbol as an arc is labelled with it. -/
def label : Symbol → List Char
  | .epsilon => ['ε']
  | .char c => Text.escape .label c

theorem rank_injective {x y : Symbol} (h : x.rank = y.rank) : x = y := by
  cases x with
  | epsilon =>
      cases y with
      | epsilon => rfl
      | char d => simp [rank] at h
  | char c =>
      cases y with
      | epsilon => simp [rank] at h
      | char d =>
          have : c.toNat = d.toNat := by simpa [rank] using h
          rw [Char.toNat_inj.mp this]

end Symbol

/-- An arc: reading the symbol in the source state leads to the target state. -/
structure Arc where
  /-- Where the arc begins. -/
  source : State
  /-- What it reads. -/
  symbol : Symbol
  /-- Where it ends. -/
  target : State
deriving DecidableEq

namespace Arc

/-- Arcs compare by the number of the source, then by the symbol, then by the number of the
target. -/
def order : Arc → Arc → Ordering :=
  compareLex (compareOn fun e => e.source.id)
    (compareLex (compareOn fun e => e.symbol.rank) (compareOn fun e => e.target.id))

instance : Std.TransCmp order :=
  inferInstanceAs (Std.TransCmp (compareLex (compareOn fun e : Arc => e.source.id)
    (compareLex (compareOn fun e : Arc => e.symbol.rank) (compareOn fun e : Arc => e.target.id))))

/-- The arc with its symbol and the labels of its ends. -/
def label (e : Arc) : String :=
  s!"{String.ofList e.symbol.label}({e.source.label} -> {e.target.label})"

end Arc

end LexicalAutomata
