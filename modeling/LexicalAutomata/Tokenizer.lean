/-
# `LexicalAutomata.Tokenizer` — a text cut into tokens by a table

From the place where it stands, a tokenizer follows the table until the next character has no edge;
the state it is then in decides.  If that state completes a token, what was read is a lexeme, which is
handed on as a token unless its token is skippable.  There is no way back to an accepting state passed
earlier, and a lexeme is never empty.  After an error nothing more comes.
-/
import LexicalAutomata.Error
import LexicalAutomata.Location
import LexicalAutomata.Log
import LexicalAutomata.Table.Basic

namespace LexicalAutomata

/-- Why a text cannot be cut into tokens. -/
inductive LexError where
  /-- The table is stuck in a state that completes nothing; the offset is where it got stuck. -/
  | lexical (index : Nat)
  /-- A token is complete without a character read; the offset is where it stands. -/
  | emptyMatch (index : Nat)
deriving DecidableEq

/-- The wording of an error. -/
def LexError.message : LexError → String
  | .lexical index => s!"lexical error at byte {index}"
  | .emptyMatch index => s!"empty token match at byte {index}"

/-- A token found in a text. -/
structure Token where
  /-- The name. -/
  name : String
  /-- The index of the name. -/
  index : Nat
  /-- What was read. -/
  text : List Char
  /-- Where it begins. -/
  first : Location
  /-- Where it ends. -/
  last : Location
deriving DecidableEq

/-- The name, the text in quotes, and the places. -/
def Token.label (t : Token) : String :=
  s!"{t.name} {String.ofList (Text.quoteText t.text)} @{t.first.label}-{t.last.label}"

/-- A token that was read, and whether it is handed on. -/
structure Lexeme where
  /-- The token. -/
  token : Token
  /-- Whether it is not handed on. -/
  skipped : Bool
deriving DecidableEq

/-- The record of a lexeme. -/
def Lexeme.record (l : Lexeme) : Record where
  level := .trace
  target := .tokenizer
  message :=
    let text := s!"{l.token.name} {String.ofList (Text.quoteText l.token.text)} at {l.token.first.label}"
    if l.skipped then "skipped " ++ text else text

/-! ## Following a table -/

/-- Where a table got stuck. -/
structure Table.Walk where
  /-- The state. -/
  state : Nat
  /-- What was read. -/
  read : List Char
  /-- What is left. -/
  rest : List Char

/-- Follow the table from a state as far as it goes. -/
def Table.walk (t : Table) (s : Nat) : List Char → Table.Walk
  | [] => ⟨s, [], []⟩
  | c :: cs =>
      match t.next? s c with
      | none => ⟨s, [], c :: cs⟩
      | some d =>
          let w := t.walk d cs
          ⟨w.state, c :: w.read, w.rest⟩

theorem Table.walk_append (t : Table) (s : Nat) (cs : List Char) :
    (t.walk s cs).read ++ (t.walk s cs).rest = cs := by
  induction cs generalizing s with
  | nil => rfl
  | cons c cs ih =>
      rw [walk]
      split
      · rfl
      · simp [ih]

/-! ## Tokenizers -/

/-- A tokenizer at some place of a text. -/
structure Tokenizer where
  /-- The table it follows. -/
  table : Table
  /-- The names of the tokens. -/
  names : List String
  /-- Every token of the table has a name. -/
  index_lt : ∀ r ∈ table.rows, ∀ i ∈ r.token, i < names.length
  /-- What is left of the text. -/
  rest : List Char
  /-- Where that begins. -/
  location : Location
  /-- Whether an error was met. -/
  failed : Bool

namespace Tokenizer

/-- The first index of a token that has no name. -/
def unnamed? (table : Table) (names : List String) : Option Nat :=
  (table.rows.filterMap Table.Row.token).find? fun i => names.length ≤ i

theorem index_lt_of_unnamed? {table : Table} {names : List String}
    (h : unnamed? table names = none) :
    ∀ r ∈ table.rows, ∀ i ∈ r.token, i < names.length := by
  intro r hr i hi
  have := List.find?_eq_none.mp h i (List.mem_filterMap.mpr ⟨r, hr, hi⟩)
  simpa using this

/-- A tokenizer at the beginning of a text, if every token of the table has a name. -/
def ofTable (table : Table) (names : List String) (text : String) : Except Error Tokenizer :=
  match h : unnamed? table names with
  | some i => .error (.malformedTable (.tokenOutOfRange i names.length))
  | none => .ok ⟨table, names, index_lt_of_unnamed? h, text.toList, .initial, false⟩

/-- The token of a state, with its name, and whether it is skippable. -/
def tokenAt (t : Tokenizer) (s : Nat) : Option (Nat × String × Bool) := do
  let row ← t.table.row? s
  let index ← row.token
  let name ← t.names[index]?
  return (index, name, row.skippable)

/-- Only a state without a token has none here: every token has a name. -/
theorem tokenAt_eq_none_iff {t : Tokenizer} {s : Nat} :
    t.tokenAt s = none ↔ t.table.token? s = none := by
  unfold tokenAt Table.token?
  cases hr : t.table.row? s with
  | none => simp
  | some r =>
      cases hi : r.token with
      | none => simp [hi]
      | some i =>
          have : i < t.names.length := t.index_lt r (List.mem_of_getElem? hr) i hi
          simp [hi, this]

/-- What comes next in a text of which `n` characters are left. -/
inductive Step (n : Nat) where
  /-- The text is at its end. -/
  | finished
  /-- The text cannot be cut further. -/
  | failed (e : LexError)
  /-- A lexeme was read; the text goes on where it ends. -/
  | lexeme (l : Lexeme) (rest : List Char) (shorter : rest.length < n)

theorem length_rest_lt {t : Table} {s : Nat} {cs : List Char} (h : (t.walk s cs).read ≠ []) :
    (t.walk s cs).rest.length < cs.length := by
  have e := congrArg List.length (t.walk_append s cs)
  rw [List.length_append] at e
  have := List.length_pos_iff.mpr h
  omega

/-- Read the next lexeme. -/
def step (t : Tokenizer) : Step t.rest.length :=
  if t.rest = [] then .finished
  else
    let w := t.table.walk 0 t.rest
    let stop := t.location.advance w.read
    match t.tokenAt w.state with
    | none => .failed (.lexical stop.offset)
    | some (index, name, skippable) =>
        if h : w.read = [] then .failed (.emptyMatch t.location.offset)
        else
          .lexeme ⟨⟨name, index, w.read, t.location, stop⟩, skippable⟩ w.rest (length_rest_lt h)

/-- The tokenizer behind a lexeme. -/
def moveTo (t : Tokenizer) (l : Lexeme) (rest : List Char) : Tokenizer :=
  { t with rest := rest, location := l.token.last }

/-- The tokenizer after an error. -/
def fail (t : Tokenizer) : Tokenizer := { t with failed := true }

/-- What one call for a token gives. -/
structure Answer where
  /-- The token or the error, or nothing at the end. -/
  item : Option (Except LexError Token)
  /-- The lexemes read on the way. -/
  read : List Lexeme
  /-- The tokenizer afterwards. -/
  after : Tokenizer

/-- Read lexemes up to the first that is handed on, unless an error was met earlier. -/
def next (t : Tokenizer) : Answer :=
  if t.failed then ⟨none, [], t⟩
  else
    match t.step with
    | .finished => ⟨none, [], t⟩
    | .failed e => ⟨some (.error e), [], t.fail⟩
    | .lexeme l rest _ =>
        if l.skipped then
          let answer := (t.moveTo l rest).next
          { answer with read := l :: answer.read }
        else ⟨some (.ok l.token), [l], t.moveTo l rest⟩
termination_by t.rest.length

/-- What the calls for tokens up to the end give. -/
structure Answers where
  /-- The tokens, and the error if one ends them. -/
  items : List (Except LexError Token)
  /-- The lexemes read on the way. -/
  read : List Lexeme
  /-- The tokenizer afterwards. -/
  after : Tokenizer

/-- Read all lexemes, unless an error was met earlier. -/
def drain (t : Tokenizer) : Answers :=
  if t.failed then ⟨[], [], t⟩
  else
    match t.step with
    | .finished => ⟨[], [], t⟩
    | .failed e => ⟨[.error e], [], t.fail⟩
    | .lexeme l rest _ =>
        let answers := (t.moveTo l rest).drain
        { answers with
          items := if l.skipped then answers.items else .ok l.token :: answers.items
          read := l :: answers.read }
termination_by t.rest.length

theorem drain_fail (t : Tokenizer) : t.fail.drain = ⟨[], [], t.fail⟩ := by
  rw [drain]
  rfl

/-- To read all lexemes is to call for a token until there is none. -/
theorem drain_eq (t : Tokenizer) :
    t.drain =
      match t.next.item with
      | none => ⟨[], t.next.read, t.next.after⟩
      | some item =>
          let answers := t.next.after.drain
          ⟨item :: answers.items, t.next.read ++ answers.read, answers.after⟩ := by
  fun_induction next t with
  | case1 t h => rw [drain]; simp [h]
  | case2 t h hs => rw [drain]; simp [h, hs]
  | case3 t h e hs => rw [drain]; simp [h, hs, drain_fail]
  | case4 t h l rest shorter hs hl answer ih =>
      rw [drain]
      simp only [h, hs, hl, Bool.false_eq_true, if_false, if_true]
      rw [ih]
      cases (t.moveTo l rest).next.item <;> simp [answer]
  | case5 t h l rest shorter hs hl => rw [drain]; simp [h, hs, hl]

end Tokenizer

end LexicalAutomata
