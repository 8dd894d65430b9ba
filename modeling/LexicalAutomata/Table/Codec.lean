/-
# `LexicalAutomata.Table.Codec` — tables as bytes, and as text

Numbers are written as four bytes, the highest first.  A table is written in this order:

    the number of states, and the number of edges
    for each state a flag byte, whether it accepts
    for each state a flag byte, whether its token is not handed on
    for each state the index of its token, or -1
    the offset of each state's first edge among all edges, and the number of edges
    for each edge the code point of its character
    for each edge the state it leads to

A flag is `0xFF` or `0x00`.  Reading refuses everything that writing does not produce; each part is
examined as soon as it is read, except that the order of the edges is examined last.
-/
import LexicalAutomata.Table.Basic
import LexicalAutomata.Text.Blank
import LexicalAutomata.Text.Hex

namespace LexicalAutomata.Table

/-! ## Writing -/

/-- The four bytes of a number, which is taken modulo `2 ^ 32`. -/
def word (n : Nat) : List UInt8 :=
  [UInt8.ofNat (n / 0x1000000), UInt8.ofNat (n / 0x10000), UInt8.ofNat (n / 0x100), UInt8.ofNat n]

/-- The byte of a flag. -/
def flag (b : Bool) : UInt8 := if b then 0xFF else 0x00

/-- The number that stands for an index or for none. -/
def tokenWord : Option Nat → Nat
  | none => 0xFFFFFFFF
  | some i => i

/-- Where the edges of each row begin when those of the first begin at `start`, and where the last
ones end. -/
def offsets (start : Nat) : List Row → List Nat
  | [] => [start]
  | r :: rs => start :: offsets (start + r.edges.length) rs

/-- The bytes of a table. -/
def encode (t : Table) : List UInt8 :=
  word t.stateCount ++ word t.destinationCount ++
    t.rows.map (fun r => flag r.accepting) ++
    t.rows.map (fun r => flag r.skippable) ++
    t.rows.flatMap (fun r => word (tokenWord r.token)) ++
    (offsets 0 t.rows).flatMap word ++
    t.edges.flatMap (fun e => word e.1.toNat) ++
    t.edges.flatMap fun e => word e.2

/-- The hexadecimal text of a table. -/
def toText (t : Table) : String := String.ofList (Text.Hex.encode t.encode)

/-! ## Reading -/

/-- Reads from the bytes that are left, or finds a fault. -/
abbrev Reader := StateT (List UInt8) (Except TableFault)

namespace Reader

/-- The next `n` bytes. -/
def take (n : Nat) : Reader (List UInt8) := fun bytes =>
  if bytes.length < n then .error .unexpectedEnd else .ok (bytes.take n, bytes.drop n)

/-- The numbers that groups of four bytes stand for. -/
def wordsOf : List UInt8 → List Nat
  | a :: b :: c :: d :: rest =>
      (a.toNat * 0x1000000 + b.toNat * 0x10000 + c.toNat * 0x100 + d.toNat) :: wordsOf rest
  | _ => []

/-- The next `n` numbers. -/
def words (n : Nat) : Reader (List Nat) := do return wordsOf (← take (4 * n))

/-- A number below `2 ^ 32` taken as one from `-2 ^ 31` on. -/
def signed (n : Nat) : Int := if n < 0x80000000 then n else (n : Int) - 0x100000000

/-- Go on with a result, or stop with its fault. -/
def ofExcept {α : Type} : Except TableFault α → Reader α
  | .ok x => pure x
  | .error fault => throw fault

/-- Stop with a fault unless a condition holds. -/
def require (condition : Bool) (fault : TableFault) : Reader Unit :=
  if condition then pure () else throw fault

/-- A number that is not negative. -/
def count (negative : Int → TableFault) : Reader Nat := do
  match ← words 1 with
  | [n] => do
      require (n < 0x80000000) (negative (signed n))
      return n
  | _ => throw .unexpectedEnd

/-- The flag of a byte. -/
def flagOf (byte : UInt8) : Except TableFault Bool :=
  if byte = 0xFF then .ok true
  else if byte = 0x00 then .ok false
  else .error (.invalidFlag byte)

/-- The next `n` flags. -/
def flags (n : Nat) : Reader (List Bool) := do ofExcept ((← take n).mapM flagOf)

/-- The token of a state that accepts or not. -/
def tokenOf (t : Nat × Bool) : Except TableFault (Option Nat) :=
  if t.2 then
    if t.1 < 0x80000000 then .ok (some t.1) else .error (.tokenMismatch (signed t.1) true)
  else if t.1 = 0xFFFFFFFF then .ok none
  else .error (.tokenMismatch (signed t.1) false)

/-- The tokens of `n` states, of which these accept. -/
def tokens (n : Nat) (accepting : List Bool) : Reader (List (Option Nat)) := do
  ofExcept (((← words n).zip accepting).mapM tokenOf)

/-- Whether no number is smaller than the one before it. -/
def monotone : List Nat → Bool
  | a :: b :: rest => a ≤ b && monotone (b :: rest)
  | _ => true

/-- Whether offsets begin at zero, never descend, and end at `last`. -/
def validOffsets (last : Nat) (offsets : List Nat) : Bool :=
  offsets.head? == some 0 && offsets.getLast? == some last && monotone offsets

/-- Where the edges of `n` states begin, and where all of them, `last` in number, end. -/
def offsets (n last : Nat) : Reader (List Nat) := do
  let offsets ← words (n + 1)
  require (validOffsets last offsets) .badOffsets
  return offsets

/-- The character of a code point. -/
def charOf (n : Nat) : Except TableFault Char :=
  if n.isValidChar then .ok (Char.ofNat n) else .error (.invalidScalar n)

/-- The characters of `n` edges. -/
def symbols (n : Nat) : Reader (List Char) := do ofExcept ((← words n).mapM charOf)

/-- Where `n` edges lead, among `states` states. -/
def destinations (states n : Nat) : Reader (List Nat) := do
  let destinations ← words n
  match destinations.find? fun d => states ≤ d with
  | some d => throw (.destinationOutOfRange (signed d))
  | none => return destinations

/-- The end of the bytes. -/
def finish : Reader Unit := do
  let rest ← get
  require rest.isEmpty (.trailingBytes rest.length)

/-- The parts of a list between each offset and the next one. -/
def segments {α : Type} : List Nat → List α → List (List α)
  | a :: b :: rest, xs => xs.take (b - a) :: segments (b :: rest) (xs.drop (b - a))
  | _, _ => []

/-- The rows of which these are the tokens, the flags and the edges. -/
def assemble (tokens : List (Option Nat)) (skippable : List Bool)
    (edges : List (List (Char × Nat))) : List Row :=
  (tokens.zip (skippable.zip edges)).map fun r => ⟨r.1, r.2.1, r.2.2⟩

/-- The table of these rows, if the edges of every row ascend. -/
def checked (rows : List Row) : Except TableFault Table :=
  match rows.findIdx? fun r => !decide r.Sorted with
  | some s => .error (.unsortedEdges s)
  | none => .ok ⟨rows⟩

/-- The whole table, after which nothing may follow. -/
def table : Reader Table := do
  let states ← count .negativeStateCount
  let edges ← count .negativeDestinationCount
  require (states != 0) .noStartState
  let accepting ← flags states
  let skippable ← flags states
  let tokens ← tokens states accepting
  let offsets ← offsets states edges
  let symbols ← symbols edges
  let destinations ← destinations states edges
  finish
  ofExcept (checked (assemble tokens skippable (segments offsets (symbols.zip destinations))))

end Reader

/-- The table of these bytes. -/
def decode (bytes : List UInt8) : Except Error Table :=
  match Reader.table bytes with
  | .ok (t, _) => .ok t
  | .error fault => .error (.malformedTable fault)

/-- The table of this hexadecimal text, around which there may be white space. -/
def ofText (text : String) : Except Error Table :=
  match Text.Hex.decode (Text.trim text.toList) with
  | some bytes => decode bytes
  | none => .error (.malformedTable .notHexadecimal)

end LexicalAutomata.Table
