/-
# `LexicalAutomata.Proofs.Table.Text` — tables as text

Reading the text of a table has two steps, and each can fail only in its own way.  A text that does not
stand for bytes is refused with a wording that no fault of the bytes has (`TableFault.reason_eq_iff`,
`Reader.avoids_table`).  For any other text the bytes decide.

Text in lower case and bytes determine each other, and so do bytes and the tables that are read from
them.  So a table is read from the texts that, trimmed and put in lower case, are its own text, and from
no others (`ofText_exact`).
-/
import Mathlib.Data.String.Basic
import LexicalAutomata.Proofs.Table.Codec
import LexicalAutomata.Proofs.Text.Blank
import LexicalAutomata.Proofs.Text.Hex

namespace LexicalAutomata

/-! ## Wordings -/

theorem third_append {a b : String} {c : Char} (h : a.toList[2]? = some c) :
    (a ++ b).toList[2]? = some c := by
  obtain ⟨hlt, rfl⟩ := List.getElem?_eq_some_iff.mp h
  rw [String.toList_append, List.getElem?_append_left hlt, List.getElem?_eq_getElem hlt]

theorem last_append {a b : String} {c : Char} (h : b.toList.getLast? = some c) :
    (a ++ b).toList.getLast? = some c := by
  rw [String.toList_append, List.getLast?_append, h]
  rfl

/-- No other fault is worded like this.  The third character tells all but one, which ends in another. -/
theorem TableFault.reason_eq_iff {fault : TableFault} :
    fault.reason = "not hexadecimal text" ↔ fault = .notHexadecimal := by
  refine ⟨fun h => ?_, fun h => h ▸ rfl⟩
  have third : ∀ {c}, fault.reason.toList[2]? = some c → c ≠ 't' → fault = .notHexadecimal := by
    intro c hc hne
    rw [h] at hc
    exact absurd (Option.some_inj.mp hc).symm hne
  cases fault with
  | notHexadecimal => rfl
  | unexpectedEnd => exact third (c := 'e') rfl (by decide)
  | negativeStateCount => exact third (c := 'g') (third_append rfl) (by decide)
  | negativeDestinationCount => exact third (c := 'g') (third_append rfl) (by decide)
  | noStartState => exact third (c := ' ') rfl (by decide)
  | invalidFlag => exact third (c := 'v') (third_append rfl) (by decide)
  | tokenMismatch =>
      exact third (c := 'k') (third_append (third_append (third_append rfl))) (by decide)
  | badOffsets => exact third (c := 'f') rfl (by decide)
  | invalidScalar => exact third (c := 'v') (third_append rfl) (by decide)
  | destinationOutOfRange => exact third (c := 's') (third_append (third_append rfl)) (by decide)
  | trailingBytes count =>
      have hlast : (TableFault.trailingBytes count).reason.toList.getLast? = some ')' :=
        last_append rfl
      rw [h] at hlast
      exact absurd hlast (by decide)
  | unsortedEdges => exact third (c := 'g') (third_append (third_append rfl)) (by decide)
  | tokenOutOfRange =>
      exact third (c := 'k') (third_append (third_append (third_append (third_append rfl))))
        (by decide)

namespace Table

/-! ## Faults of bytes -/

namespace Reader

variable {α β : Type} {e : TableFault}

/-- Whatever the reader finds, it does not complain of the text. -/
def Avoids (x : Reader α) : Prop := ∀ bytes, x.run bytes ≠ .error .notHexadecimal

theorem avoids_pure (a : α) : Avoids (pure a) := fun _ h => by cases h

theorem avoids_throw (h : e ≠ .notHexadecimal) : Avoids (throw e : Reader α) :=
  fun _ h' => h (Except.error.inj h')

theorem Avoids.bind {x : Reader α} {f : α → Reader β} (hx : Avoids x) (hf : ∀ a, Avoids (f a)) :
    Avoids (x >>= f) := by
  intro bytes h
  rw [StateT.run_bind] at h
  cases hrun : x.run bytes with
  | error e =>
      rw [hrun] at h
      exact hx bytes (hrun.trans (congrArg _ (Except.error.inj h)))
  | ok p =>
      rw [hrun] at h
      exact hf p.1 p.2 h

theorem avoids_ofExcept {r : Except TableFault α} (h : r ≠ .error .notHexadecimal) :
    Avoids (ofExcept r) := by
  cases r with
  | error e => exact avoids_throw fun he => h (congrArg _ he)
  | ok a => exact avoids_pure a

theorem avoids_require {condition : Bool} (h : e ≠ .notHexadecimal) :
    Avoids (require condition e) := by
  cases condition with
  | false => exact avoids_throw h
  | true => exact avoids_pure ()

/-- Items converted one by one avoid the fault if each does. -/
theorem Avoids.mapM {x : Reader (List α)} (hx : Avoids x) {f : α → Except TableFault β}
    (hf : ∀ a, f a ≠ .error .notHexadecimal) : Avoids (do ofExcept ((← x).mapM f)) :=
  hx.bind fun _ => avoids_ofExcept (mapM_ne_error fun a _ => hf a)

/-! ### The sections of a table -/

theorem avoids_take (n : Nat) : Avoids (take n) := by
  intro bytes h
  have hrun : (take n).run bytes =
      if bytes.length < n then .error .unexpectedEnd else .ok (bytes.take n, bytes.drop n) := rfl
  rw [hrun] at h
  split at h <;> cases h

theorem avoids_words (n : Nat) : Avoids (words n) := (avoids_take _).bind fun _ => avoids_pure _

theorem avoids_count (negative : Int → TableFault) (h : ∀ i, negative i ≠ .notHexadecimal) :
    Avoids (count negative) := by
  refine (avoids_words 1).bind fun ns => ?_
  split
  · exact (avoids_require (h _)).bind fun _ => avoids_pure _
  · exact avoids_throw nofun

theorem flagOf_ne (byte : UInt8) : flagOf byte ≠ .error .notHexadecimal := by
  unfold flagOf
  split
  · exact nofun
  · split <;> exact nofun

theorem tokenOf_ne (t : Nat × Bool) : tokenOf t ≠ .error .notHexadecimal := by
  unfold tokenOf
  split
  · split <;> exact nofun
  · split <;> exact nofun

theorem charOf_ne (n : Nat) : charOf n ≠ .error .notHexadecimal := by
  unfold charOf
  split <;> exact nofun

theorem avoids_tokens (n : Nat) (accepting : List Bool) : Avoids (tokens n accepting) :=
  (avoids_words n).bind fun _ => avoids_ofExcept (mapM_ne_error fun t _ => tokenOf_ne t)

theorem avoids_offsets (n last : Nat) : Avoids (offsets n last) :=
  (avoids_words _).bind fun _ => (avoids_require (e := .badOffsets) nofun).bind fun _ => avoids_pure _

theorem avoids_destinations (states n : Nat) : Avoids (destinations states n) := by
  refine (avoids_words n).bind fun ds => ?_
  split
  · exact avoids_throw nofun
  · exact avoids_pure ds

theorem avoids_finish : Avoids finish := by
  have hget : Avoids (get : Reader (List UInt8)) := fun _ h => by cases h
  exact hget.bind fun rest => avoids_require (e := .trailingBytes rest.length) nofun

theorem checked_ne (rows : List Row) : checked rows ≠ .error .notHexadecimal := by
  unfold checked
  split <;> exact nofun

/-- Reading a table from bytes finds no fault of text. -/
theorem avoids_table : Avoids table := by
  refine (avoids_count .negativeStateCount fun _ => nofun).bind fun states => ?_
  refine (avoids_count .negativeDestinationCount fun _ => nofun).bind fun edges => ?_
  refine (avoids_require (e := .noStartState) nofun).bind fun _ => ?_
  refine ((avoids_take states).mapM flagOf_ne).bind fun accepting => ?_
  refine ((avoids_take states).mapM flagOf_ne).bind fun _ => ?_
  refine (avoids_tokens states accepting).bind fun _ => ?_
  refine (avoids_offsets states edges).bind fun _ => ?_
  refine ((avoids_words edges).mapM charOf_ne).bind fun _ => ?_
  refine (avoids_destinations states edges).bind fun _ => ?_
  exact avoids_finish.bind fun _ => avoids_ofExcept (checked_ne _)

end Reader

/-! ## Texts of tables -/

variable {bytes : List UInt8} {text : String} {t : Table} {fault : TableFault}

theorem decode_ne (bytes : List UInt8) : decode bytes ≠ .error (.malformedTable .notHexadecimal) := by
  rw [decode]
  cases hrun : Reader.table bytes with
  | ok p => exact fun h => by cases h
  | error fault =>
      intro h
      cases h
      exact Reader.avoids_table bytes hrun

/-- Where the text stands for bytes, these are read. -/
theorem ofText_eq_decode (h : (Text.trim text.toList).map Char.toLower = Text.Hex.encode bytes) :
    ofText text = decode bytes := by
  rw [ofText, Text.Hex.decode_eq_some_iff.mpr h]

theorem ofText_eq_notHexadecimal_iff : ofText text = .error (.malformedTable .notHexadecimal) ↔
    Text.Hex.decode (Text.trim text.toList) = none := by
  rw [ofText]
  cases hbytes : Text.Hex.decode (Text.trim text.toList) with
  | none => simp
  | some bytes => simpa using decode_ne bytes

/-- A table that can be written is read from the texts that are its own text, but for case and for white
space around it. -/
theorem ofText_eq_ok_iff (hw : t.WellFormed) (hf : t.Fits) : ofText text = .ok t ↔
    (Text.trim text.toList).map Char.toLower = t.toText.toList := by
  rw [toText, String.toList_ofList, ofText, ← Text.Hex.decode_eq_some_iff]
  cases hbytes : Text.Hex.decode (Text.trim text.toList) with
  | none => simp
  | some bytes =>
      simp only [decode_eq_ok_iff_encode, hw, hf, true_and, Option.some_inj]
      exact eq_comm

/-- Trimming takes off the white space at the ends of a text, and nothing else.  A table of an automaton,
or one that was read, is read from a text exactly if the trimmed text in lower case is the text of the
table.  Text is refused exactly if, trimmed, it has an odd number of bytes or a character that is no
digit; otherwise the bytes that the digits stand for are read. -/
theorem ofText_exact (text : String) :
    (∀ core, Text.Trims text.toList core ↔ core = Text.trim text.toList) ∧
    (∀ (d : Dfa) names skippable σ t τ, d.Made →
      (d.flatten names skippable).run σ = (.ok t, τ) → t.Fits →
      (ofText text = .ok t ↔ (Text.trim text.toList).map Char.toLower = t.toText.toList)) ∧
    (∀ bytes t, decode bytes = .ok t →
      (ofText text = .ok t ↔ (Text.trim text.toList).map Char.toLower = t.toText.toList)) ∧
    ((∃ fault, ofText text = .error (.malformedTable fault) ∧ fault.reason = "not hexadecimal text") ↔
      (String.ofList (Text.trim text.toList)).utf8ByteSize % 2 = 1 ∨
        ∃ c ∈ Text.trim text.toList, ¬ Text.Hex.IsDigit c) ∧
    (¬ ((String.ofList (Text.trim text.toList)).utf8ByteSize % 2 = 1 ∨
        ∃ c ∈ Text.trim text.toList, ¬ Text.Hex.IsDigit c) →
      ∃ bytes, Text.Hex.encode bytes = (Text.trim text.toList).map Char.toLower ∧
        ofText text = decode bytes) := by
  refine ⟨fun core => Text.trims_iff, fun d names skippable σ t τ hd hrun hf => ?_,
    fun bytes t h => ?_, ?_, ?_⟩
  · exact ofText_eq_ok_iff (hd.flatten_wellFormed hrun) hf
  · obtain ⟨hw, hf, -⟩ := decode_eq_ok_iff_encode.mp h
    exact ofText_eq_ok_iff hw hf
  · simp only [TableFault.reason_eq_iff, exists_eq_right, ofText_eq_notHexadecimal_iff,
      Text.Hex.decode_eq_none_iff]
  · intro hbytes
    rw [← Text.Hex.decode_eq_none_iff] at hbytes
    obtain ⟨bytes, hbytes⟩ := Option.ne_none_iff_exists'.mp hbytes
    have h := Text.Hex.decode_eq_some_iff.mp hbytes
    exact ⟨bytes, h.symm, ofText_eq_decode h⟩

theorem ofText_exact_oneLetter :
    ofText "\t000000020000000100FF0000FFFFFFFF000000000000000000000001000000010000006100000001\n" =
      .ok oneLetterTable := by
  obtain ⟨_, hrun⟩ := exists_flatten_oneLetter
  refine ((ofText_exact _).2.1 oneLetter ["A"] [] .empty oneLetterTable _ (.setArc _ _ _ (.new _)) hrun
    fits_oneLetterTable).mpr ?_
  decide

end Table

end LexicalAutomata
