/-
# `LexicalAutomata.Proofs.Location` — a place is told by its offset

The place behind a text counts its lines, the characters of its last line, and its bytes (`behind`), and
stepping over a text from the beginning comes to this place (`advance_initial`).  Where a text is split,
the place behind its first part is a boundary of characters, and it is the place of its own offset
(`ofOffset_behind`): line and column carry nothing that text and offset do not tell.

A later part of a text has places of its own, which count from its beginning.  Put where that beginning is,
they are places of the whole text (`beyond`), and to put them there commutes with stepping over characters
(`beyond_advance`).
-/
import Mathlib.Data.String.Basic
import LexicalAutomata.Location

namespace LexicalAutomata.Location

variable {u v w : List Char} {text : String} {here : Location}

/-! ## Stepping over a text -/

theorem advance_append (here : Location) (u v : List Char) :
    here.advance (u ++ v) = (here.advance u).advance v :=
  List.foldl_append

/-- Offsets count bytes. -/
theorem offset_advance (here : Location) (u : List Char) :
    (here.advance u).offset = here.offset + (String.ofList u).utf8ByteSize := by
  induction u generalizing here with
  | nil => rfl
  | cons c u ih =>
      have hstep : (here.step c).offset = here.offset + c.utf8Size := by
        unfold step
        split <;> rfl
      show ((here.step c).advance u).offset = _
      rw [ih, hstep, String.ofList_cons, String.utf8ByteSize_append, String.utf8ByteSize_singleton,
        Nat.add_assoc]

/-- The characters behind the last line feed. -/
def lastLine (u : List Char) : List Char := (u.reverse.takeWhile fun c => c != '\n').reverse

/-- The place behind a text: one line more than it has line feeds, one column more than there are
characters behind the last of these, and an offset of as many bytes as the text has. -/
def behind (u : List Char) : Location where
  line := 1 + u.count '\n'
  column := 1 + (lastLine u).length
  offset := (String.ofList u).utf8ByteSize

theorem step_behind (u : List Char) (c : Char) : (behind u).step c = behind (u ++ [c]) := by
  have hoffset : (behind (u ++ [c])).offset = (behind u).offset + c.utf8Size := by
    simp [behind]
  by_cases hc : c = '\n'
  · subst hc
    rw [step, if_pos rfl, ← hoffset]
    simp [behind, lastLine, Nat.add_assoc]
  · rw [step, if_neg hc, ← hoffset]
    simp [behind, lastLine, hc, Nat.add_assoc]

theorem advance_behind (u v : List Char) : (behind u).advance v = behind (u ++ v) := by
  induction v generalizing u with
  | nil => rw [List.append_nil]; rfl
  | cons c v ih =>
      show ((behind u).step c).advance v = _
      rw [step_behind, ih, List.append_assoc, List.singleton_append]

theorem advance_initial (u : List Char) : initial.advance u = behind u :=
  advance_behind [] u

/-! ## Places of a text -/

/-- The place of an offset: the one behind the text that ends there. -/
def ofOffset (text : String) (offset : Nat) : Location :=
  behind (String.Pos.Raw.extract text 0 ⟨offset⟩).toList

theorem isValid_behind (h : text.toList = u ++ v) :
    String.Pos.Raw.IsValid text ⟨(behind u).offset⟩ := by
  refine String.Pos.Raw.isValid_iff_exists_append.mpr ⟨.ofList u, .ofList v, ?_, rfl⟩
  rw [← String.ofList_append, ← h, String.ofList_toList]

/-- What stands between two places. -/
theorem extract_behind (h : text.toList = u ++ v ++ w) :
    String.Pos.Raw.extract text ⟨(behind u).offset⟩ ⟨(behind (u ++ v)).offset⟩ = String.ofList v := by
  have htext : text = String.ofList (u ++ v ++ w) := by rw [← h, String.ofList_toList]
  have hfirst : (behind u).offset = String.utf8Len u := String.utf8ByteSize_ofList u
  have hlast : (behind (u ++ v)).offset = String.utf8Len u + String.utf8Len v := by
    rw [← String.utf8Len_append]
    exact String.utf8ByteSize_ofList (u ++ v)
  rw [htext, hfirst, hlast, String.extract_of_valid]

theorem ofOffset_behind (h : text.toList = u ++ v) :
    ofOffset text (behind u).offset = behind u := by
  have hextract : String.Pos.Raw.extract text 0 ⟨(behind u).offset⟩ = String.ofList u :=
    @extract_behind [] u v text h
  rw [ofOffset, hextract, String.toList_ofList]

/-! ## Places of a later part -/

/-- A place of a text that begins at `here`, as a place of the text around it: offsets and lines go on
from there, and so do the columns of the first line. -/
def beyond (here l : Location) : Location where
  line := here.line - 1 + l.line
  column := if l.line = 1 then here.column - 1 + l.column else l.column
  offset := here.offset + l.offset

theorem line_step_pos {l : Location} (h : 0 < l.line) (c : Char) : 0 < (l.step c).line := by
  rw [step]
  split
  · exact Nat.succ_pos _
  · exact h

theorem line_advance_pos {l : Location} (h : 0 < l.line) (u : List Char) : 0 < (l.advance u).line := by
  induction u generalizing l with
  | nil => exact h
  | cons c u ih => exact ih (line_step_pos h c)

theorem beyond_step {l : Location} (h : 0 < l.line) (c : Char) :
    here.beyond (l.step c) = (here.beyond l).step c := by
  by_cases hc : c = '\n'
  · have hline : l.line + 1 ≠ 1 := Nat.ne_of_gt (Nat.succ_lt_succ h)
    simp only [step, beyond, if_pos hc, if_neg hline, Nat.add_assoc]
  · by_cases hline : l.line = 1 <;> simp [step, beyond, hc, hline, Nat.add_assoc]

theorem beyond_advance {l : Location} (h : 0 < l.line) (u : List Char) :
    here.beyond (l.advance u) = (here.beyond l).advance u := by
  induction u generalizing l with
  | nil => rfl
  | cons c u ih =>
      show here.beyond ((l.step c).advance u) = ((here.beyond l).step c).advance u
      rw [ih (line_step_pos h c), beyond_step h]

theorem beyond_initial (u : List Char) : (behind u).beyond initial = behind u := by
  simp [beyond, behind, initial, Nat.add_comm]

end LexicalAutomata.Location
