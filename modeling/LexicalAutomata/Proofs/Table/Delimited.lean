/-
# `LexicalAutomata.Proofs.Table.Delimited` — the bytes of a table tell where they end

A reader of one section takes bytes from the front and does not look at the others: with more bytes behind,
it reads the same, and with fewer than it takes, it comes to an unexpected end (`Delimited`).  It finds no
other fault in them, since what it examines it has examined in the longer list too.  That carries over to
sections one after the other (`Delimited.bind`).

The whole table ends with the bytes.  So after a table that is read, any further bytes are trailing ones,
and any that are missing make the end unexpected (`Complete`, `complete_table`): neither fault is hidden by
another one, and no table's bytes begin with those of another.
-/
import LexicalAutomata.Proofs.Table.Codec

namespace LexicalAutomata.Table

namespace Reader

variable {α β : Type} {bytes rest cut : List UInt8} {a : α} {n : Nat}

/-! ## Sections -/

/-- A reader takes its bytes from the front, whatever follows; where some of them are missing, it comes to
an unexpected end. -/
def Delimited (x : Reader α) : Prop :=
  ∀ bytes a rest, x.run bytes = .ok (a, rest) → ∃ used, bytes = used ++ rest ∧
    (∀ more, x.run (used ++ more) = .ok (a, more)) ∧
    ∀ cut, cut <+: used → cut ≠ used → x.run cut = .error .unexpectedEnd

theorem delimited_pure (a : α) : Delimited (pure a) := by
  intro bytes b rest h
  cases h
  refine ⟨[], rfl, fun more => rfl, fun cut hcut hne => ?_⟩
  exact absurd (List.prefix_nil.mp hcut) hne

theorem delimited_throw (e : TableFault) : Delimited (throw e : Reader α) :=
  fun _ _ _ h => nomatch h

theorem run_bind_of_ok {x : Reader α} {f : α → Reader β} (h : x.run bytes = .ok (a, rest)) :
    (x >>= f).run bytes = (f a).run rest := by
  rw [StateT.run_bind, h]
  rfl

theorem run_bind_of_error {x : Reader α} {f : α → Reader β} {e : TableFault}
    (h : x.run bytes = .error e) : (x >>= f).run bytes = .error e := by
  rw [StateT.run_bind, h]
  rfl

/-- What is left of two pieces that were cut ends in the first one, or goes on into the second. -/
theorem cut_append {used used' : List UInt8} (h : cut <+: used ++ used') (hne : cut ≠ used ++ used') :
    (cut <+: used ∧ cut ≠ used) ∨ ∃ cut', cut = used ++ cut' ∧ cut' <+: used' ∧ cut' ≠ used' := by
  by_cases hlength : cut.length < used.length
  · refine .inl ⟨List.prefix_of_prefix_length_le h (List.prefix_append _ _) (Nat.le_of_lt hlength), ?_⟩
    rintro rfl
    exact Nat.lt_irrefl _ hlength
  · obtain ⟨cut', rfl⟩ :=
      List.prefix_of_prefix_length_le (List.prefix_append _ _) h (Nat.le_of_not_lt hlength)
    refine .inr ⟨cut', rfl, (List.prefix_append_right_inj used).mp h, ?_⟩
    rintro rfl
    exact hne rfl

theorem Delimited.bind {x : Reader α} {f : α → Reader β} (hx : Delimited x)
    (hf : ∀ a, Delimited (f a)) : Delimited (x >>= f) := by
  intro bytes b rest h
  obtain ⟨a, left, hrun, hrun'⟩ := run_bind_eq_ok_iff.mp h
  obtain ⟨used, rfl, hmore, hcut⟩ := hx _ _ _ hrun
  obtain ⟨used', rfl, hmore', hcut'⟩ := hf a _ _ _ hrun'
  refine ⟨used ++ used', (List.append_assoc _ _ _).symm, fun more => ?_, fun cut hfront hne => ?_⟩
  · rw [List.append_assoc, run_bind_of_ok (hmore _), hmore']
  · rcases cut_append hfront hne with ⟨hfront, hne⟩ | ⟨cut', rfl, hfront, hne⟩
    · exact run_bind_of_error (hcut cut hfront hne)
    · rw [run_bind_of_ok (hmore cut')]
      exact hcut' cut' hfront hne

theorem delimited_ofExcept (r : Except TableFault α) : Delimited (ofExcept r) := by
  cases r with
  | error e => exact delimited_throw e
  | ok a => exact delimited_pure a

theorem delimited_require (condition : Bool) (fault : TableFault) :
    Delimited (require condition fault) := by
  cases condition with
  | false => exact delimited_throw fault
  | true => exact delimited_pure ()

theorem run_take_of_lt (h : bytes.length < n) : (take n).run bytes = .error .unexpectedEnd := if_pos h

theorem delimited_take (n : Nat) : Delimited (take n) := by
  intro bytes xs rest h
  obtain ⟨hlength, rfl⟩ := (inverts_take n _ _ _).mp h
  refine ⟨xs, rfl, fun more => (inverts_take n _ _ _).mpr ⟨hlength, rfl⟩, fun cut hcut hne => ?_⟩
  refine run_take_of_lt (hlength ▸ Nat.lt_of_le_of_ne hcut.length_le fun e => hne ?_)
  exact hcut.eq_of_length e

theorem delimited_words (n : Nat) : Delimited (words n) :=
  (delimited_take _).bind fun _ => delimited_pure _

theorem delimited_count (negative : Int → TableFault) : Delimited (count negative) := by
  refine (delimited_words 1).bind fun ns => ?_
  split
  · exact (delimited_require _ _).bind fun _ => delimited_pure _
  · exact delimited_throw _

theorem delimited_flags (n : Nat) : Delimited (flags n) :=
  (delimited_take n).bind fun _ => delimited_ofExcept _

theorem delimited_tokens (n : Nat) (accepting : List Bool) : Delimited (tokens n accepting) :=
  (delimited_words n).bind fun _ => delimited_ofExcept _

theorem delimited_offsets (n last : Nat) : Delimited (offsets n last) :=
  (delimited_words _).bind fun _ => (delimited_require _ _).bind fun _ => delimited_pure _

theorem delimited_symbols (n : Nat) : Delimited (symbols n) :=
  (delimited_words n).bind fun _ => delimited_ofExcept _

theorem delimited_destinations (states n : Nat) : Delimited (destinations states n) := by
  refine (delimited_words n).bind fun ds => ?_
  split
  · exact delimited_throw _
  · exact delimited_pure _

/-! ## The whole table -/

/-- A reader takes all bytes there are: more are trailing ones, and with fewer it comes to an unexpected
end. -/
def Complete (x : Reader α) : Prop :=
  ∀ bytes a rest, x.run bytes = .ok (a, rest) →
    (∀ more, more ≠ [] → x.run (bytes ++ more) = .error (.trailingBytes more.length)) ∧
    ∀ cut, cut <+: bytes → cut ≠ bytes → x.run cut = .error .unexpectedEnd

theorem Delimited.bind_complete {x : Reader α} {f : α → Reader β} (hx : Delimited x)
    (hf : ∀ a, Complete (f a)) : Complete (x >>= f) := by
  intro bytes b rest h
  obtain ⟨a, left, hrun, hrun'⟩ := run_bind_eq_ok_iff.mp h
  obtain ⟨used, rfl, hmore, hcut⟩ := hx _ _ _ hrun
  obtain ⟨htrailing, hcut'⟩ := hf a _ _ _ hrun'
  refine ⟨fun more hne => ?_, fun cut hfront hne => ?_⟩
  · rw [List.append_assoc, run_bind_of_ok (hmore _), htrailing more hne]
  · rcases cut_append hfront hne with ⟨hfront, hne⟩ | ⟨cut', rfl, hfront, hne⟩
    · exact run_bind_of_error (hcut cut hfront hne)
    · rw [run_bind_of_ok (hmore cut')]
      exact hcut' cut' hfront hne

/-- The end of the bytes comes before what is examined last. -/
theorem complete_finish_bind (f : Unit → Reader α) : Complete (finish >>= f) := by
  intro bytes a rest h
  obtain ⟨u, left, hfinish, -⟩ := run_bind_eq_ok_iff.mp h
  obtain ⟨rfl, -⟩ := run_finish_eq_ok_iff.mp hfinish
  refine ⟨fun more hne => run_bind_of_error ?_, fun cut hcut hne => ?_⟩
  · obtain ⟨byte, more, rfl⟩ := List.exists_cons_of_ne_nil hne
    rfl
  · exact absurd (List.prefix_nil.mp hcut) hne

theorem complete_table : Complete table := by
  refine (delimited_count _).bind_complete fun states => ?_
  refine (delimited_count _).bind_complete fun edges => ?_
  refine (delimited_require _ _).bind_complete fun _ => ?_
  refine (delimited_flags states).bind_complete fun accepting => ?_
  refine (delimited_flags states).bind_complete fun _ => ?_
  refine (delimited_tokens states accepting).bind_complete fun _ => ?_
  refine (delimited_offsets states edges).bind_complete fun _ => ?_
  refine (delimited_symbols edges).bind_complete fun _ => ?_
  refine (delimited_destinations states edges).bind_complete fun _ => ?_
  exact complete_finish_bind _

end Reader

/-! ## Bytes of tables -/

theorem reason_unexpectedEnd : TableFault.unexpectedEnd.reason = "unexpected end of table" := rfl

theorem reason_trailingBytes (k : Nat) :
    (TableFault.trailingBytes k).reason = toString k ++ " trailing byte(s)" := rfl

variable {bytes cut more : List UInt8} {t : Table}

theorem complete_of_decode (h : decode bytes = .ok t) :
    (∀ more, more ≠ [] → decode (bytes ++ more) = .error (.malformedTable (.trailingBytes more.length))) ∧
    ∀ cut, cut <+: bytes → cut ≠ bytes → decode cut = .error (.malformedTable .unexpectedEnd) := by
  rw [decode] at h
  cases hrun : Reader.table bytes with
  | error fault =>
      rw [hrun] at h
      cases h
  | ok p =>
      obtain ⟨hmore, hcut⟩ := Reader.complete_table bytes p.1 p.2 hrun
      refine ⟨fun more hne => ?_, fun cut hfront hne => ?_⟩
      · have hrun : Reader.table (bytes ++ more) = .error (.trailingBytes more.length) := hmore more hne
        rw [decode, hrun]
      · have hrun : Reader.table cut = .error .unexpectedEnd := hcut cut hfront hne
        rw [decode, hrun]

/-- Where bytes are read as a table, a part of them from the front is refused because the end is
unexpected, and with further bytes behind they are refused because of these, whose number is told.  So the
bytes of one table are never the beginning of those of another. -/
theorem decode_delimited (h : decode bytes = .ok t) :
    (∀ cut, cut <+: bytes → cut ≠ bytes → ∃ fault, decode cut = .error (.malformedTable fault) ∧
      fault.reason = "unexpected end of table") ∧
    (∀ more, more ≠ [] → ∃ fault, decode (bytes ++ more) = .error (.malformedTable fault) ∧
      fault.reason = toString more.length ++ " trailing byte(s)") ∧
    ∀ bytes' t', decode bytes' = .ok t' → bytes <+: bytes' → bytes = bytes' := by
  obtain ⟨hmore, hcut⟩ := complete_of_decode h
  refine ⟨fun cut hfront hne => ⟨_, hcut cut hfront hne, reason_unexpectedEnd⟩,
    fun more hne => ⟨_, hmore more hne, reason_trailingBytes more.length⟩, fun bytes' t' h' hfront => ?_⟩
  by_contra hne
  have herror := (complete_of_decode h').2 bytes hfront hne
  rw [h] at herror
  cases herror

/-- Without its last byte, a table ends too early; with one more, that one is trailing. -/
theorem decode_delimited_oneLetter :
    (∃ fault, decode oneLetterTable.encode.dropLast = .error (.malformedTable fault) ∧
      fault.reason = "unexpected end of table") ∧
    ∃ fault, decode (oneLetterTable.encode ++ [0]) = .error (.malformedTable fault) ∧
      fault.reason = "1 trailing byte(s)" := by
  have hd : decode oneLetterTable.encode = .ok oneLetterTable := by decide +kernel
  obtain ⟨hcut, hmore, -⟩ := decode_delimited hd
  exact ⟨hcut _ (List.dropLast_prefix _) (by decide), hmore [0] (by decide)⟩

end LexicalAutomata.Table
