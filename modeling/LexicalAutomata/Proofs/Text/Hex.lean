/-
# `LexicalAutomata.Proofs.Text.Hex` — which texts stand for which bytes

A character has the value of a digit if, put in lower case, it is what is written for this value
(`value?_eq_some_iff`).  So a text stands for bytes exactly if, put in lower case, it is what is written
for them (`decode_eq_some_iff`), and it stands for none if its length is odd or some character is no
digit.  Digits take one byte each; so where all characters are digits, it makes no difference whether
characters or bytes are counted (`decode_eq_none_iff`).
-/
import Mathlib.Data.String.Basic
import LexicalAutomata.Text.Hex

namespace LexicalAutomata.Text.Hex

variable {c high low : Char} {cs rest : List Char} {n : Nat} {bytes : List UInt8}

/-! ## Digits -/

/-- The decimal digits, and the letters up to `F` of either case. -/
def IsDigit (c : Char) : Prop :=
  ('0' ≤ c ∧ c ≤ '9') ∨ ('a' ≤ c ∧ c ≤ 'f') ∨ ('A' ≤ c ∧ c ≤ 'F')

theorem isDigit_iff : IsDigit c ↔ ∃ n, value? c = some n := by
  unfold IsDigit value?
  split
  · next h => simp [h]
  · next h =>
      split
      · next h' => simp [h']
      · next h' => simp [h, h']

theorem IsDigit.toNat_lt (h : IsDigit c) : c.toNat < 128 := by
  have hle : c ≤ '9' ∨ c ≤ 'f' ∨ c ≤ 'F' := h.imp And.right (Or.imp And.right And.right)
  simp only [Char.le_def, UInt32.le_iff_toNat_le] at hle
  show c.val.toNat < 128
  rcases hle with hle | hle | hle
  · exact Nat.lt_of_le_of_lt hle (by decide)
  · exact Nat.lt_of_le_of_lt hle (by decide)
  · exact Nat.lt_of_le_of_lt hle (by decide)

theorem toLower_eq_self (h : 128 ≤ c.toNat) : c.toLower = c := by
  refine dif_neg fun hupper => ?_
  have hle : c.toNat ≤ 'Z'.toNat := UInt32.le_iff_toNat_le.mp hupper.2
  exact absurd (Nat.le_trans h hle) (by decide)

theorem toNat_digit_lt (h : n < 16) : (digit n).toNat < 128 := by
  revert n
  decide

/-- Among the first code points, digits are those of which the lower case is written for a value. -/
theorem value?_ofNat : ∀ k < 128,
    (∀ n ∈ value? (Char.ofNat k), n < 16 ∧ (Char.ofNat k).toLower = digit n) ∧
    ∀ n < 16, (Char.ofNat k).toLower = digit n → value? (Char.ofNat k) = some n := by
  decide +kernel

theorem value?_eq_some_iff : value? c = some n ↔ n < 16 ∧ c.toLower = digit n := by
  constructor
  · intro h
    have hlt := (isDigit_iff.mpr ⟨n, h⟩).toNat_lt
    have := (value?_ofNat c.toNat hlt).1 n
    rw [Char.ofNat_toNat] at this
    exact this h
  · intro h
    obtain ⟨hn, hlower⟩ := h
    rcases Nat.lt_or_ge c.toNat 128 with hlt | hge
    · have := (value?_ofNat c.toNat hlt).2 n hn
      rw [Char.ofNat_toNat] at this
      exact this hlower
    · rw [toLower_eq_self hge] at hlower
      exact absurd (hlower ▸ toNat_digit_lt hn) (Nat.not_lt_of_le hge)

/-! ## Pairs of digits -/

theorem encode_cons (b : UInt8) (bytes : List UInt8) :
    encode (b :: bytes) = digit (b.toNat / 16) :: digit (b.toNat % 16) :: encode bytes := rfl

theorem decode_cons_cons : decode (high :: low :: rest) = some bytes ↔
    ∃ h l bs, value? high = some h ∧ value? low = some l ∧ decode rest = some bs ∧
      bytes = UInt8.ofNat (h * 16 + l) :: bs := by
  rw [decode]
  cases value? high with
  | none => simp
  | some h =>
      cases value? low with
      | none => simp
      | some l =>
          cases decode rest with
          | none => simp
          | some bs => simp [eq_comm]

theorem toNat_pair {h l : Nat} (hh : h < 16) (hl : l < 16) :
    (UInt8.ofNat (h * 16 + l)).toNat = h * 16 + l := by
  rw [UInt8.toNat_ofNat']
  omega

theorem ofNat_pair (b : UInt8) : UInt8.ofNat (b.toNat / 16 * 16 + b.toNat % 16) = b := by
  rw [show b.toNat / 16 * 16 + b.toNat % 16 = b.toNat by omega]
  exact UInt8.ofNat_toNat

/-- A text stands for the bytes that are written as its lower case. -/
theorem decode_eq_some_iff : ∀ {cs : List Char} {bytes : List UInt8},
    decode cs = some bytes ↔ cs.map Char.toLower = encode bytes
  | [], [] => ⟨fun _ => rfl, fun _ => rfl⟩
  | [], b :: bytes => ⟨fun h => (by cases h), fun h => (by cases h)⟩
  | [c], [] => ⟨fun h => (by cases h), fun h => (by cases h)⟩
  | [c], b :: bytes => ⟨fun h => (by cases h), fun h => (by cases (List.cons.inj h).2)⟩
  | high :: low :: rest, bytes => by
      rw [decode_cons_cons]
      constructor
      · intro h'
        obtain ⟨h, l, bs, hh, hl, hrest, rfl⟩ := h'
        obtain ⟨hh, hhigh⟩ := value?_eq_some_iff.mp hh
        obtain ⟨hl, hlow⟩ := value?_eq_some_iff.mp hl
        rw [encode_cons, toNat_pair hh hl, show (h * 16 + l) / 16 = h by omega,
          show (h * 16 + l) % 16 = l by omega, List.map_cons, List.map_cons, hhigh, hlow,
          decode_eq_some_iff.mp hrest]
      · intro h
        cases bytes with
        | nil => cases h
        | cons b bs =>
            rw [encode_cons] at h
            injection h with hhigh h
            injection h with hlow hrest
            have hb : b.toNat < 256 := b.toNat_lt
            exact ⟨b.toNat / 16, b.toNat % 16, bs, value?_eq_some_iff.mpr ⟨by omega, hhigh⟩,
              value?_eq_some_iff.mpr ⟨by omega, hlow⟩, decode_eq_some_iff.mpr hrest,
              by rw [ofNat_pair]⟩

/-- Some bytes are meant by pairs of digits, and by nothing else. -/
theorem exists_decode_iff : ∀ {cs : List Char},
    (∃ bytes, decode cs = some bytes) ↔ cs.length % 2 = 0 ∧ ∀ c ∈ cs, IsDigit c
  | [] => by simp [decode]
  | [c] => by simp [decode]
  | high :: low :: rest => by
      have hlength : (high :: low :: rest).length % 2 = rest.length % 2 := Nat.add_mod_right _ 2
      rw [hlength, List.forall_mem_cons, List.forall_mem_cons, isDigit_iff, isDigit_iff]
      constructor
      · intro h'
        obtain ⟨bytes, h'⟩ := h'
        obtain ⟨h, l, bs, hh, hl, hrest, -⟩ := decode_cons_cons.mp h'
        obtain ⟨hlength, hdigits⟩ := exists_decode_iff.mp ⟨bs, hrest⟩
        exact ⟨hlength, ⟨h, hh⟩, ⟨l, hl⟩, hdigits⟩
      · intro h'
        obtain ⟨hlength, ⟨h, hh⟩, ⟨l, hl⟩, hdigits⟩ := h'
        obtain ⟨bs, hrest⟩ := exists_decode_iff.mpr ⟨hlength, hdigits⟩
        exact ⟨_, decode_cons_cons.mpr ⟨h, l, bs, hh, hl, hrest, rfl⟩⟩

theorem utf8ByteSize_of_digits (h : ∀ c ∈ cs, IsDigit c) :
    (String.ofList cs).utf8ByteSize = cs.length := by
  induction cs with
  | nil => rfl
  | cons c cs ih =>
      obtain ⟨hc, hcs⟩ := List.forall_mem_cons.mp h
      have hsize : c.utf8Size = 1 := by
        refine Char.utf8Size_eq_one_iff.mpr (UInt32.le_iff_toNat_le.mpr ?_)
        exact Nat.le_of_lt_succ hc.toNat_lt
      rw [String.ofList_cons, String.utf8ByteSize_append, String.utf8ByteSize_singleton, ih hcs, hsize,
        List.length_cons, Nat.add_comm]

/-- A text stands for no bytes if the number of its own bytes is odd, or not all of it are digits. -/
theorem decode_eq_none_iff : decode cs = none ↔
    (String.ofList cs).utf8ByteSize % 2 = 1 ∨ ∃ c ∈ cs, ¬ IsDigit c := by
  rw [← Option.not_isSome_iff_eq_none, Option.isSome_iff_exists, exists_decode_iff]
  by_cases hdigits : ∀ c ∈ cs, IsDigit c
  · rw [utf8ByteSize_of_digits hdigits]
    have hnot : ¬ ∃ c ∈ cs, ¬ IsDigit c := fun ⟨c, hc, h⟩ => h (hdigits c hc)
    rw [and_iff_left hdigits, or_iff_left hnot]
    exact Nat.mod_two_ne_zero
  · have hex : ∃ c ∈ cs, ¬ IsDigit c := by
      simpa only [not_forall, exists_prop] using hdigits
    simp only [hdigits, hex, and_false, not_false_iff, or_true]

end LexicalAutomata.Text.Hex
