/-
# `LexicalAutomata.Proofs.Text.Quoted` — what is written with escapes can be read back

A written character begins with a backslash exactly if it is escaped, and what follows the backslash says
how the escape goes on: so one character can be taken off the front of a text, whatever comes after it
(`unescape?_escape`).  Hence no two characters are written alike, and no two literals
(`escapeLiteral_injective`).

Behind the backslash and the character after it, an escape has neither a backslash nor a quote
(`escape_shape`): to find the end of a literal it is enough to skip what follows a backslash.
-/
import Mathlib.Data.List.Basic
import LexicalAutomata.Text.Hex
import LexicalAutomata.Text.Quoted

namespace LexicalAutomata.Text

variable {base n : Nat} {c c' : Char} {style : Style}

/-! ## Texts cut at a delimiter -/

/-- There is one way to cut a list at the first occurrence of a delimiter. -/
theorem append_cons_inj {α : Type} {a : α} {xs ys rest rest' : List α} (hx : a ∉ xs) (hy : a ∉ ys)
    (h : xs ++ a :: rest = ys ++ a :: rest') : xs = ys ∧ rest = rest' := by
  induction xs generalizing ys with
  | nil =>
      cases ys with
      | nil => exact ⟨rfl, (List.cons.inj h).2⟩
      | cons y ys => exact absurd ((List.cons.inj h).1 ▸ List.mem_cons_self) hy
  | cons x xs ih =>
      cases ys with
      | nil => exact absurd ((List.cons.inj h).1 ▸ List.mem_cons_self) hx
      | cons y ys =>
          obtain ⟨rfl, htail⟩ := List.cons.inj h
          obtain ⟨rfl, rfl⟩ := ih (fun hm => hx (List.mem_cons_of_mem _ hm))
            (fun hm => hy (List.mem_cons_of_mem _ hm)) htail
          exact ⟨rfl, rfl⟩

/-! ## Numbers by their digits -/

/-- The number that digits stand for. -/
def ofDigits (base : Nat) (digits : List Char) : Nat :=
  digits.foldl (fun n c => n * base + (Hex.value? c).getD 0) 0

theorem ofDigits_toDigits (hb : 1 < base) (hb' : base ≤ 16) (n : Nat) :
    ofDigits base (Nat.toDigits base n) = n := by
  have hvalue : ∀ i < base, (Hex.value? (Nat.digitChar i)).getD 0 = i := fun i hi =>
    congrArg (Option.getD · 0) (Hex.value?_digit (Nat.lt_of_lt_of_le hi hb'))
  induction n using Nat.strongRecOn with
  | ind n ih =>
      rw [Nat.toDigits_eq_if hb]
      split
      · next hlt =>
          show 0 * base + (Hex.value? (Nat.digitChar n)).getD 0 = n
          rw [hvalue n hlt, Nat.zero_mul, Nat.zero_add]
      · next hge =>
          have hdiv : n / base < n :=
            Nat.div_lt_self (Nat.lt_of_lt_of_le (Nat.zero_lt_of_lt hb) (Nat.not_lt.mp hge)) hb
          have hfront := ih (n / base) hdiv
          rw [ofDigits] at hfront
          rw [ofDigits, List.foldl_append, hfront]
          show n / base * base + (Hex.value? (Nat.digitChar (n % base))).getD 0 = n
          rw [hvalue _ (Nat.mod_lt _ (Nat.zero_lt_of_lt hb))]
          exact Nat.div_add_mod' n base

theorem toDigits_injective (hb : 1 < base) (hb' : base ≤ 16) :
    Function.Injective (Nat.toDigits base) := fun m n h => by
  rw [← ofDigits_toDigits hb hb' m, h, ofDigits_toDigits hb hb']

theorem exists_digit_of_mem_toDigits (hb : 1 < base) (h : c ∈ Nat.toDigits base n) :
    ∃ i < base, c = Nat.digitChar i := by
  induction n using Nat.strongRecOn with
  | ind n ih =>
      rw [Nat.toDigits_eq_if hb] at h
      split at h
      · next hlt => exact ⟨n, hlt, List.mem_singleton.mp h⟩
      · next hge =>
          rcases List.mem_append.mp h with h | h
          · exact ih (n / base) (Nat.div_lt_self
              (Nat.lt_of_lt_of_le (Nat.zero_lt_of_lt hb) (Nat.not_lt.mp hge)) hb) h
          · exact ⟨n % base, Nat.mod_lt _ (Nat.zero_lt_of_lt hb), List.mem_singleton.mp h⟩

/-- What is no digit does not occur in a number. -/
theorem not_mem_toDigits (hb : 1 < base) (hb' : base ≤ 16)
    (h : ∀ i < 16, c ≠ Nat.digitChar i) : c ∉ Nat.toDigits base n := fun hm => by
  obtain ⟨i, hi, e⟩ := exists_digit_of_mem_toDigits hb hm
  exact h i (Nat.lt_of_lt_of_le hi hb') e

/-! ## Characters -/

/-- The first character of a written text, and what follows it. -/
def unescape? : List Char → Option (Char × List Char)
  | [] => none
  | '\\' :: '0' :: rest => some ('\x00', rest)
  | '\\' :: 't' :: rest => some ('\t', rest)
  | '\\' :: 'r' :: rest => some ('\r', rest)
  | '\\' :: 'n' :: rest => some ('\n', rest)
  | '\\' :: 'u' :: '\x7b' :: rest =>
      some (Char.ofNat (ofDigits 16 (rest.takeWhile (· != '\x7d'))), (rest.dropWhile (· != '\x7d')).tail)
  | '\\' :: c :: rest => some (c, rest)
  | c :: rest => some (c, rest)

/-- The style escapes no other quotes than the two. -/
def Style.Plain (style : Style) : Prop := ∀ q ∈ style.quotes, q = '"' ∨ q = '\''

theorem unescape?_byNumber (c : Char) (rest : List Char) :
    unescape? (byNumber c ++ rest) = some (c, rest) := by
  have hdigits : ∀ x ∈ Nat.toDigits 16 c.toNat, (x != '\x7d') = true := by
    intro x hx
    refine bne_iff_ne.mpr ?_
    rintro rfl
    exact not_mem_toDigits (by decide) (by decide) (by decide) hx
  have e : byNumber c ++ rest =
      '\\' :: 'u' :: '\x7b' :: (Nat.toDigits 16 c.toNat ++ '\x7d' :: rest) := by
    simp [byNumber]
  rw [e, unescape?, List.takeWhile_append_of_pos hdigits, List.dropWhile_append_of_pos hdigits]
  simp [ofDigits_toDigits]

theorem unescape?_cons (h : c ≠ '\\') (rest : List Char) : unescape? (c :: rest) = some (c, rest) := by
  unfold unescape?
  split
  all_goals simp_all

/-- A written character can be taken off the front of a text. -/
theorem unescape?_escape (hq : style.Plain) (c : Char) (rest : List Char) :
    unescape? (escape style c ++ rest) = some (c, rest) := by
  unfold escape
  split
  · next h => rw [h]; rfl
  split
  · next h => rw [h]; rfl
  split
  · next h => rw [h]; rfl
  split
  · next h => rw [h]; rfl
  split
  · next h =>
      rcases h with rfl | h
      · rfl
      · rcases hq c h with rfl | rfl <;> rfl
  split
  · exact unescape?_byNumber c rest
  · next h _ => exact unescape?_cons (fun e => h (.inl e)) rest

theorem escape_append_inj (hq : style.Plain) {rest rest' : List Char}
    (h : escape style c ++ rest = escape style c' ++ rest') : c = c' ∧ rest = rest' := by
  have e := unescape?_escape hq c rest
  rw [h, unescape?_escape hq c' rest'] at e
  obtain ⟨rfl, rfl⟩ := Prod.mk.inj (Option.some.inj e)
  exact ⟨rfl, rfl⟩

theorem escape_injective (hq : style.Plain) : Function.Injective (escape style) := fun _ _ h =>
  (escape_append_inj hq (congrArg (· ++ []) h)).1

/-- A written character is the character itself or begins with a backslash; in the latter case neither a
backslash nor a quote comes after the second character. -/
theorem escape_shape (style : Style) (c : Char) :
    (escape style c = [c] ∧ c ≠ '\\' ∧ c ∉ style.quotes) ∨
      ∃ x tail, escape style c = '\\' :: x :: tail ∧ '\\' ∉ tail ∧ '"' ∉ tail := by
  unfold escape
  split
  · exact .inr ⟨'0', [], rfl, List.not_mem_nil, List.not_mem_nil⟩
  split
  · exact .inr ⟨'t', [], rfl, List.not_mem_nil, List.not_mem_nil⟩
  split
  · exact .inr ⟨'r', [], rfl, List.not_mem_nil, List.not_mem_nil⟩
  split
  · exact .inr ⟨'n', [], rfl, List.not_mem_nil, List.not_mem_nil⟩
  split
  · exact .inr ⟨c, [], rfl, List.not_mem_nil, List.not_mem_nil⟩
  split
  · have hb : '\\' ∉ Nat.toDigits 16 c.toNat := not_mem_toDigits (by decide) (by decide) (by decide)
    have hq : '"' ∉ Nat.toDigits 16 c.toNat := not_mem_toDigits (by decide) (by decide) (by decide)
    exact .inr ⟨'u', '\x7b' :: Nat.toDigits 16 c.toNat ++ ['\x7d'], by simp [byNumber], by simp [hb],
      by simp [hq]⟩
  · next h _ => exact .inl ⟨rfl, fun e => h (.inl e), fun e => h (.inr e)⟩

theorem newline_not_mem_escape (style : Style) (c : Char) : '\n' ∉ escape style c := by
  unfold escape
  split
  · decide
  split
  · decide
  split
  · decide
  split
  · decide
  · next hn =>
      split
      · simpa using Ne.symm hn
      split
      · have hdigits : '\n' ∉ Nat.toDigits 16 c.toNat :=
          not_mem_toDigits (by decide) (by decide) (by decide)
        simp [byNumber, hdigits]
      · simpa using Ne.symm hn

/-! ## Literals -/

theorem plain_label : Style.label.Plain := fun _ hq => List.mem_pair.mp hq

theorem plain_literalTail : Style.literalTail.Plain := plain_label

theorem flatMap_escape_injective (hq : style.Plain) :
    Function.Injective fun text : List Char => text.flatMap (escape style) := by
  intro xs ys h
  induction xs generalizing ys with
  | nil =>
      cases ys with
      | nil => rfl
      | cons y ys => exact absurd (List.append_eq_nil_iff.mp h.symm).1 (escape_ne_nil style y)
  | cons x xs ih =>
      cases ys with
      | nil => exact absurd (List.append_eq_nil_iff.mp h).1 (escape_ne_nil style x)
      | cons y ys =>
          obtain ⟨rfl, htail⟩ := escape_append_inj hq h
          rw [ih htail]

theorem escapeLiteral_injective : Function.Injective escapeLiteral := by
  intro xs ys h
  cases xs with
  | nil =>
      cases ys with
      | nil => rfl
      | cons y ys => exact absurd (List.append_eq_nil_iff.mp h.symm).1 (escape_ne_nil _ y)
  | cons x xs =>
      cases ys with
      | nil => exact absurd (List.append_eq_nil_iff.mp h).1 (escape_ne_nil _ x)
      | cons y ys =>
          obtain ⟨rfl, htail⟩ := escape_append_inj plain_label h
          rw [flatMap_escape_injective plain_literalTail htail]

end LexicalAutomata.Text
