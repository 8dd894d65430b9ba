/-
# `LexicalAutomata.Proofs.Table.Codec` — reading accepts what writing produces, and nothing else

A reader of one section of a table inverts the writer of this section: it gives a value, and leaves some
bytes, exactly if the value is valid and the bytes before are what is written for it, followed by those
left (`Inverts`).  For a word, for flags, tokens, offsets, characters and destinations this is one lemma
each.  Put together they say which bytes are read as a table (`decode_eq_ok_iff`): those of well-formed
columns whose numbers can be written.
-/
import Mathlib.Algebra.BigOperators.Group.List.Defs
import Mathlib.Data.List.Pairwise
import LexicalAutomata.Proofs.Stage
import LexicalAutomata.Proofs.Table.Columns
import LexicalAutomata.Proofs.Table.Flatten

namespace LexicalAutomata.Table

namespace Reader

variable {α β : Type} {bytes rest : List UInt8} {a : α} {b : β} {n : Nat}

/-- A reader gives the valid values of which the bytes are written, and leaves what follows. -/
def Inverts (r : Reader α) (valid : α → Prop) (write : α → List UInt8) : Prop :=
  ∀ bytes a rest, r.run bytes = .ok (a, rest) ↔ valid a ∧ bytes = write a ++ rest

/-! ## Steps -/

theorem run_bind_eq_ok_iff {x : Reader α} {f : α → Reader β} :
    (x >>= f).run bytes = .ok (b, rest) ↔
      ∃ a left, x.run bytes = .ok (a, left) ∧ (f a).run left = .ok (b, rest) := by
  rw [StateT.run_bind]
  cases h : x.run bytes with
  | error fault => simp [bind, Except.bind]
  | ok p =>
      obtain ⟨a, left⟩ := p
      simp [bind, Except.bind]

/-- After a section that is read, the next steps see what it leaves. -/
theorem Inverts.run_bind_eq_ok_iff {x : Reader α} {valid : α → Prop} {write : α → List UInt8}
    (h : Inverts x valid write) {f : α → Reader β} :
    (x >>= f).run bytes = .ok (b, rest) ↔
      ∃ a left, (valid a ∧ bytes = write a ++ left) ∧ (f a).run left = .ok (b, rest) := by
  rw [Reader.run_bind_eq_ok_iff]
  exact exists_congr fun a => exists_congr fun left => by rw [h]

theorem run_ofExcept_eq_ok_iff {r : Except TableFault α} :
    (ofExcept r).run bytes = .ok (a, rest) ↔ r = .ok a ∧ bytes = rest := by
  cases r with
  | error fault =>
      show (Except.error fault : Except TableFault (α × List UInt8)) = _ ↔ _
      simp
  | ok x =>
      show Except.ok (x, bytes) = _ ↔ _
      simp

theorem run_require_eq_ok_iff {condition : Bool} {fault : TableFault} {u : Unit} :
    (require condition fault).run bytes = .ok (u, rest) ↔ condition = true ∧ bytes = rest := by
  cases condition with
  | false =>
      show (Except.error fault : Except TableFault (Unit × List UInt8)) = _ ↔ _
      simp
  | true =>
      show Except.ok ((), bytes) = _ ↔ _
      simp

/-- A section whose items are converted one by one. -/
theorem Inverts.mapM {γ : Type} {x : Reader (List α)} {valid : List α → Prop}
    {write : List α → List UInt8} (h : Inverts x valid write) {f : α → Except TableFault γ}
    {g : γ → α} {fine : γ → Prop} (hf : ∀ a c, f a = .ok c ↔ fine c ∧ a = g c) :
    Inverts (do ofExcept ((← x).mapM f)) (fun cs => (∀ c ∈ cs, fine c) ∧ valid (cs.map g))
      fun cs => write (cs.map g) := by
  intro bytes cs rest
  rw [h.run_bind_eq_ok_iff]
  constructor
  · rintro ⟨as, left, ⟨has, rfl⟩, hrun⟩
    obtain ⟨hmap, rfl⟩ := run_ofExcept_eq_ok_iff.mp hrun
    obtain ⟨hfine, rfl⟩ := (mapM_eq_ok_iff_map hf).mp hmap
    exact ⟨⟨hfine, has⟩, rfl⟩
  · rintro ⟨⟨hfine, hvalid⟩, rfl⟩
    exact ⟨cs.map g, rest, ⟨hvalid, rfl⟩,
      run_ofExcept_eq_ok_iff.mpr ⟨(mapM_eq_ok_iff_map hf).mpr ⟨hfine, rfl⟩, rfl⟩⟩

/-! ## Bytes, flags and words -/

theorem inverts_take (n : Nat) : Inverts (take n) (fun bytes => bytes.length = n) id := by
  intro bytes xs rest
  have hrun : (take n).run bytes =
      if bytes.length < n then .error .unexpectedEnd else .ok (bytes.take n, bytes.drop n) := rfl
  rw [hrun]
  constructor
  · intro h
    split at h
    · cases h
    · cases h
      rename_i hn
      exact ⟨List.length_take_of_le (Nat.le_of_not_lt hn), (List.take_append_drop n bytes).symm⟩
  · rintro ⟨rfl, rfl⟩
    rw [if_neg (by simp), id, List.take_left, List.drop_left]

theorem flagOf_eq_ok_iff {byte : UInt8} {x : Bool} : flagOf byte = .ok x ↔ byte = flag x := by
  unfold flagOf
  by_cases ht : byte = 0xFF
  · cases x <;> simp [ht, flag]
  · by_cases hf : byte = 0x00
    · cases x <;> simp [hf, flag]
    · cases x <;> simp [ht, hf, flag]

theorem inverts_flags (n : Nat) :
    Inverts (flags n) (fun xs => xs.length = n) fun xs => xs.map flag := by
  intro bytes xs rest
  rw [flags, (inverts_take n).mapM fun _ _ => flagOf_eq_ok_iff.trans (and_iff_right trivial).symm]
  simp

theorem wordsOf_word {n : Nat} (h : n < 0x100000000) (rest : List UInt8) :
    wordsOf (word n ++ rest) = n :: wordsOf rest := by
  simp only [word, List.cons_append, List.nil_append, wordsOf, UInt8.toNat_ofNat', List.cons.injEq,
    and_true]
  omega

theorem wordsOf_flatMap {ns : List Nat} (h : ∀ n ∈ ns, n < 0x100000000) :
    wordsOf (ns.flatMap word) = ns := by
  induction ns with
  | nil => rfl
  | cons n ns ih =>
      obtain ⟨hn, hns⟩ := List.forall_mem_cons.mp h
      rw [List.flatMap_cons, wordsOf_word hn, ih hns]

/-- Four bytes are a word. -/
theorem exists_word (a b c d : UInt8) : ∃ n < 0x100000000, word n = [a, b, c, d] := by
  have ha := a.toNat_lt
  have hb := b.toNat_lt
  have hc := c.toNat_lt
  have hd := d.toNat_lt
  refine ⟨a.toNat * 0x1000000 + b.toNat * 0x10000 + c.toNat * 0x100 + d.toNat, by omega, ?_⟩
  simp only [word, List.cons.injEq, and_true, ← UInt8.toNat_inj, UInt8.toNat_ofNat']
  omega

/-- Groups of four bytes are the words of numbers below `2 ^ 32`. -/
theorem exists_words {xs : List UInt8} (h : xs.length = 4 * n) :
    ∃ ns : List Nat, ns.length = n ∧ (∀ m ∈ ns, m < 0x100000000) ∧ xs = ns.flatMap word := by
  induction n generalizing xs with
  | zero =>
      obtain rfl := List.length_eq_zero_iff.mp h
      exact ⟨[], rfl, by simp, rfl⟩
  | succ n ih =>
      match xs, h with
      | [], h | [_], h | [_, _], h | [_, _, _], h => simp at h <;> omega
      | a :: b :: c :: d :: xs, h =>
          obtain ⟨ns, hlength, hns, rfl⟩ := ih (show xs.length = 4 * n by simp at h; omega)
          obtain ⟨m, hm, hword⟩ := exists_word a b c d
          refine ⟨m :: ns, congrArg Nat.succ hlength, List.forall_mem_cons.mpr ⟨hm, hns⟩, ?_⟩
          rw [List.flatMap_cons, hword]
          rfl

theorem length_flatMap_word (ns : List Nat) : (ns.flatMap word).length = 4 * ns.length := by
  simp [List.length_flatMap, word, Nat.mul_comm]

theorem inverts_words (n : Nat) : Inverts (words n)
    (fun ns => ns.length = n ∧ ∀ m ∈ ns, m < 0x100000000) fun ns => ns.flatMap word := by
  intro bytes ns rest
  rw [words, (inverts_take _).run_bind_eq_ok_iff]
  constructor
  · rintro ⟨xs, left, ⟨hxs, rfl⟩, hrun⟩
    obtain ⟨ms, hlength, hms, rfl⟩ := exists_words hxs
    have hrun : Except.ok (wordsOf (ms.flatMap word), left) = Except.ok (ns, rest) := hrun
    rw [wordsOf_flatMap hms] at hrun
    cases hrun
    exact ⟨⟨hlength, hms⟩, rfl⟩
  · rintro ⟨⟨rfl, hns⟩, rfl⟩
    refine ⟨ns.flatMap word, rest, ⟨length_flatMap_word ns, rfl⟩, ?_⟩
    show Except.ok (wordsOf (ns.flatMap word), rest) = _
    rw [wordsOf_flatMap hns]

theorem inverts_count (negative : Int → TableFault) :
    Inverts (count negative) (fun n => n < 0x80000000) word := by
  intro bytes n rest
  rw [count, (inverts_words 1).run_bind_eq_ok_iff]
  constructor
  · rintro ⟨ns, left, ⟨⟨hlength, hns⟩, rfl⟩, hrun⟩
    obtain ⟨m, rfl⟩ := List.length_eq_one_iff.mp hlength
    obtain ⟨u, left', hreq, hrun⟩ := Reader.run_bind_eq_ok_iff.mp hrun
    obtain ⟨hm, rfl⟩ := run_require_eq_ok_iff.mp hreq
    cases hrun
    exact ⟨of_decide_eq_true hm, by simp⟩
  · rintro ⟨hn, rfl⟩
    refine ⟨[n], rest, ⟨⟨rfl, fun m hm => ?_⟩, by simp⟩, ?_⟩
    · rw [List.mem_singleton.mp hm]
      exact Nat.lt_trans hn (by decide)
    · exact Reader.run_bind_eq_ok_iff.mpr
        ⟨(), rest, run_require_eq_ok_iff.mpr ⟨decide_eq_true hn, rfl⟩, rfl⟩

/-! ## Sections -/

theorem tokenOf_eq_ok_iff {t : Nat × Bool} {token : Option Nat} : tokenOf t = .ok token ↔
    (∀ i ∈ token, i < 0x80000000) ∧ t = (tokenWord token, token.isSome) := by
  obtain ⟨m, accepting⟩ := t
  unfold tokenOf
  cases accepting with
  | false => by_cases hm : m = 0xFFFFFFFF <;> cases token <;> simp [hm, tokenWord]
  | true =>
      by_cases hm : m < 0x80000000
      · cases token with
        | none => simp [hm]
        | some i =>
            have hi : m = i → i < 0x80000000 := fun e => e ▸ hm
            simpa [hm, tokenWord] using hi
      · cases token with
        | none => simp [hm]
        | some i =>
            have hi : i < 0x80000000 → m ≠ i := fun hi e => hm (e ▸ hi)
            simpa [hm, tokenWord] using hi

theorem tokenWord_lt {token : Option Nat} (h : ∀ i ∈ token, i < 0x80000000) :
    tokenWord token < 0x100000000 := by
  cases token with
  | none => decide
  | some i => exact Nat.lt_trans (h i rfl) (by decide)

theorem inverts_tokens {accepting : List Bool} (h : accepting.length = n) :
    Inverts (tokens n accepting)
      (fun ts => (∀ t ∈ ts, ∀ i ∈ t, i < 0x80000000) ∧ ts.map Option.isSome = accepting)
      fun ts => ts.flatMap fun t => word (tokenWord t) := by
  intro bytes ts rest
  rw [tokens, (inverts_words n).run_bind_eq_ok_iff]
  constructor
  · rintro ⟨ns, left, ⟨⟨hlength, hns⟩, rfl⟩, hrun⟩
    obtain ⟨hmap, rfl⟩ := run_ofExcept_eq_ok_iff.mp hrun
    obtain ⟨hts, hzip⟩ := (mapM_eq_ok_iff_map fun _ _ => tokenOf_eq_ok_iff).mp hmap
    have hwords : ns = ts.map tokenWord := by
      rw [← List.map_fst_zip (Nat.le_of_eq (hlength.trans h.symm)), hzip, List.map_map]
      rfl
    have hsome : accepting = ts.map Option.isSome := by
      rw [← List.map_snd_zip (Nat.le_of_eq (h.trans hlength.symm)), hzip, List.map_map]
      rfl
    rw [hwords, List.flatMap_map]
    exact ⟨⟨hts, hsome.symm⟩, rfl⟩
  · rintro ⟨⟨hts, rfl⟩, rfl⟩
    rw [List.length_map] at h
    refine ⟨ts.map tokenWord, rest, ⟨⟨by rwa [List.length_map], fun m hm => ?_⟩, ?_⟩, ?_⟩
    · obtain ⟨t, ht, rfl⟩ := List.mem_map.mp hm
      exact tokenWord_lt (hts t ht)
    · rw [List.flatMap_map]
    · rw [List.zip_map', run_ofExcept_eq_ok_iff]
      exact ⟨(mapM_eq_ok_iff_map fun _ _ => tokenOf_eq_ok_iff).mpr ⟨hts, rfl⟩, rfl⟩

theorem charOf_eq_ok_iff {m : Nat} {c : Char} : charOf m = .ok c ↔ m = c.toNat := by
  unfold charOf
  by_cases hm : m.isValidChar
  · rw [if_pos hm, Except.ok.injEq]
    constructor
    · rintro rfl
      rw [Char.ofNat, dif_pos hm]
      rfl
    · rintro rfl
      exact Char.ofNat_toNat c
  · rw [if_neg hm]
    constructor
    · intro h
      cases h
    · rintro rfl
      exact absurd c.valid hm

theorem toNat_lt (c : Char) : c.toNat < 0x100000000 := c.val.toNat_lt

theorem inverts_symbols (n : Nat) : Inverts (symbols n) (fun cs => cs.length = n)
    fun cs => cs.flatMap fun c => word c.toNat := by
  intro bytes cs rest
  rw [symbols, (inverts_words n).mapM fun _ _ => charOf_eq_ok_iff.trans (and_iff_right trivial).symm]
  simp [List.flatMap_map, toNat_lt]

theorem monotone_iff {ns : List Nat} : monotone ns = true ↔ ns.Pairwise (· ≤ ·) := by
  rw [← List.isChain_iff_pairwise]
  fun_induction monotone ns with
  | case1 a b rest ih => simp [ih]
  | case2 ns h =>
      match ns, h with
      | [], _ | [_], _ => simp
      | a :: b :: rest, h => exact absurd rfl (h a b rest)

theorem validOffsets_iff {last : Nat} {ns : List Nat} : validOffsets last ns = true ↔
    ns.head? = some 0 ∧ ns.getLast? = some last ∧ ns.Pairwise (· ≤ ·) := by
  simp [validOffsets, monotone_iff, and_assoc]

theorem inverts_offsets {last : Nat} (h : last < 0x80000000) : Inverts (offsets n last)
    (fun ns => ns.length = n + 1 ∧ ns.head? = some 0 ∧ ns.getLast? = some last ∧
      ns.Pairwise (· ≤ ·))
    fun ns => ns.flatMap word := by
  intro bytes ns rest
  rw [offsets, (inverts_words _).run_bind_eq_ok_iff]
  constructor
  · rintro ⟨ms, left, ⟨⟨hlength, -⟩, rfl⟩, hrun⟩
    obtain ⟨u, left', hreq, hrun⟩ := Reader.run_bind_eq_ok_iff.mp hrun
    obtain ⟨hvalid, rfl⟩ := run_require_eq_ok_iff.mp hreq
    cases hrun
    exact ⟨⟨hlength, validOffsets_iff.mp hvalid⟩, rfl⟩
  · rintro ⟨⟨hlength, hhead, hlast, hmono⟩, rfl⟩
    refine ⟨ns, rest, ⟨⟨hlength, fun m hm => ?_⟩, rfl⟩, ?_⟩
    · have := hmono.rel_getLast hm
      rw [(List.getLast_eq_iff_getLast?_eq_some _).mpr hlast] at this
      omega
    · exact Reader.run_bind_eq_ok_iff.mpr ⟨(), rest, run_require_eq_ok_iff.mpr
        ⟨validOffsets_iff.mpr ⟨hhead, hlast, hmono⟩, rfl⟩, rfl⟩

theorem inverts_destinations {states : Nat} (h : states < 0x80000000) :
    Inverts (destinations states n) (fun ns => ns.length = n ∧ ∀ d ∈ ns, d < states)
      fun ns => ns.flatMap word := by
  intro bytes ns rest
  rw [destinations, (inverts_words _).run_bind_eq_ok_iff]
  constructor
  · rintro ⟨ms, left, ⟨⟨hlength, -⟩, rfl⟩, hrun⟩
    cases hfind : ms.find? fun d => states ≤ d with
    | some d =>
        rw [hfind] at hrun
        cases hrun
    | none =>
        rw [hfind] at hrun
        cases hrun
        exact ⟨⟨hlength, fun d hd => by simpa using List.find?_eq_none.mp hfind d hd⟩, rfl⟩
  · rintro ⟨⟨hlength, hlt⟩, rfl⟩
    have hfind : (ns.find? fun d => states ≤ d) = none :=
      List.find?_eq_none.mpr fun d hd => by simpa using hlt d hd
    refine ⟨ns, rest, ⟨⟨hlength, fun m hm => ?_⟩, rfl⟩, ?_⟩
    · have := hlt m hm
      omega
    · rw [hfind]
      rfl

theorem run_finish_eq_ok_iff {u : Unit} :
    finish.run bytes = .ok (u, rest) ↔ bytes = [] ∧ rest = [] := by
  have hrun : finish.run bytes = (require bytes.isEmpty (.trailingBytes bytes.length)).run bytes := rfl
  rw [hrun, run_require_eq_ok_iff, List.isEmpty_iff]
  constructor
  · rintro ⟨rfl, rfl⟩
    exact ⟨rfl, rfl⟩
  · rintro ⟨rfl, rfl⟩
    exact ⟨rfl, rfl⟩

theorem checked_eq_ok_iff {rows : List Row} {t : Table} :
    checked rows = .ok t ↔ (∀ r ∈ rows, r.Sorted) ∧ ⟨rows⟩ = t := by
  have hfind : (rows.findIdx? fun r => !decide r.Sorted) = none ↔ ∀ r ∈ rows, r.Sorted := by
    simp [List.findIdx?_eq_none_iff]
  unfold checked
  rw [← hfind]
  cases rows.findIdx? fun r => !decide r.Sorted <;> simp

/-! ## The whole table -/

/-- What is read as a table are the bytes of well-formed columns. -/
theorem exists_columns_of_run_table {t : Table} (h : table.run bytes = .ok (t, rest)) :
    rest = [] ∧ ∃ c : Columns, c.WellFormed ∧ c.Fits ∧ c.bytes = bytes ∧ c.table = t := by
  rw [table] at h
  -- section by section, in the order of the bytes
  obtain ⟨states, left, ⟨hstates, rfl⟩, h₁⟩ := (inverts_count _).run_bind_eq_ok_iff.mp h
  obtain ⟨edges, left, ⟨hedges, rfl⟩, h₂⟩ := (inverts_count _).run_bind_eq_ok_iff.mp h₁
  obtain ⟨u, left, hreq, h₃⟩ := run_bind_eq_ok_iff.mp h₂
  obtain ⟨hne, rfl⟩ := run_require_eq_ok_iff.mp hreq
  obtain ⟨accepting, left, ⟨haccepting, rfl⟩, h₄⟩ := (inverts_flags _).run_bind_eq_ok_iff.mp h₃
  obtain ⟨skippable, left, ⟨hskippable, rfl⟩, h₅⟩ := (inverts_flags _).run_bind_eq_ok_iff.mp h₄
  obtain ⟨tokens, left, ⟨⟨hlt, hsome⟩, rfl⟩, h₆⟩ :=
    (inverts_tokens haccepting).run_bind_eq_ok_iff.mp h₅
  obtain ⟨offsets, left, ⟨⟨hoffsets, hhead, hlast, hmono⟩, rfl⟩, h₇⟩ :=
    (inverts_offsets hedges).run_bind_eq_ok_iff.mp h₆
  obtain ⟨symbols, left, ⟨hsymbols, rfl⟩, h₈⟩ := (inverts_symbols _).run_bind_eq_ok_iff.mp h₇
  obtain ⟨destinations, left, ⟨⟨hdestinations, hrange⟩, rfl⟩, h₉⟩ :=
    (inverts_destinations hstates).run_bind_eq_ok_iff.mp h₈
  obtain ⟨u, left, hfinish, hrows⟩ := run_bind_eq_ok_iff.mp h₉
  obtain ⟨rfl, rfl⟩ := run_finish_eq_ok_iff.mp hfinish
  obtain ⟨hchecked, rfl⟩ := run_ofExcept_eq_ok_iff.mp hrows
  obtain ⟨hsorted, rfl⟩ := checked_eq_ok_iff.mp hchecked
  subst haccepting hdestinations
  have hshaped : Columns.Shaped
      ⟨accepting, skippable, tokens, offsets, symbols, destinations⟩ :=
    ⟨hskippable, by rw [Columns.stateCount, ← hsome, List.length_map], hoffsets, hsymbols, hsome,
      hhead, hmono, hlast⟩
  refine ⟨rfl, ⟨accepting, skippable, tokens, offsets, symbols, destinations⟩,
    ⟨hshaped, ?_, hshaped.sorted_iff.mpr hsorted, hrange⟩, ⟨hstates, hedges, hlt⟩, ?_, rfl⟩
  · exact Nat.pos_of_ne_zero (bne_iff_ne.mp hne)
  · simp [Columns.bytes, Columns.stateCount, Columns.destinationCount]

/-- Well-formed columns are read as their table. -/
theorem run_table_bytes {c : Columns} (hc : c.WellFormed) (hf : c.Fits) :
    table.run c.bytes = .ok (c.table, []) := by
  have hbytes : c.bytes = word c.stateCount ++ (word c.destinationCount ++
      (c.accepting.map flag ++ (c.skippable.map flag ++
        (c.tokens.flatMap (fun t => word (tokenWord t)) ++ (c.offsets.flatMap word ++
          (c.symbols.flatMap (fun x => word x.toNat) ++
            (c.destinations.flatMap word ++ []))))))) := by
    simp [Columns.bytes]
  rw [table, hbytes]
  refine (inverts_count _).run_bind_eq_ok_iff.mpr ⟨_, _, ⟨hf.stateCount_lt, rfl⟩, ?_⟩
  refine (inverts_count _).run_bind_eq_ok_iff.mpr ⟨_, _, ⟨hf.destinationCount_lt, rfl⟩, ?_⟩
  refine run_bind_eq_ok_iff.mpr ⟨(), _, run_require_eq_ok_iff.mpr ⟨?_, rfl⟩, ?_⟩
  · exact bne_iff_ne.mpr (Nat.ne_of_gt hc.stateCount_pos)
  refine (inverts_flags _).run_bind_eq_ok_iff.mpr ⟨_, _, ⟨rfl, rfl⟩, ?_⟩
  refine (inverts_flags _).run_bind_eq_ok_iff.mpr ⟨_, _, ⟨hc.skippable_length, rfl⟩, ?_⟩
  refine (inverts_tokens rfl).run_bind_eq_ok_iff.mpr
    ⟨_, _, ⟨⟨hf.token_lt, hc.tokens_isSome⟩, rfl⟩, ?_⟩
  refine (inverts_offsets hf.destinationCount_lt).run_bind_eq_ok_iff.mpr ⟨_, _,
    ⟨⟨hc.offsets_length, hc.offsets_head, hc.offsets_last, hc.offsets_monotone⟩, rfl⟩, ?_⟩
  refine (inverts_symbols _).run_bind_eq_ok_iff.mpr ⟨_, _, ⟨hc.symbols_length, rfl⟩, ?_⟩
  refine (inverts_destinations hf.stateCount_lt).run_bind_eq_ok_iff.mpr
    ⟨_, _, ⟨⟨rfl, hc.inRange⟩, rfl⟩, ?_⟩
  refine run_bind_eq_ok_iff.mpr ⟨(), _, run_finish_eq_ok_iff.mpr ⟨rfl, rfl⟩, ?_⟩
  exact run_ofExcept_eq_ok_iff.mpr
    ⟨checked_eq_ok_iff.mpr ⟨hc.sorted_iff.mp hc.sorted, rfl⟩, rfl⟩

end Reader

variable {bytes : List UInt8} {t : Table} {c : Columns}

theorem decode_eq_ok_iff : decode bytes = .ok t ↔
    ∃ c : Columns, c.WellFormed ∧ c.Fits ∧ c.bytes = bytes ∧ c.table = t := by
  constructor
  · intro h
    rw [decode] at h
    cases hrun : Reader.table bytes with
    | error fault =>
        rw [hrun] at h
        cases h
    | ok p =>
        rw [hrun] at h
        cases h
        exact (Reader.exists_columns_of_run_table hrun).2
  · rintro ⟨c, hc, hf, rfl, rfl⟩
    have hrun : Reader.table c.bytes = .ok (c.table, []) := Reader.run_table_bytes hc hf
    rw [decode, hrun]

/-- Tables are read from what is written for them, if they are well-formed and can be written. -/
theorem decode_eq_ok_iff_encode : decode bytes = .ok t ↔
    t.WellFormed ∧ t.Fits ∧ t.encode = bytes := by
  rw [decode_eq_ok_iff, ← columns_wellFormed_iff, ← columns_fits_iff, encode_eq_bytes]
  constructor
  · rintro ⟨c, hc, hf, rfl, rfl⟩
    rw [columns_table hc.toShaped]
    exact ⟨hc, hf, rfl⟩
  · rintro ⟨hc, hf, hb⟩
    exact ⟨t.columns, hc, hf, hb, table_columns t⟩

/-- Reading inverts writing, for tables of automata and for tables that were read; it accepts the bytes
of well-formed columns, and only these; and no table is read from two lists of bytes. -/
theorem decode_exact :
    (∀ (d : Dfa) names skippable σ t τ, d.Made →
      (d.flatten names skippable).run σ = (.ok t, τ) → t.Fits → decode t.encode = .ok t) ∧
    (∀ bytes t, decode bytes = .ok t → decode t.encode = .ok t ∧ t.encode = bytes) ∧
    (∀ bytes, (∃ t, decode bytes = .ok t) ↔
      ∃ c : Columns, c.WellFormed ∧ c.Fits ∧ c.bytes = bytes ∧ c.table.encode = bytes) ∧
    ∀ bytes bytes' t, decode bytes = .ok t → decode bytes' = .ok t → bytes = bytes' := by
  refine ⟨fun d names skippable σ t τ hd hrun hf => ?_, fun bytes t h => ?_, fun bytes => ?_,
    fun bytes bytes' t h h' => ?_⟩
  · exact decode_eq_ok_iff_encode.mpr ⟨hd.flatten_wellFormed hrun, hf, rfl⟩
  · obtain ⟨hw, hf, he⟩ := decode_eq_ok_iff_encode.mp h
    exact ⟨decode_eq_ok_iff_encode.mpr ⟨hw, hf, rfl⟩, he⟩
  · constructor
    · rintro ⟨t, h⟩
      obtain ⟨c, hc, hf, hb, rfl⟩ := decode_eq_ok_iff.mp h
      exact ⟨c, hc, hf, hb, (decode_eq_ok_iff_encode.mp h).2.2⟩
    · rintro ⟨c, hc, hf, hb, -⟩
      exact ⟨c.table, decode_eq_ok_iff.mpr ⟨c, hc, hf, hb, rfl⟩⟩
  · exact (decode_eq_ok_iff_encode.mp h).2.2.symm.trans (decode_eq_ok_iff_encode.mp h').2.2

/-- An automaton that reads one letter. -/
def oneLetter : Dfa :=
  Dfa.setArc (Automaton.new ⟨0, none⟩) ⟨0, none⟩ (.char 'a') ⟨1, some ⟨"A", 1⟩⟩

/-- Its table. -/
def oneLetterTable : Table := ⟨[⟨none, false, [('a', 1)]⟩, ⟨some 0, false, []⟩]⟩

theorem exists_flatten_oneLetter :
    ∃ τ, (oneLetter.flatten ["A"] []).run .empty = (.ok oneLetterTable, τ) :=
  ⟨_, Prod.ext (by decide +kernel) rfl⟩

theorem fits_oneLetterTable : oneLetterTable.Fits := ⟨by decide, by decide, by decide⟩

theorem decode_exact_oneLetter :
    (∃ τ, (oneLetter.flatten ["A"] []).run .empty = (.ok oneLetterTable, τ)) ∧
      Table.decode oneLetterTable.encode = .ok oneLetterTable := by
  obtain ⟨τ, hrun⟩ := exists_flatten_oneLetter
  exact ⟨⟨τ, hrun⟩, decode_exact.1 oneLetter ["A"] [] .empty _ _ (.setArc _ _ _ (.new _)) hrun
    fits_oneLetterTable⟩

end LexicalAutomata.Table
