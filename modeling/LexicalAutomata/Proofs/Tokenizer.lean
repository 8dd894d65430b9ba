/-
# `LexicalAutomata.Proofs.Tokenizer` — whatever the table, a tokenizer stays inside its text

Nothing is known here of a table but what reading it from bytes has checked: its start may accept, its
states may lead back to themselves, or nowhere.  Still a walk stays among its states, a lexeme is never
empty, and one begins where the one before it ends (`Tile`).  A step says so of one lexeme
(`step_spec`), a call of the lexemes it reads (`reads_next`), and by induction on their number, calls of
all that were read (`reads_calls`).  After an error, and at the end of the text, calls give nothing and
change nothing (`calls_of_end`), and nowhere else do they give nothing (`end_of_calls`).

Calls made one after another give item by item what reading all lexemes at once gives, and nothing from
then on (`runsOut_drain`).
-/
import LexicalAutomata.Proofs.Location
import LexicalAutomata.Proofs.Table.Codec
import LexicalAutomata.Tokenizer

namespace LexicalAutomata

/-! ## Walks -/

namespace Table

variable {t : Table} {s d : Nat} {c : Char}

theorem WellFormed.next?_lt (h : t.WellFormed) (hn : t.next? s c = some d) : d < t.stateCount := by
  obtain ⟨r, hr, hd⟩ := Option.bind_eq_some_iff.mp hn
  obtain ⟨e, he, rfl⟩ := Option.map_eq_some_iff.mp hd
  exact h.inRange r (List.mem_of_getElem? hr) e (List.mem_of_find?_eq_some he)

/-- A walk stays among the states of its table. -/
theorem WellFormed.walk_state_lt (h : t.WellFormed) (hs : s < t.stateCount) (u : List Char) :
    (t.walk s u).state < t.stateCount := by
  induction u generalizing s with
  | nil => exact hs
  | cons c u ih =>
      rw [walk]
      cases hn : t.next? s c with
      | none => exact hs
      | some d => exact ih (h.next?_lt hn)

/-- Where a walk is stuck, the next character has no edge. -/
theorem next?_walk (t : Table) (s : Nat) (u : List Char) :
    ∀ c ∈ (t.walk s u).rest.head?, t.next? (t.walk s u).state c = none := by
  induction u generalizing s with
  | nil =>
      intro c hc
      cases hc
  | cons c u ih =>
      rw [walk]
      cases hn : t.next? s c with
      | none =>
          intro c' hc'
          cases hc'
          exact hn
      | some d => exact ih d

/-- A walk that reads nothing stays where it is. -/
theorem state_walk_of_read_eq_nil {u : List Char} (h : (t.walk s u).read = []) :
    (t.walk s u).state = s := by
  cases u with
  | nil => rfl
  | cons c u =>
      rw [walk] at h ⊢
      cases hn : t.next? s c with
      | none => rfl
      | some d =>
          rw [hn] at h
          cases h

end Table

namespace Tokenizer

/-! ## Steps -/

variable {t t' t'' : Tokenizer} {s index n : Nat} {u v : List Char} {name : String} {skippable : Bool}
  {l : Lexeme} {rest : List Char} {read read' : List Lexeme} {e : LexError} {a b c : Location}

theorem step_eq_finished (h : t.rest = []) : t.step = .finished := by
  rw [step, if_pos h]

theorem step_eq_lexical (h : t.rest ≠ []) (hw : t.table.walk 0 t.rest = ⟨s, u, v⟩)
    (hs : t.tokenAt s = none) : t.step = .failed (.lexical (t.location.advance u).offset) := by
  rw [step, if_neg h]
  simp only [hw, hs]

theorem step_eq_emptyMatch (h : t.rest ≠ []) (hw : t.table.walk 0 t.rest = ⟨s, [], v⟩)
    (hs : t.tokenAt s = some (index, name, skippable)) :
    t.step = .failed (.emptyMatch t.location.offset) := by
  rw [step, if_neg h]
  simp only [hw, hs]
  rfl

theorem step_eq_lexeme (h : t.rest ≠ []) (hw : t.table.walk 0 t.rest = ⟨s, u, v⟩)
    (hs : t.tokenAt s = some (index, name, skippable)) (hu : u ≠ []) :
    ∃ hlt, t.step =
      .lexeme ⟨⟨name, index, u, t.location, t.location.advance u⟩, skippable⟩ v hlt := by
  have hlt : v.length < t.rest.length := by
    have := @length_rest_lt t.table 0 t.rest (by rwa [hw])
    rwa [hw] at this
  refine ⟨hlt, ?_⟩
  rw [step, if_neg h]
  simp only [hw, hs, dif_neg hu]

/-- Why a tokenizer cannot go on from where it stands. -/
inductive Stuck (t : Tokenizer) : LexError → Prop
  | lexical {s : Nat} {u v : List Char} : t.table.walk 0 t.rest = ⟨s, u, v⟩ →
      t.table.token? s = none → Stuck t (.lexical (t.location.advance u).offset)
  | emptyMatch {s : Nat} {v : List Char} : t.table.walk 0 t.rest = ⟨s, [], v⟩ →
      t.table.token? s ≠ none → Stuck t (.emptyMatch t.location.offset)

theorem Stuck.of_lexical {i : Nat} (h : t.Stuck (.lexical i)) : ∃ s u v,
    t.table.walk 0 t.rest = ⟨s, u, v⟩ ∧ t.table.token? s = none ∧ t.rest = u ++ v ∧
      (∀ x ∈ v.head?, t.table.next? s x = none) ∧ i = (t.location.advance u).offset := by
  cases h with
  | @lexical s u v hw htoken =>
      have hsplit := t.table.walk_append 0 t.rest
      have hstop := t.table.next?_walk 0 t.rest
      rw [hw] at hsplit hstop
      exact ⟨s, u, v, hw, htoken, hsplit.symm, hstop, rfl⟩

theorem Stuck.of_emptyMatch {i : Nat} (h : t.Stuck (.emptyMatch i)) : i = t.location.offset ∧
    (t.table.walk 0 t.rest).read = [] ∧ t.table.token? 0 ≠ none := by
  cases h with
  | emptyMatch hw htoken =>
      have hread : (t.table.walk 0 t.rest).read = [] := by rw [hw]
      have hstate := Table.state_walk_of_read_eq_nil hread
      rw [hw] at hstate
      exact ⟨rfl, hread, hstate ▸ htoken⟩

/-- One step reads a lexeme that begins where the tokenizer stands. -/
theorem step_spec (t : Tokenizer) :
    match t.step with
    | .finished => t.rest = []
    | .failed e => t.Stuck e
    | .lexeme l v _ => t.rest = l.token.text ++ v ∧ l.token.text ≠ [] ∧
        l.token.first = t.location ∧ l.token.last = t.location.advance l.token.text := by
  by_cases hne : t.rest = []
  · rw [step_eq_finished hne]
    exact hne
  · have hsplit := t.table.walk_append 0 t.rest
    obtain ⟨s, u, v, hw⟩ : ∃ s u v, t.table.walk 0 t.rest = ⟨s, u, v⟩ := ⟨_, _, _, rfl⟩
    rw [hw] at hsplit
    cases hs : t.tokenAt s with
    | none =>
        rw [step_eq_lexical hne hw hs]
        exact .lexical hw (tokenAt_eq_none_iff.mp hs)
    | some p =>
        obtain ⟨index, name, skippable⟩ := p
        by_cases hu : u = []
        · subst hu
          rw [step_eq_emptyMatch hne hw hs]
          refine .emptyMatch hw fun hnone => ?_
          rw [tokenAt_eq_none_iff.mpr hnone] at hs
          cases hs
        · obtain ⟨hlt, hstep⟩ := step_eq_lexeme hne hw hs hu
          rw [hstep]
          exact ⟨hsplit.symm, hu, rfl, rfl⟩

/-! ## Lexemes in a row -/

/-- What lexemes spell. -/
def spelled (read : List Lexeme) : List Char := read.flatMap fun l => l.token.text

/-- Lexemes that are not empty, from one place to another, each of which begins where the one before it
ends. -/
inductive Tile : Location → List Lexeme → Location → Prop
  | nil (a : Location) : Tile a [] a
  | cons {l : Lexeme} {read : List Lexeme} {b : Location} : l.token.text ≠ [] →
      l.token.last = l.token.first.advance l.token.text → Tile l.token.last read b →
      Tile l.token.first (l :: read) b

theorem Tile.append (h : Tile a read b) (h' : Tile b read' c) : Tile a (read ++ read') c := by
  induction h with
  | nil => exact h'
  | cons hne hlast _ ih => exact .cons hne hlast (ih h')

theorem Tile.advance_eq (h : Tile a read b) : a.advance (spelled read) = b := by
  induction h with
  | nil => rfl
  | cons _ hlast _ ih => rw [spelled, List.flatMap_cons, Location.advance_append, ← hlast]; exact ih

theorem Tile.getLast?_eq (h : Tile a read b) :
    (read.getLast?.map fun l => l.token.last).getD a = b := by
  induction h with
  | nil => rfl
  | @cons l read b _ _ _ ih =>
      rw [← ih]
      cases read with
      | nil => rfl
      | cons l' read => simp [List.getLast?_cons]

theorem Tile.length_le (h : Tile a read b) : read.length ≤ (spelled read).length := by
  induction h with
  | nil => exact Nat.le_refl 0
  | cons hne _ _ ih =>
      have := List.length_pos_iff.mpr hne
      rw [spelled, List.flatMap_cons, List.length_append, List.length_cons]
      rw [spelled] at ih
      omega

theorem Tile.exists_of_mem (h : Tile a read b) {l : Lexeme} (hl : l ∈ read) :
    ∃ u v, spelled read = u ++ l.token.text ++ v ∧ l.token.text ≠ [] ∧ l.token.first = a.advance u ∧
      l.token.last = a.advance (u ++ l.token.text) := by
  induction h with
  | nil => cases hl
  | @cons l' read b hne hlast _ ih =>
      rcases List.mem_cons.mp hl with rfl | hl
      · exact ⟨[], spelled read, rfl, hne, rfl, hlast⟩
      · obtain ⟨u, v, hspelled, hl, hfirst, hend⟩ := ih hl
        refine ⟨l'.token.text ++ u, v, ?_, hl, ?_, ?_⟩
        · rw [spelled, List.flatMap_cons, ← spelled, hspelled]
          simp only [List.append_assoc]
        · rw [Location.advance_append, ← hlast, hfirst]
        · rw [List.append_assoc, Location.advance_append, ← hlast, hend]

/-! ## One call -/

theorem next_of_failed (h : t.failed = true) : t.next = ⟨none, [], t⟩ := by
  rw [next, if_pos h]

theorem next_eq_finished (h : t.failed = false) (hs : t.step = .finished) : t.next = ⟨none, [], t⟩ := by
  rw [next]
  simp [h, hs]

theorem next_eq_failed (h : t.failed = false) (hs : t.step = .failed e) :
    t.next = ⟨some (.error e), [], t.fail⟩ := by
  rw [next]
  simp [h, hs]

theorem next_eq_skipped {hlt : rest.length < t.rest.length} (h : t.failed = false)
    (hs : t.step = .lexeme l rest hlt) (hl : l.skipped = true) :
    t.next = { (t.moveTo l rest).next with read := l :: (t.moveTo l rest).next.read } := by
  rw [next]
  simp [h, hs, hl]

theorem next_eq_token {hlt : rest.length < t.rest.length} (h : t.failed = false)
    (hs : t.step = .lexeme l rest hlt) (hl : ¬ l.skipped = true) :
    t.next = ⟨some (.ok l.token), [l], t.moveTo l rest⟩ := by
  rw [next]
  simp [h, hs, hl]

/-- After an error, and at the end of the text, a call gives nothing and changes nothing. -/
theorem next_of_end (h : t.failed = true ∨ t.rest = []) : t.next = ⟨none, [], t⟩ := by
  cases hf : t.failed with
  | true => exact next_of_failed hf
  | false =>
      have hrest := h.resolve_left (Bool.eq_false_iff.mp hf)
      exact next_eq_finished hf (step_eq_finished hrest)

/-- Nowhere else does a call give nothing. -/
theorem end_of_next (h : t.next.item = none) :
    t.next.after.failed = true ∨ t.next.after.rest = [] := by
  fun_induction next t with
  | case1 t hf => exact .inl hf
  | case2 t _ hs =>
      have hspec := t.step_spec
      rw [hs] at hspec
      exact .inr hspec
  | case3 t _ e _ => cases h
  | case4 t _ l rest _ _ _ answer ih => exact ih h
  | case5 t _ l rest _ _ _ => cases h

theorem failed_next (h : t.failed = false) (hitem : ∀ e, t.next.item ≠ some (.error e)) :
    t.next.after.failed = false := by
  fun_induction next t with
  | case1 t _ => exact h
  | case2 t _ _ => exact h
  | case3 t _ e _ => exact absurd rfl (hitem e)
  | case4 t _ l rest _ _ _ answer ih => exact ih h hitem
  | case5 t _ l rest _ _ _ => exact h

/-! ## What calls read -/

/-- From one tokenizer to another, lexemes are read that spell what the other has no longer left. -/
structure Reads (t : Tokenizer) (read : List Lexeme) (t' : Tokenizer) : Prop where
  table_eq : t'.table = t.table
  rest_eq : t.rest = spelled read ++ t'.rest
  tile : Tile t.location read t'.location

theorem Reads.refl (t : Tokenizer) : t.Reads [] t := ⟨rfl, rfl, .nil _⟩

theorem Reads.fail (t : Tokenizer) : t.Reads [] t.fail := ⟨rfl, rfl, .nil _⟩

theorem Reads.trans (h : t.Reads read t') (h' : t'.Reads read' t'') : t.Reads (read ++ read') t'' where
  table_eq := h'.table_eq.trans h.table_eq
  rest_eq := by rw [h.rest_eq, h'.rest_eq, spelled, spelled, spelled, List.flatMap_append,
    List.append_assoc]
  tile := h.tile.append h'.tile

theorem Reads.moveTo {hlt : v.length < t.rest.length} (h : t.step = .lexeme l v hlt) :
    t.Reads [l] (t.moveTo l v) := by
  have hspec := t.step_spec
  rw [h] at hspec
  obtain ⟨hrest, hne, hfirst, hlast⟩ := hspec
  refine ⟨rfl, ?_, ?_⟩
  · rw [spelled, List.flatMap_singleton]
    exact hrest
  · rw [← hfirst] at hlast ⊢
    exact .cons hne hlast (.nil _)

theorem reads_next (t : Tokenizer) : t.Reads t.next.read t.next.after := by
  fun_induction next t with
  | case1 t _ => exact .refl t
  | case2 t _ _ => exact .refl t
  | case3 t _ e _ => exact .fail t
  | case4 t _ l rest _ hs _ answer ih => exact (Reads.moveTo hs).trans ih
  | case5 t _ l rest _ hs _ => exact .moveTo hs

/-- A call hands on the lexeme that is not skipped. -/
theorem tokens_next (t : Tokenizer) : (t.next.item.bind Except.toOption).toList =
    (t.next.read.filter fun l => !l.skipped).map Lexeme.token := by
  fun_induction next t with
  | case1 t _ => rfl
  | case2 t _ _ => rfl
  | case3 t _ e _ => rfl
  | case4 t _ l rest _ hs hl answer ih => simpa [hl] using ih
  | case5 t _ l rest _ hs hl => simp [hl, Except.toOption]

/-- After an error, a tokenizer has failed, and stands where it could not go on. -/
theorem stuck_of_next (h : t.next.item = some (.error e)) :
    t.next.after.failed = true ∧ t.next.after.Stuck e := by
  fun_induction next t with
  | case1 t _ => cases h
  | case2 t _ _ => cases h
  | case3 t _ e' hs =>
      cases h
      have hspec := t.step_spec
      rw [hs] at hspec
      refine ⟨rfl, ?_⟩
      cases hspec with
      | lexical hw htoken => exact .lexical hw htoken
      | emptyMatch hw htoken => exact .emptyMatch hw htoken
  | case4 t _ l rest _ hs _ answer ih => exact ih h
  | case5 t _ l rest _ hs _ => cases h

/-- An answer is a lexeme that was read, or the error at the end. -/
theorem isSome_next_le (h : t.failed = false) : t.next.item.isSome.toNat ≤
    t.next.read.length + t.next.after.failed.toNat := by
  fun_induction next t with
  | case1 t hf =>
      rw [h] at hf
      cases hf
  | case2 t _ _ => exact Nat.zero_le _
  | case3 t _ e _ => exact Nat.le_refl 1
  | case4 t _ l rest _ hs _ answer ih =>
      have : answer.item.isSome.toNat ≤ answer.read.length + answer.after.failed.toNat := ih h
      show answer.item.isSome.toNat ≤ answer.read.length + 1 + answer.after.failed.toNat
      omega
  | case5 t _ l rest _ hs _ => exact Nat.le_add_right 1 _

/-! ## Calls one after another -/

/-- What some calls for tokens give. -/
structure Calls where
  /-- What each call gives: a token, an error, or nothing. -/
  items : List (Option (Except LexError Token))
  /-- The lexemes read on the way. -/
  read : List Lexeme
  /-- The tokenizer afterwards. -/
  after : Tokenizer

/-- Call for a token `n` times. -/
def calls (t : Tokenizer) : Nat → Calls
  | 0 => ⟨[], [], t⟩
  | n + 1 =>
      let earlier := t.calls n
      let answer := earlier.after.next
      ⟨earlier.items ++ [answer.item], earlier.read ++ answer.read, answer.after⟩

theorem reads_calls (t : Tokenizer) (n : Nat) : t.Reads (t.calls n).read (t.calls n).after := by
  induction n with
  | zero => exact .refl t
  | succ n ih => exact ih.trans (reads_next _)

theorem tokens_calls (t : Tokenizer) (n : Nat) :
    ((t.calls n).items.filterMap fun item => item.bind Except.toOption) =
      ((t.calls n).read.filter fun l => !l.skipped).map Lexeme.token := by
  induction n with
  | zero => rfl
  | succ n ih =>
      rw [calls, List.filterMap_append, ih, List.filter_append, List.map_append, ← tokens_next,
        List.filterMap_cons]
      cases (t.calls n).after.next.item.bind Except.toOption <;> rfl

/-- After an error, and at the end of the text, nothing more comes, and nothing changes. -/
theorem calls_of_end (h : t.failed = true ∨ t.rest = []) (n : Nat) :
    t.calls n = ⟨List.replicate n none, [], t⟩ := by
  induction n with
  | zero => rfl
  | succ n ih =>
      rw [calls, ih]
      simp only [next_of_end h, List.replicate_succ', List.append_nil]

/-- Once an error has come, the tokenizer stands where it could not go on. -/
theorem stuck_of_calls (h : some (.error e) ∈ (t.calls n).items) :
    (t.calls n).after.failed = true ∧ (t.calls n).after.Stuck e := by
  induction n with
  | zero => cases h
  | succ n ih =>
      rw [calls] at h ⊢
      rcases List.mem_append.mp h with h | h
      · obtain ⟨hf, hs⟩ := ih h
        rw [next_of_failed hf]
        exact ⟨hf, hs⟩
      · exact stuck_of_next (List.mem_singleton.mp h).symm

/-- As long as no error comes, a tokenizer has not failed. -/
theorem failed_calls (h : t.failed = false) (hitems : ∀ e, some (.error e) ∉ (t.calls n).items) :
    (t.calls n).after.failed = false := by
  induction n with
  | zero => exact h
  | succ n ih =>
      rw [calls] at hitems
      refine failed_next (ih fun e he => hitems e (List.mem_append_left _ he)) fun e he => ?_
      exact hitems e (List.mem_append_right _ (List.mem_singleton.mpr he.symm))

/-- Once nothing has come, there was an error, or the text is at its end. -/
theorem end_of_calls (h : none ∈ (t.calls n).items) :
    (t.calls n).after.failed = true ∨ (t.calls n).after.rest = [] := by
  induction n with
  | zero => cases h
  | succ n ih =>
      rw [calls] at h ⊢
      rcases List.mem_append.mp h with h | h
      · rw [next_of_end (ih h)]
        exact ih h
      · exact end_of_next (List.mem_singleton.mp h).symm

/-- Every answer but an error at the end is a lexeme that was read. -/
theorem countP_isSome_calls_le (t : Tokenizer) (n : Nat) :
    (t.calls n).items.countP Option.isSome ≤
      (t.calls n).read.length + (t.calls n).after.failed.toNat := by
  induction n with
  | zero => exact Nat.zero_le _
  | succ n ih =>
      rw [calls, List.countP_append, List.length_append]
      cases hf : (t.calls n).after.failed with
      | true =>
          rw [next_of_failed hf]
          simpa [hf] using ih
      | false =>
          have hnext := isSome_next_le hf
          have hone : [(t.calls n).after.next.item].countP Option.isSome =
              (t.calls n).after.next.item.isSome.toNat := by
            cases (t.calls n).after.next.item <;> rfl
          rw [hf, Bool.toNat_false] at ih
          show _ + _ ≤ (t.calls n).read.length + (t.calls n).after.next.read.length +
            (t.calls n).after.next.after.failed.toNat
          omega

/-! ## Calls up to the end -/

/-- Calls are the first of them, and the others after it. -/
theorem calls_succ (t : Tokenizer) (n : Nat) : t.calls (n + 1) =
    ⟨t.next.item :: (t.next.after.calls n).items, t.next.read ++ (t.next.after.calls n).read,
      (t.next.after.calls n).after⟩ := by
  induction n with
  | zero => simp only [calls, List.nil_append, List.append_nil]
  | succ n ih =>
      rw [calls, ih]
      simp only [calls, List.cons_append, List.append_assoc]

/-- Calls give these answers: one item after another, and nothing from then on.  Once there is nothing
more, these lexemes were read on the way, and this is the tokenizer. -/
structure RunsOut (t : Tokenizer) (answers : Answers) : Prop where
  items : ∀ n, (t.calls n).items = (List.range n).map fun i => answers.items[i]?
  read : ∀ n, answers.items.length < n → (t.calls n).read = answers.read
  after : ∀ n, answers.items.length < n → (t.calls n).after = answers.after

theorem drain_of_none (h : t.next.item = none) : t.drain = ⟨[], t.next.read, t.next.after⟩ := by
  rw [drain_eq, h]

theorem drain_of_some {item : Except LexError Token} (h : t.next.item = some item) :
    t.drain = ⟨item :: t.next.after.drain.items, t.next.read ++ t.next.after.drain.read,
      t.next.after.drain.after⟩ := by
  rw [drain_eq, h]

theorem items_calls (t : Tokenizer) (n : Nat) :
    (t.calls n).items = (List.range n).map fun i => t.drain.items[i]? := by
  induction n generalizing t with
  | zero => rfl
  | succ n ih =>
      rw [calls_succ, ih, List.range_succ_eq_map, List.map_cons, List.map_map]
      cases hitem : t.next.item with
      | none =>
          have hlater : t.next.after.next.item = none := by rw [next_of_end (end_of_next hitem)]
          rw [drain_of_none hitem, drain_of_none hlater]
          rfl
      | some item =>
          rw [drain_of_some hitem]
          rfl

theorem read_calls (t : Tokenizer) (n : Nat) (h : t.drain.items.length < n) :
    (t.calls n).read = t.drain.read ∧ (t.calls n).after = t.drain.after := by
  induction n generalizing t with
  | zero => exact absurd h (Nat.not_lt_zero _)
  | succ n ih =>
      rw [calls_succ]
      cases hitem : t.next.item with
      | none =>
          rw [drain_of_none hitem, calls_of_end (end_of_next hitem)]
          exact ⟨List.append_nil _, rfl⟩
      | some item =>
          rw [drain_of_some hitem] at h ⊢
          obtain ⟨hread, hafter⟩ := ih t.next.after (Nat.lt_of_succ_lt_succ h)
          exact ⟨congrArg (t.next.read ++ ·) hread, hafter⟩

/-- To read all lexemes at once is to call until nothing comes. -/
theorem runsOut_drain (t : Tokenizer) : t.RunsOut t.drain :=
  ⟨t.items_calls, fun n h => (t.read_calls n h).1, fun n h => (t.read_calls n h).2⟩

/-! ## Tokenizers of tables that were read -/

/-- The places that calls come to: where they stop, and where their lexemes begin and end. -/
def Calls.places (c : Calls) : List Location :=
  c.after.location :: c.read.flatMap fun l => [l.token.first, l.token.last]

/-- What holds of calls for the tokens of a text, whatever the table. -/
structure Calls.Sound (table : Table) (text : String) (c : Calls) : Prop where
  /-- Every place is at a boundary of characters of the text. -/
  isValid : ∀ p ∈ c.places, String.Pos.Raw.IsValid text ⟨p.offset⟩
  /-- Every place is the one of its offset. -/
  eq_ofOffset : ∀ p ∈ c.places, p = .ofOffset text p.offset
  /-- The lexemes begin at the beginning, each goes on where the one before it ends, and they end where
  the tokenizer stands. -/
  tile : Tile .initial c.read c.after.location
  /-- A lexeme is what the text has between its two places. -/
  extract_eq : ∀ l ∈ c.read, String.Pos.Raw.extract text ⟨l.token.first.offset⟩
    ⟨l.token.last.offset⟩ = String.ofList l.token.text
  /-- Together they are the text up to there. -/
  extract_zero_eq : String.Pos.Raw.extract text 0 ⟨c.after.location.offset⟩ =
    String.ofList (spelled c.read)
  /-- Nothing of the text is lost. -/
  text_eq : text.toList = spelled c.read ++ c.after.rest
  /-- The tokens are the lexemes that are not skipped. -/
  tokens_eq : (c.items.filterMap fun item => item.bind Except.toOption) =
    (c.read.filter fun l => !l.skipped).map Lexeme.token
  /-- There are at most as many lexemes as characters. -/
  read_le : c.read.length ≤ text.toList.length
  /-- There are at most as many answers as characters, and one. -/
  items_le : c.items.countP Option.isSome ≤ text.toList.length + 1
  /-- The tokenizer stands at the end of the last lexeme. -/
  location_eq : c.after.location = (c.read.getLast?.map fun l => l.token.last).getD .initial
  /-- If a walk is stuck where nothing is complete, the error tells where it is stuck: at a character
  without an edge, or at the end. -/
  lexical : ∀ i, some (.error (.lexical i)) ∈ c.items → ∃ s u v,
    table.walk 0 c.after.rest = ⟨s, u, v⟩ ∧ table.token? s = none ∧
    (∀ x ∈ v.head?, table.next? s x = none) ∧ text.toList = spelled c.read ++ u ++ v ∧
    i = (String.ofList (spelled c.read ++ u)).utf8ByteSize ∧
    String.Pos.Raw.IsValid text ⟨i⟩ ∧ c.after.location.offset ≤ i
  /-- If a token is complete without a character read, the error tells where the tokenizer stands. -/
  emptyMatch : ∀ i, some (.error (.emptyMatch i)) ∈ c.items → i = c.after.location.offset ∧
    (table.walk 0 c.after.rest).read = [] ∧ table.token? 0 ≠ none
  /-- Unless an error came, nothing comes only at the end of the text, and nothing more after it. -/
  finished : none ∈ c.items → (∀ e, some (.error e) ∉ c.items) →
    c.after.rest = [] ∧ ∀ n, c.after.calls n = ⟨List.replicate n none, [], c.after⟩
  /-- After an error, further calls give nothing and change nothing. -/
  ended : ∀ e, some (.error e) ∈ c.items → ∀ n,
    c.after.calls n = ⟨List.replicate n none, [], c.after⟩

theorem ofTable_eq_ok {table : Table} {names : List String} {text : String}
    (h : ofTable table names text = .ok t) : t.table = table ∧ t.names = names ∧
      t.rest = text.toList ∧ t.location = .initial ∧ t.failed = false := by
  unfold ofTable at h
  split at h
  · cases h
  · cases h
    exact ⟨rfl, rfl, rfl, rfl, rfl⟩

/-- Every place that calls come to is behind a beginning of the text. -/
theorem exists_of_mem_places {text : List Char} (hrest : t.rest = text)
    (hlocation : t.location = .initial) {p : Location} (hp : p ∈ (t.calls n).places) :
    ∃ u v, text = u ++ v ∧ p = .behind u := by
  have hreads := t.reads_calls n
  have htile := hreads.tile
  rw [hlocation] at htile
  rw [← hrest, hreads.rest_eq]
  rcases List.mem_cons.mp hp with rfl | hp
  · exact ⟨_, _, rfl, by rw [← htile.advance_eq, Location.advance_initial]⟩
  · obtain ⟨l, hl, hp⟩ := List.mem_flatMap.mp hp
    obtain ⟨u, v, hspelled, -, hfirst, hlast⟩ := htile.exists_of_mem hl
    rw [Location.advance_initial] at hfirst hlast
    rw [hspelled]
    rcases List.mem_pair.mp hp with rfl | rfl
    · exact ⟨u, l.token.text ++ v ++ (t.calls n).after.rest, by simp, hfirst⟩
    · exact ⟨u ++ l.token.text, v ++ (t.calls n).after.rest, by simp, hlast⟩

theorem sound_calls {table : Table} {names : List String} {text : String}
    (h : ofTable table names text = .ok t) (n : Nat) : (t.calls n).Sound table text := by
  obtain ⟨htable, -, hrest, hlocation, hfailed⟩ := ofTable_eq_ok h
  have hreads := t.reads_calls n
  have hafter := hreads.table_eq.trans htable
  have htile := hreads.tile
  rw [hlocation] at htile
  have htext : text.toList = spelled (t.calls n).read ++ (t.calls n).after.rest :=
    hrest ▸ hreads.rest_eq
  have hstand : (t.calls n).after.location = .behind (spelled (t.calls n).read) := by
    rw [← htile.advance_eq, Location.advance_initial]
  have hlength : (t.calls n).read.length ≤ text.toList.length := by
    rw [htext, List.length_append]
    exact Nat.le_trans htile.length_le (Nat.le_add_right _ _)
  refine ⟨fun p hp => ?_, fun p hp => ?_, htile, fun l hl => ?_, ?_, htext, t.tokens_calls n,
    hlength, ?_, htile.getLast?_eq.symm, fun i hi => ?_, fun i hi => ?_, fun hnone herror => ?_,
    fun e he => ?_⟩
  · obtain ⟨u, v, huv, rfl⟩ := exists_of_mem_places hrest hlocation hp
    exact Location.isValid_behind huv
  · obtain ⟨u, v, huv, rfl⟩ := exists_of_mem_places hrest hlocation hp
    exact (Location.ofOffset_behind huv).symm
  · obtain ⟨u, v, hspelled, -, hfirst, hlast⟩ := htile.exists_of_mem hl
    rw [hfirst, hlast, Location.advance_initial, Location.advance_initial]
    refine Location.extract_behind (w := v ++ (t.calls n).after.rest) ?_
    rw [htext, hspelled, List.append_assoc]
  · rw [hstand]
    exact @Location.extract_behind [] _ _ text htext
  · have := t.countP_isSome_calls_le n
    have := Bool.toNat_le (t.calls n).after.failed
    omega
  · obtain ⟨s, u, v, hw, htoken, hsplit, hstop, rfl⟩ := (stuck_of_calls hi).2.of_lexical
    rw [hafter] at hw htoken hstop
    have htext' : text.toList = spelled (t.calls n).read ++ u ++ v := by
      rw [htext, List.append_assoc, ← hsplit]
    rw [Location.offset_advance, hstand]
    refine ⟨s, u, v, hw, htoken, hstop, htext', ?_, ?_, Nat.le_add_right _ _⟩
    · rw [String.ofList_append, String.utf8ByteSize_append]
      rfl
    · have := Location.isValid_behind htext'
      rwa [← Location.advance_behind, Location.offset_advance] at this
  · rw [← hafter]
    exact (stuck_of_calls hi).2.of_emptyMatch
  · have hend := end_of_calls hnone
    have hnotFailed := failed_calls hfailed herror
    exact ⟨hend.resolve_left (Bool.eq_false_iff.mp hnotFailed), calls_of_end hend⟩
  · exact calls_of_end (.inl (stuck_of_calls he).1)

/-- A tokenizer of a table that was read from bytes asks it and the names only for what they have,
wherever a walk comes to; and its calls are sound, however many are made. -/
theorem calls_sound {bytes : List UInt8} {table : Table} {names : List String} {text : String}
    {t : Tokenizer} (hd : Table.decode bytes = .ok table)
    (ht : ofTable table names text = .ok t) :
    (∀ u, ∃ row, table.row? (table.walk 0 u).state = some row ∧
      table.columns.edges? (table.walk 0 u).state = some row.edges ∧
      ∀ i ∈ row.token, ∃ name, names[i]? = some name) ∧
    ∀ n, (t.calls n).Sound table text := by
  obtain ⟨hw, -, -⟩ := Table.decode_eq_ok_iff_encode.mp hd
  obtain ⟨htable, hnames, -⟩ := ofTable_eq_ok ht
  refine ⟨fun u => ?_, sound_calls ht⟩
  have hlt := hw.walk_state_lt (List.length_pos_iff.mpr hw.rows_ne_nil) u
  obtain ⟨row, hrow⟩ : ∃ row, table.row? (table.walk 0 u).state = some row :=
    ⟨_, List.getElem?_eq_getElem hlt⟩
  refine ⟨row, hrow, ?_, fun i hi => ?_⟩
  · rw [Table.edges?_columns, hrow]
    rfl
  · have := t.index_lt row (htable ▸ List.mem_of_getElem? hrow) i hi
    exact ⟨_, List.getElem?_eq_getElem (hnames ▸ this)⟩

/-- The bytes of a table that reads one letter. -/
def oneLetterBytes : List UInt8 :=
  [0, 0, 0, 2, 0, 0, 0, 1, 0x00, 0xFF, 0x00, 0x00, 0xFF, 0xFF, 0xFF, 0xFF, 0, 0, 0, 0,
    0, 0, 0, 0, 0, 0, 0, 1, 0, 0, 0, 1, 0, 0, 0, 0x61, 0, 0, 0, 1]

theorem calls_sound_oneLetter : ∃ table t, Table.decode oneLetterBytes = .ok table ∧
    ofTable table ["A"] "aab" = .ok t ∧
    (t.calls 3).items.getLast? = some (some (.error (.lexical 2))) ∧
    ∀ n, (t.calls n).Sound table "aab" := by
  have hd : Table.decode oneLetterBytes = .ok Table.oneLetterTable := by decide +kernel
  have ht : ofTable Table.oneLetterTable ["A"] "aab" =
      .ok ⟨_, _, index_lt_of_unnamed? rfl, ['a', 'a', 'b'], .initial, false⟩ := rfl
  exact ⟨_, _, hd, ht, by decide +kernel, (calls_sound hd ht).2⟩

end Tokenizer

end LexicalAutomata
