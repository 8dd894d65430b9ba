/-
# `LexicalAutomata.Proofs.Tokenizer.Local` — what a tokenizer reads depends on what stands near

Where a walk is stuck at a character, what follows that character plays no part.  So a lexeme that does not
end at the end of its text is read in any longer text as well, and so is an error that does not stand
there (`read_drain_followedBy`, `drain_followedBy`).

What a tokenizer has read plays no part either.  From where it stands it goes on like a new one on the
rest of the text, but that the places of the new one count from there (`calls_beyond`).
-/
import LexicalAutomata.Proofs.Tokenizer

namespace LexicalAutomata

/-- A walk that is stuck at a character is stuck there in a longer text. -/
theorem Table.walk_append_right {t : Table} {s : Nat} {u : List Char} (h : (t.walk s u).rest ≠ [])
    (v : List Char) :
    t.walk s (u ++ v) = ⟨(t.walk s u).state, (t.walk s u).read, (t.walk s u).rest ++ v⟩ := by
  induction u generalizing s with
  | nil => exact absurd rfl h
  | cons c u ih =>
      rw [walk] at h
      rw [List.cons_append, walk, walk]
      cases hn : t.next? s c with
      | none => rfl
      | some d =>
          rw [hn] at h
          simp only [ih h]

/-! ## Places of a later part -/

/-- A token of a text that begins at `here`, as a token of the text around it. -/
def Token.beyond (here : Location) (t : Token) : Token :=
  { t with first := here.beyond t.first, last := here.beyond t.last }

/-- A lexeme of a text that begins at `here`, as a lexeme of the text around it. -/
def Lexeme.beyond (here : Location) (l : Lexeme) : Lexeme := { l with token := l.token.beyond here }

/-- An error in a text that begins at `here`, as an error in the text around it. -/
def LexError.beyond (here : Location) : LexError → LexError
  | .lexical index => .lexical (here.offset + index)
  | .emptyMatch index => .emptyMatch (here.offset + index)

namespace Tokenizer

variable {t : Tokenizer} {l : Lexeme} {rest : List Char} {e : LexError}
  {table : Table} {names : List String} {text : String} {n : Nat}

/-- What a call gives in a text that begins at `here`, as it is in the text around it. -/
def beyondItem (here : Location) : Except LexError Token → Except LexError Token
  | .ok t => .ok (t.beyond here)
  | .error e => .error (e.beyond here)

/-- A tokenizer on a text that begins at `here`, as one on the text around it. -/
def beyond (here : Location) (t : Tokenizer) : Tokenizer :=
  { t with location := here.beyond t.location }

/-- The tokenizer on a longer text. -/
def followedBy (t : Tokenizer) (v : List Char) : Tokenizer := { t with rest := t.rest ++ v }

/-- The offset of the end of the text. -/
def stop (t : Tokenizer) : Nat := t.location.offset + (String.ofList t.rest).utf8ByteSize

/-! ## What follows -/

theorem rest_walk_of_step {hlt : rest.length < t.rest.length} (h : t.step = .lexeme l rest hlt) :
    (t.table.walk 0 t.rest).rest = rest := by
  have hne : t.rest ≠ [] := by
    intro hnil
    rw [step_eq_finished hnil] at h
    cases h
  obtain ⟨s, u, w, hw⟩ : ∃ s u w, t.table.walk 0 t.rest = ⟨s, u, w⟩ := ⟨_, _, _, rfl⟩
  rw [hw]
  cases hs : t.tokenAt s with
  | none =>
      rw [step_eq_lexical hne hw hs] at h
      cases h
  | some p =>
      obtain ⟨index, name, skippable⟩ := p
      by_cases hu : u = []
      · subst hu
        rw [step_eq_emptyMatch hne hw hs] at h
        cases h
      · obtain ⟨hlt', hstep⟩ := step_eq_lexeme hne hw hs hu
        rw [hstep] at h
        cases h
        rfl

/-- A step that is not stopped by the end of the text is the same in a longer text. -/
theorem step_followedBy (h : (t.table.walk 0 t.rest).rest ≠ []) (v : List Char) :
    match t.step with
    | .finished => False
    | .failed e => (t.followedBy v).step = .failed e
    | .lexeme l rest _ => ∃ hlt, (t.followedBy v).step = .lexeme l (rest ++ v) hlt := by
  have hne : t.rest ≠ [] := by
    intro hnil
    rw [hnil] at h
    exact h rfl
  have hne' : (t.followedBy v).rest ≠ [] := List.append_ne_nil_of_left_ne_nil hne v
  obtain ⟨s, u, w, hw⟩ : ∃ s u w, t.table.walk 0 t.rest = ⟨s, u, w⟩ := ⟨_, _, _, rfl⟩
  have hw' : (t.followedBy v).table.walk 0 (t.followedBy v).rest = ⟨s, u, w ++ v⟩ := by
    show t.table.walk 0 (t.rest ++ v) = _
    rw [Table.walk_append_right h, hw]
  cases hs : t.tokenAt s with
  | none =>
      rw [step_eq_lexical hne hw hs]
      exact step_eq_lexical hne' hw' hs
  | some p =>
      obtain ⟨index, name, skippable⟩ := p
      by_cases hu : u = []
      · subst hu
        rw [step_eq_emptyMatch hne hw hs]
        exact step_eq_emptyMatch hne' hw' hs
      · obtain ⟨hlt, hstep⟩ := step_eq_lexeme hne hw hs hu
        rw [hstep]
        exact step_eq_lexeme hne' hw' hs hu

/-- A lexeme with text behind it is read in a longer text as well. -/
theorem step_followedBy_lexeme {hlt : rest.length < t.rest.length}
    (h : t.step = .lexeme l rest hlt) (hrest : rest ≠ []) (v : List Char) :
    ∃ hlt, (t.followedBy v).step = .lexeme l (rest ++ v) hlt := by
  have := step_followedBy (t := t) (by rwa [rest_walk_of_step h]) v
  rwa [h] at this

theorem stop_moveTo {hlt : rest.length < t.rest.length} (h : t.step = .lexeme l rest hlt) :
    (t.moveTo l rest).stop = t.stop := by
  have hspec := t.step_spec
  rw [h] at hspec
  obtain ⟨hrest, -, -, hlast⟩ := hspec
  show l.token.last.offset + _ = t.location.offset + _
  rw [hlast, hrest, Location.offset_advance, String.ofList_append, String.utf8ByteSize_append,
    Nat.add_assoc]
  rfl

/-- An error before the end of the text is met in a longer text as well. -/
theorem step_followedBy_failed (h : t.step = .failed e) (he : ∀ i, e = .lexical i → i < t.stop)
    (v : List Char) : (t.followedBy v).step = .failed e := by
  have hspec := t.step_spec
  rw [h] at hspec
  have hstuck : (t.table.walk 0 t.rest).rest ≠ [] := by
    have hsplit := t.table.walk_append 0 t.rest
    intro hnil
    rw [hnil, List.append_nil] at hsplit
    cases e with
    | lexical i =>
        obtain ⟨s, u, w, hw, -, -, -, rfl⟩ := hspec.of_lexical
        have hlt := he _ rfl
        rw [hw] at hsplit
        rw [stop, ← hsplit, Location.offset_advance] at hlt
        exact Nat.lt_irrefl _ hlt
    | emptyMatch i =>
        rw [hspec.of_emptyMatch.2.1] at hsplit
        rw [step_eq_finished hsplit.symm] at h
        cases h
  have := step_followedBy hstuck v
  rwa [h] at this

theorem drain_of_nil (h : t.rest = []) : t.drain = ⟨[], [], t⟩ := by
  rw [drain]
  simp [step_eq_finished h]

theorem drain_of_step_failed (h : t.failed = false) (hs : t.step = .failed e) :
    t.drain = ⟨[.error e], [], t.fail⟩ := by
  rw [drain]
  simp [h, hs]

theorem drain_of_step_lexeme {hlt : rest.length < t.rest.length} (h : t.failed = false)
    (hs : t.step = .lexeme l rest hlt) :
    t.drain = { (t.moveTo l rest).drain with
      items := if l.skipped then (t.moveTo l rest).drain.items
        else .ok l.token :: (t.moveTo l rest).drain.items
      read := l :: (t.moveTo l rest).drain.read } := by
  rw [drain]
  simp [h, hs]

/-- A lexeme that ends before the end of the text is read in a longer text as well, and after as many
others. -/
theorem read_drain_followedBy (t : Tokenizer) (v : List Char) : ∀ (i : Nat) (l : Lexeme),
    t.drain.read[i]? = some l → l.token.last.offset < t.stop →
      (t.followedBy v).drain.read[i]? = some l := by
  fun_induction drain t with
  | case1 t hf => nofun
  | case2 t hf hs => nofun
  | case3 t hf e hs => nofun
  | case4 t hf l rest hlt hs answers ih =>
      intro i l' hl' hoffset
      have hf' : t.failed = false := Bool.eq_false_iff.mpr hf
      -- Nothing is read behind the end of the text.
      have hrest : rest ≠ [] := by
        rintro rfl
        cases i with
        | zero =>
            cases hl'
            rw [← stop_moveTo hs] at hoffset
            exact Nat.lt_irrefl _ hoffset
        | succ i =>
            have hempty : (t.moveTo l []).drain.read = [] := by rw [drain_of_nil rfl]
            change (t.moveTo l []).drain.read[i]? = _ at hl'
            rw [hempty] at hl'
            cases hl'
      obtain ⟨hlt', hs'⟩ := step_followedBy_lexeme hs hrest v
      rw [drain_of_step_lexeme (t := t.followedBy v) hf' hs']
      cases i with
      | zero => exact hl'
      | succ i => exact ih i l' hl' (by rwa [stop_moveTo hs])

/-- If an error before the end of the text ends it, the answers in a longer text are the same. -/
theorem drain_followedBy (t : Tokenizer) (v : List Char) :
    t.drain.items.getLast? = some (.error e) → (∀ i, e = .lexical i → i < t.stop) →
      (t.followedBy v).drain.items = t.drain.items ∧ (t.followedBy v).drain.read = t.drain.read := by
  fun_induction drain t with
  | case1 t hf => nofun
  | case2 t hf hs => nofun
  | case3 t hf e' hs =>
      intro hlast he
      cases hlast
      rw [drain_of_step_failed (t := t.followedBy v) (Bool.eq_false_iff.mpr hf)
        (step_followedBy_failed hs he v)]
      exact ⟨rfl, rfl⟩
  | case4 t hf l rest hlt hs answers ih =>
      intro hlast he
      have hf' : t.failed = false := Bool.eq_false_iff.mpr hf
      have hlast' : answers.items.getLast? = some (.error e) := by
        by_cases hl : l.skipped
        · simpa only [hl, if_true] using hlast
        · simp only [hl, Bool.false_eq_true, if_false, List.getLast?_cons] at hlast
          cases hitems : answers.items.getLast? with
          | none =>
              rw [hitems] at hlast
              cases hlast
          | some item =>
              rw [hitems] at hlast
              exact hlast
      have hrest : rest ≠ [] := by
        rintro rfl
        have hempty : (t.moveTo l []).drain.items = [] := by rw [drain_of_nil rfl]
        change (t.moveTo l []).drain.items.getLast? = _ at hlast'
        rw [hempty] at hlast'
        cases hlast'
      obtain ⟨hlt', hs'⟩ := step_followedBy_lexeme hs hrest v
      obtain ⟨hitems, hread⟩ := ih hlast' (by rwa [stop_moveTo hs])
      rw [drain_of_step_lexeme (t := t.followedBy v) hf' hs']
      show (if l.skipped then ((t.moveTo l rest).followedBy v).drain.items
        else .ok l.token :: ((t.moveTo l rest).followedBy v).drain.items) = _ ∧
          l :: ((t.moveTo l rest).followedBy v).drain.read = _
      rw [hitems, hread]
      exact ⟨rfl, rfl⟩

/-! ## What stands before -/

/-- A step from a place counts from there. -/
theorem step_beyond (here : Location) (h : 0 < t.location.line) :
    match t.step with
    | .finished => (t.beyond here).step = .finished
    | .failed e => (t.beyond here).step = .failed (e.beyond here)
    | .lexeme l rest hlt => (t.beyond here).step = .lexeme (l.beyond here) rest hlt ∧
        0 < l.token.last.line := by
  by_cases hne : t.rest = []
  · rw [step_eq_finished hne]
    exact step_eq_finished hne
  · obtain ⟨s, u, w, hw⟩ : ∃ s u w, t.table.walk 0 t.rest = ⟨s, u, w⟩ := ⟨_, _, _, rfl⟩
    have hlocation : (t.beyond here).location.advance u = here.beyond (t.location.advance u) :=
      (Location.beyond_advance h u).symm
    cases hs : t.tokenAt s with
    | none =>
        rw [step_eq_lexical hne hw hs]
        refine (step_eq_lexical (t := t.beyond here) hne hw hs).trans ?_
        rw [hlocation]
        rfl
    | some p =>
        obtain ⟨index, name, skippable⟩ := p
        by_cases hu : u = []
        · subst hu
          rw [step_eq_emptyMatch hne hw hs]
          exact step_eq_emptyMatch (t := t.beyond here) hne hw hs
        · obtain ⟨hlt, hstep⟩ := step_eq_lexeme hne hw hs hu
          obtain ⟨hlt', hstep'⟩ := step_eq_lexeme (t := t.beyond here) hne hw hs hu
          rw [hstep]
          refine ⟨hstep'.trans ?_, Location.line_advance_pos h u⟩
          rw [hlocation]
          rfl

/-- A call from a place counts from there. -/
theorem next_beyond (t : Tokenizer) (here : Location) (h : 0 < t.location.line) :
    (t.beyond here).next = ⟨t.next.item.map (beyondItem here), t.next.read.map (Lexeme.beyond here),
      t.next.after.beyond here⟩ ∧ 0 < t.next.after.location.line := by
  have hstep := step_beyond here h
  fun_induction next t with
  | case1 t hf => exact ⟨next_of_failed hf, h⟩
  | case2 t hf hs =>
      rw [hs] at hstep
      exact ⟨next_eq_finished (Bool.eq_false_iff.mpr hf) hstep, h⟩
  | case3 t hf e hs =>
      rw [hs] at hstep
      exact ⟨next_eq_failed (Bool.eq_false_iff.mpr hf) hstep, h⟩
  | case4 t hf l rest hlt hs hl answer ih =>
      rw [hs] at hstep
      obtain ⟨hnext, hline⟩ := ih hstep.2 (step_beyond here hstep.2)
      refine ⟨(next_eq_skipped (t := t.beyond here) (Bool.eq_false_iff.mpr hf) hstep.1 hl).trans ?_,
        hline⟩
      show { ((t.moveTo l rest).beyond here).next with
        read := l.beyond here :: ((t.moveTo l rest).beyond here).next.read : Answer } = _
      rw [hnext]
      rfl
  | case5 t hf l rest hlt hs hl =>
      rw [hs] at hstep
      exact ⟨next_eq_token (t := t.beyond here) (Bool.eq_false_iff.mpr hf) hstep.1 hl, hstep.2⟩

/-- So do calls one after another. -/
theorem calls_beyond (t : Tokenizer) (here : Location) (h : 0 < t.location.line) (n : Nat) :
    (t.beyond here).calls n = ⟨(t.calls n).items.map (Option.map (beyondItem here)),
      (t.calls n).read.map (Lexeme.beyond here), (t.calls n).after.beyond here⟩ ∧
      0 < (t.calls n).after.location.line := by
  induction n with
  | zero => exact ⟨rfl, h⟩
  | succ n ih =>
      obtain ⟨hcalls, hline⟩ := ih
      obtain ⟨hnext, hline⟩ := next_beyond (t.calls n).after here hline
      refine ⟨?_, hline⟩
      rw [calls, hcalls]
      simp only [hnext, calls, List.map_append, List.map_cons, List.map_nil]

/-! ## Where calls come to -/

theorem names_next (t : Tokenizer) : t.next.after.names = t.names := by
  fun_induction next t with
  | case1 t _ => rfl
  | case2 t _ _ => rfl
  | case3 t _ e _ => rfl
  | case4 t _ l rest _ _ _ answer ih => exact ih
  | case5 t _ l rest _ _ _ => rfl

theorem names_calls (t : Tokenizer) (n : Nat) : (t.calls n).after.names = t.names := by
  induction n with
  | zero => rfl
  | succ n ih => exact (names_next _).trans ih

/-- Whether a tokenizer can be had of a table does not depend on the text. -/
theorem ofTable_of_ok (h : ofTable table names text = .ok t) (text' : String) :
    ofTable table names text' = .ok { t with rest := text'.toList } := by
  unfold ofTable at h ⊢
  split at h
  · cases h
  · cases h
    rfl

/-- Calls come to the place behind what they read. -/
theorem location_calls (h : t.location = .initial) (n : Nat) :
    (t.calls n).after.location = .behind (spelled (t.calls n).read) := by
  rw [← (t.reads_calls n).tile.advance_eq, h, Location.advance_initial]

/-- Where calls without an error come to, the tokenizer is that of the rest of the text, put there. -/
theorem after_calls_eq (h : ofTable table names text = .ok t)
    (hitems : ∀ e, some (.error e) ∉ (t.calls n).items) :
    (t.calls n).after = beyond (t.calls n).after.location
      { t with rest := (t.calls n).after.rest } := by
  obtain ⟨-, -, -, hlocation, hfailed⟩ := ofTable_eq_ok h
  have htable := (t.reads_calls n).table_eq
  have hnames := t.names_calls n
  have hnotFailed := failed_calls hfailed hitems
  have hbeyond : (t.calls n).after.location =
      (t.calls n).after.location.beyond t.location := by
    rw [hlocation, location_calls hlocation, Location.beyond_initial]
  revert htable hnames hnotFailed hbeyond
  generalize (t.calls n).after = t'
  obtain ⟨table', names', index_lt', rest', location', failed'⟩ := t'
  rintro rfl rfl rfl hbeyond
  show _ = Tokenizer.mk _ _ _ rest' (location'.beyond t.location) t.failed
  rw [← hbeyond, hfailed]

/-- Tokenizing is local, for every table and names that give tokenizers.

Of what calls give until nothing comes: a lexeme that ends before the end of a text is also read, after as
many others, if more text follows; and if an error ends the answers, they are the same if more text follows,
unless the table is stuck at the end.

After any number of calls without an error, further calls give what they give of a new tokenizer on the
rest of the text, with its places put where that begins. -/
theorem calls_local {t₀ : Tokenizer} (h : ofTable table names text = .ok t₀) :
    (∀ u v : String, ∃ t t', ofTable table names u = .ok t ∧ ofTable table names (u ++ v) = .ok t' ∧
      t.RunsOut t.drain ∧ t'.RunsOut t'.drain ∧
      (∀ (i : Nat) (l : Lexeme), t.drain.read[i]? = some l →
        l.token.last.offset < u.utf8ByteSize → t'.drain.read[i]? = some l) ∧
      ∀ e, t.drain.items.getLast? = some (.error e) →
        (∀ i, e = .lexical i → i < u.utf8ByteSize) →
          t'.drain.items = t.drain.items ∧ t'.drain.read = t.drain.read) ∧
    ∀ u : String, ∃ t, ofTable table names u = .ok t ∧
      ∀ n, (∀ e, some (.error e) ∉ (t.calls n).items) → ∃ t',
        ofTable table names (String.Pos.Raw.extract u ⟨(t.calls n).after.location.offset⟩
          ⟨u.utf8ByteSize⟩) = .ok t' ∧
        ∀ m, ((t.calls n).after.calls m).items =
            (t'.calls m).items.map (Option.map (beyondItem (t.calls n).after.location)) ∧
          ((t.calls n).after.calls m).read =
            (t'.calls m).read.map (Lexeme.beyond (t.calls n).after.location) ∧
          ((t.calls n).after.calls m).after.location =
            (t.calls n).after.location.beyond (t'.calls m).after.location := by
  have hnew := ofTable_of_ok h
  obtain ⟨-, -, -, hlocation, -⟩ := ofTable_eq_ok h
  constructor
  · intro u v
    have hlonger : ofTable table names (u ++ v) =
        .ok (followedBy { t₀ with rest := u.toList } v.toList) := by
      rw [hnew, String.toList_append]
      rfl
    have hstop : stop { t₀ with rest := u.toList } = u.utf8ByteSize := by
      rw [stop, hlocation, String.ofList_toList]
      exact Nat.zero_add _
    refine ⟨_, _, hnew u, hlonger, runsOut_drain _, runsOut_drain _, fun i l hl hoffset => ?_,
      fun e hlast he => ?_⟩
    · exact read_drain_followedBy _ _ i l hl (hstop ▸ hoffset)
    · exact drain_followedBy _ _ hlast (hstop ▸ he)
  · intro u
    let t : Tokenizer := { t₀ with rest := u.toList }
    refine ⟨t, hnew u, fun n hitems => ?_⟩
    have htext : u.toList = spelled (t.calls n).read ++ (t.calls n).after.rest :=
      (sound_calls (hnew u) n).text_eq
    have hextract : String.Pos.Raw.extract u ⟨(t.calls n).after.location.offset⟩ ⟨u.utf8ByteSize⟩ =
        String.ofList (t.calls n).after.rest := by
      have hstop : (Location.behind u.toList).offset = u.utf8ByteSize := by
        rw [Location.behind, String.ofList_toList]
      rw [location_calls (t := t) hlocation, ← hstop, htext]
      refine Location.extract_behind (w := []) ?_
      rw [List.append_nil, htext]
    refine ⟨{ t₀ with rest := (t.calls n).after.rest }, ?_, fun m => ?_⟩
    · rw [hextract, hnew, String.toList_ofList]
    · obtain ⟨hcalls, -⟩ := calls_beyond { t₀ with rest := (t.calls n).after.rest }
        (t.calls n).after.location (hlocation ▸ Nat.one_pos) m
      have hafter : (t.calls n).after = beyond (t.calls n).after.location
        { t₀ with rest := (t.calls n).after.rest } := after_calls_eq (hnew u) hitems
      rw [← hafter] at hcalls
      rw [hcalls]
      exact ⟨rfl, rfl, rfl⟩

/-- A table for blanks, which are skippable, and letters. -/
def spacedTable : Table :=
  ⟨[⟨none, false, [(' ', 1), ('a', 2)]⟩, ⟨some 0, true, [(' ', 1)]⟩, ⟨some 1, false, [('a', 2)]⟩]⟩

/-- Its tokenizer on a text. -/
def spaced (text : String) : Tokenizer :=
  ⟨spacedTable, ["BLANK", "A"], index_lt_of_unnamed? rfl, text.toList, .initial, false⟩

theorem ofTable_spaced (text : String) :
    ofTable spacedTable ["BLANK", "A"] text = .ok (spaced text) := rfl

/-- The letter at the end of a text may grow, but not the blank before it; and an error before the end stays
what it is.  Behind the first letter, calls go on as on the rest of the text. -/
theorem calls_local_spaced : ofTable spacedTable ["BLANK", "A"] "a a" = .ok (spaced "a a") ∧
    ((∃ l, (spaced "a a").drain.read[1]? = some l ∧ l.token.last.offset = 2 ∧ l.skipped = true ∧
        (spaced ("a a" ++ "a")).drain.read[1]? = some l) ∧
      (spaced "a a").drain.read[2]?.map (fun l => l.token.text) = some ['a'] ∧
      (spaced ("a a" ++ "a")).drain.read[2]?.map (fun l => l.token.text) = some ['a', 'a']) ∧
    ((spaced "ab").drain.items =
        [.ok ⟨"A", 1, ['a'], ⟨1, 1, 0⟩, ⟨1, 2, 1⟩⟩, .error (.lexical 1)] ∧
      (spaced ("ab" ++ "a")).drain.items = (spaced "ab").drain.items) ∧
    ((spaced "a a").calls 1).after.location = ⟨1, 2, 1⟩ ∧
      ((spaced " a").calls 2).items = [some (.ok ⟨"A", 1, ['a'], ⟨1, 2, 1⟩, ⟨1, 3, 2⟩⟩), none] ∧
      (((spaced "a a").calls 1).after.calls 2).items =
        [some (.ok ⟨"A", 1, ['a'], ⟨1, 3, 2⟩, ⟨1, 4, 3⟩⟩), none] := by
  obtain ⟨hnear, hrest⟩ := calls_local (ofTable_spaced "a a")
  refine ⟨rfl, ⟨?_, by decide +kernel, by decide +kernel⟩, ?_, ?_⟩
  · obtain ⟨t, t', ht, ht', -, -, hread, -⟩ := hnear "a a" "a"
    cases (ofTable_spaced _).symm.trans ht
    cases (ofTable_spaced _).symm.trans ht'
    have hblank : (spaced "a a").drain.read[1]? =
        some ⟨⟨"BLANK", 0, [' '], ⟨1, 2, 1⟩, ⟨1, 3, 2⟩⟩, true⟩ := by decide +kernel
    exact ⟨_, hblank, rfl, rfl, hread 1 _ hblank (by decide)⟩
  · obtain ⟨t, t', ht, ht', -, -, -, herror⟩ := hnear "ab" "a"
    cases (ofTable_spaced _).symm.trans ht
    cases (ofTable_spaced _).symm.trans ht'
    have hitems : (spaced "ab").drain.items =
        [.ok ⟨"A", 1, ['a'], ⟨1, 1, 0⟩, ⟨1, 2, 1⟩⟩, .error (.lexical 1)] := by decide +kernel
    refine ⟨hitems, (herror (.lexical 1) (by rw [hitems]; rfl) fun i hi => ?_).1⟩
    cases hi
    decide
  · obtain ⟨t, ht, hcalls⟩ := hrest "a a"
    cases (ofTable_spaced _).symm.trans ht
    have hfirst : ((spaced "a a").calls 1).items =
        [some (.ok ⟨"A", 1, ['a'], ⟨1, 1, 0⟩, ⟨1, 2, 1⟩⟩)] := by decide +kernel
    have hlocation : ((spaced "a a").calls 1).after.location = ⟨1, 2, 1⟩ := by decide +kernel
    obtain ⟨t', ht', hlater⟩ := hcalls 1 (by rw [hfirst]; simp)
    rw [hlocation] at hlater ht'
    cases (ofTable_spaced _).symm.trans ht'
    have hnew : ((spaced " a").calls 2).items =
        [some (.ok ⟨"A", 1, ['a'], ⟨1, 2, 1⟩, ⟨1, 3, 2⟩⟩), none] := by decide +kernel
    have hextract : String.Pos.Raw.extract "a a" ⟨1⟩ ⟨3⟩ = " a" := by decide +kernel
    refine ⟨hlocation, hnew, ?_⟩
    rw [(hlater 2).1]
    show (((spaced (String.Pos.Raw.extract "a a" ⟨1⟩ ⟨3⟩)).calls 2).items).map _ = _
    rw [hextract, hnew]
    rfl

end Tokenizer

end LexicalAutomata
