/-
# `LexicalAutomata.Proofs.Expr.Reading` — the text of an expression says what it matches

Different expressions can have one text: a list of one item is written as the item, a sequence in a
sequence is written flat, and the empty sequence is written as the empty literal.  What they match is the
same all the same, and it can be read off the text.  A reader goes through the text character by
character.  Between two brackets it keeps the language of the choices it has read and of the items of the
choice it is reading (`Frame`); an opening bracket begins a new frame, and a closing one turns the frame
into an item of the one around it.

A text is read in one of two ways.  In a tight context it is one more item, or several, of the choice that
is being read (`Pushes`).  In a loose one it may hold choices, so it can only stand where a choice begins,
and all that matters is what it adds to the frame (`Adds`).  Both are composed as texts are, by commas, by
bars and by brackets, and so every expression is read as its language, in each context (`Readable`).
-/
import LexicalAutomata.Expr.Printer
import LexicalAutomata.Proofs.Expr.Matching
import LexicalAutomata.Proofs.Expr.Regular
import LexicalAutomata.Proofs.Text.Quoted

namespace LexicalAutomata.Expr

open Computability

/-! ## The reader -/

/-- What has been read since an opening bracket. -/
structure Frame where
  /-- The words of the choices that are complete. -/
  choices : Language Char
  /-- The words of the items of the last choice, if any has been read. -/
  items : Option (Language Char)

namespace Frame

/-- Nothing has been read. -/
def empty : Frame := ⟨0, none⟩

/-- The words of all that has been read. -/
def value (f : Frame) : Language Char := f.choices + f.items.getD 0

/-- One more item. -/
def push (f : Frame) (l : Language Char) : Frame := { f with items := some (f.items.getD 1 * l) }

/-- The last choice is complete. -/
def bar (f : Frame) : Frame := ⟨f.value, none⟩

end Frame

/-- What has been read outside of literals. -/
structure Reader where
  /-- The frames around the innermost one, the nearest first. -/
  outer : List Frame
  /-- The innermost frame. -/
  here : Frame
  /-- The words of what stood between the last pair of brackets. -/
  body : Language Char

namespace Reader

/-- Nothing has been read. -/
def empty : Reader := ⟨[], .empty, 0⟩

/-- One more item in the innermost frame. -/
def push (r : Reader) (l : Language Char) : Reader := { r with here := r.here.push l }

/-- A bracket opens. -/
def enter (r : Reader) : Reader := ⟨r.here :: r.outer, .empty, r.body⟩

/-- A bracket closes, and what it encloses is changed in some way into an item. -/
def leave (r : Reader) (f : Language Char → Language Char) : Reader :=
  match r.outer with
  | [] => r
  | around :: outer => ⟨outer, around.push (f r.here.value), r.here.value⟩

/-- The reader after a character outside of literals.  A plus repeats what stood between brackets;
commas and blanks say nothing. -/
def next (r : Reader) (c : Char) : Reader :=
  if c = '(' ∨ c = '[' ∨ c = '\x7b' then r.enter
  else if c = ')' then r.leave id
  else if c = ']' then r.leave (1 + ·)
  else if c = '\x7d' then r.leave (·∗)
  else if c = '+' then r.push r.body
  else if c = '|' then { r with here := r.here.bar }
  else r

end Reader

/-- Where a reader is: outside of literals, or in a literal of which some text has been read, the last
character of which may be a backslash that escapes the next one. -/
inductive Mode where
  | plain (r : Reader)
  | literal (r : Reader) (written : List Char) (escaping : Bool)

/-- The words that are written in this way in a literal. -/
def wordsWritten (written : List Char) : Language Char :=
  {word : List Char | Text.escapeLiteral word = written}

/-- Where the reader is after a character. -/
def Mode.step : Mode → Char → Mode
  | .plain r, c => if c = '"' then .literal r [] false else .plain (r.next c)
  | .literal r written true, c => .literal r (written ++ [c]) false
  | .literal r written false, c =>
      if c = '"' then .plain (r.push (wordsWritten written))
      else .literal r (written ++ [c]) (c == '\\')

/-- The words that a text stands for. -/
def wordsOf (text : List Char) : Language Char :=
  match text.foldl Mode.step (.plain .empty) with
  | .plain r => r.here.value
  | .literal _ _ _ => 0

/-! ## Texts with their languages -/

variable {t u : List Char} {l m : Language Char} {e : Expr} {es : List Expr}

/-- Wherever the text stands, it is read as items with this language. -/
def Pushes (t : List Char) (l : Language Char) : Prop :=
  ∀ r, ∃ body, t.foldl Mode.step (.plain r) = .plain { r.push l with body := body }

/-- Where a choice begins, the text is read as choices with this language. -/
def Adds (t : List Char) (l : Language Char) : Prop :=
  ∀ outer choices body, ∃ here body', t.foldl Mode.step (.plain ⟨outer, ⟨choices, none⟩, body⟩) =
    .plain ⟨outer, here, body'⟩ ∧ here.value = choices + l

theorem Pushes.adds (h : Pushes t l) : Adds t l := by
  intro outer choices body
  obtain ⟨body', ht⟩ := h ⟨outer, ⟨choices, none⟩, body⟩
  refine ⟨_, body', ht, ?_⟩
  show choices + 1 * l = choices + l
  rw [one_mul]

theorem Adds.nil : Adds [] 0 := fun _ choices body =>
  ⟨⟨choices, none⟩, body, rfl, rfl⟩

theorem Adds.wordsOf_eq (h : Adds t l) : wordsOf t = l := by
  obtain ⟨here, body, ht, hvalue⟩ := h [] 0 0
  have ht' : t.foldl Mode.step (.plain .empty) = .plain ⟨[], here, body⟩ := ht
  rw [wordsOf, ht']
  exact hvalue.trans (zero_add l)

/-- A comma stands between items. -/
theorem Pushes.comma (h : Pushes t l) (h' : Pushes u m) : Pushes (t ++ [',', ' '] ++ u) (l * m) := by
  intro r
  obtain ⟨body, ht⟩ := h r
  obtain ⟨body', hu⟩ := h' { r.push l with body := body }
  refine ⟨body', ?_⟩
  rw [List.foldl_append, List.foldl_append, ht]
  refine hu.trans ?_
  simp only [Reader.push, Frame.push, Option.getD_some, mul_assoc]

/-- A bar stands between choices. -/
theorem Adds.bar (h : Adds t l) (h' : Adds u m) : Adds (t ++ [' ', '|', ' '] ++ u) (l + m) := by
  intro outer choices body
  obtain ⟨here, body₁, ht, hvalue⟩ := h outer choices body
  obtain ⟨here', body₂, hu, hvalue'⟩ := h' outer here.value body₁
  refine ⟨here', body₂, ?_, ?_⟩
  · rw [List.foldl_append, List.foldl_append, ht]
    exact hu
  · rw [hvalue', hvalue, add_assoc]

/-- Between brackets choices make one item. -/
theorem Adds.enclosed (h : Adds t l) {left right : Char} {f : Language Char → Language Char}
    (hleft : ∀ r, Mode.step (.plain r) left = .plain r.enter)
    (hright : ∀ r, Mode.step (.plain r) right = .plain (r.leave f)) (r : Reader) :
    (left :: t ++ [right]).foldl Mode.step (.plain r) = .plain { r.push (f l) with body := l } := by
  -- behind the opening bracket the frame is new, so what is added to it is all there is
  obtain ⟨here, body, ht, hvalue⟩ := h (r.here :: r.outer) 0 r.body
  have ht' : t.foldl Mode.step (.plain r.enter) = .plain ⟨r.here :: r.outer, here, body⟩ := ht
  rw [zero_add] at hvalue
  rw [List.cons_append, List.foldl_cons, hleft, List.foldl_append, ht', List.foldl_cons, hright,
    Reader.leave, hvalue]
  rfl

theorem Adds.parenthesized (h : Adds t l) : Pushes ('(' :: t ++ [')']) l := fun r =>
  ⟨l, h.enclosed (f := id) (fun _ => rfl) (fun _ => rfl) r⟩

theorem Adds.bracketed (h : Adds t l) : Pushes ('[' :: t ++ [']']) (1 + l) := fun r =>
  ⟨l, h.enclosed (f := (1 + ·)) (fun _ => rfl) (fun _ => rfl) r⟩

theorem Adds.braced (h : Adds t l) : Pushes ('\x7b' :: t ++ ['\x7d']) l∗ := fun r =>
  ⟨l, h.enclosed (f := (·∗)) (fun _ => rfl) (fun _ => rfl) r⟩

/-- The plus is read as one more time what stands between the braces before it. -/
theorem Adds.bracedPlus (h : Adds t l) : Pushes ('\x7b' :: t ++ ['\x7d', '+']) (l * l∗) := by
  intro r
  refine ⟨l, ?_⟩
  have hbraced : ('\x7b' :: t ++ ['\x7d']).foldl Mode.step (.plain r) =
      .plain { r.push l∗ with body := l } := h.enclosed (f := (·∗)) (fun _ => rfl) (fun _ => rfl) r
  rw [show '\x7b' :: t ++ ['\x7d', '+'] = ('\x7b' :: t ++ ['\x7d']) ++ ['+'] by simp,
    List.foldl_append, hbraced]
  show Mode.plain { (r.push l∗).push l with body := l } = _
  simp only [Reader.push, Frame.push, Option.getD_some, mul_assoc, Language.mul_self_kstar_comm]

/-! ## Literals -/

theorem foldl_step_unquoted {written tail : List Char} (hb : '\\' ∉ tail) (hq : '"' ∉ tail)
    (r : Reader) : tail.foldl Mode.step (.literal r written false) =
      .literal r (written ++ tail) false := by
  induction tail generalizing written with
  | nil => rw [List.append_nil]; rfl
  | cons c tail ih =>
      obtain ⟨hcb, hb⟩ := not_or.mp (mt List.mem_cons.mpr hb)
      obtain ⟨hcq, hq⟩ := not_or.mp (mt List.mem_cons.mpr hq)
      have hstep : Mode.step (.literal r written false) c = .literal r (written ++ [c]) false := by
        simp [Mode.step, Ne.symm hcb, Ne.symm hcq]
      rw [List.foldl_cons, hstep, ih hb hq, List.append_assoc]
      rfl

/-- Inside a literal a written character is read as a whole. -/
theorem foldl_step_escape {style : Text.Style} (hq : '"' ∈ style.quotes) (c : Char)
    (written : List Char) (r : Reader) :
    (Text.escape style c).foldl Mode.step (.literal r written false) =
      .literal r (written ++ Text.escape style c) false := by
  rcases Text.escape_shape style c with ⟨he, hb, hc⟩ | ⟨x, tail, he, hb, hq⟩
  · rw [he]
    refine foldl_step_unquoted (fun hm => hb ?_) (fun hm => hc ?_) r
    · exact (List.mem_singleton.mp hm).symm
    · exact List.mem_singleton.mp hm ▸ hq
  · rw [he]
    show tail.foldl Mode.step (.literal r (written ++ ['\\'] ++ [x]) false) = _
    rw [foldl_step_unquoted hb hq, List.append_assoc, List.append_assoc]
    rfl

theorem foldl_step_escapeLiteral (text : List Char) (r : Reader) :
    (Text.escapeLiteral text).foldl Mode.step (.literal r [] false) =
      .literal r (Text.escapeLiteral text) false := by
  have htail : ∀ (cs written : List Char), (cs.flatMap (Text.escape .literalTail)).foldl Mode.step
      (.literal r written false) =
        .literal r (written ++ cs.flatMap (Text.escape .literalTail)) false := by
    intro cs
    induction cs with
    | nil => intro written; rw [List.flatMap_nil, List.append_nil]; rfl
    | cons c cs ih =>
        intro written
        rw [List.flatMap_cons, List.foldl_append, foldl_step_escape (by decide), ih,
          List.append_assoc]
  cases text with
  | nil => rfl
  | cons c cs =>
      rw [Text.escapeLiteral, List.foldl_append, foldl_step_escape (by decide), htail,
        List.nil_append]

theorem wordsWritten_escapeLiteral (text : List Char) :
    wordsWritten (Text.escapeLiteral text) = {text} :=
  Set.ext fun _ => Text.escapeLiteral_injective.eq_iff

theorem pushes_quoteLiteral (text : List Char) : Pushes (Text.quoteLiteral text) {text} := by
  intro r
  refine ⟨r.body, ?_⟩
  rw [Text.quoteLiteral, List.cons_append, List.foldl_cons]
  show (Text.escapeLiteral text ++ ['"']).foldl Mode.step (.literal r [] false) = _
  rw [List.foldl_append, foldl_step_escapeLiteral, ← wordsWritten_escapeLiteral]
  rfl

/-! ## Expressions -/

/-- In every context the text of the expression is read as its language. -/
structure Readable (e : Expr) : Prop where
  tight : ∀ context, 0 < context → Pushes (e.write context) e.language
  loose : Adds (e.write 0) e.language

/-- An expression whose text is that of an item in every context. -/
theorem readable_of_pushes (h : ∀ context, Pushes (e.write context) e.language) : Readable e :=
  ⟨fun context _ => h context, (h 0).adds⟩

theorem pushes_items (h : ∀ x ∈ e :: es, Readable x) :
    Pushes (ListForm.items.separator.intercalate (writeAll (e :: es) 1))
      (languageInTurn (e :: es)) := by
  induction es generalizing e with
  | nil =>
      have he := (h e List.mem_cons_self).tight 1 Nat.one_pos
      rwa [writeAll, writeAll, List.intercalate_singleton, languageInTurn, languageInTurn, mul_one]
  | cons x es ih =>
      obtain ⟨he, hes⟩ := List.forall_mem_cons.mp h
      have hcomma := (he.tight 1 Nat.one_pos).comma (ih hes)
      rw [writeAll] at hcomma ⊢
      rwa [writeAll, List.intercalate_cons_cons, languageInTurn]

theorem adds_choices (h : ∀ x ∈ e :: es, Readable x) :
    Adds (ListForm.choices.separator.intercalate (writeAll (e :: es) 0))
      (languageOfAny (e :: es)) := by
  induction es generalizing e with
  | nil =>
      have he := (h e List.mem_cons_self).loose
      rwa [writeAll, writeAll, List.intercalate_singleton, languageOfAny, languageOfAny, add_zero]
  | cons x es ih =>
      obtain ⟨he, hes⟩ := List.forall_mem_cons.mp h
      have hbar := he.loose.bar (ih hes)
      rw [writeAll] at hbar ⊢
      rwa [writeAll, List.intercalate_cons_cons, languageOfAny]

theorem readable_sequence (h : ∀ x ∈ es, Readable x) : Readable (.sequence es) := by
  refine readable_of_pushes fun context => ?_
  rw [write, language]
  cases es with
  | nil => exact pushes_quoteLiteral []
  | cons x es =>
      have hitems := pushes_items h
      show Pushes (if 1 < context then _ else _) _
      split
      · exact hitems.adds.parenthesized
      · exact hitems

theorem readable_alternation (h : ∀ x ∈ es, Readable x) : Readable (.alternation es) := by
  cases es with
  | nil => exact readable_of_pushes fun context => Adds.nil.parenthesized
  | cons x es =>
      have hchoices := adds_choices h
      refine ⟨fun context hpos => ?_, ?_⟩
      · rw [write, language]
        show Pushes (if 0 < context then _ else _) _
        rw [if_pos hpos]
        exact hchoices.parenthesized
      · rw [write, language]
        exact hchoices

-- A text is composed of the texts of the parts, so the induction is on the expression; which of the two
-- ways of reading a part is needed depends on where it stands.
mutual
theorem readable : ∀ e : Expr, Readable e
  | .literal text => readable_of_pushes fun context => by
      rw [write, language]
      exact pushes_quoteLiteral text.toList
  | .sequence items => readable_sequence (readableAll items)
  | .alternation choices => readable_alternation (readableAll choices)
  | .optional body => readable_of_pushes fun context => by
      rw [write, language]
      exact (readable body).loose.bracketed
  | .zeroOrMore body => readable_of_pushes fun context => by
      rw [write, language]
      exact (readable body).loose.braced
  | .oneOrMore body => readable_of_pushes fun context => by
      rw [write, language]
      exact (readable body).loose.bracedPlus
theorem readableAll : ∀ es : List Expr, ∀ e ∈ es, Readable e
  | [] => fun _ h => nomatch h
  | e :: es => List.forall_mem_cons.mpr ⟨readable e, readableAll es⟩
end

/-- The text of an expression, in whatever context, stands for the words of its language. -/
theorem wordsOf_write (e : Expr) (context : Nat) : wordsOf (e.write context) = e.language := by
  rcases Nat.eq_zero_or_pos context with rfl | hpos
  · exact (readable e).loose.wordsOf_eq
  · exact ((readable e).tight context hpos).adds.wordsOf_eq

/-- Expressions with the same text in a context match the same words. -/
theorem textIn_unambiguous (e e' : Expr) (context : Nat) (h : e.textIn context = e'.textIn context)
    (w : String) : e.accepts w = e'.accepts w := by
  have hlanguage : e.language = e'.language := by
    rw [← wordsOf_write e context, ← wordsOf_write e' context, String.ofList_injective h]
  rw [Bool.eq_iff_iff, accepts_iff_lang, accepts_iff_lang, ← mem_language, ← mem_language, hlanguage]

/-- A repetition and what follows it, with a choice in it that has no alternatives. -/
def repeatedTail : Expr :=
  .sequence [.oneOrMore (.alternation [.literal "b", .literal "\"|"]), .optional (.alternation [])]

/-- The tail after a letter. -/
def nested : Expr := .sequence [.literal "a", repeatedTail]

/-- The same items in one list, and the repetition in a list of its own. -/
def flat : Expr :=
  .sequence [.literal "a",
    .sequence [.oneOrMore (.alternation [.alternation [.sequence [.literal "b"]], .literal "\"|"])],
    .optional (.alternation [.alternation []])]

theorem textIn_unambiguous_nested : nested.textIn 2 = flat.textIn 2 ∧
    ∀ w, nested.accepts w = flat.accepts w := by
  have h : nested.textIn 2 = flat.textIn 2 := by decide +kernel
  exact ⟨h, textIn_unambiguous nested flat 2 h⟩

end LexicalAutomata.Expr
