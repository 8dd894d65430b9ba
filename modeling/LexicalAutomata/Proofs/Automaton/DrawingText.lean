/-
# `LexicalAutomata.Proofs.Automaton.DrawingText` — a drawing can be read back from its text

After the two lines at the top, the text of a drawing is a list of lines, and no line has a newline of its
own, provided that no token has one.  So equal texts have equal lines (`unlines_injective`).  The line that
announces the start is neither that of an arc nor that of an accepting state, so it separates the arcs from
the accepting states.  Within a line, numbers end at a blank; and what follows the last number is, up to a
fixed ending, the label or the token.

The label of the empty move is also the label of the character `ε`, and no other two symbols have one label.
So two drawings with one text are the same, provided that both have no empty moves
(`Drawing.Legible.text_injective`), or that no arc of them reads that character
(`Drawing.Within.text_injective`, `label_injOn_of_ne_letter`).
-/
import LexicalAutomata.Proofs.Automaton.Drawing
import LexicalAutomata.Proofs.Text.Quoted

namespace LexicalAutomata.Automaton

open Text

/-! ## Lines -/

/-- The text of lines, each ended by a newline. -/
def unlines (lines : List (List Char)) : List Char := lines.flatMap (· ++ ['\n'])

theorem unlines_injective {ls ls' : List (List Char)} (h : ∀ l ∈ ls, '\n' ∉ l)
    (h' : ∀ l ∈ ls', '\n' ∉ l) (e : unlines ls = unlines ls') : ls = ls' := by
  -- the first newline of each text ends its first line
  induction ls generalizing ls' with
  | nil =>
      cases ls' with
      | nil => rfl
      | cons l' ls' => simp [unlines] at e
  | cons l ls ih =>
      cases ls' with
      | nil => simp [unlines] at e
      | cons l' ls' =>
          obtain ⟨hl, hls⟩ := List.forall_mem_cons.mp h
          obtain ⟨hl', hls'⟩ := List.forall_mem_cons.mp h'
          simp only [unlines, List.flatMap_cons, List.append_assoc, List.singleton_append] at e
          obtain ⟨rfl, erest⟩ := append_cons_inj hl hl' e
          rw [ih hls hls' erest]

/-- Where a function tells the members of a kind apart, lists of them are equal if their images are. -/
theorem map_injOn {α β : Type} {f : α → β} {P : α → Prop}
    (hf : ∀ x y, P x → P y → f x = f y → x = y) {xs ys : List α} (hx : ∀ x ∈ xs, P x)
    (hy : ∀ y ∈ ys, P y) (h : xs.map f = ys.map f) : xs = ys := by
  rw [← List.forall₂_eq_eq_eq, List.forall₂_map_left_iff, List.forall₂_map_right_iff,
    List.forall₂_iff_zip] at h
  obtain ⟨hlength, hzip⟩ := h
  rw [← List.forall₂_eq_eq_eq, List.forall₂_iff_zip]
  refine ⟨hlength, fun {x y} hmem => ?_⟩
  obtain ⟨hxm, hym⟩ := List.of_mem_zip hmem
  exact hf x y (hx x hxm) (hy y hym) (hzip hmem)

namespace Drawing

variable {x y : Nat × Symbol × Nat} {f f' : Nat × String} {d e : Drawing}

/-- The line of an arc, without the newline. -/
def arcBody (x : Nat × Symbol × Nat) : List Char :=
  "  ".toList ++ digits x.1 ++ ' ' :: ("-> ".toList ++ digits x.2.2 ++ " [label=\"".toList ++
    x.2.1.label ++ "\"];".toList)

/-- The line of an accepting state, without the newline. -/
def finalBody (f : Nat × String) : List Char :=
  "  ".toList ++ digits f.1 ++ " [shape=\"doublecircle\", xlabel=\"".toList ++ f.2.toList ++
    "\"];".toList

/-- The line that announces the start. -/
def startBody : List Char := "  start [shape=\"plaintext\"];".toList

/-- The line that points to the start. -/
def arrowBody (start : Nat) : List Char := "  start -> ".toList ++ digits start ++ ";".toList

/-- The lines below the two at the top. -/
def lines (d : Drawing) : List (List Char) :=
  d.arcs.map arcBody ++ startBody :: arrowBody d.start :: (d.finals.map finalBody ++ ["\x7d".toList])

/-- The line of an arc, grouped behind its first number.  The fixed texts are variables, since it takes
long to compare literals. -/
theorem append_regroup {p i u u' j v l q q' : List Char} (hu : u' = ' ' :: u) (hq : q' = q ++ ['\n']) :
    p ++ i ++ u' ++ j ++ v ++ l ++ q' =
      p ++ i ++ ' ' :: (u ++ j ++ v ++ l ++ q) ++ ['\n'] := by
  subst hu hq
  simp only [List.append_assoc, List.cons_append]

theorem arcLine_eq (x : Nat × Symbol × Nat) : arcLine x = arcBody x ++ ['\n'] :=
  append_regroup (by decide) (by decide)

theorem finalLine_eq (f : Nat × String) : finalLine f = finalBody f ++ ['\n'] :=
  have hending : "\"];\n".toList = "\"];".toList ++ ['\n'] := by decide
  (congrArg (_ ++ ·) hending).trans (List.append_assoc _ _ _).symm

theorem append_unlines {top l₁ s w g l₂ c l₃ b : List Char} (ls ls' : List (List Char))
    (h₁ : l₁ = s ++ ['\n'] ++ w) (h₂ : l₂ = c ++ ['\n']) (h₃ : l₃ = b ++ ['\n']) :
    top ++ unlines ls ++ l₁ ++ g ++ l₂ ++ unlines ls' ++ l₃ =
      top ++ unlines (ls ++ s :: (w ++ g ++ c) :: (ls' ++ [b])) := by
  subst h₁ h₂ h₃
  simp only [unlines, List.flatMap_append, List.flatMap_cons, List.flatMap_nil, List.append_assoc,
    List.append_nil]

theorem text_eq (d : Drawing) :
    d.text = "digraph \x7b\n  rankdir=\"LR\";\n".toList ++ unlines d.lines := by
  have harcs : d.arcs.flatMap arcLine = unlines (d.arcs.map arcBody) := by
    rw [unlines, List.flatMap_map, funext arcLine_eq]
  have hfinals : d.finals.flatMap finalLine = unlines (d.finals.map finalBody) := by
    rw [unlines, List.flatMap_map, funext finalLine_eq]
  refine (congrArg₂ (fun arcs finals => _ ++ arcs ++ _ ++ _ ++ _ ++ finals ++ _) harcs hfinals).trans ?_
  exact append_unlines _ _ (by decide) (by decide) (by decide)

/-- The arcs of the drawing read these symbols only, and its tokens have no newlines. -/
structure Within (P : Symbol → Prop) (d : Drawing) : Prop where
  arcs : ∀ x ∈ d.arcs, P x.2.1
  finals : ∀ f ∈ d.finals, '\n' ∉ f.2.toList

/-- The drawing has no empty moves, and its tokens no newlines. -/
structure Legible (d : Drawing) : Prop where
  arcs : ∀ x ∈ d.arcs, x.2.1 ≠ .epsilon
  finals : ∀ f ∈ d.finals, '\n' ∉ f.2.toList

theorem Legible.within (h : d.Legible) : d.Within (· ≠ .epsilon) := ⟨h.arcs, h.finals⟩

/-! ## What does not occur in a line -/

theorem not_mem_digits {c : Char} (h : ∀ i < 16, c ≠ Nat.digitChar i) (n : Nat) : c ∉ digits n :=
  not_mem_toDigits (by decide) (by decide) h

theorem newline_not_mem_label (x : Symbol) : '\n' ∉ x.label := by
  cases x with
  | epsilon => decide
  | char c => exact newline_not_mem_escape _ c

theorem newline_not_mem_arcBody (x : Nat × Symbol × Nat) : '\n' ∉ arcBody x := by
  have hdigits : ∀ n, '\n' ∉ digits n := not_mem_digits (by decide)
  have hrest : '\n' ∉ "-> ".toList ++ digits x.2.2 ++ " [label=\"".toList ++ x.2.1.label ++
      "\"];".toList :=
    List.not_mem_append (List.not_mem_append (List.not_mem_append (List.not_mem_append (by decide)
      (hdigits _)) (by decide)) (newline_not_mem_label _)) (by decide)
  exact List.not_mem_append (List.not_mem_append (by decide) (hdigits _))
    (List.not_mem_append (s := [' ']) (by decide) hrest)

theorem newline_not_mem_finalBody (h : '\n' ∉ f.2.toList) : '\n' ∉ finalBody f := by
  have hdigits : '\n' ∉ digits f.1 := not_mem_digits (by decide) _
  exact List.not_mem_append (List.not_mem_append (List.not_mem_append
    (List.not_mem_append (by decide) hdigits) (by decide)) h) (by decide)

theorem Within.newline_not_mem {P : Symbol → Prop} (h : d.Within P) : ∀ l ∈ d.lines, '\n' ∉ l := by
  have hdigits : '\n' ∉ digits d.start := not_mem_digits (by decide) _
  simp only [lines, List.forall_mem_append, List.forall_mem_cons, List.forall_mem_map]
  exact ⟨fun x _ => newline_not_mem_arcBody x, by decide,
    List.not_mem_append (List.not_mem_append (by decide) hdigits) (by decide),
    fun f hf => newline_not_mem_finalBody (h.finals f hf), by decide, fun _ hl => nomatch hl⟩

/-! ## Labels -/

theorem label_injOn_of_ne_epsilon : Set.InjOn Symbol.label {x | x ≠ .epsilon} := by
  intro x hx y hy h
  cases x with
  | epsilon => exact absurd rfl hx
  | char c =>
      cases y with
      | epsilon => exact absurd rfl hy
      | char d => rw [escape_injective plain_label h]

/-- The empty move looks like one character only. -/
theorem label_eq_label_epsilon {x : Symbol} (h : x.label = Symbol.epsilon.label) :
    x = .epsilon ∨ x = .char 'ε' := by
  cases x with
  | epsilon => exact .inl rfl
  | char c =>
      have hletter : (Symbol.char 'ε').label = Symbol.epsilon.label := by decide +kernel
      rw [escape_injective plain_label (h.trans hletter.symm)]
      exact .inr rfl

theorem label_injOn_of_ne_letter : Set.InjOn Symbol.label {x | x ≠ .char 'ε'} := by
  intro x hx y hy h
  by_cases hxe : x = .epsilon
  · rw [hxe] at h ⊢
    exact ((label_eq_label_epsilon h.symm).resolve_right hy).symm
  · by_cases hye : y = .epsilon
    · rw [hye] at h
      exact absurd ((label_eq_label_epsilon h).resolve_right hx) hxe
    · exact label_injOn_of_ne_epsilon hxe hye h

/-! ## One line -/

/-- A number ends at the blank after it. -/
theorem cut_number {i i' p r r' : List Char} (hi : ' ' ∉ i) (hi' : ' ' ∉ i')
    (h : p ++ i ++ ' ' :: r = p ++ i' ++ ' ' :: r') : i = i' ∧ r = r' := by
  rw [List.append_assoc, List.append_assoc] at h
  exact append_cons_inj hi hi' (List.append_cancel_left h)

/-- What stands before a fixed ending, and behind a number and a fixed text after it. -/
theorem cut_numbered {i i' p q u r r' : List Char} (hi : ' ' ∉ i) (hi' : ' ' ∉ i')
    (h : p ++ i ++ ' ' :: u ++ r ++ q = p ++ i' ++ ' ' :: u ++ r' ++ q) : i = i' ∧ r = r' := by
  have h := List.append_cancel_right h
  rw [List.append_assoc _ (' ' :: u), List.append_assoc _ (' ' :: u)] at h
  obtain ⟨rfl, hr⟩ := cut_number hi hi' h
  exact ⟨rfl, List.append_cancel_left hr⟩

theorem blank_not_mem_digits (n : Nat) : ' ' ∉ digits n := not_mem_digits (by decide) n

theorem digits_injective : Function.Injective digits := toDigits_injective (by decide) (by decide)

theorem arcBody_injective {P : Symbol → Prop} (hP : Set.InjOn Symbol.label {x | P x})
    (hx : P x.2.1) (hy : P y.2.1) (h : arcBody x = arcBody y) : x = y := by
  obtain ⟨i, a, j⟩ := x
  obtain ⟨i', b, j'⟩ := y
  obtain ⟨hi, hrest⟩ := cut_number (blank_not_mem_digits i) (blank_not_mem_digits i') h
  obtain ⟨hj, hlabel⟩ := cut_numbered (blank_not_mem_digits j) (blank_not_mem_digits j') hrest
  obtain rfl := digits_injective hi
  obtain rfl := digits_injective hj
  obtain rfl : a = b := hP hx hy hlabel
  rfl

theorem finalBody_injective (h : finalBody f = finalBody f') : f = f' := by
  obtain ⟨i, token⟩ := f
  obtain ⟨i', token'⟩ := f'
  obtain ⟨hi, htoken⟩ := cut_numbered (blank_not_mem_digits i) (blank_not_mem_digits i') h
  exact congrArg₂ Prod.mk (digits_injective hi) (String.toList_inj.mp htoken)

/-- The start is announced by a word, and arcs begin with a number. -/
theorem startBody_ne_arcBody (x : Nat × Symbol × Nat) : startBody ≠ arcBody x := by
  intro h
  have hstart : startBody =
      "  ".toList ++ "start".toList ++ ' ' :: "[shape=\"plaintext\"];".toList := by decide
  obtain ⟨hword, -⟩ := cut_number (by decide) (blank_not_mem_digits x.1) (hstart.symm.trans h)
  have hs : 's' ∈ digits x.1 := hword ▸ by decide
  exact not_mem_digits (by decide) _ hs

/-! ## The whole text -/

/-- Drawings with the same text are the same, where the labels tell their symbols apart. -/
theorem Within.text_injective {P : Symbol → Prop} (hP : Set.InjOn Symbol.label {x | P x})
    (hd : d.Within P) (he : e.Within P) (h : d.text = e.text) : d = e := by
  rw [text_eq, text_eq] at h
  have hlines : d.lines = e.lines :=
    unlines_injective hd.newline_not_mem he.newline_not_mem (List.append_cancel_left h)
  have hnot : ∀ arcs : List (Nat × Symbol × Nat), startBody ∉ arcs.map arcBody := fun arcs hm => by
    obtain ⟨x, -, hx⟩ := List.mem_map.mp hm
    exact startBody_ne_arcBody x hx.symm
  -- the start is announced once, so the lines before it are those of the arcs
  obtain ⟨harcs, hrest⟩ := append_cons_inj (hnot d.arcs) (hnot e.arcs) hlines
  obtain ⟨harrow, hfinals⟩ := List.cons.inj hrest
  have hstart : digits d.start = digits e.start :=
    List.append_cancel_left (List.append_cancel_right harrow)
  obtain ⟨arcs, start, finals⟩ := d
  obtain ⟨arcs', start', finals'⟩ := e
  obtain rfl : arcs = arcs' :=
    map_injOn (fun x y => arcBody_injective hP) hd.arcs he.arcs harcs
  obtain rfl : finals = finals' :=
    List.map_injective_iff.mpr (fun _ _ => finalBody_injective) (List.append_cancel_right hfinals)
  obtain rfl : start = start' := digits_injective hstart
  rfl

/-- Legible drawings with the same text are the same. -/
theorem Legible.text_injective (hd : d.Legible) (he : e.Legible) (h : d.text = e.text) : d = e :=
  hd.within.text_injective label_injOn_of_ne_epsilon he.within h

end Drawing

/-- What an automaton draws whose arcs read these symbols only, and whose tokens have no newlines. -/
theorem exists_within {k : Kind} {tags : Tags} {a : Automaton k} {P : Symbol → Prop}
    (h : a.WellFormed tags) (hP : ∀ e ∈ a.arcs, P e.symbol)
    (hn : ∀ s ∈ a.states, ∀ token, s.token = some token → '\n' ∉ token.toList) :
    ∃ drawing, a.drawing? = some drawing ∧ drawing.Within P := by
  refine ⟨_, drawing?_eq_some h, fun x hx => ?_, fun x hx => ?_⟩
  · obtain ⟨e, he, rfl⟩ := List.mem_map.mp (Ordered.mem_of_mem_ofList hx)
    exact hP e he
  · obtain ⟨s, hs, rfl⟩ := List.mem_map.mp (Ordered.mem_of_mem_ofList hx)
    obtain ⟨hs, ha⟩ := List.mem_filter.mp hs
    obtain ⟨token, htoken⟩ := State.accepting_iff_token.mp ha
    rw [finalOf, htoken]
    exact hn s hs token htoken

/-- Automata with one text have one drawing, where the labels tell their symbols apart. -/
theorem drawing?_eq_of_dot?_eq {k : Kind} {tags tags' : Tags} {a b : Automaton k} {P : Symbol → Prop}
    (ha : a.WellFormed tags) (hb : b.WellFormed tags') (hlabel : Set.InjOn Symbol.label {x | P x})
    (hP : ∀ e ∈ a.arcs, P e.symbol) (hP' : ∀ e ∈ b.arcs, P e.symbol)
    (hn : ∀ s ∈ a.states, ∀ token, s.token = some token → '\n' ∉ token.toList)
    (hn' : ∀ s ∈ b.states, ∀ token, s.token = some token → '\n' ∉ token.toList)
    (h : a.dot? = b.dot?) : a.drawing? = b.drawing? := by
  obtain ⟨drawing, hdrawing, hw⟩ := exists_within ha hP hn
  obtain ⟨drawing', hdrawing', hw'⟩ := exists_within hb hP' hn'
  rw [dot?, dot?, hdrawing, hdrawing'] at h
  have htext := String.ofList_injective (Option.some_inj.mp h)
  rw [hdrawing, hdrawing', hw.text_injective hlabel hw' htext]

end LexicalAutomata.Automaton
