/-
# `LexicalAutomata.Proofs.Node` — which trees stand for expressions, and the fault that is reported

A node that does not meet the demand of its kind is `Faulty`, with one error, whatever its children are;
a node that meets it passes on what its children give.  So the fault that is reported is the first one in
pre-order (`toExpr_of_firstFault`), and a tree without a faulty node stands for an expression
(`exists_toExpr`).

Each expression is written as a tree in one way (`ofExpr`).  Reading a tree gives back what it is the
writing of, and every expression can be read back except those with an alternation that has no
alternatives (`toExpr_eq_ok_iff`).
-/
import LexicalAutomata.Node
import LexicalAutomata.Proofs.Expr.Language
import LexicalAutomata.Proofs.Stage

namespace LexicalAutomata.Node

open LexicalAutomata.Expr

variable {n m : Node} {ns : List Node} {e : Expr} {es : List Expr} {error error' : Error}

/-! ## Faults of one node -/

/-- The names of the kinds. -/
def kindNames : List String :=
  ["literal", "sequence", "alternation", "optional", "zero_or_more", "one_or_more"]

/-- `Faulty n error`: the root of `n` is at fault, whatever its children are, and this is the error that
tells so.  Of two faults of one node the number of children comes first. -/
inductive Faulty : Node → Error → Prop
  | unknown {kind : String} (text : Option String) (children : List Node) : kind ∉ kindNames →
      Faulty (mk kind text children) (.unknownNode kind)
  | literalWithChildren (text : Option String) {children : List Node} : children ≠ [] →
      Faulty (mk "literal" text children) (.malformedNode "literal" .literalWithChildren)
  | missingText : Faulty (mk "literal" none []) (.malformedNode "literal" .missingText)
  | sequenceWithText (text : String) (children : List Node) :
      Faulty (mk "sequence" (some text) children) (.malformedNode "sequence" .unexpectedText)
  | noAlternative (text : Option String) :
      Faulty (mk "alternation" text []) (.malformedNode "alternation" .noAlternative)
  | alternationWithText (text : String) {children : List Node} : children ≠ [] →
      Faulty (mk "alternation" (some text) children) (.malformedNode "alternation" .unexpectedText)
  | childCount (operator : Unary) (text : Option String) {children : List Node} :
      children.length ≠ 1 → Faulty (mk (Kind.unary operator).name text children)
        (.malformedNode (Kind.unary operator).name (.childCount children.length))
  | operatorWithText (operator : Unary) (text : String) (child : Node) :
      Faulty (mk (Kind.unary operator).name (some text) [child])
        (.malformedNode (Kind.unary operator).name .unexpectedText)

theorem Kind.ofName?_eq_none {name : String} (h : name ∉ kindNames) : Kind.ofName? name = none := by
  refine List.find?_eq_none.mpr fun k _ hk => h ?_
  rw [← beq_iff_eq.mp hk]
  rcases k with _ | _ | _ | (_ | _ | _) <;> decide

theorem Kind.name_mem_kindNames (k : Kind) : k.name ∈ kindNames := by
  rcases k with _ | _ | _ | (_ | _ | _) <;> decide

/-- A name is that of a kind, or of none. -/
theorem kind_cases (name : String) : name ∉ kindNames ∨ ∃ k : Kind, name = k.name := by
  cases h : Kind.ofName? name with
  | none =>
      refine .inl fun hmem => ?_
      simp only [kindNames, List.mem_cons, List.not_mem_nil, or_false] at hmem
      rcases hmem with rfl | rfl | rfl | rfl | rfl | rfl <;> cases h
  | some k => exact .inr ⟨k, (Kind.name_eq_of_ofName? h).symm⟩

/-- The error of a faulty node names its kind, and tells whether that is known. -/
theorem Faulty.error_eq (h : Faulty n error) :
    n.kind ∉ kindNames ∧ error = .unknownNode n.kind ∨
      n.kind ∈ kindNames ∧ ∃ fault, error = .malformedNode n.kind fault := by
  cases h with
  | unknown text children hkind => exact .inl ⟨hkind, rfl⟩
  | literalWithChildren | missingText => exact .inr ⟨Kind.name_mem_kindNames .literal, _, rfl⟩
  | sequenceWithText => exact .inr ⟨Kind.name_mem_kindNames .sequence, _, rfl⟩
  | noAlternative | alternationWithText => exact .inr ⟨Kind.name_mem_kindNames .alternation, _, rfl⟩
  | childCount operator | operatorWithText operator =>
      exact .inr ⟨Kind.name_mem_kindNames (.unary operator), _, rfl⟩

/-- An operator on one expression is well-formed with one child and no text. -/
theorem locallyWellFormed_unary (operator : Unary) (child : Node) :
    LocallyWellFormed (mk (Kind.unary operator).name none [child]) := by
  cases operator with
  | optional => exact .optional child
  | zeroOrMore => exact .zeroOrMore child
  | oneOrMore => exact .oneOrMore child

/-- A node meets the demand of its kind, or is at fault. -/
theorem locallyWellFormed_or_faulty (n : Node) : n.LocallyWellFormed ∨ ∃ error, Faulty n error := by
  obtain ⟨name, text, children⟩ := n
  rcases kind_cases name with hname | ⟨k, rfl⟩
  · exact .inr ⟨_, .unknown text children hname⟩
  cases k with
  | literal =>
      cases children with
      | nil =>
          cases text with
          | none => exact .inr ⟨_, .missingText⟩
          | some text => exact .inl (.literal text)
      | cons child children => exact .inr ⟨_, .literalWithChildren text (List.cons_ne_nil _ _)⟩
  | sequence =>
      cases text with
      | none => exact .inl (.sequence children)
      | some text => exact .inr ⟨_, .sequenceWithText text children⟩
  | alternation =>
      cases children with
      | nil => exact .inr ⟨_, .noAlternative text⟩
      | cons child children =>
          cases text with
          | none => exact .inl (.alternation (List.cons_ne_nil _ _))
          | some text => exact .inr ⟨_, .alternationWithText text (List.cons_ne_nil _ _)⟩
  | unary operator =>
      by_cases hlength : children.length = 1
      · obtain ⟨child, rfl⟩ := List.length_eq_one_iff.mp hlength
        cases text with
        | none => exact .inl (locallyWellFormed_unary operator child)
        | some text => exact .inr ⟨_, .operatorWithText operator text child⟩
      · exact .inr ⟨_, .childCount operator text hlength⟩

/-! ## One node -/

theorem toExpr_of_unknown {name : String} (text : Option String) (children : List Node)
    (h : name ∉ kindNames) : toExpr (mk name text children) = .error (.unknownNode name) := by
  rw [toExpr.eq_def]
  simp only [Kind.ofName?_eq_none h]

theorem toExpr_unary (operator : Unary) (child : Node) :
    toExpr (mk (Kind.unary operator).name none [child]) = (toExpr child).map operator.apply := by
  cases operator <;> rfl

/-- A faulty node is reported, whatever its children are. -/
theorem Faulty.toExpr_eq (h : Faulty n error) : n.toExpr = .error error := by
  cases h with
  | unknown text children hname => exact toExpr_of_unknown text children hname
  | literalWithChildren text hne =>
      obtain ⟨child, children, rfl⟩ := List.exists_cons_of_ne_nil hne
      rfl
  | missingText => rfl
  | sequenceWithText => rfl
  | noAlternative => rfl
  | alternationWithText text hne =>
      obtain ⟨child, children, rfl⟩ := List.exists_cons_of_ne_nil hne
      rfl
  | @childCount operator text children hlength =>
      match children, hlength with
      | [], _ => cases operator <;> rfl
      | _ :: _ :: _, _ => cases operator <;> rfl
  | operatorWithText operator => cases operator <;> rfl

theorem toExprs_singleton (child : Node) : toExprs [child] = (toExpr child).map fun e => [e] := by
  rw [toExprs, toExprs]
  cases toExpr child <;> rfl

/-- A node that meets the demand of its kind passes on what its children give. -/
theorem LocallyWellFormed.toExpr_eq (h : n.LocallyWellFormed) :
    ∃ build : List Expr → Expr, n.toExpr = (toExprs n.children).map build := by
  have hunary : ∀ (operator : Unary) (child : Node), ∃ build : List Expr → Expr,
      toExpr (mk (Kind.unary operator).name none [child]) = (toExprs [child]).map build := by
    intro operator child
    refine ⟨fun es => operator.apply (es.headD (.sequence [])), ?_⟩
    rw [toExpr_unary, toExprs_singleton]
    cases toExpr child <;> rfl
  cases h with
  | literal text => exact ⟨fun _ => .literal text, rfl⟩
  | sequence children => exact ⟨.sequence, rfl⟩
  | alternation hne =>
      obtain ⟨child, children, rfl⟩ := List.exists_cons_of_ne_nil hne
      exact ⟨.alternation, rfl⟩
  | optional child => exact hunary .optional child
  | zeroOrMore child => exact hunary .zeroOrMore child
  | oneOrMore child => exact hunary .oneOrMore child

/-- What a kind demands of the text and the children. -/
def Kind.Demand : Kind → Option String → List Node → Prop
  | .literal, text, children => text ≠ none ∧ children = []
  | .sequence, text, _ => text = none
  | .alternation, text, children => text = none ∧ children ≠ []
  | .unary _, text, children => text = none ∧ children.length = 1

theorem LocallyWellFormed.demand {k : Kind} {text : Option String} {children : List Node}
    (h : LocallyWellFormed (mk k.name text children)) : k.Demand text children := by
  generalize hn : mk k.name text children = n at h
  have hkind : ∀ k' : Kind, k.name = k'.name → k = k' := fun k' hname => by
    have := Kind.ofName?_name k
    rw [hname, Kind.ofName?_name] at this
    exact (Option.some.inj this).symm
  cases h <;> obtain ⟨hname, rfl, rfl⟩ := Node.mk.inj hn
  case literal =>
      cases hkind .literal hname
      exact ⟨nofun, rfl⟩
  case sequence =>
      cases hkind .sequence hname
      rfl
  case alternation hne =>
      cases hkind .alternation hname
      exact ⟨rfl, hne⟩
  case optional =>
      cases hkind (.unary .optional) hname
      exact ⟨rfl, rfl⟩
  case zeroOrMore =>
      cases hkind (.unary .zeroOrMore) hname
      exact ⟨rfl, rfl⟩
  case oneOrMore =>
      cases hkind (.unary .oneOrMore) hname
      exact ⟨rfl, rfl⟩

theorem LocallyWellFormed.kind_mem (h : n.LocallyWellFormed) : n.kind ∈ kindNames := by
  cases h <;> simp [kind, kindNames]

theorem not_locallyWellFormed_of_faulty (h : Faulty n error) : ¬ n.LocallyWellFormed := by
  intro hwell
  cases h with
  | unknown text children hname => exact hname hwell.kind_mem
  | literalWithChildren text hne => exact hne (hwell.demand (k := .literal)).2
  | missingText => exact (hwell.demand (k := .literal)).1 rfl
  | sequenceWithText => cases hwell.demand (k := .sequence)
  | noAlternative => exact (hwell.demand (k := .alternation)).2 rfl
  | alternationWithText => cases (hwell.demand (k := .alternation)).1
  | childCount operator text hlength => exact hlength hwell.demand.2
  | operatorWithText operator => cases hwell.demand.1

/-! ## The first fault -/

/-- The first node among these that is at fault has this error. -/
def FirstFault (nodes : List Node) (error : Error) : Prop :=
  ∃ before m after, nodes = before ++ m :: after ∧ (∀ x ∈ before, x.LocallyWellFormed) ∧
    Faulty m error

theorem FirstFault.of_cons (h : FirstFault (n :: ns) error) :
    Faulty n error ∨ n.LocallyWellFormed ∧ FirstFault ns error := by
  obtain ⟨before, m, after, hsplit, hwell, hfault⟩ := h
  cases before with
  | nil =>
      cases hsplit
      exact .inl hfault
  | cons x before =>
      cases hsplit
      obtain ⟨hx, hwell⟩ := List.forall_mem_cons.mp hwell
      exact .inr ⟨hx, before, m, after, rfl, hwell, hfault⟩

theorem FirstFault.of_append {ns' : List Node} (h : FirstFault (ns ++ ns') error) :
    FirstFault ns error ∨ (∀ x ∈ ns, x.LocallyWellFormed) ∧ FirstFault ns' error := by
  induction ns with
  | nil => exact .inr ⟨nofun, h⟩
  | cons n ns ih =>
      rcases h.of_cons with hfault | ⟨hn, h⟩
      · exact .inl ⟨[], n, ns, rfl, nofun, hfault⟩
      · rcases ih h with ⟨before, m, after, rfl, hwell, hfault⟩ | ⟨hns, h⟩
        · exact .inl ⟨n :: before, m, after, rfl, List.forall_mem_cons.mpr ⟨hn, hwell⟩, hfault⟩
        · exact .inr ⟨List.forall_mem_cons.mpr ⟨hn, hns⟩, h⟩

/-- All of the nodes meet the demands of their kinds, or there is a first fault. -/
theorem forall_locallyWellFormed_or_firstFault (nodes : List Node) :
    (∀ x ∈ nodes, x.LocallyWellFormed) ∨ ∃ error, FirstFault nodes error := by
  induction nodes with
  | nil => exact .inl nofun
  | cons n ns ih =>
      rcases n.locallyWellFormed_or_faulty with hn | ⟨error, hfault⟩
      · rcases ih with hns | ⟨error, before, m, after, rfl, hwell, hfault⟩
        · exact .inl (List.forall_mem_cons.mpr ⟨hn, hns⟩)
        · exact .inr ⟨error, n :: before, m, after, rfl, List.forall_mem_cons.mpr ⟨hn, hwell⟩, hfault⟩
      · exact .inr ⟨error, [], n, ns, rfl, nofun, hfault⟩

mutual

/-- A tree without a fault stands for an expression. -/
theorem exists_toExpr : ∀ n : Node, (∀ x ∈ n.preorder, x.LocallyWellFormed) → ∃ e, n.toExpr = .ok e
  | mk name text children, h => by
      rw [preorder, List.forall_mem_cons] at h
      obtain ⟨build, hbuild⟩ := h.1.toExpr_eq
      obtain ⟨es, hes⟩ := exists_toExprs children h.2
      exact ⟨build es, by rw [hbuild, Node.children, hes]; rfl⟩

theorem exists_toExprs : ∀ ns : List Node, (∀ x ∈ preorderAll ns, x.LocallyWellFormed) →
    ∃ es, toExprs ns = .ok es
  | [], _ => ⟨[], rfl⟩
  | n :: ns, h => by
      rw [preorderAll, List.forall_mem_append] at h
      obtain ⟨e, he⟩ := exists_toExpr n h.1
      obtain ⟨es, hes⟩ := exists_toExprs ns h.2
      exact ⟨e :: es, by rw [toExprs, he, hes]; rfl⟩

end

mutual

/-- The first fault in pre-order is reported. -/
theorem toExpr_of_firstFault : ∀ n : Node, FirstFault n.preorder error → n.toExpr = .error error
  | mk name text children, h => by
      rw [preorder] at h
      rcases h.of_cons with hfault | ⟨hn, h⟩
      · exact hfault.toExpr_eq
      · obtain ⟨build, hbuild⟩ := hn.toExpr_eq
        rw [hbuild, Node.children, toExprs_of_firstFault children h]
        rfl

theorem toExprs_of_firstFault : ∀ ns : List Node, FirstFault (preorderAll ns) error →
    toExprs ns = .error error
  | [], h => by
      obtain ⟨before, m, after, hsplit, -⟩ := h
      cases before <;> cases hsplit
  | n :: ns, h => by
      rw [preorderAll] at h
      rcases h.of_append with h | ⟨hn, h⟩
      · rw [toExprs, toExpr_of_firstFault n h]
        rfl
      · obtain ⟨e, he⟩ := exists_toExpr n hn
        rw [toExprs, he, toExprs_of_firstFault ns h]
        rfl

end

theorem exists_toExpr_iff : (∃ e, n.toExpr = .ok e) ↔ ∀ x ∈ n.preorder, x.LocallyWellFormed := by
  refine ⟨fun ⟨e, he⟩ => ?_, exists_toExpr n⟩
  rcases forall_locallyWellFormed_or_firstFault n.preorder with hwell | ⟨error, hfault⟩
  · exact hwell
  · rw [toExpr_of_firstFault n hfault] at he
    cases he

theorem toExpr_eq_error_iff : n.toExpr = .error error ↔ FirstFault n.preorder error := by
  refine ⟨fun h => ?_, toExpr_of_firstFault n⟩
  rcases forall_locallyWellFormed_or_firstFault n.preorder with hwell | ⟨error', hfault⟩
  · obtain ⟨e, he⟩ := exists_toExpr n hwell
    rw [he] at h
    cases h
  · rw [toExpr_of_firstFault n hfault] at h
    cases h
    exact hfault

/-! ## Expressions as trees -/

mutual

/-- An expression as a tree. -/
def ofExpr : Expr → Node
  | .literal text => mk "literal" (some text) []
  | .sequence items => mk "sequence" none (ofExprs items)
  | .alternation choices => mk "alternation" none (ofExprs choices)
  | .optional body => mk "optional" none [ofExpr body]
  | .zeroOrMore body => mk "zero_or_more" none [ofExpr body]
  | .oneOrMore body => mk "one_or_more" none [ofExpr body]

/-- Expressions as trees. -/
def ofExprs : List Expr → List Node
  | [] => []
  | e :: es => ofExpr e :: ofExprs es

end

theorem ofExpr_apply (operator : Unary) (body : Expr) :
    ofExpr (operator.apply body) = mk (Kind.unary operator).name none [ofExpr body] := by
  cases operator <;> rw [Unary.apply, ofExpr] <;> rfl

theorem productive_apply (operator : Unary) {body : Expr} :
    (operator.apply body).Productive ↔ body.Productive := by
  cases operator with
  | optional => exact productive_optional
  | zeroOrMore => exact productive_zeroOrMore
  | oneOrMore => exact productive_oneOrMore

mutual

/-- A written expression can be read back, unless an alternation has no alternatives. -/
theorem toExpr_ofExpr : ∀ e : Expr, e.Productive → (ofExpr e).toExpr = .ok e
  | .literal text, _ => by
      rw [ofExpr]
      rfl
  | .sequence items, h => by
      rw [ofExpr]
      show (toExprs (ofExprs items)).map _ = _
      rw [toExprs_ofExprs items (productive_sequence.mp h)]
      rfl
  | .alternation choices, h => by
      obtain ⟨hne, hchoices⟩ := productive_alternation.mp h
      obtain ⟨e, es, rfl⟩ := List.exists_cons_of_ne_nil hne
      rw [ofExpr, ofExprs]
      show (toExprs (ofExpr e :: ofExprs es)).map _ = _
      rw [← ofExprs, toExprs_ofExprs (e :: es) hchoices]
      rfl
  | .optional body, h => by
      rw [ofExpr]
      show (toExpr (ofExpr body)).map _ = _
      rw [toExpr_ofExpr body (productive_optional.mp h)]
      rfl
  | .zeroOrMore body, h => by
      rw [ofExpr]
      show (toExpr (ofExpr body)).map _ = _
      rw [toExpr_ofExpr body (productive_zeroOrMore.mp h)]
      rfl
  | .oneOrMore body, h => by
      rw [ofExpr]
      show (toExpr (ofExpr body)).map _ = _
      rw [toExpr_ofExpr body (productive_oneOrMore.mp h)]
      rfl

theorem toExprs_ofExprs : ∀ es : List Expr, (∀ e ∈ es, e.Productive) → toExprs (ofExprs es) = .ok es
  | [], _ => by
      rw [ofExprs]
      rfl
  | e :: es, h => by
      obtain ⟨he, hes⟩ := List.forall_mem_cons.mp h
      rw [ofExprs, toExprs, toExpr_ofExpr e he, toExprs_ofExprs es hes]
      rfl

end

/-- The root of a tree that stands for an expression meets the demand of its kind. -/
theorem locallyWellFormed_of_toExpr (h : n.toExpr = .ok e) : n.LocallyWellFormed := by
  rcases n.locallyWellFormed_or_faulty with hn | ⟨error, hfault⟩
  · exact hn
  · rw [hfault.toExpr_eq] at h
    cases h

mutual

/-- Whatever is read is written as the tree it was read from. -/
theorem eq_ofExpr : ∀ (n : Node) {e : Expr}, n.toExpr = .ok e → e.Productive ∧ n = ofExpr e
  | mk name text children, e, h => by
      have hunary : ∀ (operator : Unary) (child : Node), children = [child] →
          (toExpr child).map operator.apply = .ok e →
          e.Productive ∧ mk (Kind.unary operator).name none [child] = ofExpr e := by
        rintro operator child rfl hmap
        obtain ⟨body, hbody, rfl⟩ := exists_of_map hmap
        obtain ⟨hproductive, rfl⟩ := eq_ofExpr child hbody
        exact ⟨(productive_apply operator).mpr hproductive, (ofExpr_apply operator body).symm⟩
      have hlist : ∀ build : List Expr → Expr, (toExprs children).map build = .ok e →
          ∃ es, (∀ x ∈ es, x.Productive) ∧ children = ofExprs es ∧ build es = e := by
        intro build hmap
        obtain ⟨es, hes, hbuild⟩ := exists_of_map hmap
        obtain ⟨hproductive, hchildren⟩ := eq_ofExprs children hes
        exact ⟨es, hproductive, hchildren, hbuild⟩
      cases locallyWellFormed_of_toExpr h with
      | literal text =>
          cases h
          exact ⟨productive_literal text, by rw [ofExpr]⟩
      | sequence =>
          obtain ⟨es, hproductive, rfl, rfl⟩ := hlist .sequence h
          exact ⟨productive_sequence.mpr hproductive, by rw [ofExpr]⟩
      | alternation hne =>
          obtain ⟨child, rest, rfl⟩ := List.exists_cons_of_ne_nil hne
          obtain ⟨es, hproductive, hchildren, rfl⟩ := hlist .alternation h
          refine ⟨productive_alternation.mpr ⟨?_, hproductive⟩, by rw [ofExpr, hchildren]⟩
          rintro rfl
          rw [ofExprs] at hchildren
          cases hchildren
      | optional child => exact hunary .optional child rfl h
      | zeroOrMore child => exact hunary .zeroOrMore child rfl h
      | oneOrMore child => exact hunary .oneOrMore child rfl h

theorem eq_ofExprs : ∀ (ns : List Node) {es : List Expr}, toExprs ns = .ok es →
    (∀ e ∈ es, e.Productive) ∧ ns = ofExprs es
  | [], es, h => by
      cases h
      exact ⟨nofun, by rw [ofExprs]⟩
  | n :: ns, es, h => by
      rw [toExprs] at h
      obtain ⟨e, he, h⟩ := exists_of_bind h
      obtain ⟨es', hes, h⟩ := exists_of_bind h
      cases h
      obtain ⟨hproductive, rfl⟩ := eq_ofExpr n he
      obtain ⟨hall, rfl⟩ := eq_ofExprs ns hes
      exact ⟨List.forall_mem_cons.mpr ⟨hproductive, hall⟩, by rw [ofExprs]⟩

end

theorem toExpr_eq_ok_iff : n.toExpr = .ok e ↔ e.Productive ∧ n = ofExpr e := by
  refine ⟨eq_ofExpr n, ?_⟩
  rintro ⟨hproductive, rfl⟩
  exact toExpr_ofExpr e hproductive

/-- Exactly the trees whose nodes all meet the demands of their kinds stand for expressions.  Of any
other tree the first node in pre-order that does not meet its demand is reported, as one of an unknown
kind or as malformed.  Every expression in which no alternation lacks alternatives has exactly one tree,
and no other expression has any. -/
theorem toExpr_exact :
    (∀ n : Node, (∃ e, n.toExpr = .ok e) ↔ ∀ x ∈ n.preorder, x.LocallyWellFormed) ∧
      (∀ (n : Node) (error : Error), n.toExpr = .error error ↔
        ∃ before m after, n.preorder = before ++ m :: after ∧
          (∀ x ∈ before, x.LocallyWellFormed) ∧ ¬ m.LocallyWellFormed ∧ Faulty m error ∧
          (m.kind ∉ kindNames ∧ error = .unknownNode m.kind ∨
            m.kind ∈ kindNames ∧ ∃ fault, error = .malformedNode m.kind fault)) ∧
      (∀ e : Expr, (∃! n : Node, n.toExpr = .ok e) ↔ ¬ Part (.alternation []) e) ∧
      ∀ e : Expr, (∃ n : Node, n.toExpr = .ok e) ↔ ¬ Part (.alternation []) e := by
  refine ⟨fun n => exists_toExpr_iff, fun n error => ?_, fun e => ⟨?_, fun he => ?_⟩,
    fun e => ⟨?_, fun he => ?_⟩⟩
  · rw [toExpr_eq_error_iff]
    constructor
    · rintro ⟨before, m, after, hsplit, hbefore, hfault⟩
      exact ⟨before, m, after, hsplit, hbefore, not_locallyWellFormed_of_faulty hfault, hfault,
        hfault.error_eq⟩
    · rintro ⟨before, m, after, hsplit, hbefore, -, hfault, -⟩
      exact ⟨before, m, after, hsplit, hbefore, hfault⟩
  · rintro ⟨n, hn, -⟩
    exact (toExpr_eq_ok_iff.mp hn).1
  · exact ⟨ofExpr e, toExpr_ofExpr e he, fun n hn => (toExpr_eq_ok_iff.mp hn).2⟩
  · rintro ⟨n, hn⟩
    exact (toExpr_eq_ok_iff.mp hn).1
  · exact ⟨ofExpr e, toExpr_ofExpr e he⟩

-- The fault below the first child comes before that of the second child.
example : toExpr (mk "sequence" none
    [mk "optional" none [mk "literal" none []], mk "choice" (some "x") []]) =
      .error (.malformedNode "literal" .missingText) := rfl

end LexicalAutomata.Node
