import RegularLanguages.Pattern.Parser
import RegularLanguages.Proofs.FiniteSets

/-!
# The grammar of patterns

An expression is `term ('|' term)*`, a term is `factor+`, a factor is an atom with any number of
postfix operators behind it, and an atom is a leaf or an expression in parentheses. Every
derivation comes with its tree: terms and factors are joined from the left, and an operator applies
to all that stands before it in its factor. The depth counts the parentheses that may still be
opened inside each other.
-/

namespace RegularLanguages.Pattern

/-- An operator that is written behind its operand. -/
inductive Repetition where
  | star
  | plus
  | optional
deriving DecidableEq, Repr

namespace Repetition

/-- The token of the operator. -/
def kind : Repetition → TokenKind
  | star => .star
  | plus => .plus
  | optional => .optional

/-- The node of the operator over its operand. -/
def apply : Repetition → Regex → Regex
  | star => .star
  | plus => .plus
  | optional => .optional

end Repetition

/-- The symbols that a class stands for, in ascending order. -/
structure ClassMembers (rules : Rules) (name : Char) (symbols : List Symbol) : Prop where
  ascending : symbols.Pairwise (· < ·)
  mem_iff : ∀ a, a ∈ symbols ↔
    a ∈ rules.alphabet ∧ ∃ members, rules.classes[name]? = some members ∧ a ∈ members

mutual

/-- The tokens of an expression with its tree. -/
inductive Expr (rules : Rules) : (depth : Nat) → List TokenKind → Regex → Prop where
  | terms {d : Nat} {u v : List TokenKind} {x : Regex} {ys : List Regex} :
      Term rules d u x → Alternatives rules d v ys → Expr rules d (u ++ v) (ys.foldl .union x)

/-- The tokens of further terms, each behind a union sign, with their trees. -/
inductive Alternatives (rules : Rules) :
    (depth : Nat) → List TokenKind → List Regex → Prop where
  | nil {d : Nat} : Alternatives rules d [] []
  | cons {d : Nat} {u v : List TokenKind} {y : Regex} {ys : List Regex} :
      Term rules d u y → Alternatives rules d v ys →
        Alternatives rules d (.union :: (u ++ v)) (y :: ys)

/-- The tokens of a term with its tree. -/
inductive Term (rules : Rules) : (depth : Nat) → List TokenKind → Regex → Prop where
  | factors {d : Nat} {u v : List TokenKind} {x : Regex} {ys : List Regex} :
      Factor rules d u x → Factors rules d v ys → Term rules d (u ++ v) (ys.foldl .concat x)

/-- The tokens of further factors with their trees. -/
inductive Factors (rules : Rules) : (depth : Nat) → List TokenKind → List Regex → Prop where
  | nil {d : Nat} : Factors rules d [] []
  | cons {d : Nat} {u v : List TokenKind} {y : Regex} {ys : List Regex} :
      Factor rules d u y → Factors rules d v ys → Factors rules d (u ++ v) (y :: ys)

/-- The tokens of a factor with its tree. -/
inductive Factor (rules : Rules) : (depth : Nat) → List TokenKind → Regex → Prop where
  | operators {d : Nat} {u : List TokenKind} {x : Regex} (operators : List Repetition) :
      Atom rules d u x →
        Factor rules d (u ++ operators.map Repetition.kind)
          (operators.foldl (fun x operator => operator.apply x) x)

/-- The tokens of an atom with its tree. -/
inductive Atom (rules : Rules) : (depth : Nat) → List TokenKind → Regex → Prop where
  | literal {d : Nat} (a : Symbol) : Atom rules d [.literal a] (.literal a)
  | symbolClass {d : Nat} {name : Char} {symbols : List Symbol} :
      ClassMembers rules name symbols → Atom rules d [.symbolClass name] (.ofSymbols symbols)
  | epsilon {d : Nat} : Atom rules d [.epsilon] .epsilon
  | empty {d : Nat} : Atom rules d [.empty] .empty
  | group {d : Nat} {u : List TokenKind} {x : Regex} :
      Expr rules d u x → Atom rules (d + 1) (.opening :: (u ++ [.closing])) (.group x)

end

variable {rules : Rules} {d : Nat} {u v : List TokenKind} {x y : Regex} {xs ys : List Regex}

/-- Further terms may be followed by further terms. -/
theorem Alternatives.append (hu : Alternatives rules d u xs) (hv : Alternatives rules d v ys) :
    Alternatives rules d (u ++ v) (xs ++ ys) := by
  induction xs generalizing u with
  | nil =>
    cases hu
    exact hv
  | cons x xs ih =>
    cases hu with
    | cons hterm hrest =>
      rw [List.cons_append, List.append_assoc]
      exact .cons hterm (ih hrest)

/-- Further factors may be followed by further factors. -/
theorem Factors.append (hu : Factors rules d u xs) (hv : Factors rules d v ys) :
    Factors rules d (u ++ v) (xs ++ ys) := by
  induction xs generalizing u with
  | nil =>
    cases hu
    exact hv
  | cons x xs ih =>
    cases hu with
    | cons hfactor hrest =>
      rw [List.append_assoc]
      exact .cons hfactor (ih hrest)

/-- A term alone is an expression. -/
theorem Expr.ofTerm (h : Term rules d u x) : Expr rules d u x := by
  simpa using Expr.terms h .nil

/-- A factor alone is a term. -/
theorem Term.ofFactor (h : Factor rules d u x) : Term rules d u x := by
  simpa using Term.factors h .nil

/-- An atom alone is a factor. -/
theorem Factor.ofAtom (h : Atom rules d u x) : Factor rules d u x := by
  simpa using Factor.operators [] h

/-- An expression goes on with another term, which is joined to the tree before it. -/
theorem Expr.snoc (hu : Expr rules d u x) (hv : Term rules d v y) :
    Expr rules d (u ++ .union :: v) (.union x y) := by
  cases hu with
  | @terms _ u₁ u₂ x ys hterm hrest =>
    have hlast : Alternatives rules d (.union :: v) [y] := by
      simpa using Alternatives.cons hv .nil
    simpa using Expr.terms hterm (hrest.append hlast)

/-- A term goes on with another factor, which is joined to the tree before it. -/
theorem Term.snoc (hu : Term rules d u x) (hv : Factor rules d v y) :
    Term rules d (u ++ v) (.concat x y) := by
  cases hu with
  | @factors _ u₁ u₂ x ys hfactor hrest =>
    have hlast : Factors rules d v [y] := by
      simpa using Factors.cons hv .nil
    simpa using Term.factors hfactor (hrest.append hlast)

/-- A factor goes on with another operator, which applies to the tree before it. -/
theorem Factor.snoc (hu : Factor rules d u x) (operator : Repetition) :
    Factor rules d (u ++ [operator.kind]) (operator.apply x) := by
  cases hu with
  | operators operators hatom =>
    simpa using Factor.operators (operators ++ [operator]) hatom

/-- The symbols of a class are those that its members in the alphabet are listed as. -/
theorem classMembers_iff {name : Char} {symbols : List Symbol} :
    ClassMembers rules name symbols ↔ symbols = ((rules.members? name).getD ∅).toList := by
  have hmem (a : Symbol) : a ∈ (rules.members? name).getD ∅ ↔
      a ∈ rules.alphabet ∧ ∃ members, rules.classes[name]? = some members ∧ a ∈ members := by
    cases hclass : rules.classes[name]? with
    | none => simp [Rules.members?, hclass]
    | some members =>
      simp only [Rules.members?, hclass, Option.map_some, Option.getD_some, FiniteSet.mem_filter,
        Std.ExtTreeSet.contains_iff_mem, Option.some.injEq, exists_eq_left']
      exact and_comm
  constructor
  · intro h
    obtain ⟨hascending, hsymbols⟩ := h
    apply FiniteSet.eq_toList_of_ordered
    · exact hascending.imp fun h => compareOfLessAndEq_eq_lt.mpr h
    · intro a
      rw [hsymbols, hmem]
  · intro h
    subst h
    refine ⟨?_, fun a => by rw [Std.ExtTreeSet.mem_toList, hmem]⟩
    have hascending := ((rules.members? name).getD ∅).ordered_toList
    exact hascending.imp fun h => compareOfLessAndEq_eq_lt.mp h

end RegularLanguages.Pattern
