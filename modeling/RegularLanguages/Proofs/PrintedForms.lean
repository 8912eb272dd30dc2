import RegularLanguages.Proofs.Printing
import RegularLanguages.Regex.Printer

/-!
# Written forms that are read back exactly

The stack of pieces and the recursion over the expression write the same. What is written is read
as the expression with a group for each union and each concatenation, exactly if the rules know the
literals, none of them has a token of its own, and the groups may be nested as they are.
-/

namespace RegularLanguages

namespace Piece

/-- The written form of a piece, followed by `rest`. -/
def spell : Piece → (rest : List Char) → List Char
  | node x, rest => x.spell rest
  | text characters, rest => characters ++ rest

/-- The pieces of an expression are its written form. -/
theorem spell_pieces (x : Regex) (rest : List Char) : x.pieces.foldr spell rest = x.spell rest := by
  cases x with
  | literal a =>
    simp only [Regex.pieces, List.foldr_cons, List.foldr_nil, spell, Regex.spell,
      Regex.spellLiteral]
    split <;> rfl
  | epsilon | empty | union | concat | star | plus | optional | group => rfl

/-- The pieces on a stack are written behind the output, from the top to the bottom. -/
theorem write_eq_append (output : String) (stack : List Piece) :
    write output stack = output ++ String.ofList (stack.foldr spell []) := by
  fun_induction write output stack with
  | case1 output => simp
  | case2 output characters stack ih =>
    rw [ih, List.foldr_cons, spell, String.ofList_append, String.append_assoc]
  | case3 output x stack ih => rw [ih, List.foldr_append, spell_pieces, List.foldr_cons, spell]

/-- The stack that holds an expression is the written form of this expression. -/
theorem write_node (x : Regex) : write "" [node x] = x.text := by
  rw [write_eq_append, String.empty_append]
  rfl

end Piece

namespace Regex

/-- Groups do not change the literals. -/
@[simp] theorem literals_grouped (x : Regex) : x.grouped.literals = x.literals := by
  induction x with
  | literal | epsilon | empty => rfl
  | union l r ihl ihr | concat l r ihl ihr => simp only [grouped, literals, ihl, ihr]
  | star x ih | plus x ih | optional x ih | group x ih => simp only [grouped, literals, ih]

end Regex

namespace Pattern

variable {rules : Rules} {x : Regex}

/-- An expression whose written form is read back has literals that are read as they are. -/
theorem plain_of_parse_text (hliterals : ∀ a ∈ x.literals, a ∈ rules.alphabet)
    (hnesting : x.nesting ≤ rules.maxDepth) (h : parse rules x.text = .ok x.grouped) : x.Plain := by
  have hgrouped : x.asRead.grouped = x.grouped :=
    Except.ok.inj ((parse_text hliterals hnesting).symm.trans h)
  have hsame : x.asRead.literals = x.literals := by
    rw [← Regex.literals_grouped, hgrouped, Regex.literals_grouped]
  intro a ha
  exact x.plain_asRead a (hsame ▸ ha)

/-- An expression is written with a stack of pieces, and its written form is read as the expression
with a group for each union and each concatenation, exactly if its literals belong to the alphabet,
none of them is one of the two characters that are read as something else, and the rules allow the
largest number of unions, concatenations and groups inside each other. -/
theorem parse_written_eq_grouped_iff (rules : Rules) (x : Regex) :
    Piece.write "" [.node x] = x.text ∧
      (parse rules x.text = .ok x.grouped ↔ (∀ a ∈ x.literals,
        a ∈ rules.alphabet ∧ a ≠ epsilonSymbol ∧ a ≠ emptyLanguageSymbol) ∧
          x.nesting ≤ rules.maxDepth) := by
  refine ⟨Piece.write_node x, ⟨fun h => ?_, fun h => ?_⟩⟩
  · have hliterals : ∀ a ∈ x.literals, a ∈ rules.alphabet := by
      intro a ha
      exact (mem_of_parse h (by rwa [Regex.literals_grouped])).1
    have hnesting : x.nesting ≤ rules.maxDepth := by
      by_contra hdeep
      obtain ⟨position, herror⟩ := exists_parse_text_eq_error hliterals (Nat.not_le.mp hdeep)
      simp [h] at herror
    have hplain := plain_of_parse_text hliterals hnesting h
    exact ⟨fun a ha => ⟨hliterals a ha, hplain a ha⟩, hnesting⟩
  · obtain ⟨hliterals, hnesting⟩ := h
    have hplain : x.Plain := fun a ha => (hliterals a ha).2
    rw [parse_text (fun a ha => (hliterals a ha).1) hnesting, hplain.asRead_eq]

/-- Concatenations are read from the left, and a group that is written stays one group. -/
example : parse ((Rules.ofAlphabet (.ofText "*ab")).withMaxDepth 2) "((a|b)*(\\*)?)" =
    .ok (.group (.concat (.star (.group (.union (.literal 'a') (.literal 'b'))))
      (.optional (.group (.literal '*'))))) := by
  decide +kernel

end Pattern

end RegularLanguages
