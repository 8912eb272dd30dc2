import RegularLanguages.Proofs.Expressions
import RegularLanguages.Proofs.Parsing
import RegularLanguages.Proofs.Spelling

/-!
# Where literals come from

The rules allow every token that is read. The literals of an expression are those of its tokens and
the members of the classes among them, so they all belong to the alphabet, and the two characters
that have a token of their own are literals only as members of classes. Every pattern that can be
read can therefore be compiled.
-/

namespace RegularLanguages

namespace Regex

/-- Operands that are joined from the left have their literals in the same order. -/
theorem literals_foldl {join : Regex → Regex → Regex}
    (hjoin : ∀ x y, (join x y).literals = x.literals ++ y.literals) (x : Regex) (ys : List Regex) :
    (ys.foldl join x).literals = x.literals ++ ys.flatMap literals := by
  induction ys generalizing x with
  | nil => simp
  | cons y ys ih => rw [List.foldl_cons, ih, hjoin, List.flatMap_cons, List.append_assoc]

/-- The literals of a union of symbols are these symbols. -/
theorem literals_ofSymbols (symbols : List Symbol) : (ofSymbols symbols).literals = symbols := by
  cases symbols with
  | nil => rfl
  | cons a symbols =>
    have hfold : ofSymbols (a :: symbols) = (symbols.map literal).foldl union (literal a) :=
      List.foldl_map.symm
    rw [hfold, literals_foldl fun _ _ => rfl, List.flatMap_map]
    exact congrArg (a :: ·) (List.flatMap_singleton' symbols)

end Regex

namespace Pattern

variable {rules : Rules} {d : Nat} {u v : List TokenKind} {x : Regex} {ys : List Regex}

/-! ## Tokens -/

/-- The rules allow the token of a character. -/
theorem allowed_of_plainKind {c : Char} {kind : TokenKind} (h : plainKind rules c = .ok kind) :
    kind.Allowed rules := by
  unfold plainKind at h
  split_ifs at h <;> obtain rfl := Except.ok.inj h <;> simp_all [TokenKind.Allowed]

/-- The rules allow the token of a character behind a backslash. -/
theorem allowed_of_escapedKind {c : Char} {kind : TokenKind} (h : escapedKind rules c = .ok kind) :
    kind.Allowed rules := by
  unfold escapedKind at h
  split_ifs at h with hmeta halphabet hclass
  · obtain rfl := Except.ok.inj h
    refine ⟨by simpa using halphabet, ?_, ?_⟩ <;> rintro rfl <;> revert hmeta <;> decide
  · obtain rfl := Except.ok.inj h
    exact ⟨hmeta, by simpa using hclass⟩

/-- The rules allow every token in front of the first error. -/
theorem Lexed.allowed_of_mem_ofChars (position : Nat) (chars : List Char) :
    ∀ token ∈ (ofChars rules position chars).tokens, token.kind.Allowed rules := by
  have hcons {position : Nat} {kind : Except LexicalFault TokenKind} {rest : Lexed}
      (hkind : ∀ k, kind = .ok k → k.Allowed rules)
      (hrest : ∀ token ∈ rest.tokens, token.kind.Allowed rules) :
      ∀ token ∈ (cons position kind rest).tokens, token.kind.Allowed rules := by
    cases kind with
    | error => simp [cons]
    | ok k => simpa [cons] using ⟨hkind k rfl, hrest⟩
  fun_induction ofChars rules position chars with
  | case1 | case2 => simp
  | case3 _ _ _ _ _ ih => exact hcons (fun _ => allowed_of_escapedKind) ih
  | case4 _ _ _ _ ih => exact hcons (fun _ => allowed_of_plainKind) ih

/-! ## Expressions -/

/-- The symbol is a literal among the tokens or the member of a class. -/
def Mentions (rules : Rules) (u : List TokenKind) (a : Symbol) : Prop :=
  .literal a ∈ u ∨ ∃ name symbols, ClassMembers rules name symbols ∧ a ∈ symbols

/-- Operators behind an operand add no literals. -/
theorem Repetition.literals_foldl_apply (operators : List Repetition) (x : Regex) :
    (operators.foldl (fun x operator => operator.apply x) x).literals = x.literals := by
  induction operators generalizing x with
  | nil => rfl
  | cons operator operators ih =>
    rw [List.foldl_cons, ih]
    cases operator <;> rfl

/-- What some tokens mention is mentioned by more tokens too. -/
theorem Mentions.mono {a : Symbol} (h : Mentions rules u a) (hsub : u ⊆ v) : Mentions rules v a :=
  h.imp_left fun ha => hsub ha

mutual

/-- The tokens of an expression mention all its literals, by recursion along the sorts of the
grammar. -/
theorem Expr.mentions {d : Nat} {u : List TokenKind} {x : Regex} :
    Expr rules d u x → ∀ a ∈ x.literals, Mentions rules u a
  | .terms hterm halternatives => by
    intro a ha
    rw [Regex.literals_foldl fun _ _ => rfl] at ha
    rcases List.mem_append.mp ha with ha | ha
    · exact (hterm.mentions a ha).mono (List.subset_append_left _ _)
    · exact (halternatives.mentions a ha).mono (List.subset_append_right _ _)

/-- The tokens of further alternatives mention all their literals. -/
theorem Alternatives.mentions {d : Nat} {u : List TokenKind} {ys : List Regex} :
    Alternatives rules d u ys → ∀ a ∈ ys.flatMap Regex.literals, Mentions rules u a
  | .nil => by simp
  | .cons hterm halternatives => by
    intro a ha
    rcases List.mem_append.mp ha with ha | ha
    · exact (hterm.mentions a ha).mono (List.subset_cons_of_subset _ (List.subset_append_left _ _))
    · exact (halternatives.mentions a ha).mono
        (List.subset_cons_of_subset _ (List.subset_append_right _ _))

/-- The tokens of a term mention all its literals. -/
theorem Term.mentions {d : Nat} {u : List TokenKind} {x : Regex} :
    Term rules d u x → ∀ a ∈ x.literals, Mentions rules u a
  | .factors hfactor hfactors => by
    intro a ha
    rw [Regex.literals_foldl fun _ _ => rfl] at ha
    rcases List.mem_append.mp ha with ha | ha
    · exact (hfactor.mentions a ha).mono (List.subset_append_left _ _)
    · exact (hfactors.mentions a ha).mono (List.subset_append_right _ _)

/-- The tokens of further factors mention all their literals. -/
theorem Factors.mentions {d : Nat} {u : List TokenKind} {ys : List Regex} :
    Factors rules d u ys → ∀ a ∈ ys.flatMap Regex.literals, Mentions rules u a
  | .nil => by simp
  | .cons hfactor hfactors => by
    intro a ha
    rcases List.mem_append.mp ha with ha | ha
    · exact (hfactor.mentions a ha).mono (List.subset_append_left _ _)
    · exact (hfactors.mentions a ha).mono (List.subset_append_right _ _)

/-- The tokens of a factor mention all its literals, since operators have none. -/
theorem Factor.mentions {d : Nat} {u : List TokenKind} {x : Regex} :
    Factor rules d u x → ∀ a ∈ x.literals, Mentions rules u a
  | .operators operators hatom => by
    intro a ha
    rw [Repetition.literals_foldl_apply] at ha
    exact (hatom.mentions a ha).mono (List.subset_append_left _ _)

/-- The tokens of an atom mention its literals, which are a symbol, the members of a class or those
of a group. -/
theorem Atom.mentions {d : Nat} {u : List TokenKind} {x : Regex} :
    Atom rules d u x → ∀ a ∈ x.literals, Mentions rules u a
  | .literal a => fun b hb => .inl (List.mem_singleton.mp hb ▸ List.mem_cons_self)
  | .symbolClass hclass => fun a ha =>
    .inr ⟨_, _, hclass, by rwa [Regex.literals_ofSymbols] at ha⟩
  | .epsilon | .empty => by simp [Regex.literals]
  | .group hexpr => fun a ha =>
    (hexpr.mentions a ha).mono (List.subset_cons_of_subset _ (List.subset_append_left _ _))

end

/-- A literal of what has been read belongs to the alphabet, and if it is one of the characters that
have a token of their own, then it is the member of a class. -/
theorem mem_of_parse {pattern : String} (h : parse rules pattern = .ok x) {a : Symbol}
    (ha : a ∈ x.literals) : a ∈ rules.alphabet ∧
      (a ≠ epsilonSymbol ∧ a ≠ emptyLanguageSymbol ∨
        ∃ (name : Char) (members : Alphabet),
          rules.classes[name]? = some members ∧ a ∈ members) := by
  -- Only a class brings in symbols that are not tokens of their own.
  rcases (expr_of_parse h).mentions a ha with hliteral | ⟨name, symbols, hclass, ha⟩
  · obtain ⟨token, htoken, hkind⟩ := List.mem_map.mp hliteral
    have hallowed := Lexed.allowed_of_mem_ofChars 0 pattern.toList token htoken
    rw [hkind] at hallowed
    exact ⟨hallowed.1, .inl hallowed.2⟩
  · obtain ⟨halphabet, members, hmembers, ha⟩ := (hclass.mem_iff a).mp ha
    exact ⟨halphabet, .inr ⟨name, members, hmembers, ha⟩⟩

/-- A pattern that can be read is compiled. -/
theorem Compiled.exists_ofText_of_parse {pattern : String} (h : parse rules pattern = .ok x) :
    ∃ p, Compiled.ofText rules pattern = .ok p ∧ p.regex = x := by
  obtain ⟨E, hE, -, -⟩ := x.exists_toAutomaton rules.alphabet fun a ha => (mem_of_parse h ha).1
  exact ⟨⟨pattern, rules, x, E⟩, Compiled.ofText_eq_ok_iff.mpr ⟨h, hE, rfl, rfl⟩, rfl⟩

end Pattern

end RegularLanguages
