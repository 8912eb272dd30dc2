import RegularLanguages.Proofs.Literals

/-!
# Patterns as token sequences

Every text is split in one way only: into tokens that are written one behind another, and then
either nothing or characters that begin with no token. A pattern is read as these tokens and as the
fault of these characters. In turn, the tokens that can be read are those that the rules allow, and
writing them and reading what is written gives them back. It makes no difference whether tokens are
split off all at once or one at a time.
-/

namespace RegularLanguages.Pattern

variable {rules : Rules}

/-! ## Characters that begin with no token -/

/-- The characters begin with no token, for the given reason. -/
inductive Refused (rules : Rules) : LexicalFault → List Char → Prop where
  | truncatedEscape : Refused rules .truncatedEscape ['\\']
  | foreignEscape {c : Char} (rest : List Char) :
      c ∈ metacharacters → c ∉ rules.alphabet → Refused rules (.foreignEscape c) ('\\' :: c :: rest)
  | unknownEscape {c : Char} (rest : List Char) :
      c ∉ metacharacters → c ∉ rules.classes → Refused rules (.unknownEscape c) ('\\' :: c :: rest)
  | unknownCharacter {c : Char} (rest : List Char) :
      c ∉ metacharacters → c ≠ epsilonSymbol → c ≠ emptyLanguageSymbol → c ∉ rules.alphabet →
        Refused rules (.unknownCharacter c) (c :: rest)

/-- A character is written for the token that it is read as, and otherwise it is no token. -/
theorem plainKind_cases (rules : Rules) {c : Char} (h : c ≠ '\\') (rest : List Char) :
    (∃ kind, plainKind rules c = .ok kind ∧ kind.spelling = [c]) ∨
      ∃ fault, plainKind rules c = .error fault ∧ Refused rules fault (c :: rest) := by
  by_cases hmeta : c ∈ metacharacters
  · left
    simp only [metacharacters, List.mem_cons, List.not_mem_nil, or_false, h] at hmeta
    rcases hmeta with rfl | rfl | rfl | rfl | rfl | rfl <;> exact ⟨_, rfl, rfl⟩
  by_cases hepsilon : c = epsilonSymbol
  · exact .inl ⟨.epsilon, by rw [hepsilon]; rfl, by rw [hepsilon]; rfl⟩
  by_cases hempty : c = emptyLanguageSymbol
  · exact .inl ⟨.empty, by rw [hempty]; rfl, by rw [hempty]; rfl⟩
  by_cases halphabet : c ∈ rules.alphabet
  · exact .inl ⟨.literal c, plainKind_eq_literal halphabet hmeta hepsilon hempty, if_neg hmeta⟩
  · refine .inr ⟨.unknownCharacter c, ?_, .unknownCharacter rest hmeta hepsilon hempty halphabet⟩
    simp only [metacharacters, List.mem_cons, List.not_mem_nil, or_false, not_or] at hmeta
    simp [plainKind, hmeta, hepsilon, hempty, halphabet]

/-- A backslash and a character are written for the token that they are read as, and otherwise they
are no token. -/
theorem escapedKind_cases (rules : Rules) (c : Char) (rest : List Char) :
    (∃ kind, escapedKind rules c = .ok kind ∧ kind.spelling = ['\\', c]) ∨
      ∃ fault, escapedKind rules c = .error fault ∧ Refused rules fault ('\\' :: c :: rest) := by
  by_cases hmeta : c ∈ metacharacters
  · by_cases halphabet : c ∈ rules.alphabet
    · exact .inl ⟨.literal c, by simp [escapedKind, hmeta, halphabet], if_pos hmeta⟩
    · exact .inr ⟨.foreignEscape c, by simp [escapedKind, hmeta, halphabet],
        .foreignEscape rest hmeta halphabet⟩
  · by_cases hclass : c ∈ rules.classes
    · exact .inl ⟨.symbolClass c, by simp [escapedKind, hmeta, hclass], rfl⟩
    · exact .inr ⟨.unknownEscape c, by simp [escapedKind, hmeta, hclass],
        .unknownEscape rest hmeta hclass⟩

namespace Lexed

/-- Characters that begin with no token are the end of the tokens. -/
theorem ofChars_of_refused {fault : LexicalFault} {chars : List Char}
    (h : Refused rules fault chars) (position : Nat) :
    ofChars rules position chars = ⟨[], some (.lexical position fault)⟩ := by
  cases h with
  | truncatedEscape => rfl
  | foreignEscape rest hmeta halphabet =>
    rw [ofChars_escaped]
    simp [escapedKind, hmeta, halphabet, cons]
  | unknownEscape rest hmeta hclass =>
    rw [ofChars_escaped]
    simp [escapedKind, hmeta, hclass, cons]
  | @unknownCharacter c rest hmeta hepsilon hempty halphabet =>
    have hbackslash : c ≠ '\\' := by
      rintro rfl
      exact hmeta (by decide)
    simp only [metacharacters, List.mem_cons, List.not_mem_nil, or_false, not_or] at hmeta
    rw [ofChars_plain hbackslash]
    simp [plainKind, hmeta, hepsilon, hempty, halphabet, cons]

end Lexed

/-! ## Splitting a text -/

/-- The characters are those of allowed tokens, and what is left of them is nothing or begins with
no token. -/
def Splits (rules : Rules) (chars : List Char) : Prop :=
  ∃ (kinds : List TokenKind) (rest : List Char), (∀ kind ∈ kinds, kind.Allowed rules) ∧
    chars = (spelled kinds).toList ++ rest ∧ (rest = [] ∨ ∃ fault, Refused rules fault rest)

namespace Splits

/-- No characters split into no tokens, and nothing is left of them. -/
theorem nil : Splits rules [] := ⟨[], [], by simp, rfl, .inl rfl⟩

/-- Characters that begin with no token split into no tokens, and all of them are left. -/
theorem refused {fault : LexicalFault} {chars : List Char} (h : Refused rules fault chars) :
    Splits rules chars := ⟨[], chars, by simp, rfl, .inr ⟨fault, h⟩⟩

/-- A token may be written before the others. -/
theorem token {kind : TokenKind} {unit chars : List Char} (hallowed : kind.Allowed rules)
    (hspelling : kind.spelling = unit) (h : Splits rules chars) : Splits rules (unit ++ chars) := by
  obtain ⟨kinds, rest, hkinds, rfl, hrest⟩ := h
  refine ⟨kind :: kinds, rest, List.forall_mem_cons.mpr ⟨hallowed, hkinds⟩, ?_, hrest⟩
  simp [toList_spelled, hspelling]

end Splits

/-- All texts are split, character by character or two characters at once. -/
theorem splits (rules : Rules) (position : Nat) (chars : List Char) : Splits rules chars := by
  fun_induction Lexed.ofChars rules position chars with
  | case1 => exact .nil
  | case2 position c hc =>
    obtain rfl : c = '\\' := by simpa using hc
    exact .refused .truncatedEscape
  | case3 position c hc e rest ih =>
    obtain rfl : c = '\\' := by simpa using hc
    rcases escapedKind_cases rules e rest with ⟨kind, hkind, hspelling⟩ | ⟨_, -, hrefused⟩
    · exact ih.token (allowed_of_escapedKind hkind) hspelling
    · exact .refused hrefused
  | case4 position c rest hc ih =>
    have hc : c ≠ '\\' := by simpa using hc
    rcases plainKind_cases rules hc rest with ⟨kind, hkind, hspelling⟩ | ⟨_, -, hrefused⟩
    · exact ih.token (allowed_of_plainKind hkind) hspelling
    · exact .refused hrefused

namespace Lexed

/-- The kinds of the tokens. -/
def kinds (lexed : Lexed) : List TokenKind := lexed.tokens.map Token.kind

/-- What is found in a pattern, token by token and then the error. -/
def answers (lexed : Lexed) : List (Except PatternError Token) :=
  lexed.tokens.map .ok ++ lexed.error.toList.map .error

/-- A pattern is split into tokens up to its end or up to characters that begin with no token. -/
theorem exists_tokens_eq_placed (rules : Rules) (pattern : String) :
    ∃ (kinds : List TokenKind) (rest : String), (∀ kind ∈ kinds, kind.Allowed rules) ∧
      pattern = spelled kinds ++ rest ∧ (ofText rules pattern).tokens = placed 0 kinds ∧
      (rest = "" ∧ (ofText rules pattern).error = none ∨
        ∃ fault, Refused rules fault rest.toList ∧
          (ofText rules pattern).error = some (.lexical (spelled kinds).utf8ByteSize fault)) := by
  obtain ⟨kinds, rest, hkinds, hchars, hrest⟩ := splits rules 0 pattern.toList
  have hpattern : pattern = spelled kinds ++ String.ofList rest := by
    rw [← String.toList_inj, hchars, String.toList_append, String.toList_ofList]
  refine ⟨kinds, String.ofList rest, hkinds, hpattern, ?_⟩
  rw [hpattern, ofText_spelled_append hkinds, String.toList_ofList]
  rcases hrest with rfl | ⟨fault, hrefused⟩
  · simp [ofChars]
  · rw [ofChars_of_refused hrefused]
    exact ⟨List.append_nil _, .inr ⟨fault, hrefused, rfl⟩⟩

end Lexed

/-! ## One token at a time -/

namespace Cursor

/-- Asking again and again, until there is nothing more, gives these answers. -/
inductive Yields (rules : Rules) : Cursor → List (Except PatternError Token) → Prop where
  | nil {cursor : Cursor} : cursor.next? rules = none → Yields rules cursor []
  | cons {cursor next : Cursor} {answer : Except PatternError Token}
      {answers : List (Except PatternError Token)} :
      cursor.next? rules = some (answer, next) → Yields rules next answers →
        Yields rules cursor (answer :: answers)

variable {cursor : Cursor} {answers others : List (Except PatternError Token)}

/-- There is one sequence of answers only. -/
theorem Yields.unique (h : Yields rules cursor answers) (hother : Yields rules cursor others) :
    answers = others := by
  induction h generalizing others with
  | nil hnone =>
    cases hother with
    | nil => rfl
    | cons hsome => simp [hnone] at hsome
  | cons hsome _ ih =>
    cases hother with
    | nil hnone => simp [hsome] at hnone
    | cons hother hrest =>
      obtain ⟨rfl, rfl⟩ := Prod.mk.inj (Option.some.inj (hsome.symm.trans hother))
      rw [ih hrest]

/-- Behind an error there is nothing. -/
theorem yields_failed (position : Nat) (rest : List Char) :
    Yields rules ⟨position, rest, true⟩ [] :=
  .nil rfl

/-- A token of a known kind is followed by the other tokens, and an error by nothing. -/
theorem yields_cons {position next : Nat} {kind : Except LexicalFault TokenKind}
    {rest chars : List Char} {lexed : Lexed}
    (hnext : next? rules ⟨position, chars, false⟩ = some (answer position kind next rest))
    (h : Yields rules ⟨next, rest, false⟩ lexed.answers) :
    Yields rules ⟨position, chars, false⟩ (Lexed.cons position kind lexed).answers := by
  cases kind with
  | ok kind => exact .cons hnext h
  | error fault => exact .cons hnext (yields_failed next rest)

/-- One at a time, the same tokens and the same error are found as all at once. -/
theorem yields_ofChars (position : Nat) (chars : List Char) :
    Yields rules ⟨position, chars, false⟩ (Lexed.ofChars rules position chars).answers := by
  fun_induction Lexed.ofChars rules position chars with
  | case1 => exact .nil rfl
  | case2 position c hc =>
    have hnext : next? rules ⟨position, [c], false⟩ =
        some (answer position (.error .truncatedEscape) (position + c.utf8Size) []) := by
      simp [next?, hc]
    exact .cons hnext (yields_failed _ _)
  | case3 position c hc e rest ih => exact yields_cons (by simp [next?, hc]) ih
  | case4 position c rest hc ih => exact yields_cons (by simp [next?, hc]) ih

/-- From the beginning of a pattern, its tokens are found, and then the error if there is one. -/
theorem yields_start_iff {pattern : String} :
    Yields rules (start pattern) answers ↔ answers = (Lexed.ofText rules pattern).answers := by
  have hstart : Yields rules (start pattern) (Lexed.ofText rules pattern).answers :=
    yields_ofChars 0 pattern.toList
  constructor
  · exact fun h => h.unique hstart
  · intro h
    rwa [h]

end Cursor

/-- The tokens of a pattern are written one behind another at its beginning, each at its place, and
all of them are allowed. They are the whole pattern if there is no error, and otherwise what follows
them begins with no token, which is the error and stands at their end. These tokens and then the
error are found if they are asked for one at a time, and nothing after that. In turn, tokens that
are written one behind another are found again exactly if they are allowed. -/
theorem lexer_inverts_spelling (rules : Rules) :
    (∀ pattern : String,
      let lexed := Lexed.ofText rules pattern
      (∃ rest : String, pattern = spelled lexed.kinds ++ rest ∧
        (lexed.error = none ↔ rest = "") ∧
        ∀ e, lexed.error = some e → ∃ fault, Refused rules fault rest.toList ∧
          e = .lexical (spelled lexed.kinds).utf8ByteSize fault) ∧
      (∀ before token after, lexed.tokens = before ++ token :: after →
        token.position = (spelled (before.map Token.kind)).utf8ByteSize) ∧
      (∀ kind ∈ lexed.kinds, kind.Allowed rules) ∧
      ∀ answers, (Cursor.start pattern).Yields rules answers ↔ answers = lexed.answers) ∧
    ∀ kinds : List TokenKind, (Lexed.ofText rules (spelled kinds)).all = .ok (placed 0 kinds) ↔
      ∀ kind ∈ kinds, kind.Allowed rules := by
  refine ⟨fun pattern => ?split, fun kinds => ⟨fun h => ?allowed, fun h => ?found⟩⟩
  case split =>
    intro lexed
    obtain ⟨kinds, rest, hallowed, hpattern, htokens, hrest⟩ :=
      Lexed.exists_tokens_eq_placed rules pattern
    have hkinds : lexed.kinds = kinds := by rw [Lexed.kinds, htokens, map_kind_placed]
    rw [hkinds]
    refine ⟨⟨rest, hpattern, ?_⟩, fun before token after hsplit => ?_, hallowed,
      fun answers => Cursor.yields_start_iff⟩
    · rcases hrest with ⟨rfl, herror⟩ | ⟨fault, hrefused, herror⟩
      · simp [lexed, herror]
      · have hrest : rest ≠ "" := by
          rintro rfl
          cases hrefused
        refine ⟨by simp [lexed, herror, hrest], fun e he => ⟨fault, hrefused, ?_⟩⟩
        exact Option.some.inj (he.symm.trans herror)
    · have hplaced := position_of_placed_eq (htokens.symm.trans hsplit)
      rw [hplaced.2, Nat.zero_add]
  case allowed =>
    intro kind hkind
    cases herror : (Lexed.ofText rules (spelled kinds)).error with
    | some e => simp [Lexed.all, herror] at h
    | none =>
      have htokens : (Lexed.ofText rules (spelled kinds)).tokens = placed 0 kinds := by
        simpa [Lexed.all, herror] using h
      rw [← map_kind_placed 0 kinds, ← htokens] at hkind
      obtain ⟨token, htoken, rfl⟩ := List.mem_map.mp hkind
      exact Lexed.allowed_of_mem_ofChars 0 _ token htoken
  case found => rw [Lexed.ofText_spelled h, Lexed.all]

/-- Three characters are tokens of two, one and three bytes, and a backslash at the end is none. -/
theorem lexer_stops_at_truncated_escape :
    let rules := Rules.ofAlphabet (.ofText "a")
    let lexed := Lexed.ofText rules "εa∅\\"
    lexed = ⟨[⟨.epsilon, 0⟩, ⟨.literal 'a', 2⟩, ⟨.empty, 3⟩],
        some (.lexical 6 .truncatedEscape)⟩ ∧
      (∃ rest fault, "εa∅\\" = spelled lexed.kinds ++ rest ∧ Refused rules fault rest.toList ∧
        lexed.error = some (.lexical (spelled lexed.kinds).utf8ByteSize fault)) ∧
      3 = (spelled [.epsilon, .literal 'a']).utf8ByteSize ∧
      TokenKind.Allowed rules (.literal 'a') ∧
      (Cursor.start "εa∅\\").Yields rules lexed.answers := by
  intro rules lexed
  have hlexed : lexed = ⟨[⟨.epsilon, 0⟩, ⟨.literal 'a', 2⟩, ⟨.empty, 3⟩],
      some (.lexical 6 .truncatedEscape)⟩ := rfl
  have herror : lexed.error = some (.lexical 6 .truncatedEscape) := by rw [hlexed]
  obtain ⟨⟨rest, hrest, -, hrefused⟩, hplaces, hallowed, hanswers⟩ :=
    (lexer_inverts_spelling rules).1 "εa∅\\"
  obtain ⟨fault, hfault, he⟩ := hrefused _ herror
  have hempty : 3 = (spelled [.epsilon, .literal 'a']).utf8ByteSize :=
    hplaces [⟨.epsilon, 0⟩, ⟨.literal 'a', 2⟩] ⟨.empty, 3⟩ [] rfl
  have hliteral : TokenKind.literal 'a' ∈ lexed.kinds := by
    rw [hlexed]
    decide
  exact ⟨hlexed, ⟨rest, fault, hrest, hfault, herror.trans (congrArg some he)⟩, hempty,
    hallowed _ hliteral, (hanswers _).mpr rfl⟩

end RegularLanguages.Pattern
