import RegularLanguages.Proofs.Literals

/-!
# Reading what is printed

The written form of an expression has a pair of parentheses for each union and each concatenation,
and is read with a group for each of them. A group opens inside another as often as a union, a
concatenation or a group stands inside another in the tree, and the bound on the nesting has to
allow this. Two symbols are never read as literals: the one that stands for the empty word and the
one that stands for the language without words.
-/

namespace RegularLanguages

namespace Regex

/-- The expression with every union and every concatenation in a group. -/
def grouped : Regex → Regex
  | literal a => literal a
  | epsilon => epsilon
  | empty => empty
  | union l r => group (union l.grouped r.grouped)
  | concat l r => group (concat l.grouped r.grouped)
  | star x => star x.grouped
  | plus x => plus x.grouped
  | optional x => optional x.grouped
  | group x => group x.grouped

/-- The expression that a character without a backslash is read as. -/
def ofCharacter (a : Symbol) : Regex :=
  if a = epsilonSymbol then epsilon else if a = emptyLanguageSymbol then empty else literal a

/-- The expression with its literals as their characters are read. -/
def asRead : Regex → Regex
  | literal a => ofCharacter a
  | epsilon => epsilon
  | empty => empty
  | union l r => union l.asRead r.asRead
  | concat l r => concat l.asRead r.asRead
  | star x => star x.asRead
  | plus x => plus x.asRead
  | optional x => optional x.asRead
  | group x => group x.asRead

/-- How many unions, concatenations and groups stand inside each other. -/
def nesting : Regex → Nat
  | literal _ | epsilon | empty => 0
  | union l r | concat l r => max l.nesting r.nesting + 1
  | star x | plus x | optional x => x.nesting
  | group x => x.nesting + 1

/-- The tokens that an expression is written with. -/
def tokenKinds : Regex → List Pattern.TokenKind
  | literal a => [.literal a]
  | epsilon => [.epsilon]
  | empty => [.empty]
  | union l r => .opening :: (l.tokenKinds ++ .union :: r.tokenKinds ++ [.closing])
  | concat l r => .opening :: (l.tokenKinds ++ r.tokenKinds ++ [.closing])
  | star x => x.tokenKinds ++ [.star]
  | plus x => x.tokenKinds ++ [.plus]
  | optional x => x.tokenKinds ++ [.optional]
  | group x => .opening :: (x.tokenKinds ++ [.closing])

/-- No literal is read as something else. -/
def Plain (x : Regex) : Prop := ∀ a ∈ x.literals, a ≠ epsilonSymbol ∧ a ≠ emptyLanguageSymbol

variable {x : Regex}

/-! ## What is read -/

/-- Groups do not change the language. -/
@[simp] theorem language_grouped (x : Regex) : x.grouped.language = x.language := by
  induction x with
  | literal | epsilon | empty => rfl
  | union l r ihl ihr | concat l r ihl ihr => simp only [grouped, language, ihl, ihr]
  | star x ih | plus x ih | optional x ih | group x ih => simp only [grouped, language, ih]

/-- A character that does not stand for the empty word or the empty language is read as a
literal. -/
theorem ofCharacter_of_ne {a : Symbol} (hepsilon : a ≠ epsilonSymbol)
    (hempty : a ≠ emptyLanguageSymbol) : ofCharacter a = literal a := by
  rw [ofCharacter, if_neg hepsilon, if_neg hempty]

/-- A character is read as something that is written with it. -/
theorem ofCharacter_cases (a : Symbol) :
    a = epsilonSymbol ∧ ofCharacter a = epsilon ∨ a = emptyLanguageSymbol ∧ ofCharacter a = empty ∨
      (a ≠ epsilonSymbol ∧ a ≠ emptyLanguageSymbol) ∧ ofCharacter a = literal a := by
  unfold ofCharacter
  split_ifs <;> simp_all

/-- A plain expression is read as it is. -/
theorem Plain.asRead_eq (h : x.Plain) : x.asRead = x := by
  induction x with
  | literal a =>
    obtain ⟨hepsilon, hempty⟩ := h a List.mem_cons_self
    exact ofCharacter_of_ne hepsilon hempty
  | epsilon | empty => rfl
  | union l r ihl ihr | concat l r ihl ihr =>
    rw [asRead, ihl fun a ha => h a (List.mem_append_left _ ha),
      ihr fun a ha => h a (List.mem_append_right _ ha)]
  | star x ih | plus x ih | optional x ih | group x ih => rw [asRead, ih h]

/-- What is read has literals of what is written, without those that are read as something else. -/
theorem mem_literals_asRead {a : Symbol} (h : a ∈ x.asRead.literals) :
    a ∈ x.literals ∧ a ≠ epsilonSymbol ∧ a ≠ emptyLanguageSymbol := by
  induction x with
  | literal b =>
    rcases ofCharacter_cases b with ⟨-, hb⟩ | ⟨-, hb⟩ | ⟨hb, hb'⟩
    · simp [asRead, hb, literals] at h
    · simp [asRead, hb, literals] at h
    · rw [asRead, hb'] at h
      obtain rfl := List.mem_singleton.mp h
      exact ⟨h, hb⟩
  | epsilon | empty => simp [asRead, literals] at h
  | union l r ihl ihr | concat l r ihl ihr =>
    rcases List.mem_append.mp h with h | h
    · exact (ihl h).imp_left (List.mem_append_left _)
    · exact (ihr h).imp_left (List.mem_append_right _)
  | star x ih | plus x ih | optional x ih | group x ih => exact ih h

/-- An expression as it is read has no literal that would be read as something else. -/
theorem plain_asRead (x : Regex) : x.asRead.Plain := fun _ ha => (mem_literals_asRead ha).2

/-- An expression as it is read is nested as deep as the expression. -/
@[simp] theorem nesting_asRead (x : Regex) : x.asRead.nesting = x.nesting := by
  induction x with
  | literal a => rcases ofCharacter_cases a with ⟨-, h⟩ | ⟨-, h⟩ | ⟨-, h⟩ <;> rw [asRead, h] <;> rfl
  | epsilon | empty => rfl
  | union l r ihl ihr | concat l r ihl ihr => simp only [asRead, nesting, ihl, ihr]
  | star x ih | plus x ih | optional x ih | group x ih => simp only [asRead, nesting, ih]

/-- What a literal is read as is written like the literal. -/
theorem spell_asRead (x : Regex) (rest : List Char) : x.asRead.spell rest = x.spell rest := by
  induction x generalizing rest with
  | literal a =>
    rcases ofCharacter_cases a with ⟨rfl, h⟩ | ⟨rfl, h⟩ | ⟨-, h⟩ <;> rw [asRead, h] <;> rfl
  | epsilon | empty => rfl
  | union l r ihl ihr | concat l r ihl ihr => simp only [asRead, spell, ihl, ihr]
  | star x ih | plus x ih | optional x ih | group x ih => simp only [asRead, spell, ih]

/-- An expression as it is read is written like the expression. -/
theorem text_asRead (x : Regex) : x.asRead.text = x.text := by
  rw [text, spell_asRead, text]

/-! ## What is written -/

/-- The written form spells the tokens out. -/
theorem spell_eq_flatMap (x : Regex) (rest : List Char) :
    x.spell rest = x.tokenKinds.flatMap Pattern.TokenKind.spelling ++ rest := by
  induction x generalizing rest with
  | literal a =>
    by_cases h : a ∈ metacharacters <;>
      simp [spell, tokenKinds, Pattern.TokenKind.spelling, spellLiteral, h]
  | epsilon | empty => rfl
  | union l r ihl ihr | concat l r ihl ihr =>
    simp [spell, tokenKinds, ihl, ihr, Pattern.TokenKind.spelling]
  | star x ih | plus x ih | optional x ih | group x ih =>
    simp [spell, tokenKinds, ih, Pattern.TokenKind.spelling]

/-- An expression is written with its tokens one behind another. -/
theorem text_eq_spelled (x : Regex) : x.text = Pattern.spelled x.tokenKinds := by
  rw [text, spell_eq_flatMap, List.append_nil, Pattern.spelled]

/-- The rules allow the tokens of a plain expression if its literals belong to the alphabet. -/
theorem Plain.allowed_of_mem_tokenKinds {rules : Pattern.Rules} (h : x.Plain)
    (hliterals : ∀ a ∈ x.literals, a ∈ rules.alphabet) :
    ∀ kind ∈ x.tokenKinds, kind.Allowed rules := by
  induction x with
  | literal a =>
    intro kind hkind
    obtain rfl := List.mem_singleton.mp hkind
    exact ⟨hliterals a List.mem_cons_self, h a List.mem_cons_self⟩
  | epsilon | empty =>
    intro kind hkind
    obtain rfl := List.mem_singleton.mp hkind
    trivial
  | union l r ihl ihr | concat l r ihl ihr =>
    simp only [Plain, literals, List.mem_append] at h hliterals
    have hl := ihl (fun a ha => h a (.inl ha)) fun a ha => hliterals a (.inl ha)
    have hr := ihr (fun a ha => h a (.inr ha)) fun a ha => hliterals a (.inr ha)
    intro kind hkind
    simp only [tokenKinds, List.mem_cons, List.mem_append, List.not_mem_nil, or_false] at hkind
    grind [Pattern.TokenKind.Allowed]
  | star x ih | plus x ih | optional x ih | group x ih =>
    intro kind hkind
    have hx := ih h hliterals
    simp only [tokenKinds, List.mem_cons, List.mem_append, List.not_mem_nil, or_false] at hkind
    grind [Pattern.TokenKind.Allowed]

end Regex

namespace Pattern

variable {rules : Rules} {d : Nat} {u v : List TokenKind} {x : Regex}

/-- A group is a factor one level further out than what it is made of. -/
theorem factor_group {n : Nat} (h : n + 1 ≤ d) (hexpr : ∀ inner, n ≤ inner → Expr rules inner u x) :
    Factor rules d (.opening :: (u ++ [.closing])) (.group x) := by
  obtain ⟨inner, rfl⟩ : ∃ inner, d = inner + 1 := Nat.exists_eq_add_of_le' (Nat.le_of_add_left_le h)
  exact .ofAtom (.group (hexpr inner (Nat.le_of_add_le_add_right h)))

/-- The tokens of an expression are a factor whose tree has a group for each union and each
concatenation, if the depth allows as many groups inside each other. -/
theorem factor_tokenKinds (h : x.nesting ≤ d) : Factor rules d x.tokenKinds x.grouped := by
  induction x generalizing d with
  | literal a => exact .ofAtom (.literal a)
  | epsilon => exact .ofAtom .epsilon
  | empty => exact .ofAtom .empty
  | union l r ihl ihr =>
    refine factor_group h fun inner hinner => ?_
    obtain ⟨hl, hr⟩ := max_le_iff.mp hinner
    exact (Expr.ofTerm (.ofFactor (ihl hl))).snoc (.ofFactor (ihr hr))
  | concat l r ihl ihr =>
    refine factor_group h fun inner hinner => ?_
    obtain ⟨hl, hr⟩ := max_le_iff.mp hinner
    exact .ofTerm ((Term.ofFactor (ihl hl)).snoc (ihr hr))
  | star x ih => exact (ih h).snoc .star
  | plus x ih => exact (ih h).snoc .plus
  | optional x ih => exact (ih h).snoc .optional
  | group x ih => exact factor_group h fun inner hinner => .ofTerm (.ofFactor (ih hinner))

/-! ## Groups that are nested too deep -/

/-- Reading these tokens stops at a parenthesis that opens one group too many inside others. -/
def StopsTooDeep (rules : Rules) (reading : Reading) (u : List TokenKind) : Prop :=
  ∀ tokens rest : List Token, tokens.map Token.kind = u → ∃ position,
    reading.readAll rules (tokens ++ rest) =
      .error (.grammar position (.nestedTooDeep rules.maxDepth))

namespace StopsTooDeep

variable {reading next : Reading}

/-- What stands behind the place does not matter. -/
theorem append (h : StopsTooDeep rules reading u) (v : List TokenKind) :
    StopsTooDeep rules reading (u ++ v) := by
  intro tokens rest htokens
  obtain ⟨first, others, rfl, hfirst, -⟩ := List.map_eq_append_iff.mp htokens
  rw [List.append_assoc]
  exact h first (others ++ rest) hfirst

/-- One more token stands before the place. -/
theorem cons {kind : TokenKind}
    (hread : ∀ token : Token, token.kind = kind → reading.read rules token = .ok next)
    (h : StopsTooDeep rules next u) : StopsTooDeep rules reading (kind :: u) := by
  intro tokens rest htokens
  obtain ⟨token, tokens, rfl, hkind, htail⟩ := List.map_eq_cons_iff.mp htokens
  rw [List.cons_append, Reading.readAll_of_read (hread token hkind)]
  exact h tokens rest htail

/-- Operands stand before the place. -/
theorem operands {ys : List Regex} (hread : ReadsOperands rules d u ys)
    (hdepth : reading.enclosing.length + d ≤ rules.maxDepth)
    (h : StopsTooDeep rules (ys.foldl Reading.operand reading) v) :
    StopsTooDeep rules reading (u ++ v) := by
  intro tokens rest htokens
  obtain ⟨first, others, rfl, hfirst, hothers⟩ := List.map_eq_append_iff.mp htokens
  rw [List.append_assoc, hread reading first _ hfirst hdepth]
  exact h others rest hothers

/-- The place is the opening of a group or, if there is room for the group, inside it. -/
theorem group (h : ∀ inner : Reading, inner.frame = .blank →
      inner.enclosing.length = reading.enclosing.length + 1 →
        inner.enclosing.length ≤ rules.maxDepth → StopsTooDeep rules inner u) :
    StopsTooDeep rules reading (.opening :: u) := by
  intro tokens rest htokens
  obtain ⟨token, tokens, rfl, hkind, htail⟩ := List.map_eq_cons_iff.mp htokens
  by_cases hlimit : reading.enclosing.length + 1 > rules.maxDepth
  · refine ⟨token.position, ?_⟩
    simp only [List.cons_append, Reading.readAll_cons, Reading.read, hkind, Reading.openGroup,
      if_pos hlimit]
  · have hopen : reading.read rules token =
        .ok ⟨.blank, (token.position, reading.frame) :: reading.enclosing⟩ := by
      simp only [Reading.read, hkind, Reading.openGroup, if_neg hlimit]
    rw [List.cons_append, Reading.readAll_of_read hopen]
    exact h ⟨.blank, (token.position, reading.frame) :: reading.enclosing⟩ rfl rfl
      (Nat.not_lt.mp hlimit) tokens rest htail

end StopsTooDeep

/-- An expression is read up to a parenthesis, if there is no room for all groups of its written
form. -/
theorem stopsTooDeep_tokenKinds {reading : Reading}
    (hdepth : reading.enclosing.length ≤ rules.maxDepth)
    (h : rules.maxDepth < reading.enclosing.length + x.nesting) :
    StopsTooDeep rules reading x.tokenKinds := by
  induction x generalizing reading with
  | literal | epsilon | empty => exact absurd h (Nat.not_lt.mpr hdepth)
  | union l r ihl ihr =>
    simp only [Regex.nesting] at h
    refine .group fun inner hframe hinner hroom => ?_
    rw [List.append_assoc]
    -- If there is room for the left operand, it is read, and the right one is nested too deep.
    by_cases hl : inner.enclosing.length + l.nesting ≤ rules.maxDepth
    · have hsign (token : Token) (hkind : token.kind = .union) :
          (inner.operand l.grouped).read rules token =
            .ok ⟨⟨some l.grouped, none, none⟩, inner.enclosing⟩ := by
        simp [Reading.read, hkind, Reading.alternative, Reading.operand, Frame.expression?, hframe,
          Frame.push, Frame.term?, Frame.blank, joinLeft]
      have hr : rules.maxDepth < inner.enclosing.length + r.nesting := by omega
      refine .operands (factor_tokenKinds le_rfl).reads hl (.cons hsign (.append ?_ _))
      exact ihr hroom hr
    · exact (ihl hroom (Nat.not_le.mp hl)).append _
  | concat l r ihl ihr =>
    simp only [Regex.nesting] at h
    refine .group fun inner hframe hinner hroom => ?_
    rw [List.append_assoc]
    by_cases hl : inner.enclosing.length + l.nesting ≤ rules.maxDepth
    · have hr : rules.maxDepth < inner.enclosing.length + r.nesting := by omega
      refine .operands (factor_tokenKinds le_rfl).reads hl (.append ?_ _)
      exact ihr hroom hr
    · exact (ihl hroom (Nat.not_le.mp hl)).append _
  | star x ih | plus x ih | optional x ih => exact (ih hdepth h).append _
  | group x ih =>
    simp only [Regex.nesting] at h
    exact .group fun inner _ hinner hroom => (ih hroom (by omega)).append _

/-! ## Printed expressions -/

/-- The written form of a plain expression over the alphabet is split into its tokens. -/
theorem Lexed.ofText_text (h : x.Plain) (hliterals : ∀ a ∈ x.literals, a ∈ rules.alphabet) :
    Lexed.ofText rules x.text = ⟨placed 0 x.tokenKinds, none⟩ := by
  rw [Regex.text_eq_spelled]
  exact Lexed.ofText_spelled (h.allowed_of_mem_tokenKinds hliterals)

/-- An expression is written with some character. -/
theorem isEmpty_text (x : Regex) : x.text.isEmpty = false := by
  have hspell (rest : List Char) : x.spell rest ≠ [] := by
    induction x generalizing rest with
    | literal a =>
      rw [Regex.spell, Regex.spellLiteral]
      split <;> simp
    | epsilon | empty | union | concat | group => simp [Regex.spell]
    | star x ih | plus x ih | optional x ih => exact ih _
  have hne : x.text ≠ "" := fun h => hspell [] (String.ofList_eq_empty_iff.mp h)
  simpa using hne

/-- The written form of an expression over the alphabet is read token by token. -/
theorem parse_text_eq (hliterals : ∀ a ∈ x.literals, a ∈ rules.alphabet) :
    parse rules x.text = match Reading.start.readAll rules (placed 0 x.asRead.tokenKinds) with
      | .error e => .error e
      | .ok reading => reading.finish x.text.utf8ByteSize := by
  have hlex : Lexed.ofText rules x.text = ⟨placed 0 x.asRead.tokenKinds, none⟩ := by
    rw [← Regex.text_asRead]
    exact Lexed.ofText_text x.plain_asRead
      fun a ha => hliterals a (Regex.mem_literals_asRead ha).1
  simp only [parse, isEmpty_text, hlex]
  cases Reading.start.readAll rules (placed 0 x.asRead.tokenKinds) <;> rfl

/-- The written form of an expression over the alphabet is read as this expression, up to groups
and the literals that are read as something else, if its nesting is allowed. -/
theorem parse_text (hliterals : ∀ a ∈ x.literals, a ∈ rules.alphabet)
    (hnesting : x.nesting ≤ rules.maxDepth) : parse rules x.text = .ok x.asRead.grouped := by
  have hexpr : Expr rules rules.maxDepth x.asRead.tokenKinds x.asRead.grouped :=
    .ofTerm (.ofFactor (factor_tokenKinds (by rwa [Regex.nesting_asRead])))
  rw [← map_kind_placed 0 x.asRead.tokenKinds] at hexpr
  obtain ⟨reading, hread, hfinish⟩ := (finish_readAll_iff x.text.utf8ByteSize).mpr hexpr
  rw [parse_text_eq hliterals, hread]
  exact hfinish

/-- The written form of an expression over the alphabet is refused, if its nesting is not
allowed. -/
theorem exists_parse_text_eq_error (hliterals : ∀ a ∈ x.literals, a ∈ rules.alphabet)
    (hnesting : rules.maxDepth < x.nesting) : ∃ position,
      parse rules x.text = .error (.grammar position (.nestedTooDeep rules.maxDepth)) := by
  have hstops : StopsTooDeep rules .start x.asRead.tokenKinds :=
    stopsTooDeep_tokenKinds (Nat.zero_le _) (by simpa [Reading.start] using hnesting)
  obtain ⟨position, hread⟩ := hstops (placed 0 x.asRead.tokenKinds) [] (map_kind_placed _ _)
  rw [List.append_nil] at hread
  exact ⟨position, by rw [parse_text_eq hliterals, hread]⟩

namespace Compiled

variable {pattern : String} {p : Compiled}

/-- The expression of a pattern is plain if no class of the rules has one of the characters that
have a token of their own. -/
theorem plain_of_classes (h : ofText rules pattern = .ok p)
    (hclasses : ∀ (name : Char) (members : Alphabet), rules.classes[name]? = some members →
      epsilonSymbol ∉ members ∧ emptyLanguageSymbol ∉ members) : p.regex.Plain := by
  intro a ha
  obtain ⟨-, hplain | ⟨name, members, hmembers, hmem⟩⟩ :=
    mem_of_parse (ofText_eq_ok_iff.mp h).1 ha
  · exact hplain
  · obtain ⟨hepsilon, hempty⟩ := hclasses name members hmembers
    exact ⟨fun heq => hepsilon (heq ▸ hmem), fun heq => hempty (heq ▸ hmem)⟩

/-- The written form of the expression of a compiled pattern is compiled under the same rules
exactly if they allow its nesting. What it then accepts is the language of the expression with its
literals as their characters are read, which is what the pattern accepts if the expression is plain,
and so whenever no class has one of the two characters that are not read as literals. -/
theorem text_reads_back (h : ofText rules pattern = .ok p) :
    (p.regex.nesting ≤ rules.maxDepth → ∃ q, ofText rules p.regex.text = .ok q ∧
      q.regex = p.regex.asRead.grouped ∧
      (∀ w, q.accepts w = true ↔ w ∈ p.regex.asRead.language) ∧
      (p.regex.Plain → ∀ w, q.accepts w = p.accepts w)) ∧
    (rules.maxDepth < p.regex.nesting → ∃ position, ofText rules p.regex.text =
      .error (.grammar position (.nestedTooDeep rules.maxDepth))) ∧
    ((∀ (name : Char) (members : Alphabet), rules.classes[name]? = some members →
      epsilonSymbol ∉ members ∧ emptyLanguageSymbol ∉ members) → p.regex.Plain) := by
  have hliterals := Regex.mem_of_toAutomaton (ofText_eq_ok_iff.mp h).2.1
  refine ⟨fun hnesting => ?_, fun hnesting => ?_, plain_of_classes h⟩
  · obtain ⟨q, hq, hregex⟩ := exists_ofText_of_parse (parse_text hliterals hnesting)
    have haccepts (w : Word) := accepts_iff hq w
    rw [hregex, Regex.language_grouped] at haccepts
    refine ⟨q, hq, hregex, haccepts, fun hplain w => ?_⟩
    rw [Bool.eq_iff_iff, haccepts, accepts_iff h, hplain.asRead_eq]
  · obtain ⟨position, hread⟩ := exists_parse_text_eq_error hliterals hnesting
    exact ⟨position, by simp only [ofText, hread]⟩

/-- Three letters are written with one group inside another. This is read again if two groups may be
nested, and refused if only one may be. -/
theorem text_reads_back_three_letters :
    let rules := (Rules.ofAlphabet (.ofText "ab")).withMaxDepth
    (∃ p q, ofText (rules 2) "aba" = .ok p ∧ p.regex.text = "((ab)a)" ∧
      ofText (rules 2) p.regex.text = .ok q ∧ ∀ w, q.accepts w = p.accepts w) ∧
    ∃ p, ofText (rules 1) "aba" = .ok p ∧ ∃ position,
      ofText (rules 1) p.regex.text = .error (.grammar position (.nestedTooDeep 1)) := by
  intro rules
  let x : Regex := .concat (.concat (.literal 'a') (.literal 'b')) (.literal 'a')
  have htext : x.text = "((ab)a)" := by decide +kernel
  have hplain : x.Plain := by
    simp [x, Regex.Plain, Regex.literals, epsilonSymbol, emptyLanguageSymbol]
  refine ⟨?_, ?_⟩
  · have hparse : parse (rules 2) "aba" = .ok x := by decide +kernel
    obtain ⟨p, hp, hregex⟩ := exists_ofText_of_parse hparse
    obtain ⟨hread, -, -⟩ := text_reads_back hp
    obtain ⟨q, hq, -, -, hsame⟩ := hread (hregex ▸ by decide +kernel)
    exact ⟨p, q, hp, hregex ▸ htext, hq, hsame (hregex ▸ hplain)⟩
  · have hparse : parse (rules 1) "aba" = .ok x := by decide +kernel
    obtain ⟨p, hp, hregex⟩ := exists_ofText_of_parse hparse
    obtain ⟨-, hdeep, -⟩ := text_reads_back hp
    exact ⟨p, hp, hdeep (hregex ▸ by decide +kernel)⟩

/-- A class whose member is the sign of the empty language is written as this sign, which accepts
nothing when it is read again: not all patterns accept the same words as their written form. -/
theorem not_forall_text_reads_back : ¬ ∀ (rules : Rules) (pattern : String) (p : Compiled),
    ofText rules pattern = .ok p →
      ∃ q, ofText rules p.regex.text = .ok q ∧ ∀ w, q.accepts w = p.accepts w := by
  intro h
  let rules := (Rules.ofAlphabet (.ofText "∅")).withClass 'e' (.ofText "∅")
  have hparse : parse rules "\\e" = .ok (.literal '∅') := by decide +kernel
  obtain ⟨p, hp, hregex⟩ := exists_ofText_of_parse hparse
  have hsign : parse rules p.regex.text = .ok .empty := hregex ▸ by decide +kernel
  obtain ⟨q, hq, hsame⟩ := h rules _ p hp
  have hempty : q.regex = .empty :=
    Except.ok.inj ((ofText_eq_ok_iff.mp hq).1.symm.trans hsign)
  have haccepts : p.accepts ['∅'] = true := by
    rw [accepts_iff hp, hregex]
    rfl
  rw [← hsame, accepts_iff hq, hempty] at haccepts
  exact haccepts

end Compiled

end Pattern

end RegularLanguages
