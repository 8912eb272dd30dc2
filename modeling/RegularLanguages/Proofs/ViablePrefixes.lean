import RegularLanguages.Proofs.TokenSequences

/-!
# Errors stand where a pattern goes wrong

A pattern that cannot be read is refused at the first place at which it goes wrong. What stands
before the place can be completed: the tokens are read, an operand is added where one has to follow,
and the open groups are closed. What stands at the place cannot follow, however the pattern goes on,
unless it is the end of the pattern that comes too soon.
-/

namespace RegularLanguages.Pattern

variable {rules : Rules} {kinds : List TokenKind} {reading : Reading}

/-- Some pattern that can be read begins with the text. -/
def Viable (rules : Rules) (text : String) : Prop :=
  ∃ rest x, parse rules (text ++ rest) = .ok x

/-! ## Reading tokens in parts -/

namespace Reading

variable {next : Reading} {tokens more : List Token} {e : PatternError}

/-- Tokens are read, and then what follows them. -/
theorem readAll_append (h : reading.readAll rules tokens = .ok next) :
    reading.readAll rules (tokens ++ more) = next.readAll rules more := by
  induction tokens generalizing reading with
  | nil =>
    obtain rfl := Except.ok.inj h
    rfl
  | cons token tokens ih =>
    obtain ⟨middle, hread, h⟩ := exists_read_of_readAll_cons h
    rw [List.cons_append, readAll_of_read hread, ih h]

/-- If tokens are read, then so are those before any of them. -/
theorem exists_readAll_of_append (h : reading.readAll rules (tokens ++ more) = .ok next) :
    ∃ middle, reading.readAll rules tokens = .ok middle := by
  induction tokens generalizing reading with
  | nil => exact ⟨reading, rfl⟩
  | cons token tokens ih =>
    obtain ⟨middle, hread, h⟩ := exists_read_of_readAll_cons h
    rw [readAll_of_read hread]
    exact ih h

/-- Reading stops at a token that is at fault, behind tokens that are not. -/
theorem exists_of_readAll_eq_error (h : reading.readAll rules tokens = .error e) :
    ∃ before token after middle, tokens = before ++ token :: after ∧
      reading.readAll rules before = .ok middle ∧ middle.read rules token = .error e := by
  induction tokens generalizing reading with
  | nil => contradiction
  | cons token tokens ih =>
    rw [readAll_cons] at h
    cases hread : reading.read rules token with
    | error f =>
      rw [hread] at h
      exact ⟨[], token, tokens, reading, rfl, rfl, hread.trans h⟩
    | ok next =>
      rw [hread] at h
      obtain ⟨before, last, after, middle, rfl, hbefore, hlast⟩ := ih h
      exact ⟨token :: before, last, after, middle, rfl, by rw [readAll_of_read hread, hbefore],
        hlast⟩

end Reading

/-- The end of the pattern is to blame, and no token. -/
def GrammarFault.IsEnding (fault : GrammarFault) : Prop :=
  fault = .operandExpected ∨ fault = .unclosedGroup

/-- If something goes wrong, then with the token at the place, and not with the end. -/
def StandsAt (position : Nat) (outcome : Except PatternError Reading) : Prop :=
  ∀ e, outcome = .error e → ∃ fault, e = .grammar position fault ∧ ¬fault.IsEnding

namespace StandsAt

variable {position : Nat}

/-- An outcome without an error stands at every place. -/
@[simp] theorem ok {reading : Reading} : StandsAt position (.ok reading) := nofun

/-- An error of the grammar stands at its place, unless the end is to blame. -/
@[simp] theorem error {fault : GrammarFault} :
    StandsAt position (.error (.grammar position fault)) ↔ ¬fault.IsEnding := by
  constructor
  · intro h
    obtain ⟨other, heq, hother⟩ := h _ rfl
    obtain ⟨-, rfl⟩ := PatternError.grammar.inj heq
    exact hother
  · intro h e he
    exact ⟨fault, (Except.error.inj he).symm, h⟩

end StandsAt

namespace Reading

variable (reading : Reading)

/-- An error for a postfix operator stands at its token. -/
theorem standsAt_postfixOperator (token : Token) (operator : Regex → Regex) :
    StandsAt token.position (reading.postfixOperator token operator) := by
  unfold postfixOperator
  split <;> simp [GrammarFault.IsEnding]

/-- An error for an alternative stands at its token. -/
theorem standsAt_alternative (position : Nat) :
    StandsAt position (reading.alternative position) := by
  unfold alternative
  split <;> simp [GrammarFault.IsEnding]

/-- An error for an opening parenthesis stands at its token. -/
theorem standsAt_openGroup (position : Nat) :
    StandsAt position (reading.openGroup rules position) := by
  unfold openGroup
  split <;> simp [GrammarFault.IsEnding]

/-- An error for a closing parenthesis stands at its token. -/
theorem standsAt_closeGroup (position : Nat) :
    StandsAt position (reading.closeGroup position) := by
  unfold closeGroup
  split
  case h_4 => split <;> simp [GrammarFault.IsEnding]
  all_goals simp [GrammarFault.IsEnding]

/-- A token that is at fault has the place of the error. -/
theorem standsAt_read (token : Token) : StandsAt token.position (reading.read rules token) := by
  unfold read
  cases token.kind with
  | literal | symbolClass | epsilon | empty => exact .ok
  | star | plus | optional => exact standsAt_postfixOperator _ _ _
  | union => exact standsAt_alternative _ _
  | opening => exact standsAt_openGroup _ _
  | closing => exact standsAt_closeGroup _ _

end Reading

/-! ## Completing what has been read -/

/-- An operand that is added makes the frame an expression. -/
theorem Frame.exists_expression?_push (frame : Frame) (x : Regex) :
    ∃ y, (frame.push x).expression? = some y := ⟨_, rfl⟩

namespace Reading

/-- What completes an expression: an operand where one has to follow, and the closing of the groups
that are open. -/
def completion (reading : Reading) : List TokenKind :=
  (if reading.frame.expression?.isSome then [] else [.epsilon]) ++
    List.replicate reading.enclosing.length .closing

/-- The rules allow what completes an expression, whatever the alphabet is. -/
theorem allowed_of_mem_completion (reading : Reading) :
    ∀ kind ∈ reading.completion, kind.Allowed rules := by
  intro kind hkind
  rw [completion, List.mem_append] at hkind
  rcases hkind with hkind | hkind
  · split at hkind
    · contradiction
    · rw [List.mem_singleton.mp hkind]
      trivial
  · rw [List.eq_of_mem_replicate hkind]
    trivial

/-- The groups around an expression can be closed one after another. -/
theorem exists_finish_closings (rules : Rules) {frame : Frame} {enclosing : List (Nat × Frame)}
    {x : Regex} (h : frame.expression? = some x) {tokens : List Token}
    (htokens : tokens.map Token.kind = List.replicate enclosing.length .closing) (position : Nat) :
    ∃ next y, readAll rules ⟨frame, enclosing⟩ tokens = .ok next ∧
      next.finish position = .ok y := by
  induction enclosing generalizing frame x tokens with
  | nil =>
    obtain rfl := List.map_eq_nil_iff.mp htokens
    exact ⟨_, x, rfl, by simp only [finish, h]⟩
  | cons outer enclosing ih =>
    obtain ⟨token, tokens, rfl, hkind, htail⟩ := List.map_eq_cons_iff.mp htokens
    have hread : read rules ⟨frame, outer :: enclosing⟩ token =
        .ok ⟨outer.2.push (.group x), enclosing⟩ := by
      simp only [read, hkind, closeGroup, h]
    obtain ⟨y, hy⟩ := outer.2.exists_expression?_push (.group x)
    rw [readAll_of_read hread]
    exact ih hy htail

/-- Whatever has been read, its completion is read to the end. -/
theorem exists_finish_completion (rules : Rules) (reading : Reading) {tokens : List Token}
    (htokens : tokens.map Token.kind = reading.completion) (position : Nat) :
    ∃ next x, reading.readAll rules tokens = .ok next ∧ next.finish position = .ok x := by
  cases hexpr : reading.frame.expression? with
  | some x =>
    rw [completion, hexpr] at htokens
    exact exists_finish_closings rules hexpr htokens position
  | none =>
    rw [completion, hexpr] at htokens
    obtain ⟨token, tokens, rfl, hkind, htail⟩ := List.map_eq_cons_iff.mp htokens
    have hread : reading.read rules token = .ok (reading.operand .epsilon) := by
      simp only [read, hkind]
    obtain ⟨x, hx⟩ := reading.frame.exists_expression?_push .epsilon
    rw [readAll_of_read hread]
    exact exists_finish_closings rules hx htail position

end Reading

/-! ## Open parentheses -/

/-- The places of the parentheses that are open, the innermost first, with one token more. -/
def Token.track (places : List Nat) (token : Token) : List Nat :=
  match token.kind with
  | .opening => token.position :: places
  | .closing => places.tail
  | _ => places

/-- The places of the parentheses that no token closes, the innermost first. -/
def openPlaces (tokens : List Token) : List Nat := tokens.foldl Token.track []

/-- A place that is tracked was tracked before, or an opening parenthesis stands there. -/
theorem mem_of_mem_foldl_track {tokens : List Token} {places : List Nat} {position : Nat}
    (h : position ∈ tokens.foldl Token.track places) :
    position ∈ places ∨ ⟨.opening, position⟩ ∈ tokens := by
  induction tokens generalizing places with
  | nil => exact .inl h
  | cons token tokens ih =>
    rcases ih h with htracked | hmem
    · obtain ⟨kind, place⟩ := token
      cases kind with
      | opening =>
        rcases List.mem_cons.mp htracked with rfl | hold
        · exact .inr List.mem_cons_self
        · exact .inl hold
      | closing => exact .inl (List.mem_of_mem_tail htracked)
      | _ => exact .inl htracked
    · exact .inr (List.mem_cons_of_mem _ hmem)

namespace Reading

/-- The places of the parentheses around the innermost expression. -/
def places (reading : Reading) : List Nat := reading.enclosing.map Prod.fst

variable {next : Reading} {tokens : List Token} {token : Token}

/-- A postfix operator opens and closes no group. -/
theorem places_of_postfixOperator {operator : Regex → Regex}
    (h : reading.postfixOperator token operator = .ok next) : next.places = reading.places := by
  unfold postfixOperator at h
  split at h
  · rw [← Except.ok.inj h]
    rfl
  · contradiction

/-- An alternative opens and closes no group. -/
theorem places_of_alternative {position : Nat} (h : reading.alternative position = .ok next) :
    next.places = reading.places := by
  unfold alternative at h
  split at h
  · rw [← Except.ok.inj h]
    rfl
  · contradiction

/-- An opening parenthesis opens a group at its place. -/
theorem places_of_openGroup {position : Nat} (h : reading.openGroup rules position = .ok next) :
    next.places = position :: reading.places := by
  unfold openGroup at h
  split at h
  · contradiction
  · rw [← Except.ok.inj h]
    rfl

/-- A closing parenthesis closes the innermost group. -/
theorem places_of_closeGroup {position : Nat} (h : reading.closeGroup position = .ok next) :
    next.places = reading.places.tail := by
  unfold closeGroup at h
  split at h
  case h_1 henclosing =>
    rw [← Except.ok.inj h, places, places, henclosing]
    rfl
  case h_4 => split at h <;> contradiction
  all_goals contradiction

/-- A token that is read opens and closes the parentheses that it says. -/
theorem places_of_read (h : reading.read rules token = .ok next) :
    next.places = token.track reading.places := by
  obtain ⟨kind, position⟩ := token
  cases kind with
  | literal | symbolClass | epsilon | empty =>
    rw [← Except.ok.inj h]
    rfl
  | star | plus | optional => exact places_of_postfixOperator h
  | union => exact places_of_alternative h
  | opening => exact places_of_openGroup h
  | closing => exact places_of_closeGroup h

/-- After any number of tokens, the parentheses are open that no token has closed. -/
theorem places_of_readAll (h : reading.readAll rules tokens = .ok next) :
    next.places = tokens.foldl Token.track reading.places := by
  induction tokens generalizing reading with
  | nil =>
    obtain rfl := Except.ok.inj h
    rfl
  | cons token tokens ih =>
    obtain ⟨middle, hread, h⟩ := exists_read_of_readAll_cons h
    rw [ih h, places_of_read hread, List.foldl_cons]

end Reading

/-- The parentheses that are open behind tokens are those around the innermost expression. -/
theorem openPlaces_eq_places {tokens : List Token}
    (h : Reading.start.readAll rules tokens = .ok reading) :
    openPlaces tokens = reading.places := (Reading.places_of_readAll h).symm

/-- In front of an open parenthesis there are tokens that are read. -/
theorem exists_split_of_mem_openPlaces
    (h : Reading.start.readAll rules (placed 0 kinds) = .ok reading) {opened : Nat}
    (hopened : opened ∈ openPlaces (placed 0 kinds)) :
    ∃ front back middle, kinds = front ++ TokenKind.opening :: back ∧
      opened = (spelled front).utf8ByteSize ∧
      Reading.start.readAll rules (placed 0 front) = .ok middle := by
  have hmem : ⟨.opening, opened⟩ ∈ placed 0 kinds :=
    (mem_of_mem_foldl_track hopened).resolve_left List.not_mem_nil
  obtain ⟨front, back, hsplit⟩ := List.append_of_mem hmem
  obtain ⟨hfront, hposition⟩ := position_of_placed_eq hsplit
  obtain ⟨middle, hmiddle⟩ := Reading.exists_readAll_of_append (hsplit ▸ h)
  refine ⟨front.map Token.kind, back.map Token.kind, middle, ?_, ?_, hfront ▸ hmiddle⟩
  · rw [← map_kind_placed 0 kinds, hsplit, List.map_append, List.map_cons]
  · rw [← Nat.zero_add (String.utf8ByteSize _), ← hposition]

/-! ## Texts that can and that cannot be completed -/

/-- Allowed tokens that are read to the end are the tokens of a pattern. -/
theorem exists_parse_spelled (hkinds : ∀ kind ∈ kinds, kind.Allowed rules)
    (hread : Reading.start.readAll rules (placed 0 kinds) = .ok reading) {position : Nat}
    {x : Regex} (hfinish : reading.finish position = .ok x) :
    ∃ y, parse rules (spelled kinds) = .ok y := by
  have hexpr := (finish_readAll_iff position).mp ⟨reading, hread, hfinish⟩
  refine ⟨x, (parse_eq_ok_iff rules _ x).mpr ⟨?_, placed 0 kinds, ?_, hexpr⟩⟩
  · intro hempty
    have hlexed := Lexed.ofText_spelled hkinds
    rw [hempty] at hlexed
    have hnil : placed 0 kinds = [] := (congrArg Lexed.tokens hlexed).symm
    rw [hnil] at hread
    obtain rfl := Except.ok.inj hread
    contradiction
  · rw [Lexed.ofText_spelled hkinds]
    rfl

/-- The text of tokens that are read can be completed. -/
theorem viable_of_readAll (hkinds : ∀ kind ∈ kinds, kind.Allowed rules)
    (hread : Reading.start.readAll rules (placed 0 kinds) = .ok reading) :
    Viable rules (spelled kinds) := by
  have hkind := map_kind_placed (0 + (spelled kinds).utf8ByteSize) reading.completion
  obtain ⟨next, x, hending, hfinish⟩ := reading.exists_finish_completion rules hkind 0
  have hall : Reading.start.readAll rules (placed 0 (kinds ++ reading.completion)) = .ok next := by
    rw [placed_append, Reading.readAll_append hread, hending]
  have hallowed : ∀ kind ∈ kinds ++ reading.completion, kind.Allowed rules :=
    List.forall_mem_append.mpr ⟨hkinds, reading.allowed_of_mem_completion⟩
  obtain ⟨y, hy⟩ := exists_parse_spelled hallowed hall hfinish
  rw [spelled_append] at hy
  exact ⟨_, y, hy⟩

/-- The tokens of a pattern that can be read are all read. -/
theorem exists_readAll_of_parse {pattern : String} {x : Regex} (h : parse rules pattern = .ok x) :
    (Lexed.ofText rules pattern).error = none ∧ ∃ reading,
      Reading.start.readAll rules (Lexed.ofText rules pattern).tokens = .ok reading := by
  obtain ⟨-, tokens, hlexed, hexpr⟩ := (parse_eq_ok_iff rules pattern x).mp h
  obtain ⟨reading, hread, -⟩ := (finish_readAll_iff 0).mpr hexpr
  unfold Lexed.all at hlexed
  split at hlexed
  · contradiction
  · rename_i herror
    obtain rfl := Except.ok.inj hlexed
    exact ⟨herror, reading, hread⟩

/-- A token that is at fault cannot follow the tokens before it, whatever comes then. -/
theorem not_viable_of_read_eq_error {kind : TokenKind} {e : PatternError}
    (hkinds : ∀ kind ∈ kinds, kind.Allowed rules) (hkind : kind.Allowed rules)
    (hread : Reading.start.readAll rules (placed 0 kinds) = .ok reading)
    (herror : reading.read rules ⟨kind, (spelled kinds).utf8ByteSize⟩ = .error e) :
    ¬Viable rules (spelled kinds ++ spelled [kind]) := by
  intro h
  obtain ⟨rest, x, hparse⟩ := h
  have hallowed : ∀ k ∈ kinds ++ [kind], k.Allowed rules :=
    List.forall_mem_append.mpr ⟨hkinds, List.forall_mem_singleton.mpr hkind⟩
  obtain ⟨-, next, hall⟩ := exists_readAll_of_parse hparse
  rw [← spelled_append, Lexed.ofText_spelled_append hallowed, placed_append, List.append_assoc,
    Reading.readAll_append hread, Nat.zero_add] at hall
  simp only [placed, List.singleton_append, Reading.readAll_cons, herror] at hall
  contradiction

/-- Characters that begin with no token cannot follow tokens, whatever comes then. -/
theorem not_viable_of_refused {fault : LexicalFault} {offending : String}
    (hkinds : ∀ kind ∈ kinds, kind.Allowed rules)
    (hrefused : ∀ rest, Refused rules fault (offending.toList ++ rest)) :
    ¬Viable rules (spelled kinds ++ offending) := by
  intro h
  obtain ⟨rest, x, hparse⟩ := h
  obtain ⟨herror, -⟩ := exists_readAll_of_parse hparse
  rw [String.append_assoc, Lexed.ofText_spelled_append hkinds, String.toList_append,
    Lexed.ofChars_of_refused (hrefused _)] at herror
  contradiction

/-! ## Where a pattern goes wrong -/

/-- The characters that a fault in the characters names. -/
def LexicalFault.offending? : LexicalFault → Option (List Char)
  | emptyPattern | truncatedEscape => none
  | foreignEscape c | unknownEscape c => some ['\\', c]
  | unknownCharacter c => some [c]

/-- Characters that begin with no token are a backslash at the end, or they begin with the
characters that the fault names, and what follows these does not matter. -/
theorem Refused.offending_cases {fault : LexicalFault} {chars : List Char}
    (h : Refused rules fault chars) : fault = .truncatedEscape ∧ chars = ['\\'] ∨
      ∃ unit rest, fault.offending? = some unit ∧ chars = unit ++ rest ∧
        ∀ rest, Refused rules fault (unit ++ rest) := by
  cases h with
  | truncatedEscape => exact .inl ⟨rfl, rfl⟩
  | @foreignEscape c rest hmeta halphabet =>
    exact .inr ⟨['\\', c], rest, rfl, rfl, fun rest => .foreignEscape rest hmeta halphabet⟩
  | @unknownEscape c rest hmeta hclass =>
    exact .inr ⟨['\\', c], rest, rfl, rfl, fun rest => .unknownEscape rest hmeta hclass⟩
  | @unknownCharacter c rest hmeta hepsilon hempty halphabet =>
    exact .inr ⟨[c], rest, rfl, rfl,
      fun rest => .unknownCharacter rest hmeta hepsilon hempty halphabet⟩

/-- What goes wrong behind tokens that have been read: the next token is at fault, no token begins
there, or it is the end of the pattern. -/
inductive GoesWrong (rules : Rules) (kinds : List TokenKind) (reading : Reading) :
    (rest : String) → PatternError → Prop where
  | token {kind : TokenKind} {e : PatternError} (rest : String) : kind.Allowed rules →
      reading.read rules ⟨kind, (spelled kinds).utf8ByteSize⟩ = .error e →
        GoesWrong rules kinds reading (spelled [kind] ++ rest) e
  | characters {fault : LexicalFault} {rest : String} : Refused rules fault rest.toList →
      GoesWrong rules kinds reading rest (.lexical (spelled kinds).utf8ByteSize fault)
  | ending {e : PatternError} : reading.finish (spelled kinds).utf8ByteSize = .error e →
      GoesWrong rules kinds reading "" e

/-- A pattern that cannot be read is empty, or it goes wrong behind some tokens that are read. -/
theorem exists_goesWrong_of_parse {pattern : String} {e : PatternError}
    (h : parse rules pattern = .error e) : pattern = "" ∧ e = .lexical 0 .emptyPattern ∨
      ∃ kinds reading rest, (∀ kind ∈ kinds, kind.Allowed rules) ∧
        pattern = spelled kinds ++ rest ∧
        Reading.start.readAll rules (placed 0 kinds) = .ok reading ∧
        GoesWrong rules kinds reading rest e := by
  unfold parse at h
  split at h
  · rename_i hempty
    exact .inl ⟨by simpa using hempty, (Except.error.inj h).symm⟩
  right
  obtain ⟨kinds, rest, hkinds, hpattern, htokens, hrest⟩ :=
    Lexed.exists_tokens_eq_placed rules pattern
  simp only [htokens] at h
  cases hread : Reading.start.readAll rules (placed 0 kinds) with
  | error f =>
    obtain rfl : f = e := by simpa [hread] using h
    obtain ⟨before, token, after, reading, hsplit, hbefore, hlast⟩ :=
      Reading.exists_of_readAll_eq_error hread
    obtain ⟨hplaced, hposition⟩ := position_of_placed_eq hsplit
    have hsplit : kinds = before.map Token.kind ++ [token.kind] ++ after.map Token.kind := by
      rw [← map_kind_placed 0 kinds, hsplit]
      simp
    rw [hsplit] at hkinds
    rw [hplaced] at hbefore
    have htoken : token = ⟨token.kind, (spelled (before.map Token.kind)).utf8ByteSize⟩ := by
      rw [← Nat.zero_add (String.utf8ByteSize _), ← hposition]
    rw [htoken] at hlast
    refine ⟨before.map Token.kind, reading,
      spelled [token.kind] ++ (spelled (after.map Token.kind) ++ rest),
      fun kind hkind => hkinds kind (by simp [hkind]), ?_, hbefore,
      .token _ (hkinds _ (by simp)) hlast⟩
    rw [hpattern, hsplit, spelled_append, spelled_append, String.append_assoc,
      String.append_assoc]
  | ok reading =>
    refine ⟨kinds, reading, rest, hkinds, hpattern, hread, ?_⟩
    rcases hrest with ⟨rfl, herror⟩ | ⟨fault, hrefused, herror⟩
    · have hpattern : pattern = spelled kinds := by rw [hpattern, String.append_empty]
      rw [hread, herror, hpattern] at h
      exact .ending h
    · obtain rfl : PatternError.lexical (spelled kinds).utf8ByteSize fault = e := by
        simpa [hread, herror] using h
      exact .characters hrefused

/-- The end of the pattern comes too soon: there is nothing in the pattern, the last character is a
backslash, an operand is missing, or some pattern that can be read begins with all of it, and the
parenthesis at the place is the innermost one that is still open. -/
inductive EndsTooSoon (rules : Rules) (pattern after : String) : PatternError → Prop where
  | empty : pattern = "" → EndsTooSoon rules pattern after (.lexical 0 .emptyPattern)
  | escape {position : Nat} : after = "\\" →
      EndsTooSoon rules pattern after (.lexical position .truncatedEscape)
  | operand {position : Nat} : after = "" →
      EndsTooSoon rules pattern after (.grammar position .operandExpected)
  | group {position : Nat} : Viable rules pattern → (Lexed.ofText rules pattern).error = none →
      (openPlaces (Lexed.ofText rules pattern).tokens).head? = some position →
        EndsTooSoon rules pattern after (.grammar position .unclosedGroup)

/-- The text is that of the token that is out of order, or of the character or the escape that is no
token. -/
inductive Offends (lexed : Lexed) : PatternError → String → Prop where
  | token {token : Token} {fault : GrammarFault} : token ∈ lexed.tokens → ¬fault.IsEnding →
      Offends lexed (.grammar token.position fault) (spelled [token.kind])
  | characters {position : Nat} {fault : LexicalFault} {unit : List Char} :
      fault.offending? = some unit →
        Offends lexed (.lexical position fault) (String.ofList unit)

/-- The pattern goes wrong at the place of the error and not earlier: what stands before the place
is split into tokens without an error, and some pattern that can be read begins with it. The
pattern just ends too soon, or no pattern that can be read begins with what stands before the place
and the token, the character or the escape at the place. -/
structure FirstFault (rules : Rules) (pattern : String) (e : PatternError)
    (before after : String) : Prop where
  eq_append : pattern = before ++ after
  position_eq : e.position? = some before.utf8ByteSize
  error_eq : (Lexed.ofText rules before).error = none
  viable : Viable rules before
  cause : EndsTooSoon rules pattern after e ∨
    ∃ offending rest, after = offending ++ rest ∧
      Offends (Lexed.ofText rules pattern) e offending ∧ ¬Viable rules (before ++ offending)

namespace FirstFault

variable {rest : String} {e : PatternError}

/-- The place is behind tokens that are read. -/
theorem of_readAll (hkinds : ∀ kind ∈ kinds, kind.Allowed rules)
    (hread : Reading.start.readAll rules (placed 0 kinds) = .ok reading)
    (hposition : e.position? = some (spelled kinds).utf8ByteSize)
    (hcause : EndsTooSoon rules (spelled kinds ++ rest) rest e ∨
      ∃ offending more, rest = offending ++ more ∧
        Offends (Lexed.ofText rules (spelled kinds ++ rest)) e offending ∧
        ¬Viable rules (spelled kinds ++ offending)) :
    FirstFault rules (spelled kinds ++ rest) e (spelled kinds) rest where
  eq_append := rfl
  position_eq := hposition
  error_eq := congrArg Lexed.error (Lexed.ofText_spelled hkinds)
  viable := viable_of_readAll hkinds hread
  cause := hcause

/-- There are no tokens in the empty pattern, and the end comes too soon. -/
theorem of_empty : FirstFault rules "" (.lexical 0 .emptyPattern) "" "" := by
  have hread : Reading.start.readAll rules (placed 0 []) = .ok .start := rfl
  have hempty : EndsTooSoon rules (spelled [] ++ "") "" (.lexical 0 .emptyPattern) := .empty rfl
  exact of_readAll (List.forall_mem_nil _) hread rfl (.inl hempty)

/-- A token that is at fault is the offending one. -/
theorem of_read {kind : TokenKind} (hkinds : ∀ kind ∈ kinds, kind.Allowed rules)
    (hkind : kind.Allowed rules)
    (hread : Reading.start.readAll rules (placed 0 kinds) = .ok reading)
    (herror : reading.read rules ⟨kind, (spelled kinds).utf8ByteSize⟩ = .error e) :
    FirstFault rules (spelled kinds ++ (spelled [kind] ++ rest)) e (spelled kinds)
      (spelled [kind] ++ rest) := by
  obtain ⟨fault, rfl, hfault⟩ := reading.standsAt_read _ e herror
  have hmem : ⟨kind, (spelled kinds).utf8ByteSize⟩ ∈
      (Lexed.ofText rules (spelled kinds ++ (spelled [kind] ++ rest))).tokens := by
    have hallowed : ∀ k ∈ kinds ++ [kind], k.Allowed rules :=
      List.forall_mem_append.mpr ⟨hkinds, List.forall_mem_singleton.mpr hkind⟩
    rw [← String.append_assoc, ← spelled_append, Lexed.ofText_spelled_append hallowed,
      placed_append]
    simp [placed]
  exact of_readAll hkinds hread rfl (.inr ⟨_, rest, rfl, .token hmem hfault,
    not_viable_of_read_eq_error hkinds hkind hread herror⟩)

/-- Characters that begin with no token are a backslash at the end, or the offending characters
are among them. -/
theorem of_refused {fault : LexicalFault} (hkinds : ∀ kind ∈ kinds, kind.Allowed rules)
    (hread : Reading.start.readAll rules (placed 0 kinds) = .ok reading)
    (hrefused : Refused rules fault rest.toList) :
    FirstFault rules (spelled kinds ++ rest) (.lexical (spelled kinds).utf8ByteSize fault)
      (spelled kinds) rest := by
  rcases hrefused.offending_cases with ⟨rfl, hrest⟩ | ⟨unit, more, hunit, hrest, hunits⟩
  · exact of_readAll hkinds hread rfl (.inl (.escape (String.toList_inj.mp hrest)))
  · obtain rfl : rest = String.ofList unit ++ String.ofList more := by
      rw [← String.ofList_append, ← hrest, String.ofList_toList]
    refine of_readAll hkinds hread rfl (.inr ⟨_, _, rfl, .characters hunit, ?_⟩)
    rw [← String.toList_ofList (l := unit)] at hunits
    exact not_viable_of_refused hkinds hunits

/-- If the last expression is not complete, then an operand is missing at the end, and otherwise the
innermost of the open parentheses is not closed. -/
theorem of_finish (hkinds : ∀ kind ∈ kinds, kind.Allowed rules)
    (hread : Reading.start.readAll rules (placed 0 kinds) = .ok reading)
    (herror : reading.finish (spelled kinds).utf8ByteSize = .error e) :
    ∃ before after, FirstFault rules (spelled kinds) e before after := by
  unfold Reading.finish at herror
  split at herror
  case h_1 =>
    obtain rfl := Except.error.inj herror
    rw [← String.append_empty (s := spelled kinds)]
    exact ⟨_, _, of_readAll hkinds hread (by rw [String.append_empty]; rfl) (.inl (.operand rfl))⟩
  case h_2 opened _ _ _ henclosing =>
    obtain rfl := Except.error.inj herror
    have hviable := viable_of_readAll hkinds hread
    have hlexed := Lexed.ofText_spelled hkinds
    have hhead : (openPlaces (Lexed.ofText rules (spelled kinds)).tokens).head? = some opened := by
      rw [hlexed, openPlaces_eq_places hread, Reading.places, henclosing]
      rfl
    obtain ⟨front, back, middle, rfl, rfl, hmiddle⟩ :=
      exists_split_of_mem_openPlaces hread (hlexed ▸ List.mem_of_mem_head? hhead)
    rw [spelled_append] at hviable hlexed hhead ⊢
    exact ⟨_, _, of_readAll (List.forall_mem_append.mp hkinds).1 hmiddle rfl
      (.inl (.group hviable (congrArg Lexed.error hlexed) hhead))⟩
  case h_3 => contradiction

/-- The place says where the pattern is split. -/
theorem eq_of_position {before after text : String}
    (h : FirstFault rules (text ++ rest) e before after)
    (hposition : e.position? = some text.utf8ByteSize) : before = text ∧ after = rest := by
  have hbytes := congrArg String.toByteArray h.eq_append
  rw [String.toByteArray_append, String.toByteArray_append] at hbytes
  have hsize : text.utf8ByteSize = before.utf8ByteSize :=
    Option.some.inj (hposition.symm.trans h.position_eq)
  obtain rfl := String.toByteArray_inj.mp (ByteArray.append_inj_left hbytes hsize)
  exact ⟨rfl, ((String.append_right_inj _).mp h.eq_append).symm⟩

end FirstFault

/-- A pattern that cannot be read is refused at a place between two characters. What stands before
the place is split into tokens without an error, and some pattern that can be read begins with it.
If the pattern does not just end too soon, then no pattern that can be read begins with what stands
before the place and the token, the character or the escape at the place. -/
theorem parse_refuses_at_first_fault {pattern : String} {e : PatternError}
    (h : parse rules pattern = .error e) :
    ∃ before after, FirstFault rules pattern e before after := by
  rcases exists_goesWrong_of_parse h with
    ⟨rfl, rfl⟩ | ⟨kinds, reading, rest, hkinds, rfl, hread, hwrong⟩
  · exact ⟨"", "", .of_empty⟩
  cases hwrong with
  | token rest hkind herror => exact ⟨_, _, .of_read hkinds hkind hread herror⟩
  | characters hrefused => exact ⟨_, _, .of_refused hkinds hread hrefused⟩
  | ending herror =>
    rw [String.append_empty]
    exact FirstFault.of_finish hkinds hread herror

/-- A text that ends with a union sign can be completed, but not with a star behind the sign. -/
theorem parse_refuses_star_behind_union_sign :
    let rules := Rules.ofAlphabet (.ofText "ab")
    parse rules "(a|*b" = .error (.grammar 3 (.strayOperator .star)) ∧
      Viable rules "(a|" ∧ ¬Viable rules "(a|*" := by
  intro rules
  have hparse : parse rules ("(a|" ++ "*b") = .error (.grammar 3 (.strayOperator .star)) := by
    decide +kernel
  have hstar : ∀ token ∈ (Lexed.ofText rules ("(a|" ++ "*b")).tokens, token.position = 3 →
      token.kind = .star := by
    decide +kernel
  obtain ⟨before, after, hfirst⟩ := parse_refuses_at_first_fault hparse
  obtain ⟨rfl, rfl⟩ := hfirst.eq_of_position rfl
  refine ⟨hparse, hfirst.viable, ?_⟩
  rcases hfirst.cause with hending | ⟨offending, rest, -, hoffends, hviable⟩
  · cases hending
  · obtain rfl : offending = spelled [.star] := by
      generalize he : PatternError.grammar 3 (.strayOperator .star) = e at hoffends
      cases hoffends with
      | characters => contradiction
      | token hmem =>
        obtain ⟨hposition, -⟩ := PatternError.grammar.inj he
        rw [hstar _ hmem hposition.symm]
    exact hviable

end RegularLanguages.Pattern
