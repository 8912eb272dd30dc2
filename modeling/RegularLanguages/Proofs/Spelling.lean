import RegularLanguages.Pattern.Lexer

/-!
# Tokens that are spelled out

The characters that a token is written with are read as this token again, whatever follows them, if
the rules allow the token. So tokens that are spelled one behind another are read one behind
another.
-/

namespace RegularLanguages.Pattern

namespace TokenKind

/-- The rules allow the token: a literal belongs to the alphabet, and a class is known. The two
characters with a token of their own are no literals, and names that stand for themselves behind a
backslash are no classes. -/
def Allowed (rules : Rules) : TokenKind → Prop
  | literal a => a ∈ rules.alphabet ∧ a ≠ epsilonSymbol ∧ a ≠ emptyLanguageSymbol
  | symbolClass name => name ∉ metacharacters ∧ name ∈ rules.classes
  | epsilon | empty | union | star | plus | optional | opening | closing => True

/-- The number of bytes that the token is written with. -/
def width (kind : TokenKind) : Nat := kind.spelling.foldr (fun c n => c.utf8Size + n) 0

end TokenKind

/-- The tokens of the given kinds, each where the one before it ends. -/
def placed : (position : Nat) → List TokenKind → List Token
  | _, [] => []
  | position, kind :: kinds => ⟨kind, position⟩ :: placed (position + kind.width) kinds

/-- Tokens keep their kinds wherever they are placed. -/
@[simp] theorem map_kind_placed (position : Nat) (kinds : List TokenKind) :
    (placed position kinds).map Token.kind = kinds := by
  induction kinds generalizing position with
  | nil => rfl
  | cons kind kinds ih => simp [placed, ih]

/-! ## The text of tokens -/

/-- The text of tokens that are written one behind another. -/
def spelled (kinds : List TokenKind) : String := String.ofList (kinds.flatMap TokenKind.spelling)

/-- The characters of tokens that are written one behind another are those of their spellings. -/
theorem toList_spelled (kinds : List TokenKind) :
    (spelled kinds).toList = kinds.flatMap TokenKind.spelling := String.toList_ofList

/-- No tokens are written as the empty text. -/
@[simp] theorem spelled_nil : spelled [] = "" := rfl

/-- Tokens are written one list behind another. -/
@[simp] theorem spelled_append (kinds more : List TokenKind) :
    spelled (kinds ++ more) = spelled kinds ++ spelled more := by
  simp [spelled, String.ofList_append]

/-- A text has the bytes of its characters. -/
theorem utf8ByteSize_ofList (chars : List Char) :
    (String.ofList chars).utf8ByteSize = chars.foldr (fun c n => c.utf8Size + n) 0 := by
  induction chars with
  | nil => rfl
  | cons c chars ih =>
    rw [String.ofList_cons, String.utf8ByteSize_append, String.utf8ByteSize_singleton, ih,
      List.foldr_cons]

/-- A text of tokens has the bytes of its first token and those of the others. -/
theorem utf8ByteSize_spelled_cons (kind : TokenKind) (kinds : List TokenKind) :
    (spelled (kind :: kinds)).utf8ByteSize = kind.width + (spelled kinds).utf8ByteSize := by
  rw [spelled, List.flatMap_cons, String.ofList_append, String.utf8ByteSize_append,
    utf8ByteSize_ofList, TokenKind.width, spelled]

/-- Further tokens are placed behind the text of those before them. -/
theorem placed_append (position : Nat) (kinds more : List TokenKind) :
    placed position (kinds ++ more) =
      placed position kinds ++ placed (position + (spelled kinds).utf8ByteSize) more := by
  induction kinds generalizing position with
  | nil => simp [placed]
  | cons kind kinds ih =>
    rw [List.cons_append, placed, ih, utf8ByteSize_spelled_cons, Nat.add_assoc]
    rfl

/-- A token among others is placed behind the text of those before it. -/
theorem position_of_placed_eq {position : Nat} {kinds : List TokenKind} {before after : List Token}
    {token : Token} (h : placed position kinds = before ++ token :: after) :
    before = placed position (before.map Token.kind) ∧
      token.position = position + (spelled (before.map Token.kind)).utf8ByteSize := by
  have hkinds : kinds = before.map Token.kind ++ token.kind :: after.map Token.kind := by
    rw [← map_kind_placed position kinds, h, List.map_append, List.map_cons]
  rw [hkinds, placed_append] at h
  have hlength : (placed position (before.map Token.kind)).length = before.length := by
    rw [← List.length_map, map_kind_placed, List.length_map]
  obtain ⟨hbefore, hrest⟩ := List.append_inj h hlength
  exact ⟨hbefore.symm, (congrArg Token.position (List.cons.inj hrest).1).symm⟩

variable {rules : Rules}

/-- A character without a meaning of its own is read as a literal of the alphabet. -/
theorem plainKind_eq_literal {a : Symbol} (ha : a ∈ rules.alphabet) (hmeta : a ∉ metacharacters)
    (hepsilon : a ≠ epsilonSymbol) (hempty : a ≠ emptyLanguageSymbol) :
    plainKind rules a = .ok (.literal a) := by
  simp only [metacharacters, List.mem_cons, List.not_mem_nil, or_false, not_or] at hmeta
  simp [plainKind, hmeta, hepsilon, hempty, ha]

namespace Lexed

/-- A character other than the backslash is a token. -/
theorem ofChars_plain {c : Char} (h : c ≠ '\\') (position : Nat) (rest : List Char) :
    ofChars rules position (c :: rest) =
      cons position (plainKind rules c) (ofChars rules (position + c.utf8Size) rest) := by
  rw [ofChars.eq_def]
  exact if_neg (by simpa using h)

/-- A backslash and the character behind it are a token. -/
theorem ofChars_escaped (c : Char) (position : Nat) (rest : List Char) :
    ofChars rules position ('\\' :: c :: rest) = cons position (escapedKind rules c)
      (ofChars rules (position + (('\\').utf8Size + c.utf8Size)) rest) := by
  rw [ofChars, if_pos (by decide), Nat.add_assoc]

/-- A token that is spelled out is read, and then what follows it. -/
theorem ofChars_spelling {kind : TokenKind} (h : kind.Allowed rules) (position : Nat)
    (rest : List Char) : ofChars rules position (kind.spelling ++ rest) =
      cons position (.ok kind) (ofChars rules (position + kind.width) rest) := by
  cases kind with
  | literal a =>
    obtain ⟨ha, hepsilon, hempty⟩ := h
    by_cases hmeta : a ∈ metacharacters
    · have hspelling : (TokenKind.literal a).spelling = ['\\', a] := if_pos hmeta
      have hkind : escapedKind rules a = .ok (.literal a) := by
        simp [escapedKind, hmeta, ha]
      simp only [TokenKind.width, hspelling, List.cons_append, List.nil_append, ofChars_escaped,
        hkind, List.foldr_cons, List.foldr_nil, Nat.add_zero]
    · have hspelling : (TokenKind.literal a).spelling = [a] := if_neg hmeta
      have hbackslash : a ≠ '\\' := by
        rintro rfl
        exact hmeta (by decide)
      simp [TokenKind.width, hspelling, ofChars_plain hbackslash,
        plainKind_eq_literal ha hmeta hepsilon hempty]
  | symbolClass name =>
    obtain ⟨hmeta, hclass⟩ := h
    have hkind : escapedKind rules name = .ok (.symbolClass name) := by
      simp [escapedKind, hmeta, hclass]
    simp only [TokenKind.width, TokenKind.spelling, List.cons_append, List.nil_append,
      ofChars_escaped, hkind, List.foldr_cons, List.foldr_nil, Nat.add_zero]
  | epsilon | empty | union | star | plus | optional | opening | closing =>
    exact ofChars_plain (by decide) position rest

/-- Tokens that are spelled one behind another are read one behind another, and then what follows
them. -/
theorem ofChars_spelled_append {kinds : List TokenKind} (h : ∀ kind ∈ kinds, kind.Allowed rules)
    (position : Nat) (chars : List Char) :
    ofChars rules position ((spelled kinds).toList ++ chars) =
      ⟨placed position kinds ++
        (ofChars rules (position + (spelled kinds).utf8ByteSize) chars).tokens,
        (ofChars rules (position + (spelled kinds).utf8ByteSize) chars).error⟩ := by
  induction kinds generalizing position with
  | nil => rfl
  | cons kind kinds ih =>
    have hkinds := ih fun kind hkind => h kind (List.mem_cons_of_mem _ hkind)
    rw [toList_spelled] at hkinds
    rw [toList_spelled, List.flatMap_cons, List.append_assoc,
      ofChars_spelling (h kind List.mem_cons_self), hkinds, utf8ByteSize_spelled_cons,
      Nat.add_assoc]
    rfl

/-- A text of tokens is split into these tokens, and then what follows it. -/
theorem ofText_spelled_append {kinds : List TokenKind} (h : ∀ kind ∈ kinds, kind.Allowed rules)
    (rest : String) : ofText rules (spelled kinds ++ rest) =
      ⟨placed 0 kinds ++ (ofChars rules (spelled kinds).utf8ByteSize rest.toList).tokens,
        (ofChars rules (spelled kinds).utf8ByteSize rest.toList).error⟩ := by
  rw [ofText, String.toList_append, ofChars_spelled_append h, Nat.zero_add]

/-- A text of tokens is split into these tokens. -/
theorem ofText_spelled {kinds : List TokenKind} (h : ∀ kind ∈ kinds, kind.Allowed rules) :
    ofText rules (spelled kinds) = ⟨placed 0 kinds, none⟩ := by
  rw [← String.append_empty (s := spelled kinds), ofText_spelled_append h]
  simp [ofChars]

end Lexed

end RegularLanguages.Pattern
