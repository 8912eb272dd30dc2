import RegularLanguages.Automaton.Any
import RegularLanguages.Json.Reader
import RegularLanguages.Json.Printer

/-!
# Automata as dictionaries

The written form of an automaton lists its states and symbols, and maps keys made of a state, a
comma and a symbol to destinations: one destination in a deterministic automaton, a list in the
others. Only automata with empty moves name the symbol that stands for them. Reading a dictionary
checks everything that building an automaton does.
-/

namespace RegularLanguages

/-- Where a key of a dictionary leads. -/
inductive Destinations where
  | single (q : State)
  | many (states : List State)
deriving DecidableEq, Repr

/-- The destinations one by one. -/
def Destinations.toList : Destinations → List State
  | single q => [q]
  | many states => states

/-- The written form of an automaton. -/
structure Dictionary where
  states : List State
  alphabet : List String
  transitions : Std.ExtTreeMap String Destinations
  initial : State
  finals : List State
  /-- What stands for the empty move in keys. -/
  epsilonSymbol : Option String
deriving DecidableEq

namespace Dictionary

/-- The kind a dictionary looks like: a symbol for empty moves, lists of destinations, or
neither. -/
def kind (d : Dictionary) : Kind :=
  if d.epsilonSymbol.isSome then .epsilonNFA
  else if d.transitions.values.any fun destinations => destinations matches .many _ then .nfa
  else .dfa

/-- The key of a source and a label. -/
def key (source : State) (label : Label) : String := source ++ "," ++ label.text

/-- What is left of a list in front of an ending that it has. -/
def dropEnding? (chars ending : List Char) : Option (List Char) :=
  if ending.isSuffixOf chars then some (chars.take (chars.length - ending.length)) else none

/-- The source and the label of a key. The symbol for empty moves wins over a symbol, and the last
comma that can be the separator is. -/
def splitKey? (key epsilon : String) : Option (State × Label) :=
  let chars := key.toList
  match dropEnding? chars (',' :: epsilon.toList) with
  | some source => some (String.ofList source, .epsilon)
  | none =>
    match chars.getLast? with
    | none => none
    | some a => (dropEnding? chars [',', a]).map fun source => (String.ofList source, .symbol a)

/-- Adds a transition, as one destination or to a list of them. -/
def addEdge (kind : Kind) (m : Std.ExtTreeMap String Destinations) (e : Edge) :
    Std.ExtTreeMap String Destinations :=
  let k := key e.source e.label
  match kind with
  | .dfa => m.insert k (.single e.target)
  | .nfa | .epsilonNFA =>
    match m[k]? with
    | some destinations => m.insert k (.many (destinations.toList ++ [e.target]))
    | none => m.insert k (.many [e.target])

/-- The symbols a dictionary lists, or the first that is not one character. -/
def symbols : List String → Except InvalidReason (List Symbol)
  | [] => .ok []
  | text :: rest =>
    match text.toList with
    | [a] =>
      match symbols rest with
      | .ok as => .ok (a :: as)
      | .error reason => .error reason
    | _ => .error (.notASymbol text)

/-- The transitions of the given keys, or the first key that cannot be split. -/
def edges (epsilon : String) : List (String × Destinations) → Except InvalidReason (List Edge)
  | [] => .ok []
  | (key, destinations) :: rest =>
    match splitKey? key epsilon with
    | none => .error (.malformedKey key)
    | some (source, label) =>
      match edges epsilon rest with
      | .ok es => .ok (destinations.toList.map (fun q => ⟨source, label, q⟩) ++ es)
      | .error reason => .error reason

/-- What stands for the empty move in keys unless the dictionary says otherwise. -/
def epsilonText (d : Dictionary) : String := d.epsilonSymbol.getD Label.epsilon.text

/-- The automaton of a dictionary, or the first fault: symbols come before keys, and both before
what is checked of the parts of an automaton. -/
def toAutomaton {T : Type} [TransitionTable T] (d : Dictionary) :
    Except InvalidAutomaton (Automaton T) :=
  match symbols d.alphabet with
  | .error reason => .error ⟨TransitionTable.kind T, reason⟩
  | .ok alphabet =>
    match edges d.epsilonText d.transitions.toList with
    | .error reason => .error ⟨TransitionTable.kind T, reason⟩
    | .ok transitions =>
      Automaton.ofParts d.states (.ofList alphabet) transitions d.initial d.finals

/-- The automaton of a dictionary as one of the given kind. -/
def toKind (d : Dictionary) : Kind → Except InvalidAutomaton AnyAutomaton
  | .dfa => (d.toAutomaton (T := DeterministicTable)).map .dfa
  | .nfa => (d.toAutomaton (T := NondeterministicTable)).map .nfa
  | .epsilonNFA => (d.toAutomaton (T := EpsilonTable)).map .epsilonNFA

/-- The automaton of a dictionary, of the kind that it looks like. -/
def toAny (d : Dictionary) : Except InvalidAutomaton AnyAutomaton := d.toKind d.kind

/-- The destinations of a key as a value. -/
def destinationsToJson : Destinations → Json
  | .single q => .string q
  | .many states => .array (states.map .string)

/-- The dictionary as a value. -/
def toJson (d : Dictionary) : Json :=
  .object ([("states", .array (d.states.map .string)),
    ("alphabet", .array (d.alphabet.map .string)),
    ("transitions", .object (d.transitions.toList.map fun (k, destinations) =>
      (k, destinationsToJson destinations))),
    ("initial_state", .string d.initial),
    ("final_states", .array (d.finals.map .string))]
    ++ (match d.epsilonSymbol with
        | some epsilon => [("epsilon_symbol", .string epsilon)]
        | none => []))

/-- The destinations that a value stands for. -/
def destinationsOfJson? : Json → Option Destinations
  | .string q => some (.single q)
  | json => json.asTexts?.map .many

/-- The keys and destinations that a value stands for; a repeated key keeps its last
destinations. -/
def transitionsOfJson? : Json → Option (Std.ExtTreeMap String Destinations)
  | .object members => do
    let entries ← members.mapM fun (k, value) => do return (k, ← destinationsOfJson? value)
    return .ofList entries
  | _ => none

/-- The symbol for empty moves that a field stands for; it may be missing or null. -/
def epsilonOfJson? : Option Json → Option (Option String)
  | none | some .null => some none
  | some json => json.asText?.map some

/-- The dictionary that a value stands for. -/
def ofJson? (json : Json) : Option Dictionary := do
  match ← json.record? ["states", "alphabet", "transitions", "initial_state", "final_states",
    "epsilon_symbol"] with
  | [states, alphabet, transitions, initial, finals, epsilon] =>
    return {
      states := ← (← states).asTexts?
      alphabet := ← (← alphabet).asTexts?
      transitions := ← transitionsOfJson? (← transitions)
      initial := ← (← initial).asText?
      finals := ← (← finals).asTexts?
      epsilonSymbol := ← epsilonOfJson? epsilon }
  | _ => none

/-- The dictionary that a text is written for. -/
def ofText? (text : String) : Option Dictionary := (Json.ofText? text).bind ofJson?

/-- The dictionary over several lines. -/
def text (d : Dictionary) : String := d.toJson.pretty ""

end Dictionary

namespace Automaton

variable {T : Type} [TransitionTable T]

/-- The written form of an automaton. -/
def toDictionary (A : Automaton T) : Dictionary where
  states := A.states.toList
  alphabet := A.alphabet.toList.map Char.toString
  transitions := A.edges.foldl (Dictionary.addEdge A.kind) ∅
  initial := A.initial
  finals := A.finals.toList
  epsilonSymbol := if A.kind = .epsilonNFA then some Label.epsilon.text else none

/-- The automaton that a text is written for, of the kind of the table. -/
def ofText (text : String) : Except InvalidAutomaton (Automaton T) :=
  match Dictionary.ofText? text with
  | some d => d.toAutomaton
  | none => .error ⟨TransitionTable.kind T, .unreadable⟩

end Automaton

namespace AnyAutomaton

/-- The written form of an automaton. -/
def toDictionary : AnyAutomaton → Dictionary
  | dfa A => A.toDictionary
  | nfa A => A.toDictionary
  | epsilonNFA A => A.toDictionary

/-- The automaton that a text is written for, of the kind that the text looks like. A text that
holds no dictionary is reported as an invalid deterministic automaton. -/
def ofText (text : String) : Except InvalidAutomaton AnyAutomaton :=
  match Dictionary.ofText? text with
  | some d => d.toAny
  | none => .error ⟨.dfa, .unreadable⟩

end AnyAutomaton

end RegularLanguages
