import RegularLanguages.Automaton.State

/-!
# Conversions by name

The conversions that are budgeted, cached and counted.
-/

namespace RegularLanguages

/-- A conversion. -/
inductive Operation where
  | toNFA
  | toDFA
  /-- Determinization without building an automaton without empty moves first. -/
  | toDFADirect
  | minimize
  /-- The removal of unreachable states. -/
  | trim
  | complement
  /-- From a pattern to an automaton. -/
  | compile
  | convert (kind : Kind)
deriving DecidableEq, Repr

namespace Operation

/-- The name of a conversion in messages. -/
def name : Operation → String
  | toNFA => "to_nfa"
  | toDFA => "to_dfa"
  | toDFADirect => "to_dfa_direct"
  | minimize => "minimize"
  | trim => "remove_unreachable"
  | complement => "complement"
  | compile => "compile_regex"
  | convert .dfa => "convert_to_dfa"
  | convert .nfa => "convert_to_nfa"
  | convert .epsilonNFA => "convert_to_epsilon_nfa"

/-- The kind of the result, unless it is that of the source. -/
def targetKind? : Operation → Option Kind
  | toNFA => some .nfa
  | toDFA | toDFADirect | minimize | complement => some .dfa
  | compile => some .epsilonNFA
  | convert kind => some kind
  | trim => none

end Operation

end RegularLanguages
