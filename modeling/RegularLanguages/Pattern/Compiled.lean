import RegularLanguages.Pattern.Parser
import RegularLanguages.Regex.Fragment
import RegularLanguages.Automaton.Nondeterministic

/-!
# Compiled patterns

A pattern together with its expression and the automaton made from it.
-/

namespace RegularLanguages.Pattern

/-- A pattern that has been read. -/
structure Compiled where
  text : String
  rules : Rules
  regex : Regex
  automaton : EpsilonNFA

namespace Compiled

/-- Reads a pattern and makes its automaton. -/
def ofText (rules : Rules) (pattern : String) : Except PatternError Compiled :=
  match parse rules pattern with
  | .error e => .error e
  | .ok regex =>
    match regex.toAutomaton rules.alphabet with
    | .error e => .error e
    | .ok automaton => .ok ⟨pattern, rules, regex, automaton⟩

/-- Whether a whole word belongs to the language of the pattern. -/
def accepts (p : Compiled) (word : Word) : Bool := p.automaton.accepts word

end Compiled

/-- The automaton of a pattern under the default rules. -/
def compile (pattern : String) (alphabet : Alphabet) : Except PatternError EpsilonNFA :=
  (Compiled.ofText (.ofAlphabet alphabet) pattern).map Compiled.automaton

end RegularLanguages.Pattern
