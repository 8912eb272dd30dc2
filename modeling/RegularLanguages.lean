import RegularLanguages.Alphabet
import RegularLanguages.Automaton.Any
import RegularLanguages.Automaton.Basic
import RegularLanguages.Automaton.Builder
import RegularLanguages.Automaton.ClosureMemo
import RegularLanguages.Automaton.Description
import RegularLanguages.Automaton.Deterministic
import RegularLanguages.Automaton.Dictionary
import RegularLanguages.Automaton.Error
import RegularLanguages.Automaton.Minimal
import RegularLanguages.Automaton.Naming
import RegularLanguages.Automaton.Nondeterministic
import RegularLanguages.Automaton.Reach
import RegularLanguages.Automaton.Search
import RegularLanguages.Automaton.State
import RegularLanguages.Automaton.Storage
import RegularLanguages.Automaton.Subset
import RegularLanguages.Automaton.Table
import RegularLanguages.Conversion.Budget
import RegularLanguages.Conversion.Cache
import RegularLanguages.Conversion.Config
import RegularLanguages.Conversion.Engine
import RegularLanguages.Conversion.Error
import RegularLanguages.Conversion.Operation
import RegularLanguages.Conversion.Probe
import RegularLanguages.Conversion.Statistics
import RegularLanguages.Enumeration
import RegularLanguages.Json.Basic
import RegularLanguages.Json.Printer
import RegularLanguages.Json.Reader
import RegularLanguages.Operations.Error
import RegularLanguages.Operations.Product
import RegularLanguages.Operations.Regular
import RegularLanguages.Partition
import RegularLanguages.Pattern.Compiled
import RegularLanguages.Pattern.Error
import RegularLanguages.Pattern.Lexer
import RegularLanguages.Pattern.Parser
import RegularLanguages.Pattern.Token
import RegularLanguages.Proofs.Acceptance
import RegularLanguages.Proofs.Assemblies
import RegularLanguages.Proofs.BoundedConstructions
import RegularLanguages.Proofs.Budgets
import RegularLanguages.Proofs.Caches
import RegularLanguages.Proofs.Caching
import RegularLanguages.Proofs.Canonical
import RegularLanguages.Proofs.CartesianProducts
import RegularLanguages.Proofs.Ceilings
import RegularLanguages.Proofs.Charges
import RegularLanguages.Proofs.Checks
import RegularLanguages.Proofs.ClosedSubsets
import RegularLanguages.Proofs.Closures
import RegularLanguages.Proofs.Compilation
import RegularLanguages.Proofs.Complements
import RegularLanguages.Proofs.Completion
import RegularLanguages.Proofs.Concatenations
import RegularLanguages.Proofs.Counters
import RegularLanguages.Proofs.Denotation
import RegularLanguages.Proofs.Determinism
import RegularLanguages.Proofs.Determinization
import RegularLanguages.Proofs.Dictionaries
import RegularLanguages.Proofs.Differences
import RegularLanguages.Proofs.Discovery
import RegularLanguages.Proofs.Draws
import RegularLanguages.Proofs.EdgeLists
import RegularLanguages.Proofs.Embeddings
import RegularLanguages.Proofs.Engines
import RegularLanguages.Proofs.Enumerations
import RegularLanguages.Proofs.EquivalenceClasses
import RegularLanguages.Proofs.Expressions
import RegularLanguages.Proofs.FiniteSets
import RegularLanguages.Proofs.ForeignLiterals
import RegularLanguages.Proofs.FragmentStacks
import RegularLanguages.Proofs.Fragments
import RegularLanguages.Proofs.Grammar
import RegularLanguages.Proofs.Homomorphisms
import RegularLanguages.Proofs.Indistinguishable
import RegularLanguages.Proofs.Joins
import RegularLanguages.Proofs.Kinds
import RegularLanguages.Proofs.LeastWords
import RegularLanguages.Proofs.Literals
import RegularLanguages.Proofs.Metering
import RegularLanguages.Proofs.Minimality
import RegularLanguages.Proofs.Names
import RegularLanguages.Proofs.Outcomes
import RegularLanguages.Proofs.Parsing
import RegularLanguages.Proofs.PartitionEquality
import RegularLanguages.Proofs.PrintedForms
import RegularLanguages.Proofs.Printing
import RegularLanguages.Proofs.Probes
import RegularLanguages.Proofs.Products
import RegularLanguages.Proofs.Quotient
import RegularLanguages.Proofs.RandomAutomata
import RegularLanguages.Proofs.Reachability
import RegularLanguages.Proofs.ReachablePairs
import RegularLanguages.Proofs.Readings
import RegularLanguages.Proofs.Refinement
import RegularLanguages.Proofs.RefusedMappings
import RegularLanguages.Proofs.Regions
import RegularLanguages.Proofs.Renaming
import RegularLanguages.Proofs.RepeatedMinimization
import RegularLanguages.Proofs.Repetitions
import RegularLanguages.Proofs.Reports
import RegularLanguages.Proofs.Requests
import RegularLanguages.Proofs.SearchTraces
import RegularLanguages.Proofs.SeparatingProbes
import RegularLanguages.Proofs.Separation
import RegularLanguages.Proofs.Sessions
import RegularLanguages.Proofs.SoundAnswers
import RegularLanguages.Proofs.SoundOperations
import RegularLanguages.Proofs.SoundSources
import RegularLanguages.Proofs.Soundness
import RegularLanguages.Proofs.Spelling
import RegularLanguages.Proofs.Sprouts
import RegularLanguages.Proofs.StoredTables
import RegularLanguages.Proofs.Subsets
import RegularLanguages.Proofs.Tables
import RegularLanguages.Proofs.TokenSequences
import RegularLanguages.Proofs.Traces
import RegularLanguages.Proofs.Trimming
import RegularLanguages.Proofs.Unions
import RegularLanguages.Proofs.ViablePrefixes
import RegularLanguages.Proofs.Violations
import RegularLanguages.Proofs.WellFormed
import RegularLanguages.Proofs.WordCounts
import RegularLanguages.Proofs.WordOrder
import RegularLanguages.Random.Automata
import RegularLanguages.Random.Draws
import RegularLanguages.Regex.Basic
import RegularLanguages.Regex.Fragment
import RegularLanguages.Regex.Printer
import RegularLanguages.Text.CharacterClass
import RegularLanguages.Text.Duration
import RegularLanguages.Text.Grid
import RegularLanguages.Text.Quoted
import RegularLanguages.Word
