import RegularLanguages.Automaton.Deterministic

/-!
# Discovering an automaton

Subset constructions and products do not know their states beforehand: they begin with one node and
follow every symbol from every node they have found, first come first served. The search reports
each symbol it follows and each node it finds to a meter, which may stop it; the meter of the
identity monad never does, so that bounded and unbounded constructions are the same search.
-/

namespace RegularLanguages

/-- Where a computation reports its work, and by which it may be stopped. -/
structure Meter (m : Type → Type) where
  /-- One unit of work is about to be done. -/
  tick : m Unit
  /-- An automaton with this many states is about to be made. -/
  allow : (states : Nat) → m Unit

namespace Meter

/-- The meter that never stops anything. -/
def free : Meter Id := ⟨pure (), fun _ => pure ()⟩

/-- Reports several units of work. -/
def ticks {m : Type → Type} [Monad m] (meter : Meter m) : Nat → m Unit
  | 0 => pure ()
  | n + 1 => do
    meter.tick
    meter.ticks n

end Meter

/-- What a search has found. -/
structure Search (σ : Type) [Ord σ] where
  /-- All nodes found so far. -/
  found : Std.ExtTreeSet σ
  /-- The nodes to be expanded next, first come first. -/
  front : List σ
  /-- The nodes to be expanded after those in front, last come first. -/
  back : List σ
  /-- The symbols that lead from one node to another, last one first. -/
  arcs : List (σ × Symbol × σ)

namespace Search

variable {σ : Type} [Ord σ]

/-- The nodes that are still to be expanded, first come first. -/
def pending (s : Search σ) : List σ := s.front ++ s.back.reverse

/-- The first node that is still to be expanded, and the search in which it is no longer. -/
def next? (s : Search σ) : Option (σ × Search σ) :=
  match s.front with
  | p :: front => some (p, { s with front })
  | [] =>
    match s.back.reverse with
    | p :: front => some (p, { s with front, back := [] })
    | [] => none

/-- A search that has no node to expand has no pending nodes. -/
theorem pending_eq_nil_of_next? {s : Search σ} (h : s.next? = none) : s.pending = [] := by
  grind [next?, pending]

/-- The node that a search expands next is the first of its pending ones. -/
theorem pending_of_next? {s t : Search σ} {p : σ} (h : s.next? = some (p, t)) :
    s.pending = p :: t.pending := by
  grind [next?, pending]

/-- Records that a symbol leads from one found node to another node. -/
def link (s : Search σ) (p : σ) (a : Symbol) (q : σ) : Search σ :=
  { s with arcs := (p, a, q) :: s.arcs }

variable [Std.TransOrd σ]

/-- The search that has found its first node. -/
def start (first : σ) : Search σ := ⟨.ofList [first], [first], [], []⟩

/-- Finds a node that was not found before. -/
def discover (s : Search σ) (q : σ) : Search σ :=
  { s with found := s.found.insert q, back := q :: s.back }

/-- A node that has been found comes last among the pending ones. -/
theorem pending_discover (s : Search σ) (q : σ) : (s.discover q).pending = s.pending ++ [q] := by
  simp [pending, discover]

/-- Records that a symbol leads from a node to another one, and finds that one if it is new. -/
def reach {m : Type → Type} [Monad m] (meter : Meter m) (p : σ) (a : Symbol) (s : Search σ)
    (q : σ) : m (Search σ) :=
  if s.found.contains q then pure (s.link p a q)
  else do
    meter.allow (s.found.size + 1)
    return (s.discover q).link p a q

/-- Goes to several nodes to which one symbol leads, one after another. -/
def reachAll {m : Type → Type} [Monad m] (meter : Meter m) (p : σ) (a : Symbol) :
    Search σ → List σ → m (Search σ)
  | s, [] => pure s
  | s, q :: rest => do
    let s ← s.reach meter p a q
    reachAll meter p a s rest

/-- Follows one symbol from a node. -/
def follow {m : Type → Type} [Monad m] (meter : Meter m) (next : σ → Symbol → List σ) (p : σ)
    (s : Search σ) (a : Symbol) : m (Search σ) := do
  meter.tick
  s.reachAll meter p a (next p a)

/-- Follows several symbols from a node, one after another. -/
def followAll {m : Type → Type} [Monad m] (meter : Meter m) (next : σ → Symbol → List σ) (p : σ) :
    Search σ → List Symbol → m (Search σ)
  | s, [] => pure s
  | s, a :: symbols => do
    let s ← s.follow meter next p a
    followAll meter next p s symbols

/-- Expands pending nodes until none is left, at most `nodes` of them. -/
def expand {m : Type → Type} [Monad m] (meter : Meter m) (symbols : List Symbol)
    (next : σ → Symbol → List σ) : (nodes : Nat) → Search σ → m (Search σ)
  | 0, s => pure s
  | nodes + 1, s =>
    match s.next? with
    | none => pure s
    | some (p, s) => do
      let s ← followAll meter next p s symbols
      expand meter symbols next nodes s

/-- Finds everything that symbols lead to from the first node, if that is no more than `nodes`
nodes in all. -/
def run {m : Type → Type} [Monad m] (meter : Meter m) (symbols : List Symbol)
    (next : σ → Symbol → List σ) (nodes : Nat) (first : σ) : m (Search σ) := do
  meter.allow 1
  expand meter symbols next nodes (start first)

/-- The arcs between the nodes, by their names. -/
def triples (s : Search σ) (name : σ → State) : List (State × Symbol × State) :=
  s.arcs.map fun (p, a, q) => (name p, a, name q)

/-- The automaton whose states are the nodes found, with their arcs in the given table. -/
def toAutomaton {T : Type} (s : Search σ) (table : T) (alphabet : Alphabet) (name : σ → State)
    (first : σ) (accepting : σ → Bool) : Automaton T where
  states := .ofList (s.found.toList.map name)
  alphabet := alphabet
  transitions := table
  initial := name first
  finals := .ofList ((s.found.toList.filter accepting).map name)

/-- The deterministic automaton whose states are the nodes found, by their names. -/
def toDFA (s : Search σ) (alphabet : Alphabet) (name : σ → State) (first : σ)
    (accepting : σ → Bool) : DFA :=
  s.toAutomaton (.ofTriples (s.triples name)) alphabet name first accepting

/-- The nondeterministic automaton whose states are the nodes found, by their names. -/
def toNFA (s : Search σ) (alphabet : Alphabet) (name : σ → State) (first : σ)
    (accepting : σ → Bool) : NFA :=
  s.toAutomaton (.ofTriples (s.triples name)) alphabet name first accepting

end Search

end RegularLanguages
