import RegularLanguages.Automaton.Subset
import RegularLanguages.Proofs.Completion
import RegularLanguages.Proofs.Discovery
import Mathlib.Data.Finset.Powerset

/-!
# Subset constructions

The nodes of a subset construction are the non-empty sets of states that words lead to. There are
no more of them than sets of states, so the search finds them all, and the run of the automaton it
makes is in the node of the states that the given automaton can be in. Nothing is accepted from
the empty set, so it is not missed.
-/

namespace RegularLanguages

namespace Search

variable {σ : Type} [Ord σ] [Std.TransOrd σ] [Std.LawfulEqOrd σ] {symbols : List Symbol}
  {next : σ → Symbol → List σ} {good : σ → Prop} {first : σ} {s : Search σ} {alphabet : Alphabet}
  {name : σ → State} {accepting : σ → Bool}

omit [Std.LawfulEqOrd σ] in
/-- The arcs by the names of their ends. -/
theorem Explores.mem_triples (h : Explores symbols next good first s) {m n : State} {a : Symbol} :
    (m, a, n) ∈ s.triples name ↔
      ∃ p ∈ s.found, ∃ q ∈ next p a, a ∈ symbols ∧ name p = m ∧ name q = n := by
  simp only [triples, List.mem_map, Prod.exists, Prod.mk.injEq, h.mem_arcs]
  constructor
  · intro h
    obtain ⟨p, a, q, ⟨hp, ha, hq⟩, rfl, rfl, rfl⟩ := h
    exact ⟨p, hp, q, hq, ha, rfl, rfl⟩
  · intro h
    obtain ⟨p, hp, q, hq, ha, rfl, rfl⟩ := h
    exact ⟨p, a, q, ⟨hp, ha, hq⟩, rfl, rfl, rfl⟩

omit [Std.LawfulEqOrd σ] in
/-- The arcs do not contradict each other if nodes have names of their own and a symbol leads to one
node at most. -/
theorem Explores.triples_unique (h : Explores symbols next good first s)
    (hname : ∀ p ∈ s.found, ∀ q ∈ s.found, name p = name q → p = q)
    (hnext : ∀ p a, ∀ q ∈ next p a, ∀ r ∈ next p a, q = r) (m : State) (a : Symbol) (n n' : State)
    (hn : (m, a, n) ∈ s.triples name) (hn' : (m, a, n') ∈ s.triples name) : n' = n := by
  obtain ⟨p, hp, q, hq, ha, rfl, rfl⟩ := h.mem_triples.mp hn
  obtain ⟨p', hp', q', hq', -, hsame, rfl⟩ := h.mem_triples.mp hn'
  obtain rfl := hname p' hp' p hp hsame
  rw [hnext p' a q hq q' hq']

omit [Std.LawfulEqOrd σ] in
/-- In the automaton of a search, symbols lead along the arcs. -/
theorem Explores.successor?_toDFA (h : Explores symbols next good first s)
    (hname : ∀ p ∈ s.found, ∀ q ∈ s.found, name p = name q → p = q)
    (hnext : ∀ p a, ∀ q ∈ next p a, ∀ r ∈ next p a, q = r) {m n : State} {a : Symbol} :
    (s.toDFA alphabet name first accepting).successor? m a = some n ↔
      ∃ p ∈ s.found, ∃ q ∈ next p a, a ∈ symbols ∧ name p = m ∧ name q = n :=
  (DeterministicTable.successor?_ofTriples (h.triples_unique hname hnext)).trans h.mem_triples

/-- The final states of the automaton of a search are the accepting nodes. -/
theorem isFinal_toDFA
    (hname : ∀ p ∈ s.found, ∀ q ∈ s.found, name p = name q → p = q) {p : σ} (hp : p ∈ s.found) :
    (s.toDFA alphabet name first accepting).isFinal (name p) = accepting p := by
  rw [Bool.eq_iff_iff, Automaton.isFinal_iff]
  simp only [toDFA, toAutomaton, StateSet.mem_ofList, List.mem_map, List.mem_filter,
    Std.ExtTreeSet.mem_toList]
  constructor
  · intro h
    obtain ⟨q, ⟨hq, haccepting⟩, hsame⟩ := h
    rwa [← hname q hq p hp hsame]
  · exact fun haccepting => ⟨p, ⟨hp, haccepting⟩, rfl⟩

/-- From the state of a node, the automaton of a search accepts what the node accepts, if what a
node accepts behind a symbol is what its successors accept. -/
theorem Explores.acceptsFrom_toDFA (h : Explores symbols next good first s)
    (hname : ∀ p ∈ s.found, ∀ q ∈ s.found, name p = name q → p = q)
    (hnext : ∀ p a, ∀ q ∈ next p a, ∀ r ∈ next p a, q = r)
    (hforeign : ∀ p a, good p → a ∉ symbols → next p a = [])
    {accepts : σ → Word → Bool} (hnil : ∀ p, accepts p [] = accepting p)
    (hcons : ∀ p a w, accepts p (a :: w) = (next p a).any fun q => accepts q w) {p : σ}
    (hp : p ∈ s.found) (w : Word) :
    (s.toDFA alphabet name first accepting).acceptsFrom (name p) w = accepts p w := by
  induction w generalizing p with
  | nil => rw [DFA.acceptsFrom_nil, isFinal_toDFA hname hp, hnil]
  | cons a w ih =>
    rw [DFA.acceptsFrom_cons, hcons]
    cases hr : (s.toDFA alphabet name first accepting).successor? (name p) a with
    | none =>
      have hnone : next p a = [] := by
        by_cases ha : a ∈ symbols
        · rw [List.eq_nil_iff_forall_not_mem]
          intro q hq
          have hfound : (s.toDFA alphabet name first accepting).successor? (name p) a =
              some (name q) :=
            (h.successor?_toDFA hname hnext).mpr ⟨p, hp, q, hq, ha, rfl, rfl⟩
          rw [hr] at hfound
          contradiction
        · exact hforeign p a (h.good_of_mem p hp) ha
      rw [hnone]
      rfl
    | some n =>
      obtain ⟨p', hp', q, hq, ha, hsame, rfl⟩ := (h.successor?_toDFA hname hnext).mp hr
      obtain rfl := hname p' hp' p hp hsame
      rw [Option.any_some, ih (h.mem_of_next p' hp' a ha q hq), Bool.eq_iff_iff, List.any_eq_true]
      constructor
      · exact fun haccepts => ⟨q, hq, haccepts⟩
      · intro h
        obtain ⟨r, hr, haccepts⟩ := h
        rwa [hnext p' a q hq r hr]

/-- What the arcs of a search mention is declared in the automata that are made of it. -/
theorem Explores.mem_of_mem_triples (h : Explores symbols next good first s)
    (hsymbols : ∀ a ∈ symbols, a ∈ alphabet) {m n : State} {a : Symbol}
    (hmem : (m, a, n) ∈ s.triples name) :
    m ∈ StateSet.ofList (s.found.toList.map name) ∧ a ∈ alphabet ∧
      n ∈ StateSet.ofList (s.found.toList.map name) := by
  obtain ⟨p, hp, q, hq, ha, rfl, rfl⟩ := h.mem_triples.mp hmem
  have hq := h.mem_of_next p hp a ha q hq
  simp only [StateSet.mem_ofList]
  exact ⟨List.mem_map_of_mem (Std.ExtTreeSet.mem_toList.mpr hp), hsymbols a ha,
    List.mem_map_of_mem (Std.ExtTreeSet.mem_toList.mpr hq)⟩

/-- The name of the first node is a state of the automaton of a search. -/
theorem Explores.initial_mem (h : Explores symbols next good first s) :
    name first ∈ StateSet.ofList (s.found.toList.map name) :=
  StateSet.mem_ofList.mpr (List.mem_map_of_mem (Std.ExtTreeSet.mem_toList.mpr h.first_mem))

omit [Std.LawfulEqOrd σ] in
/-- The names of accepting nodes are states of the automaton of a search. -/
theorem finals_subset : ∀ m ∈ StateSet.ofList ((s.found.toList.filter accepting).map name),
    m ∈ StateSet.ofList (s.found.toList.map name) := by
  simp only [StateSet.mem_ofList, List.mem_map, List.mem_filter]
  intro m hm
  obtain ⟨p, ⟨hp, -⟩, rfl⟩ := hm
  exact ⟨p, hp, rfl⟩

/-- The deterministic automaton of a search is well-formed. -/
theorem Explores.wellFormed_toDFA (h : Explores symbols next good first s)
    (hsymbols : ∀ a ∈ symbols, a ∈ alphabet) :
    (s.toDFA alphabet name first accepting).WellFormed :=
  DFA.wellFormed_ofTriples h.initial_mem finals_subset fun _ _ _ => h.mem_of_mem_triples hsymbols

/-- The nondeterministic automaton of a search is well-formed. -/
theorem Explores.wellFormed_toNFA (h : Explores symbols next good first s)
    (hsymbols : ∀ a ∈ symbols, a ∈ alphabet) :
    (s.toNFA alphabet name first accepting).WellFormed :=
  NFA.wellFormed_ofTriples h.initial_mem finals_subset fun _ _ _ => h.mem_of_mem_triples hsymbols

end Search

namespace StateSet

/-- A set of states is its own only node, unless it is empty. -/
@[simp] theorem mem_nodes {s t : StateSet} : t ∈ s.nodes ↔ t = s ∧ s ≠ ∅ := by
  rw [nodes]
  split
  · rename_i hempty
    simp [Std.ExtTreeSet.isEmpty_iff.mp hempty]
  · rename_i hempty
    have hne : s ≠ ∅ := fun h => hempty (Std.ExtTreeSet.isEmpty_iff.mpr h)
    simp [hne]

/-- What holds of the node of a set, if it is one, and does not hold of the empty set. -/
theorem any_nodes (s : StateSet) (f : StateSet → Bool) (hempty : f ∅ = false) :
    s.nodes.any f = f s := by
  rw [Bool.eq_iff_iff, List.any_eq_true]
  constructor
  · intro h
    obtain ⟨t, ht, hf⟩ := h
    rwa [← (mem_nodes.mp ht).1]
  · intro hf
    refine ⟨s, mem_nodes.mpr ⟨rfl, ?_⟩, hf⟩
    intro h
    subst h
    rw [hempty] at hf
    contradiction

/-- There are no more sets of states than a power of two says. -/
theorem size_le_two_pow {states : StateSet} {sets : Std.ExtTreeSet StateSet}
    (h : ∀ s ∈ sets, ∀ q ∈ s, q ∈ states) : sets.size ≤ 2 ^ states.size := by
  classical
  rw [← FiniteSet.card_toFinset sets, ← FiniteSet.card_toFinset states, ← Finset.card_powerset]
  apply Finset.card_le_card_of_injOn FiniteSet.toFinset
  · intro s hs
    rw [Finset.mem_coe, FiniteSet.mem_toFinset] at hs
    rw [Finset.mem_coe, Finset.mem_powerset]
    intro q hq
    exact FiniteSet.mem_toFinset.mpr (h s hs q (FiniteSet.mem_toFinset.mp hq))
  · intro s _ t _ heq
    apply Std.ExtTreeSet.ext_mem
    intro q
    rw [← FiniteSet.mem_toFinset, heq, FiniteSet.mem_toFinset]

end StateSet

/-- A node of a subset construction is a set of states that is not empty. -/
def IsNode (states s : StateSet) : Prop := s ≠ ∅ ∧ ∀ q ∈ s, q ∈ states

/-- What a subset construction needs: a set to begin with, a step from sets to sets that keeps
among the states and reads symbols of the alphabet only, and what the sets accept. -/
structure SubsetMachine (states : StateSet) (alphabet : Alphabet) (first : StateSet)
    (step : StateSet → Symbol → StateSet) (accepting : StateSet → Bool)
    (accepts : StateSet → Word → Bool) : Prop where
  isNode_first : IsNode states first
  mem_of_step : ∀ s a, (∀ q ∈ s, q ∈ states) → ∀ q ∈ step s a, q ∈ states
  step_foreign : ∀ s a, a ∉ alphabet → step s a = ∅
  accepts_nil : ∀ s, accepts s [] = accepting s
  accepts_cons : ∀ s a w, accepts s (a :: w) = accepts (step s a) w
  accepts_empty : ∀ w, accepts ∅ w = false

namespace SubsetMachine

variable {states : StateSet} {alphabet : Alphabet} {first : StateSet}
  {step : StateSet → Symbol → StateSet} {accepting : StateSet → Bool}
  {accepts : StateSet → Word → Bool}

/-- A symbol leads from nodes to nodes. -/
theorem isNode_of_mem_nodes (h : SubsetMachine states alphabet first step accepting accepts)
    {s t : StateSet} {a : Symbol} (hs : IsNode states s) (ht : t ∈ (step s a).nodes) :
    IsNode states t := by
  obtain ⟨rfl, hne⟩ := StateSet.mem_nodes.mp ht
  exact ⟨hne, h.mem_of_step s a hs.2⟩

/-- The search of a subset construction finds all nodes. -/
theorem explores (h : SubsetMachine states alphabet first step accepting accepts) :
    Search.Explores alphabet.toList (fun s a => (step s a).nodes) (IsNode states) first
      (Id.run (Search.run Meter.free alphabet.toList (fun s a => (step s a).nodes)
        (2 ^ states.size) first)) :=
  Search.explores_run h.isNode_first (fun _ _ _ hs _ => h.isNode_of_mem_nodes hs)
    fun _ ht => StateSet.size_le_two_pow fun s hs => (ht s hs).2

/-- The search of a subset construction leaves no node pending. -/
theorem pending_run (h : SubsetMachine states alphabet first step accepting accepts) :
    (Id.run (Search.run Meter.free alphabet.toList (fun s a => (step s a).nodes)
      (2 ^ states.size) first)).pending = [] :=
  Search.pending_run h.isNode_first (fun _ _ _ hs _ => h.isNode_of_mem_nodes hs)
    fun _ ht => StateSet.size_le_two_pow fun s hs => (ht s hs).2

/-- The automaton of a subset construction is well-formed and accepts what the first set accepts. -/
theorem toDFA_spec (h : SubsetMachine states alphabet first step accepting accepts) {D : DFA}
    (hD : D = (Id.run (Search.run Meter.free alphabet.toList (fun s a => (step s a).nodes)
      (2 ^ states.size) first)).toDFA alphabet State.ofSet first accepting) :
    D.WellFormed ∧ ∀ w, D.accepts w = accepts first w := by
  subst hD
  have hexplores := h.explores
  have hname := fun s hs t ht => State.ofSet_inj (hexplores.good_of_mem s hs).1
    (hexplores.good_of_mem t ht).1
  have hnext : ∀ s a, ∀ t ∈ (step s a).nodes, ∀ u ∈ (step s a).nodes, t = u := by
    intro s a t ht u hu
    rw [(StateSet.mem_nodes.mp ht).1, (StateSet.mem_nodes.mp hu).1]
  refine ⟨hexplores.wellFormed_toDFA fun a ha => Std.ExtTreeSet.mem_toList.mp ha, ?_⟩
  intro w
  rw [DFA.accepts_eq_acceptsFrom]
  refine hexplores.acceptsFrom_toDFA hname hnext ?_ h.accepts_nil ?_ hexplores.first_mem w
  · intro s a _ ha
    rw [Std.ExtTreeSet.mem_toList] at ha
    rw [h.step_foreign s a ha]
    rfl
  · intro s a w
    rw [h.accepts_cons, StateSet.any_nodes _ _ (h.accepts_empty w)]

end SubsetMachine

namespace NFA

variable {N : NFA}

/-- A well-formed automaton steps from sets of states to sets of states. -/
theorem subsetMachine (hN : N.WellFormed) :
    SubsetMachine N.states N.alphabet (.single N.initial) N.step N.anyFinal
      fun s w => N.anyFinal (N.runFrom s w) where
  isNode_first := by
    refine ⟨StateSet.single_ne_empty _, fun q hq => ?_⟩
    rw [StateSet.mem_single.mp hq]
    exact hN.initial_mem
  mem_of_step s a _ q hq := by
    obtain ⟨p, -, hq⟩ := mem_step.mp hq
    exact hN.target_mem p (.symbol a) q (moves_symbol.mpr hq)
  step_foreign s a ha := by
    apply Std.ExtTreeSet.ext_mem
    intro q
    simp only [mem_step, Std.ExtTreeSet.not_mem_empty, iff_false]
    intro h
    obtain ⟨p, -, hq⟩ := h
    exact ha (hN.symbol_mem p a q (moves_symbol.mpr hq))
  accepts_nil _ := rfl
  accepts_cons _ _ _ := rfl
  accepts_empty w := by
    rw [← Bool.not_eq_true, Automaton.anyFinal_iff]
    simp [mem_runFrom]

/-- The subset construction makes a well-formed automaton that accepts the same words. -/
theorem determinize_spec (hN : N.WellFormed) :
    N.determinize.WellFormed ∧ ∀ w, N.determinize.accepts w = N.accepts w :=
  (subsetMachine hN).toDFA_spec rfl

end NFA

namespace EpsilonNFA

variable {E : EpsilonNFA}

/-- A well-formed automaton with empty moves steps from closed sets of states to closed sets. -/
theorem subsetMachine (hE : E.WellFormed) :
    SubsetMachine E.states E.alphabet (E.closure (.single E.initial)) E.closedStep E.anyFinal
      fun s w => E.anyFinal (E.runFrom s w) where
  isNode_first := by
    refine ⟨?_, ?_⟩
    · exact StateSet.ne_empty_iff.mpr
        ⟨E.initial, mem_closure.mpr ⟨_, StateSet.mem_single.mpr rfl, .refl _⟩⟩
    · intro q hq
      obtain ⟨p, hp, htrace⟩ := mem_closure.mp hq
      rw [StateSet.mem_single.mp hp] at htrace
      exact hE.mem_of_trace hE.initial_mem htrace
  mem_of_step s a _ q hq := by
    obtain ⟨r, hr, htrace⟩ := mem_closure.mp hq
    obtain ⟨p, -, hr⟩ := mem_step.mp hr
    exact hE.mem_of_trace (hE.target_mem p (.symbol a) r (moves_iff.mpr hr)) htrace
  step_foreign s a ha := by
    apply Std.ExtTreeSet.ext_mem
    intro q
    simp only [closedStep, mem_closure, mem_step, Std.ExtTreeSet.not_mem_empty, iff_false]
    intro h
    obtain ⟨r, ⟨p, -, hr⟩, -⟩ := h
    exact ha (hE.symbol_mem p a r (moves_iff.mpr hr))
  accepts_nil _ := rfl
  accepts_cons _ _ _ := rfl
  accepts_empty w := by
    have hclosed : E.IsClosed ∅ := by
      intro p hp
      simp at hp
    rw [← Bool.not_eq_true, Automaton.anyFinal_iff]
    simp [mem_runFrom hclosed]

/-- The direct subset construction makes a well-formed automaton that accepts the same words. -/
theorem determinize_spec (hE : E.WellFormed) :
    E.determinize.WellFormed ∧ ∀ w, E.determinize.accepts w = E.accepts w :=
  (subsetMachine hE).toDFA_spec rfl

end EpsilonNFA

end RegularLanguages
