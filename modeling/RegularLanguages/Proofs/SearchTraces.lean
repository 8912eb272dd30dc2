import RegularLanguages.Proofs.Canonical
import RegularLanguages.Proofs.Determinization

/-!
# Traces through the nodes of a search

A search finds the nodes that can be reached, and no others. The automaton that is made of them has
the traces between nodes, under the names of the nodes. Where a symbol never leads to two nodes, it
does not matter whether this automaton is made deterministic or not.
-/

namespace RegularLanguages

namespace Search

variable {σ : Type} {symbols : List Symbol} {next : σ → Symbol → List σ} {p q r : σ}

/-- A symbol leads from a node to one of the nodes that come next. -/
def Leads (symbols : List Symbol) (next : σ → Symbol → List σ) (p : σ) (l : Label) (q : σ) : Prop :=
  ∃ a ∈ symbols, l = .symbol a ∧ q ∈ next p a

/-- The empty trace of a search leads nowhere else. -/
theorem trace_leads_nil : Trace (Leads symbols next) p [] q ↔ p = q :=
  Trace.nil_iff_eq fun p q => by simp [Leads]

/-- A trace reads its first symbol at once. -/
theorem trace_leads_cons {a : Symbol} {w : Word} : Trace (Leads symbols next) p (a :: w) r ↔
    a ∈ symbols ∧ ∃ q ∈ next p a, Trace (Leads symbols next) q w r := by
  rw [Trace.cons_iff]
  simp only [trace_leads_nil, exists_and_left, exists_eq_left']
  constructor
  · intro h
    obtain ⟨q, ⟨b, hb, hsame, hq⟩, hrest⟩ := h
    obtain rfl := Label.symbol.inj hsame
    exact ⟨hb, q, hq, hrest⟩
  · intro h
    obtain ⟨ha, q, hq, hrest⟩ := h
    exact ⟨q, ⟨a, ha, rfl, hq⟩, hrest⟩

variable [Ord σ] [Std.TransOrd σ] {good : σ → Prop} {first : σ} {s : Search σ} {alphabet : Alphabet}
  {name : σ → State} {accepting : σ → Bool}

/-- From a node that is found, only such nodes come next. -/
theorem Explores.mem_of_leads (h : Explores symbols next good first s) {l : Label}
    (hp : p ∈ s.found) (hleads : Leads symbols next p l q) : q ∈ s.found := by
  obtain ⟨a, ha, -, hq⟩ := hleads
  exact h.mem_of_next p hp a ha q hq

/-- From a node that is found, only such nodes are reached. -/
theorem Explores.mem_of_trace (h : Explores symbols next good first s) (hp : p ∈ s.found) {w : Word}
    (htrace : Trace (Leads symbols next) p w q) : q ∈ s.found :=
  (htrace.confined (· ∈ s.found) (fun _ _ _ hp hleads => ⟨h.mem_of_leads hp hleads, hleads⟩) hp).1

/-- The nodes that are found are those which can be reached from the first one. -/
theorem mem_found_run [Std.LawfulEqOrd σ] (hfirst : good first)
    (hgood : ∀ p a q, good p → a ∈ symbols → q ∈ next p a → good q) {limit : Nat}
    (hlimit : ∀ t : Std.ExtTreeSet σ, (∀ p ∈ t, good p) → t.size ≤ limit) :
    p ∈ (Id.run (run Meter.free symbols next limit first)).found ↔
      ∃ w, Trace (Leads symbols next) first w p := by
  have hexplores : Explores symbols next
      (fun p => good p ∧ ∃ w, Trace (Leads symbols next) first w p) first
      (Id.run (run Meter.free symbols next limit first)) := by
    refine explores_run ⟨hfirst, [], .refl first⟩ (fun p a q hp ha hq => ?_)
      fun t ht => hlimit t fun p hp => (ht p hp).1
    obtain ⟨hp, w, hw⟩ := hp
    exact ⟨hgood p a q hp ha hq, w ++ [a], hw.append (.symbol ⟨a, ha, rfl, hq⟩ (.refl q))⟩
  constructor
  · exact fun hp => (hexplores.good_of_mem p hp).2
  · intro h
    obtain ⟨w, htrace⟩ := h
    exact hexplores.mem_of_trace hexplores.first_mem htrace

/-- The moves of the automaton of a search are the arcs between the nodes. -/
theorem Explores.moves_toNFA (h : Explores symbols next good first s) {m n : State} {l : Label} :
    (s.toNFA alphabet name first accepting).Moves m l n ↔
      ∃ p ∈ s.found, ∃ q, Leads symbols next p l q ∧ name p = m ∧ name q = n := by
  rw [NFA.moves_iff]
  simp only [NFA.successors, toNFA, toAutomaton, EdgeTable.mem_successors_ofTriples, h.mem_triples]
  constructor
  · intro h
    obtain ⟨a, rfl, p, hp, q, hq, ha, rfl, rfl⟩ := h
    exact ⟨p, hp, q, ⟨a, ha, rfl, hq⟩, rfl, rfl⟩
  · intro h
    obtain ⟨p, hp, q, ⟨a, ha, rfl, hq⟩, rfl, rfl⟩ := h
    exact ⟨a, rfl, p, hp, q, hq, ha, rfl, rfl⟩

/-- The traces of the automaton of a search are those between the nodes. -/
theorem Explores.trace_toNFA (h : Explores symbols next good first s)
    (hname : Function.Injective name) (hp : p ∈ s.found) {w : Word} {n : State} :
    Trace (s.toNFA alphabet name first accepting).Moves (name p) w n ↔
      ∃ q ∈ s.found, name q = n ∧ Trace (Leads symbols next) p w q := by
  refine Trace.map_iff name (· ∈ s.found) (fun p l q => h.mem_of_leads) (fun p l n hp => ?_) hp
  rw [h.moves_toNFA]
  constructor
  · intro hmove
    obtain ⟨p', -, q, hleads, hsame, rfl⟩ := hmove
    obtain rfl := hname hsame
    exact ⟨q, rfl, hleads⟩
  · intro hmove
    obtain ⟨q, rfl, hleads⟩ := hmove
    exact ⟨p, hp, q, hleads, rfl, rfl⟩

/-- The automaton of a search accepts along the traces from the first node to accepting ones. -/
theorem Explores.recognizes_toNFA [Std.LawfulEqOrd σ] (h : Explores symbols next good first s)
    (hname : Function.Injective name) {w : Word} :
    (s.toNFA alphabet name first accepting).Recognizes w ↔
      ∃ q, Trace (Leads symbols next) first w q ∧ accepting q = true := by
  have hfinal (n : State) : n ∈ (s.toNFA alphabet name first accepting).finals ↔
      ∃ q ∈ s.found, accepting q = true ∧ name q = n := by
    simp only [toNFA, toAutomaton, StateSet.mem_ofList, List.mem_map, List.mem_filter,
      Std.ExtTreeSet.mem_toList, and_assoc]
  have hinitial : (s.toNFA alphabet name first accepting).initial = name first := rfl
  rw [Automaton.Recognizes, hinitial]
  simp only [hfinal, h.trace_toNFA hname h.first_mem]
  constructor
  · intro h
    obtain ⟨n, ⟨q, -, haccepting, rfl⟩, q', -, hsame, htrace⟩ := h
    obtain rfl := hname hsame
    exact ⟨q', htrace, haccepting⟩
  · intro hreached
    obtain ⟨q, htrace, haccepting⟩ := hreached
    have hq := h.mem_of_trace h.first_mem htrace
    exact ⟨name q, ⟨q, hq, haccepting, rfl⟩, q, hq, rfl, htrace⟩

/-- If a symbol leads to one node at most, the deterministic automaton of a search, read as a
nondeterministic one, is the nondeterministic automaton of the search. -/
theorem Explores.toNFA_toDFA (h : Explores symbols next good first s)
    (hname : Function.Injective name)
    (hnext : ∀ p a, ∀ q ∈ next p a, ∀ r ∈ next p a, q = r) :
    (s.toDFA alphabet name first accepting).toNFA = s.toNFA alphabet name first accepting := by
  have hunique := h.triples_unique (fun p _ q _ hsame => hname hsame) hnext
  have htable : EdgeTable.ofTriples (DeterministicTable.ofTriples (s.triples name)).triples =
      EdgeTable.ofTriples (s.triples name) := by
    refine (EdgeTable.canonical_ofTriples _).eq_of_successors_eq
      (EdgeTable.canonical_ofTriples _) fun m a => Std.ExtTreeSet.ext_mem fun n => ?_
    rw [EdgeTable.mem_successors_ofTriples, EdgeTable.mem_successors_ofTriples,
      DeterministicTable.mem_triples, DeterministicTable.successor?_ofTriples hunique]
  exact congrArg (fun table => (s.toAutomaton table alphabet name first accepting : NFA)) htable

end Search

namespace DFA

variable {D : DFA}

/-- The moves of a well-formed automaton are over its symbols to the successors. -/
theorem leads_eq_moves (hD : D.WellFormed) :
    Search.Leads D.alphabet.toList (fun q a => (D.successor? q a).toList) = D.Moves := by
  funext p l q
  refine propext ⟨?_, ?_⟩
  · intro h
    obtain ⟨a, -, rfl, hq⟩ := h
    exact moves_symbol.mpr (Option.mem_toList.mp hq)
  · intro h
    obtain ⟨a, rfl, hq⟩ := moves_iff.mp h
    exact ⟨a, Std.ExtTreeSet.mem_toList.mpr (symbol_mem hD hq), rfl, Option.mem_toList.mpr hq⟩

end DFA

namespace NFA

variable {N : NFA}

/-- The moves of a well-formed automaton are over its symbols to the successors. -/
theorem leads_eq_moves (hN : N.WellFormed) :
    Search.Leads N.alphabet.toList (fun q a => (N.successors q a).toList) = N.Moves := by
  funext p l q
  refine propext ⟨?_, ?_⟩
  · intro h
    obtain ⟨a, -, rfl, hq⟩ := h
    exact moves_symbol.mpr (Std.ExtTreeSet.mem_toList.mp hq)
  · intro h
    obtain ⟨a, rfl, hq⟩ := moves_iff.mp h
    have ha := hN.symbol_mem p a q h
    exact ⟨a, Std.ExtTreeSet.mem_toList.mpr ha, rfl, Std.ExtTreeSet.mem_toList.mpr hq⟩

end NFA

end RegularLanguages
