import RegularLanguages.Proofs.Products

/-!
# The states of a product

The states of a product are named after the pairs of states that a common word leads the operands
to. If both operands have to accept, a run that gets stuck decides the outcome, and the operands are
run as they are. Otherwise they are completed first, which changes where the runs end and not what
is accepted.
-/

namespace RegularLanguages.DFA

variable {D L R : DFA} {acceptance : Acceptance} {w : Word}

/-- What a product runs in place of an operand: the completed automaton, unless both operands have
to accept. -/
def operand (D : DFA) : Acceptance → DFA
  | .both => D
  | .either | .leftOnly | .exactlyOne => D.complete

/-- What a product runs in place of a well-formed operand is well-formed. -/
theorem wellFormed_operand (hD : D.WellFormed) : (D.operand acceptance).WellFormed := by
  cases acceptance with
  | both => exact hD
  | either | leftOnly | exactlyOne => exact wellFormed_complete hD

/-- What a product runs in place of an operand has its alphabet. -/
@[simp] theorem alphabet_operand : (D.operand acceptance).alphabet = D.alphabet := by
  cases acceptance with
  | both => rfl
  | either | leftOnly | exactlyOne => exact alphabet_complete

/-- Over one alphabet, a product is the automaton of the pairs of its operands. -/
theorem product_eq_ok (h : L.alphabet = R.alphabet) : L.product R acceptance =
    .ok (pairs (L.operand acceptance) (R.operand acceptance) acceptance) := by
  rw [product, sameAlphabet, if_pos h]
  cases acceptance <;> rfl

/-- Over different alphabets, there is no product. -/
theorem product_eq_error (h : L.alphabet ≠ R.alphabet) :
    L.product R acceptance = .error (.incompatible L.alphabet R.alphabet) := by
  rw [product, sameAlphabet, if_neg h]

/-- A product is the automaton of the pairs of its operands, which have the same alphabet. -/
theorem product_eq_ok_iff {P : DFA} : L.product R acceptance = .ok P ↔ L.alphabet = R.alphabet ∧
    pairs (L.operand acceptance) (R.operand acceptance) acceptance = P := by
  by_cases h : L.alphabet = R.alphabet
  · simp [product_eq_ok h, h]
  · simp [product_eq_error h, h]

/-- The states of an automaton of pairs are the names of those that a word leads both automata
to. -/
theorem mem_states_pairs (hL : L.WellFormed) (hR : R.WellFormed)
    (halphabet : L.alphabet = R.alphabet) {n : State} : n ∈ (pairs L R acceptance).states ↔
      ∃ w l r, L.run w = some l ∧ R.run w = some r ∧ State.ofPair l r = n := by
  have hfirst : StatePair.Within L.states R.states ⟨L.initial, R.initial⟩ :=
    ⟨hL.initial_mem, hR.initial_mem⟩
  have hfound (p : StatePair) := StatePair.mem_found hfirst (mem_of_mem_successor? hL)
    (mem_of_mem_successor? hR) L.alphabet.toList (p := p)
  have hright := leads_eq_moves hR
  rw [← halphabet] at hright
  simp only [leads_eq_moves hL, hright, trace_iff] at hfound
  change n ∈ StateSet.ofList (List.map StatePair.name _) ↔ _
  simp only [StateSet.mem_ofList, List.mem_map, Std.ExtTreeSet.mem_toList, hfound]
  constructor
  · intro h
    obtain ⟨p, ⟨w, hl, hr⟩, hname⟩ := h
    exact ⟨w, p.left, p.right, hl, hr, hname⟩
  · intro h
    obtain ⟨w, l, r, hl, hr, hname⟩ := h
    exact ⟨⟨l, r⟩, ⟨w, hl, hr⟩, hname⟩

/-- If both automata have to accept, the automaton of pairs does not need them to be complete. -/
theorem accepts_pairs_both (hL : L.WellFormed) (hR : R.WellFormed) :
    (pairs L R .both).accepts w = (L.accepts w && R.accepts w) := by
  rw [accepts_pairs hL hR, acceptsSideBySide, accepts_eq_acceptsFrom, accepts_eq_acceptsFrom,
    acceptsFrom, acceptsFrom]
  cases L.runFrom L.initial w with
  | none => rfl
  | some l =>
    cases R.runFrom R.initial w with
    | none => exact (Bool.and_false _).symm
    | some r => rfl

/-- What the pairs of the operands accept is combined from what the operands accept. -/
theorem accepts_pairs_operand (hL : L.WellFormed) (hR : R.WellFormed)
    (halphabet : L.alphabet = R.alphabet) :
    (pairs (L.operand acceptance) (R.operand acceptance) acceptance).accepts w =
      acceptance.combine (L.accepts w) (R.accepts w) := by
  have hcomplete : (pairs L.complete R.complete acceptance).accepts w =
      acceptance.combine (L.accepts w) (R.accepts w) := by
    rw [accepts_pairs_of_isComplete (wellFormed_complete hL) (wellFormed_complete hR)
      L.isComplete_complete R.isComplete_complete (by simpa using halphabet),
      accepts_complete hL, accepts_complete hR]
  cases acceptance with
  | both => exact accepts_pairs_both hL hR
  | either | leftOnly | exactlyOne => exact hcomplete

/-- Over one alphabet, there is a well-formed product. -/
theorem exists_product (hL : L.WellFormed) (hR : R.WellFormed)
    (halphabet : L.alphabet = R.alphabet) (acceptance : Acceptance) :
    ∃ P, L.product R acceptance = .ok P ∧ P.WellFormed ∧
      ∀ w, P.accepts w = acceptance.combine (L.accepts w) (R.accepts w) :=
  ⟨_, product_eq_ok halphabet, wellFormed_pairs (wellFormed_operand hL) (wellFormed_operand hR),
    fun _ => accepts_pairs_operand hL hR halphabet⟩

/-- The product of two well-formed automata over one alphabet accepts a word exactly if what they
say of it combines to accepting. Its states are the names of the pairs that a word leads both
operands to, completed unless both have to accept, and no two pairs share a name. Automata with
different alphabets are refused. -/
theorem product_runs_operands_together (hL : L.WellFormed) (hR : R.WellFormed)
    (acceptance : Acceptance) :
    (L.alphabet = R.alphabet → ∃ P, L.product R acceptance = .ok P ∧
      (∀ w, P.accepts w = acceptance.combine (L.accepts w) (R.accepts w)) ∧
      ∀ n, n ∈ P.states ↔ ∃ w l r, (L.operand acceptance).run w = some l ∧
        (R.operand acceptance).run w = some r ∧ State.ofPair l r = n) ∧
    (∀ l r l' r', State.ofPair l r = State.ofPair l' r' → l = l' ∧ r = r') ∧
    (L.alphabet ≠ R.alphabet →
      L.product R acceptance = .error (.incompatible L.alphabet R.alphabet)) := by
  refine ⟨?_, fun l r l' r' => State.ofPair_inj, product_eq_error⟩
  intro halphabet
  refine ⟨_, product_eq_ok halphabet, fun w => accepts_pairs_operand hL hR halphabet, fun n => ?_⟩
  exact mem_states_pairs (wellFormed_operand hL) (wellFormed_operand hR) (by simpa using halphabet)

/-- The pairs of `a,b` and `c` and of `a` and `b,c` are states of their own, which other words lead
to. The intersection accepts in the first one only and the difference in the second one only, and
the difference also accepts a word on which the second operand gets stuck. -/
theorem product_keeps_pairs_of_separators_apart :
    let L : DFA := ⟨.ofList ["p", "a,b", "a"], .ofText "xy",
      .ofTriples [("p", 'x', "a,b"), ("p", 'y', "a"), ("a", 'y', "a")], "p", .ofList ["a,b", "a"]⟩
    let R : DFA := ⟨.ofList ["r", "c", "b,c"], .ofText "xy",
      .ofTriples [("r", 'x', "c"), ("r", 'y', "b,c")], "r", .ofList ["c"]⟩
    let S : DFA := ⟨.ofList ["r"], .ofText "x", .ofTriples [], "r", .ofList ["r"]⟩
    L.WellFormed ∧ R.WellFormed ∧ S.WellFormed ∧
      (∃ P, L.product R .both = .ok P ∧ P.accepts ['x'] = true ∧ P.accepts ['y'] = false ∧
        State.ofPair "a,b" "c" ∈ P.states ∧ State.ofPair "a" "b,c" ∈ P.states) ∧
      State.ofPair "a,b" "c" ≠ State.ofPair "a" "b,c" ∧
      (∃ P, L.product R .leftOnly = .ok P ∧ P.accepts ['x'] = false ∧ P.accepts ['y'] = true ∧
        P.accepts ['y', 'y'] = true) ∧
      L.product S .both = .error (.incompatible (.ofText "xy") (.ofText "x")) := by
  intro L R S
  have hL : L.WellFormed := by
    apply wellFormed_ofTriples <;> simp_all [Alphabet.ofText]
    grind
  have hR : R.WellFormed := by
    apply wellFormed_ofTriples <;> simp_all [Alphabet.ofText]
    grind
  have hS : S.WellFormed := by
    apply wellFormed_ofTriples <;> simp_all [Alphabet.ofText]
  obtain ⟨hboth, hinjective, -⟩ := product_runs_operands_together hL hR .both
  obtain ⟨P, hP, haccepts, hstates⟩ := hboth rfl
  obtain ⟨hleft, -, -⟩ := product_runs_operands_together hL hR .leftOnly
  obtain ⟨Q, hQ, hQaccepts, -⟩ := hleft rfl
  obtain ⟨-, -, hrefused⟩ := product_runs_operands_together hL hS .both
  refine ⟨hL, hR, hS, ⟨P, hP, ?_, ?_, ?_, ?_⟩, ?_, ⟨Q, hQ, ?_, ?_, ?_⟩,
    hrefused (by decide +kernel)⟩
  · exact (haccepts _).trans (by decide +kernel)
  · exact (haccepts _).trans (by decide +kernel)
  · exact (hstates _).mpr ⟨['x'], "a,b", "c", by decide +kernel, by decide +kernel, rfl⟩
  · exact (hstates _).mpr ⟨['y'], "a", "b,c", by decide +kernel, by decide +kernel, rfl⟩
  · exact fun hsame => absurd (hinjective _ _ _ _ hsame).1 (by decide)
  · exact (hQaccepts _).trans (by decide +kernel)
  · exact (hQaccepts _).trans (by decide +kernel)
  · exact (hQaccepts _).trans (by decide +kernel)

end RegularLanguages.DFA
