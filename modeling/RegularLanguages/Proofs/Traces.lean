import RegularLanguages.Proofs.Reachability

/-!
# Runs as traces of transitions

A trace follows transitions one after another and spells the word of the symbols that it reads. An
automaton recognizes the words of the traces from its initial state to a final state; this depends
on its transitions as a set, and not on the table that stores them.
-/

namespace RegularLanguages

/-- The words that lead from one state to another, where `moves` says what labels lead to. -/
inductive Trace {σ : Type} (moves : σ → Label → σ → Prop) : σ → Word → σ → Prop where
  | refl (q : σ) : Trace moves q [] q
  | epsilon {p q r : σ} {w : Word} :
      moves p .epsilon q → Trace moves q w r → Trace moves p w r
  | symbol {p q r : σ} {a : Symbol} {w : Word} :
      moves p (.symbol a) q → Trace moves q w r → Trace moves p (a :: w) r

namespace Trace

variable {σ τ : Type} {moves moves' : σ → Label → σ → Prop} {p q r : σ} {v w : Word}

/-- Traces compose, and so do their words. -/
theorem append (hleft : Trace moves p v q) (hright : Trace moves q w r) :
    Trace moves p (v ++ w) r := by
  induction hleft with
  | refl => exact hright
  | epsilon hstep _ ih => exact .epsilon hstep (ih hright)
  | symbol hstep _ ih => exact .symbol hstep (ih hright)

/-- A trace with one more empty move at its end spells the same word. -/
theorem snoc_epsilon (hleft : Trace moves p w q) (hstep : moves q .epsilon r) :
    Trace moves p w r := by
  simpa using hleft.append (.epsilon hstep (.refl r))

/-- A trace between images of states, where moves are kept by the map. -/
theorem map {moves' : τ → Label → τ → Prop} (f : σ → τ)
    (hmoves : ∀ p l q, moves p l q → moves' (f p) l (f q)) (h : Trace moves p w q) :
    Trace moves' (f p) w (f q) := by
  induction h with
  | refl => exact .refl _
  | epsilon hstep _ ih => exact .epsilon (hmoves _ _ _ hstep) ih
  | symbol hstep _ ih => exact .symbol (hmoves _ _ _ hstep) ih

/-- More moves have more traces. -/
theorem mono (hmoves : ∀ p l q, moves p l q → moves' p l q) (h : Trace moves p w q) :
    Trace moves' p w q := h.map id hmoves

/-- A trace never leaves a region that its moves do not leave, and uses the moves inside only. -/
theorem confined (region : σ → Prop)
    (hmoves : ∀ p l q, region p → moves p l q → region q ∧ moves' p l q)
    (hp : region p) (h : Trace moves p w q) : region q ∧ Trace moves' p w q := by
  induction h with
  | refl => exact ⟨hp, .refl _⟩
  | epsilon hstep _ ih =>
    obtain ⟨hregion, hinner⟩ := hmoves _ _ _ hp hstep
    obtain ⟨hend, hrest⟩ := ih hregion
    exact ⟨hend, .epsilon hinner hrest⟩
  | symbol hstep _ ih =>
    obtain ⟨hregion, hinner⟩ := hmoves _ _ _ hp hstep
    obtain ⟨hend, hrest⟩ := ih hregion
    exact ⟨hend, .symbol hinner hrest⟩

/-- If the moves from images of the states of a region are the images of the moves from these
states, then the traces are images as well. -/
theorem map_iff {moves' : τ → Label → τ → Prop} (f : σ → τ) (region : σ → Prop)
    (hstays : ∀ p l q, region p → moves p l q → region q)
    (hmoves : ∀ p l t, region p → (moves' (f p) l t ↔ ∃ q, f q = t ∧ moves p l q))
    (hp : region p) {t : τ} :
    Trace moves' (f p) w t ↔ ∃ q, region q ∧ f q = t ∧ Trace moves p w q := by
  constructor
  · intro h
    generalize hs : f p = s at h
    induction h generalizing p with
    | refl => exact ⟨p, hp, hs, .refl p⟩
    | epsilon hstep _ ih =>
      subst hs
      obtain ⟨q, rfl, hinner⟩ := (hmoves _ _ _ hp).mp hstep
      obtain ⟨r, hr, hend, htrace⟩ := ih (hstays _ _ _ hp hinner) rfl
      exact ⟨r, hr, hend, .epsilon hinner htrace⟩
    | symbol hstep _ ih =>
      subst hs
      obtain ⟨q, rfl, hinner⟩ := (hmoves _ _ _ hp).mp hstep
      obtain ⟨r, hr, hend, htrace⟩ := ih (hstays _ _ _ hp hinner) rfl
      exact ⟨r, hr, hend, .symbol hinner htrace⟩
  · intro h
    obtain ⟨q, -, rfl, htrace⟩ := h
    have hinside : ∀ p l q, region p → moves p l q → region q ∧ region p ∧ moves p l q :=
      fun p l q hp hmove => ⟨hstays p l q hp hmove, hp, hmove⟩
    refine (htrace.confined region hinside hp).2.map f fun p l q hmove => ?_
    exact (hmoves p l (f q) hmove.1).mpr ⟨q, rfl, hmove.2⟩

/-- Where no move leads on, only the trace of the empty word begins. -/
theorem of_sink (hsink : ∀ l q, ¬moves p l q) (h : Trace moves p w q) : w = [] ∧ q = p := by
  cases h with
  | refl => exact ⟨rfl, rfl⟩
  | epsilon hstep => exact absurd hstep (hsink _ _)
  | symbol hstep => exact absurd hstep (hsink _ _)

/-- A trace that leaves a region takes one of the empty moves which lead out of it. -/
theorem escapes (region : σ → Prop) (exits : σ → σ → Prop)
    (hmoves : ∀ p l q, region p → moves p l q →
      (region q ∧ moves' p l q) ∨ (l = .epsilon ∧ exits p q))
    (hp : region p) (hq : ¬region q) (h : Trace moves p w q) :
    ∃ u v f g, w = u ++ v ∧ Trace moves' p u f ∧ exits f g ∧ Trace moves g v q := by
  induction h with
  | refl => exact absurd hp hq
  | epsilon hstep hrest ih =>
    rcases hmoves _ _ _ hp hstep with ⟨hregion, hinner⟩ | ⟨_, hexit⟩
    · obtain ⟨u, v, f, g, rfl, hleft, hexit, hright⟩ := ih hregion hq
      exact ⟨u, v, f, g, rfl, .epsilon hinner hleft, hexit, hright⟩
    · exact ⟨[], _, _, _, rfl, .refl _, hexit, hrest⟩
  | @symbol _ _ _ a _ hstep _ ih =>
    rcases hmoves _ _ _ hp hstep with ⟨hregion, hinner⟩ | ⟨hempty, _⟩
    · obtain ⟨u, v, f, g, rfl, hleft, hexit, hright⟩ := ih hregion hq
      exact ⟨a :: u, v, f, g, rfl, .symbol hinner hleft, hexit, hright⟩
    · contradiction

/-- The traces of the empty word are the sequences of empty moves. -/
theorem nil_iff :
    Trace moves p [] q ↔ Relation.ReflTransGen (fun p q => moves p .epsilon q) p q := by
  constructor
  · intro h
    generalize hw : ([] : Word) = w at h
    induction h with
    | refl => exact .refl
    | epsilon hstep _ ih => exact .head hstep (ih hw)
    | symbol => contradiction
  · intro h
    induction h with
    | refl => exact .refl p
    | tail _ hstep ih => exact ih.snoc_epsilon hstep

/-- Without empty moves, the trace of the empty word stays where it is. -/
theorem nil_iff_eq (hempty : ∀ p q, ¬moves p .epsilon q) : Trace moves p [] q ↔ p = q := by
  constructor
  · intro h
    cases h with
    | refl => rfl
    | epsilon hstep => exact absurd hstep (hempty _ _)
  · intro h
    subst h
    exact .refl p

/-- A trace of a word makes some empty moves, reads the first symbol and goes on from there. -/
theorem cons_iff {a : Symbol} :
    Trace moves p (a :: w) r ↔
      ∃ q s, Trace moves p [] q ∧ moves q (.symbol a) s ∧ Trace moves s w r := by
  constructor
  · intro h
    generalize hv : a :: w = v at h
    induction h with
    | refl => contradiction
    | epsilon hstep _ ih =>
      obtain ⟨q, s, hempty, hread, hrest⟩ := ih hv
      exact ⟨q, s, .epsilon hstep hempty, hread, hrest⟩
    | symbol hstep hrest =>
      obtain ⟨rfl, rfl⟩ := List.cons.inj hv
      exact ⟨_, _, .refl _, hstep, hrest⟩
  · intro h
    obtain ⟨q, s, hempty, hread, hrest⟩ := h
    exact hempty.append (.symbol hread hrest)

/-- Some word leads from one state to another if transitions do, whatever they read. -/
theorem exists_iff :
    (∃ w, Trace moves p w q) ↔ Relation.ReflTransGen (fun p q => ∃ l, moves p l q) p q := by
  constructor
  · intro h
    obtain ⟨w, htrace⟩ := h
    induction htrace with
    | refl => exact .refl
    | epsilon hstep _ ih => exact .head ⟨_, hstep⟩ ih
    | symbol hstep _ ih => exact .head ⟨_, hstep⟩ ih
  · intro h
    induction h with
    | refl => exact ⟨[], .refl p⟩
    | tail _ hstep ih =>
      obtain ⟨w, htrace⟩ := ih
      obtain ⟨l, hmove⟩ := hstep
      cases l with
      | epsilon => exact ⟨w, htrace.snoc_epsilon hmove⟩
      | symbol a => exact ⟨w ++ [a], htrace.append (.symbol hmove (.refl _))⟩

/-- If a symbol leads where the symbols do that it stands for, then a word leads where the words do
that it stands for, symbol by symbol. -/
theorem relabel_iff {stands : Symbol → Symbol → Prop}
    (hempty : ∀ p q, moves' p .epsilon q ↔ moves p .epsilon q)
    (hread : ∀ p b q, moves' p (.symbol b) q ↔ ∃ a, stands a b ∧ moves p (.symbol a) q) :
    Trace moves' p w q ↔ ∃ v, List.Forall₂ stands v w ∧ Trace moves p v q := by
  constructor
  · intro h
    induction h with
    | refl => exact ⟨[], .nil, .refl _⟩
    | epsilon hstep _ ih =>
      obtain ⟨v, hv, htrace⟩ := ih
      exact ⟨v, hv, .epsilon ((hempty _ _).mp hstep) htrace⟩
    | symbol hstep _ ih =>
      obtain ⟨a, ha, hmove⟩ := (hread _ _ _).mp hstep
      obtain ⟨v, hv, htrace⟩ := ih
      exact ⟨a :: v, .cons ha hv, .symbol hmove htrace⟩
  · intro h
    obtain ⟨v, hv, htrace⟩ := h
    induction htrace generalizing w with
    | refl =>
      cases hv
      exact .refl _
    | epsilon hstep _ ih => exact .epsilon ((hempty _ _).mpr hstep) (ih hv)
    | symbol hstep _ ih =>
      cases hv with
      | cons ha hv => exact .symbol ((hread _ _ _).mpr ⟨_, ha, hstep⟩) (ih hv)

end Trace

namespace Automaton

variable {T : Type} [TransitionTable T]

/-- The automaton has a transition over the label from one state to the other. -/
def Moves (A : Automaton T) (p : State) (l : Label) (q : State) : Prop := ⟨p, l, q⟩ ∈ A.edges

/-- A transition leads from one state to the other. -/
def Follows (A : Automaton T) (p q : State) : Prop := ∃ l, A.Moves p l q

/-- Some trace leads over the word from the initial state to a final one. -/
def Recognizes (A : Automaton T) (w : Word) : Prop :=
  ∃ q ∈ A.finals, Trace A.Moves A.initial w q

omit [TransitionTable T] in
/-- A state is final if it is among the final states. -/
@[simp] theorem isFinal_iff {A : Automaton T} {q : State} : A.isFinal q = true ↔ q ∈ A.finals := by
  simp [isFinal]

omit [TransitionTable T] in
/-- Some state of a set is final if one of them is among the final states. -/
@[simp] theorem anyFinal_iff {A : Automaton T} {states : StateSet} :
    A.anyFinal states = true ↔ ∃ q ∈ states, q ∈ A.finals := by
  simp [anyFinal]

/-- The successors of a state that are collected from a list of transitions. -/
theorem mem_adjacency {edges : List Edge} {p q : State} :
    q ∈ (adjacency edges).getD p ∅ ↔ ∃ l, (⟨p, l, q⟩ : Edge) ∈ edges := by
  have hfold (edges : List Edge) (m : Std.ExtTreeMap State StateSet) :
      q ∈ (edges.foldl (fun m e => m.insert e.source ((m.getD e.source ∅).insert e.target)) m).getD
          p ∅ ↔ (∃ l, (⟨p, l, q⟩ : Edge) ∈ edges) ∨ q ∈ m.getD p ∅ := by
    induction edges generalizing m with
    | nil => simp
    | cons e edges ih =>
      obtain ⟨p', l', q'⟩ := e
      rw [List.foldl_cons, ih, Std.ExtTreeMap.getD_insert]
      by_cases hp : p' = p
      · subst hp
        rw [if_pos (Std.compare_self), FiniteSet.mem_insert]
        simp only [List.mem_cons, Edge.mk.injEq, true_and, exists_or, exists_eq_left]
        rw [← or_assoc, or_comm (b := q = q')]
      · rw [if_neg (fun h => hp (Std.compare_eq_iff_eq.mp h))]
        have hne : p ≠ p' := fun h => hp h.symm
        simp [hne]
  rw [adjacency, hfold]
  simp

/-- The reachable states are those that transitions lead to from the initial state. -/
theorem mem_reachableStates_iff_follows {A : Automaton T} {q : State} :
    q ∈ A.reachableStates ↔ Relation.ReflTransGen A.Follows A.initial q := by
  have hleads : StateSet.Leads (fun q => (adjacency A.edges).getD q ∅) = A.Follows :=
    funext fun p => funext fun q => propext mem_adjacency
  rw [reachableStates, StateSet.mem_reach (adjacency A.edges).keys.toFinset, hleads]
  · simp only [StateSet.mem_single, exists_eq_left]
  · intro p q hq
    rw [List.mem_toFinset, Std.ExtTreeMap.mem_keys]
    by_contra hnot
    rw [Std.ExtTreeMap.getD_eq_fallback hnot] at hq
    simp at hq
  · exact (List.toFinset_card_le _).trans_eq Std.ExtTreeMap.length_keys

/-- The reachable states are those that some word leads to. -/
theorem mem_reachableStates {A : Automaton T} {q : State} :
    q ∈ A.reachableStates ↔ ∃ w, Trace A.Moves A.initial w q :=
  mem_reachableStates_iff_follows.trans Trace.exists_iff.symm

end Automaton

end RegularLanguages
