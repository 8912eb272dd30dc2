import Mathlib.Computability.Language
import RegularLanguages.Proofs.Traces

/-!
# Traces through a part of an automaton

An automaton that is built into a larger one occupies a region of its states. There the larger one
has the moves of the part, which stay in the region, and besides them empty moves over exits. A
trace is cut at the first exit that it takes: what comes before it is a trace of the part, and what
comes after it begins where the exit leads. If all exits lead back to one state of the region or to
a last state, a trace to the last state spells any number of words of the part. A copy of a part,
whose states are images of those of the part, has the same words.
-/

namespace RegularLanguages

open scoped Computability

section Words

variable {σ : Type}

/-- The words of the traces from a state to one of some final states. -/
def wordsFrom (moves : σ → Label → σ → Prop) (p : σ) (final : σ → Prop) : Language Symbol :=
  {w | ∃ f, final f ∧ Trace moves p w f}

variable {τ : Type} {moves : σ → Label → σ → Prop} {p : σ} {final : σ → Prop} {w : Word}

/-- The words from a state are those that lead from it to a final state. -/
theorem mem_wordsFrom : w ∈ wordsFrom moves p final ↔ ∃ f, final f ∧ Trace moves p w f := .rfl

/-- The images of the states of a region have the words of these states, if the moves from them are
images of moves. -/
theorem wordsFrom_map {moves' : τ → Label → τ → Prop} {final' : τ → Prop} (f : σ → τ)
    (region : σ → Prop) (hstays : ∀ p l q, region p → moves p l q → region q)
    (hmoves : ∀ p l t, region p → (moves' (f p) l t ↔ ∃ q, f q = t ∧ moves p l q))
    (hfinal : ∀ q, region q → (final' (f q) ↔ final q)) (hp : region p) :
    wordsFrom moves' (f p) final' = wordsFrom moves p final := by
  refine Language.ext fun w => ?_
  simp only [mem_wordsFrom, Trace.map_iff f region hstays hmoves hp]
  constructor
  · intro h
    obtain ⟨_, ht, q, hq, rfl, htrace⟩ := h
    exact ⟨q, (hfinal q hq).mp ht, htrace⟩
  · intro h
    obtain ⟨q, hend, htrace⟩ := h
    have hinside : ∀ p l q, region p → moves p l q → region q ∧ moves p l q :=
      fun p l q hp hmove => ⟨hstays p l q hp hmove, hmove⟩
    have hq := (htrace.confined region hinside hp).1
    exact ⟨f q, (hfinal q hq).mpr hend, q, hq, rfl, htrace⟩

end Words

/-- From a region, the `outer` moves are the `inner` ones, which stay in it, and empty moves over
exits. -/
structure Encloses {σ : Type} (region : σ → Prop) (inner outer : σ → Label → σ → Prop)
    (exits : σ → σ → Prop) : Prop where
  stays : ∀ p l q, region p → inner p l q → region q
  moves_iff : ∀ p l q, region p → (outer p l q ↔ inner p l q ∨ (l = .epsilon ∧ exits p q))

namespace Encloses

variable {σ : Type} {region : σ → Prop} {inner outer : σ → Label → σ → Prop}
  {exits : σ → σ → Prop} {p q : σ} {w : Word}

/-- A trace of the part is one of the whole, and stays in the region. -/
theorem trace_outer (h : Encloses region inner outer exits) (hp : region p)
    (htrace : Trace inner p w q) : region q ∧ Trace outer p w q := by
  refine htrace.confined region ?_ hp
  intro p l q hp hmove
  exact ⟨h.stays p l q hp hmove, (h.moves_iff p l q hp).mpr (.inl hmove)⟩

/-- Without exits, the traces from the region are those of the part. -/
theorem trace_iff (h : Encloses region inner outer fun _ _ => False) (hp : region p) :
    Trace outer p w q ↔ Trace inner p w q := by
  constructor
  · intro htrace
    refine (htrace.confined region ?_ hp).2
    intro p l q hp hmove
    have hinner : inner p l q := by simpa using (h.moves_iff p l q hp).mp hmove
    exact ⟨h.stays p l q hp hinner, hinner⟩
  · exact fun htrace => (h.trace_outer hp htrace).2

/-- A trace that leaves the region is a trace of the part, then an exit, and then any trace. -/
theorem trace_iff_exits (h : Encloses region inner outer exits) (hp : region p) (hq : ¬region q) :
    Trace outer p w q ↔
      ∃ u v f g, w = u ++ v ∧ Trace inner p u f ∧ exits f g ∧ Trace outer g v q := by
  constructor
  · intro htrace
    refine htrace.escapes region exits ?_ hp hq
    intro p l q hp hmove
    rcases (h.moves_iff p l q hp).mp hmove with hinner | hexit
    · exact .inl ⟨h.stays p l q hp hinner, hinner⟩
    · exact .inr hexit
  · intro hcut
    obtain ⟨u, v, f, g, rfl, hleft, hexit, hright⟩ := hcut
    obtain ⟨hf, hleft⟩ := h.trace_outer hp hleft
    exact hleft.append (.epsilon ((h.moves_iff f _ g hf).mpr (.inr ⟨rfl, hexit⟩)) hright)

end Encloses

section Joins

variable {σ : Type} {outer : σ → Label → σ → Prop} {final : σ → Prop} {p q : σ} {w : Word}

/-- From a state that only has empty moves to entries, a trace to another state begins with one of
these. -/
theorem trace_iff_enters {entries : σ → Prop}
    (hmoves : ∀ l q, outer p l q ↔ l = .epsilon ∧ entries q) (hq : q ≠ p) :
    Trace outer p w q ↔ ∃ e, entries e ∧ Trace outer e w q := by
  constructor
  · intro htrace
    cases htrace with
    | refl => exact absurd rfl hq
    | epsilon hstep hrest => exact ⟨_, ((hmoves _ _).mp hstep).2, hrest⟩
    | symbol hstep => exact absurd ((hmoves _ _).mp hstep).1 (by simp)
  · intro h
    obtain ⟨e, hentry, hrest⟩ := h
    exact .epsilon ((hmoves _ _).mpr ⟨rfl, hentry⟩) hrest

/-- A state that is left by one empty move only has the words of the state behind it. -/
theorem wordsFrom_enters {start : σ} (hmoves : ∀ l q, outer p l q ↔ l = .epsilon ∧ q = start)
    (hp : ¬final p) : wordsFrom outer p final = wordsFrom outer start final := by
  refine Language.ext fun w => exists_congr fun q => and_congr_right fun hq => ?_
  have hne : q ≠ p := fun h => hp (h ▸ hq)
  rw [trace_iff_enters hmoves hne]
  simp

/-- A state that has empty moves to the starts of two parts has the words of both. -/
theorem wordsFrom_alternatives {left right : σ → Prop} {movesL movesR : σ → Label → σ → Prop}
    {finalL finalR : σ → Prop} {startL startR : σ}
    (hleft : Encloses left movesL outer fun _ _ => False)
    (hright : Encloses right movesR outer fun _ _ => False)
    (hmoves : ∀ l q, outer p l q ↔ l = .epsilon ∧ (q = startL ∨ q = startR))
    (hstartL : left startL) (hstartR : right startR) (hp : ¬final p)
    (hfinalL : ∀ f, left f → (final f ↔ finalL f))
    (hfinalR : ∀ f, right f → (final f ↔ finalR f)) :
    wordsFrom outer p final = wordsFrom movesL startL finalL + wordsFrom movesR startR finalR := by
  refine Language.ext fun w => ?_
  rw [Language.mem_add, mem_wordsFrom, mem_wordsFrom, mem_wordsFrom]
  constructor
  · intro h
    obtain ⟨q, hq, htrace⟩ := h
    have hne : q ≠ p := fun h => hp (h ▸ hq)
    obtain ⟨e, rfl | rfl, htrace⟩ := (trace_iff_enters hmoves hne).mp htrace
    · have hinner := (hleft.trace_iff hstartL).mp htrace
      exact .inl ⟨q, (hfinalL q (hleft.trace_outer hstartL hinner).1).mp hq, hinner⟩
    · have hinner := (hright.trace_iff hstartR).mp htrace
      exact .inr ⟨q, (hfinalR q (hright.trace_outer hstartR hinner).1).mp hq, hinner⟩
  · intro h
    rcases h with ⟨q, hq, htrace⟩ | ⟨q, hq, htrace⟩
    · obtain ⟨hregion, houter⟩ := hleft.trace_outer hstartL htrace
      exact ⟨q, (hfinalL q hregion).mpr hq, .epsilon ((hmoves _ _).mpr ⟨rfl, .inl rfl⟩) houter⟩
    · obtain ⟨hregion, houter⟩ := hright.trace_outer hstartR htrace
      exact ⟨q, (hfinalR q hregion).mpr hq, .epsilon ((hmoves _ _).mpr ⟨rfl, .inr rfl⟩) houter⟩

/-- If the exits of one part lead to the start of another one, the words that lead through both are
products. -/
theorem wordsFrom_sequence {left right : σ → Prop} {movesL movesR : σ → Label → σ → Prop}
    {finalL : σ → Prop} {start : σ}
    (hleft : Encloses left movesL outer fun f g => finalL f ∧ g = start)
    (hright : Encloses right movesR outer fun _ _ => False)
    (hp : left p) (hstart : right start) (hfinal : ∀ f, final f → ¬left f) :
    wordsFrom outer p final = wordsFrom movesL p finalL * wordsFrom movesR start final := by
  refine Language.ext fun w => ?_
  simp only [Language.mem_mul, mem_wordsFrom]
  constructor
  · intro h
    obtain ⟨q, hq, htrace⟩ := h
    obtain ⟨u, v, f, g, rfl, hfirst, ⟨hf, rfl⟩, hrest⟩ :=
      (hleft.trace_iff_exits hp (hfinal q hq)).mp htrace
    exact ⟨u, ⟨f, hf, hfirst⟩, v, ⟨q, hq, (hright.trace_iff hstart).mp hrest⟩, rfl⟩
  · intro h
    obtain ⟨u, ⟨f, hf, hfirst⟩, v, ⟨q, hq, hrest⟩, rfl⟩ := h
    refine ⟨q, hq, (hleft.trace_iff_exits hp (hfinal q hq)).mpr ?_⟩
    exact ⟨u, v, f, start, rfl, hfirst, ⟨hf, rfl⟩, (hright.trace_iff hstart).mpr hrest⟩

/-- A word of a language before a word of its repetition is a word of its repetition. -/
theorem append_mem_kstar {L : Language Symbol} {u v : Word} (hu : u ∈ L) (hv : v ∈ L∗) :
    u ++ v ∈ L∗ := by
  rw [← Language.one_add_self_mul_kstar_eq_kstar, Language.mem_add]
  exact .inr (Language.append_mem_mul hu hv)

end Joins

/-! ## Loops -/

section Loops

variable {σ : Type} {region : σ → Prop} {inner outer : σ → Label → σ → Prop} {final : σ → Prop}
  {start last p q : σ} {w : Word}

/-- From a final state of the part, any number of words of the part lead to the last state. -/
theorem Encloses.trace_of_mem_kstar
    (h : Encloses region inner outer fun f g => final f ∧ (g = start ∨ g = last))
    (hstart : region start) (hw : w ∈ (wordsFrom inner start final)∗) (hp : region p)
    (hfinal : final p) : Trace outer p w last := by
  obtain ⟨pieces, rfl, hpieces⟩ := Language.mem_kstar.mp hw
  clear hw
  induction pieces generalizing p with
  | nil => exact .epsilon ((h.moves_iff p _ last hp).mpr (.inr ⟨rfl, hfinal, .inr rfl⟩)) (.refl _)
  | cons u pieces ih =>
    obtain ⟨f, hf, hpiece⟩ := hpieces u List.mem_cons_self
    obtain ⟨hregion, hpiece⟩ := h.trace_outer hstart hpiece
    have hrest := ih hregion hf fun v hv => hpieces v (List.mem_cons_of_mem _ hv)
    exact .epsilon ((h.moves_iff p _ start hp).mpr (.inr ⟨rfl, hfinal, .inl rfl⟩))
      (hpiece.append hrest)

/-- A trace to the last state ends a word of the part, and goes on with any number of them. -/
theorem Encloses.mem_mul_kstar_of_trace
    (h : Encloses region inner outer fun f g => final f ∧ (g = start ∨ g = last))
    (hstart : region start) (hlast : ¬region last) (hsink : ∀ l q, ¬outer last l q)
    (hp : region p) (htrace : Trace outer p w last) :
    w ∈ wordsFrom inner p final * (wordsFrom inner start final)∗ := by
  -- An exit may lead back into the region, so the induction is on the whole trace and each step
  -- either goes on with the word that has been begun or ends it.
  generalize hend : last = t at htrace
  induction htrace with
  | refl => exact absurd (hend ▸ hp) hlast
  | @epsilon p q _ w hstep hrest ih =>
    rcases (h.moves_iff p _ q hp).mp hstep with hinner | ⟨-, hfinal, rfl | rfl⟩
    · obtain ⟨u, ⟨f, hf, hfirst⟩, v, hv, rfl⟩ :=
        Language.mem_mul.mp (ih (h.stays p _ q hp hinner) hend)
      exact Language.append_mem_mul ⟨f, hf, .epsilon hinner hfirst⟩ hv
    · obtain ⟨u, hu, v, hv, rfl⟩ := Language.mem_mul.mp (ih hstart hend)
      exact Language.append_mem_mul (a := []) ⟨p, hfinal, .refl p⟩ (append_mem_kstar hu hv)
    · obtain ⟨rfl, -⟩ := hrest.of_sink hsink
      exact Language.append_mem_mul (a := []) ⟨p, hfinal, .refl p⟩ (Language.nil_mem_kstar _)
  | @symbol p q _ a w hstep _ ih =>
    rcases (h.moves_iff p _ q hp).mp hstep with hinner | ⟨hempty, -⟩
    · obtain ⟨u, ⟨f, hf, hfirst⟩, v, hv, rfl⟩ :=
        Language.mem_mul.mp (ih (h.stays p _ q hp hinner) hend)
      exact Language.append_mem_mul (a := a :: u) ⟨f, hf, .symbol hinner hfirst⟩ hv
    · contradiction

/-- Between a first state, from which the part is entered, and a last state, by which it is left,
lie any number of words of the part. -/
theorem wordsFrom_repetition
    (h : Encloses region inner outer fun f g => final f ∧ (g = start ∨ g = last))
    (hmoves : ∀ l q, outer p l q ↔ l = .epsilon ∧ (q = start ∨ q = last))
    (hstart : region start) (hlast : ¬region last) (hne : last ≠ p)
    (hsink : ∀ l q, ¬outer last l q) :
    wordsFrom outer p (· = last) = (wordsFrom inner start final)∗ := by
  refine Language.ext fun w => ?_
  rw [mem_wordsFrom]
  simp only [exists_eq_left, trace_iff_enters hmoves hne]
  constructor
  · intro htrace
    obtain ⟨e, rfl | rfl, htrace⟩ := htrace
    · obtain ⟨u, hu, v, hv, rfl⟩ := Language.mem_mul.mp
        (h.mem_mul_kstar_of_trace hstart hlast hsink hstart htrace)
      exact append_mem_kstar hu hv
    · obtain ⟨rfl, -⟩ := htrace.of_sink hsink
      exact Language.nil_mem_kstar _
  · intro hw
    rw [← Language.one_add_self_mul_kstar_eq_kstar, Language.mem_add] at hw
    rcases hw with rfl | hw
    · exact ⟨last, .inr rfl, .refl last⟩
    · obtain ⟨u, ⟨f, hf, hpiece⟩, v, hv, rfl⟩ := Language.mem_mul.mp hw
      obtain ⟨hregion, hpiece⟩ := h.trace_outer hstart hpiece
      exact ⟨start, .inl rfl, hpiece.append (h.trace_of_mem_kstar hstart hv hregion hf)⟩

end Loops

end RegularLanguages
