import RegularLanguages.Proofs.ClosedSubsets
import RegularLanguages.Proofs.Metering

/-!
# What constructions report

A construction that reports to a meter makes the same reports to every meter, until it is stopped.
Here they are written down. A search reports one unit of work for each node that it expands and each
symbol, and the nodes it finds as they are counted: one, two, three and so on. So a subset
construction reports as many sizes as its automaton has states, and one unit of work for each of
these and each symbol of the alphabet.
-/

namespace RegularLanguages

/-- What is reported to a meter. -/
inductive Report where
  /-- One unit of work is about to be done. -/
  | work
  /-- An automaton with this many states is about to be made. -/
  | states (count : Nat)
deriving DecidableEq

/-- The number of states that is reported. -/
def Report.count? : Report → Option Nat
  | work => none
  | states count => some count

/-- A value with the reports that were made on the way to it. -/
structure Recorded (α : Type) where
  value : α
  reports : List Report

namespace Recorded

instance : Monad Recorded where
  pure x := ⟨x, []⟩
  bind c f := ⟨(f c.value).value, c.reports ++ (f c.value).reports⟩

variable {α β : Type}

/-- The units of work that are reported. -/
def work (c : Recorded α) : Nat := c.reports.count .work

/-- The numbers of states that are reported. -/
def counts (c : Recorded α) : List Nat := c.reports.filterMap Report.count?

/-- A number is reported if it was given to the meter. -/
theorem mem_counts {c : Recorded α} {count : Nat} :
    count ∈ c.counts ↔ .states count ∈ c.reports := by
  rw [counts, List.mem_filterMap]
  constructor
  · rintro ⟨report, hmem, hcount⟩
    cases report with
    | work => cases hcount
    | states states => exact Option.some.inj hcount ▸ hmem
  · exact fun hmem => ⟨_, hmem, rfl⟩

/-- A computation that only returns a value has this value. -/
@[simp] theorem value_pure (x : α) : (pure x : Recorded α).value = x := rfl

/-- A computation that only returns a value reports no work. -/
@[simp] theorem work_pure (x : α) : (pure x : Recorded α).work = 0 := rfl

/-- A computation that only returns a value reports no states. -/
@[simp] theorem counts_pure (x : α) : (pure x : Recorded α).counts = [] := rfl

/-- The value of a computation is that of what follows its first value. -/
@[simp] theorem value_bind (c : Recorded α) (f : α → Recorded β) :
    (c >>= f).value = (f c.value).value := rfl

/-- The work of a computation is that of its first part and of what follows. -/
@[simp] theorem work_bind (c : Recorded α) (f : α → Recorded β) :
    (c >>= f).work = c.work + (f c.value).work := List.count_append

/-- The numbers of states that a computation reports are those of its first part and then those of
what follows. -/
@[simp] theorem counts_bind (c : Recorded α) (f : α → Recorded β) :
    (c >>= f).counts = c.counts ++ (f c.value).counts := List.filterMap_append

end Recorded

namespace Meter

/-- The meter that writes down what is reported and never stops anything. -/
def recorder : Meter Recorded := ⟨⟨(), [.work]⟩, fun count => ⟨(), [.states count]⟩⟩

/-- A unit of work is recorded as one. -/
@[simp] theorem work_tick : recorder.tick.work = 1 := rfl

/-- A unit of work is recorded without a number of states. -/
@[simp] theorem counts_tick : recorder.tick.counts = [] := rfl

/-- Looking at a number of states is recorded as no work. -/
@[simp] theorem work_allow (count : Nat) : (recorder.allow count).work = 0 := rfl

/-- Looking at a number of states is recorded as this number. -/
@[simp] theorem counts_allow (count : Nat) : (recorder.allow count).counts = [count] := rfl

end Meter

namespace Lockstep

/-- A recorded computation has the value of the computation without a record. -/
def recording : Lockstep Recorded Id where
  Related c d := c.value = Id.run d
  pure _ := rfl
  bind {_ _ c _ _ g} hc hf := (hf c.value).trans (congrArg (fun x => Id.run (g x)) hc)

/-- The meter that records agrees with the one that charges nothing, so recorded constructions have
the values of free ones. -/
theorem meters_recording : recording.Meters Meter.recorder Meter.free := ⟨rfl, fun _ => rfl⟩

end Lockstep

open Lockstep (meters_recording)

namespace Search

variable {σ : Type} [Ord σ]

/-- A recorded search has gone on: it has expanded some of the pending nodes and found some new
ones, each of which was reported with the number of nodes found so far, itself among them. -/
structure Records (s : Search σ) (c : Recorded (Search σ)) (expanded work : Nat) : Prop where
  found : ∃ new, c.value.found.size = s.found.size + new ∧
    c.value.pending.length + expanded = s.pending.length + new ∧
    c.counts = List.range' (s.found.size + 1) new
  work_eq : c.work = work

namespace Records

/-- A search that does nothing has gone on with nothing expanded and nothing found. -/
theorem pure (s : Search σ) : Records s (Pure.pure s) 0 0 := ⟨⟨0, rfl, rfl, rfl⟩, rfl⟩

/-- What is recorded after a search has gone on twice. -/
theorem bind {s : Search σ} {c : Recorded (Search σ)} {f : Search σ → Recorded (Search σ)}
    {expanded expanded' work work' : Nat} (h : Records s c expanded work)
    (h' : Records c.value (f c.value) expanded' work') :
    Records s (c >>= f) (expanded + expanded') (work + work') := by
  obtain ⟨new, hsize, hpending, hcounts⟩ := h.found
  obtain ⟨new', hsize', hpending', hcounts'⟩ := h'.found
  refine ⟨⟨new + new', ?_, ?_, ?_⟩, ?_⟩
  · rw [Recorded.value_bind, hsize', hsize, Nat.add_assoc]
  · rw [Recorded.value_bind]
    omega
  · rw [Recorded.counts_bind, hcounts, hcounts', hsize, Nat.add_right_comm, List.range'_append_1]
  · rw [Recorded.work_bind, h.work_eq, h'.work_eq]

/-- A unit of work is recorded in addition. -/
theorem tick {s : Search σ} {c : Recorded (Search σ)} {expanded work : Nat}
    (h : Records s c expanded work) :
    Records s (Meter.recorder.tick >>= fun _ => c) expanded (work + 1) := by
  refine ⟨by simpa using h.found, ?_⟩
  rw [Recorded.work_bind, h.work_eq, Meter.work_tick, Nat.add_comm]

end Records

variable [Std.TransOrd σ]

/-- A node that is taken from the pending ones to be expanded is one more. -/
theorem Records.of_next? {s t : Search σ} {p : σ} {c : Recorded (Search σ)} {work : Nat}
    (hnext : s.next? = some (p, t)) (h : Records t c 0 work) : Records s c 1 work := by
  obtain ⟨hfound, -⟩ := found_and_arcs_of_next? hnext
  obtain ⟨new, hsize, hpending, hcounts⟩ := h.found
  refine ⟨⟨new, hfound ▸ hsize, ?_, hfound ▸ hcounts⟩, h.work_eq⟩
  rw [pending_of_next? hnext, List.length_cons]
  omega

/-- A new node is reported as the next one, and a known one is not reported. -/
theorem records_reach (p : σ) (a : Symbol) (s : Search σ) (q : σ) :
    Records s (s.reach Meter.recorder p a q) 0 0 := by
  by_cases hq : s.found.contains q
  · rw [reach, if_pos hq]
    exact ⟨⟨0, rfl, rfl, rfl⟩, rfl⟩
  · have hnew : q ∉ s.found := fun hmem => hq (Std.ExtTreeSet.contains_iff_mem.mpr hmem)
    rw [reach, if_neg hq]
    refine ⟨⟨1, FiniteSet.size_insert hnew, ?_, rfl⟩, rfl⟩
    change (s.discover q).pending.length = _
    rw [pending_discover, List.length_append, List.length_singleton]

/-- Reaching several nodes is recorded without work, and with the number of nodes after each new
one. -/
theorem records_reachAll (p : σ) (a : Symbol) (s : Search σ) (targets : List σ) :
    Records s (s.reachAll Meter.recorder p a targets) 0 0 := by
  induction targets generalizing s with
  | nil => exact .pure s
  | cons q targets ih =>
    exact (records_reach p a s q).bind (f := fun s => s.reachAll Meter.recorder p a targets) (ih _)

/-- Every symbol that is followed is a unit of work. -/
theorem records_followAll (next : σ → Symbol → List σ) (p : σ) (s : Search σ)
    (symbols : List Symbol) :
    Records s (followAll Meter.recorder next p s symbols) 0 symbols.length := by
  induction symbols generalizing s with
  | nil => exact .pure s
  | cons a symbols ih =>
    have hfollow : Records s (s.follow Meter.recorder next p a) 0 1 :=
      (records_reachAll p a s (next p a)).tick
    rw [List.length_cons, Nat.add_comm]
    exact hfollow.bind (f := fun s => followAll Meter.recorder next p s symbols) (ih _)

/-- Every symbol is followed from every node that is expanded. -/
theorem records_expand (symbols : List Symbol) (next : σ → Symbol → List σ) (nodes : Nat)
    (s : Search σ) : ∃ expanded, Records s (expand Meter.recorder symbols next nodes s) expanded
      (expanded * symbols.length) := by
  induction nodes generalizing s with
  | zero => exact ⟨0, (Nat.zero_mul symbols.length).symm ▸ .pure s⟩
  | succ nodes ih =>
    unfold expand
    cases hnext : s.next? with
    | none => exact ⟨0, (Nat.zero_mul symbols.length).symm ▸ .pure s⟩
    | some found =>
      obtain ⟨p, t⟩ := found
      obtain ⟨expanded, hrest⟩ := ih (followAll Meter.recorder next p t symbols).value
      refine ⟨1 + expanded, ?_⟩
      rw [Nat.add_mul, Nat.one_mul]
      exact ((records_followAll next p t symbols).of_next? hnext).bind hrest

variable [Std.LawfulEqOrd σ] {symbols : List Symbol} {next : σ → Symbol → List σ} {nodes : Nat}
  {first : σ}

/-- The numbers of nodes that a search reports are those up to the number of nodes it finds. -/
theorem counts_run : (run Meter.recorder symbols next nodes first).counts =
    List.range' 1 (Id.run (run Meter.free symbols next nodes first)).found.size := by
  obtain ⟨expanded, hrecords⟩ := records_expand symbols next nodes (start first)
  obtain ⟨new, hsize, -, hcounts⟩ := hrecords.found
  rw [← (meters_recording.run symbols next nodes first), run, Recorded.counts_bind,
    Recorded.value_bind, hsize, hcounts, size_found_start, Nat.add_comm 1 new]
  rfl

/-- The units of work of a search that leaves no node pending are those of all nodes it finds. -/
theorem work_run
    (hpending : (Id.run (run Meter.free symbols next nodes first)).pending = []) :
    (run Meter.recorder symbols next nodes first).work =
      (Id.run (run Meter.free symbols next nodes first)).found.size * symbols.length := by
  obtain ⟨expanded, hrecords⟩ := records_expand symbols next nodes (start first)
  obtain ⟨new, hsize, hexpanded, -⟩ := hrecords.found
  have hvalue : (expand Meter.recorder symbols next nodes (start first)).value =
      Id.run (run Meter.free symbols next nodes first) :=
    meters_recording.run symbols next nodes first
  have hcount : (Id.run (run Meter.free symbols next nodes first)).found.size = expanded := by
    have hstart : (start first).pending.length = 1 := rfl
    rw [hvalue, hpending, List.length_nil, hstart] at hexpanded
    rw [← hvalue, hsize, size_found_start]
    omega
  rw [run, Recorded.work_bind, hrecords.work_eq, hcount, Meter.work_allow, Nat.zero_add]

/-- The automaton of a search has a state for each node, if nodes have names of their own. -/
theorem size_toDFA {s : Search σ} {alphabet : Alphabet} {name : σ → State} {accepting : σ → Bool}
    (hname : ∀ p ∈ s.found, ∀ q ∈ s.found, name p = name q → p = q) :
    (s.toDFA alphabet name first accepting).size = s.found.size := by
  have hnodup : (s.found.toList.map name).Nodup := by
    refine (FiniteSet.nodup_toList s.found).map_on fun p hp q hq => ?_
    exact hname p (Std.ExtTreeSet.mem_toList.mp hp) q (Std.ExtTreeSet.mem_toList.mp hq)
  calc (s.toDFA alphabet name first accepting).size
      = (s.found.toList.map name).length := FiniteSet.size_ofList hnodup
    _ = s.found.size := by rw [List.length_map, Std.ExtTreeSet.length_toList]

end Search

section Subsets

variable {states : StateSet} {alphabet : Alphabet} {first : StateSet}
  {step : StateSet → Symbol → StateSet} {accepting : StateSet → Bool}
  {accepts : StateSet → Word → Bool} {nodes : Nat}

/-- A search through sets of states does not find the empty set. -/
theorem Search.ne_empty_of_mem_found (hfirst : first ≠ ∅) {s : StateSet}
    (hs : s ∈ (Id.run (run Meter.free alphabet.toList (fun s a => (step s a).nodes) nodes
      first)).found) : s ≠ ∅ := by
  have hgood : ∀ (s : StateSet) (a : Symbol) (t : StateSet), s ≠ ∅ → a ∈ alphabet.toList →
      t ∈ (step s a).nodes → t ≠ ∅ := by
    intro s a t _ _ ht
    obtain ⟨rfl, hne⟩ := StateSet.mem_nodes.mp ht
    exact hne
  exact (invariant_expand hgood nodes _ (invariant_start hfirst)).good_of_mem s hs

/-- A search through sets of states counts the states of its automaton. -/
theorem Search.counts_run_nodes (hfirst : first ≠ ∅) :
    (run Meter.recorder alphabet.toList (fun s a => (step s a).nodes) nodes first).counts =
      List.range' 1 ((Id.run (run Meter.free alphabet.toList (fun s a => (step s a).nodes) nodes
        first)).toDFA alphabet State.ofSet first accepting).size := by
  rw [counts_run, size_toDFA fun _ hs _ ht =>
    State.ofSet_inj (ne_empty_of_mem_found hfirst hs) (ne_empty_of_mem_found hfirst ht)]

/-- A subset construction does a unit of work for each symbol and each state of its automaton. -/
theorem SubsetMachine.work_run (h : SubsetMachine states alphabet first step accepting accepts) :
    (Search.run Meter.recorder alphabet.toList (fun s a => (step s a).nodes) (2 ^ states.size)
      first).work = alphabet.size * ((Id.run (Search.run Meter.free alphabet.toList
        (fun s a => (step s a).nodes) (2 ^ states.size) first)).toDFA alphabet State.ofSet first
          accepting).size := by
  have hfound := fun s (hs : s ∈ (Id.run (Search.run Meter.free alphabet.toList
    (fun s a => (step s a).nodes) (2 ^ states.size) first)).found) =>
      (h.explores.good_of_mem s hs).1
  rw [Search.work_run h.pending_run, Search.size_toDFA fun s hs t ht =>
    State.ofSet_inj (hfound s hs) (hfound t ht), Std.ExtTreeSet.length_toList, Nat.mul_comm]

end Subsets

namespace NFA

variable {N : NFA}

/-- The value of the recorded subset construction is the deterministic automaton. -/
theorem value_determinizeWith (N : NFA) :
    (N.determinizeWith Meter.recorder).value = N.determinize := meters_recording.determinize N

/-- The subset construction counts its states. -/
theorem counts_determinizeWith (N : NFA) :
    (N.determinizeWith Meter.recorder).counts = List.range' 1 N.determinize.size := by
  rw [determinizeWith, Recorded.counts_bind, Recorded.counts_pure, List.append_nil]
  exact Search.counts_run_nodes (StateSet.single_ne_empty N.initial)

/-- The subset construction does a unit of work for each symbol and each of its states. -/
theorem work_determinizeWith (hN : N.WellFormed) :
    (N.determinizeWith Meter.recorder).work = N.alphabet.size * N.determinize.size := by
  rw [determinizeWith, Recorded.work_bind, Recorded.work_pure, Nat.add_zero]
  exact (subsetMachine hN).work_run

end NFA

namespace EpsilonNFA

variable {E : EpsilonNFA}

/-- The value of the recorded subset construction through closures is the deterministic
automaton. -/
theorem value_determinizeWith (E : EpsilonNFA) :
    (E.determinizeWith Meter.recorder).value = E.determinize :=
  meters_recording.determinizeDirect E

/-- The direct subset construction counts its states. -/
theorem counts_determinizeWith (E : EpsilonNFA) :
    (E.determinizeWith Meter.recorder).counts = List.range' 1 E.determinize.size := by
  rw [determinizeWith, Recorded.counts_bind, Recorded.counts_pure, List.append_nil]
  exact Search.counts_run_nodes (mt closure_eq_empty_iff.mp (StateSet.single_ne_empty E.initial))

/-- The direct subset construction does a unit of work for each symbol and each of its states. -/
theorem work_determinizeWith (hE : E.WellFormed) :
    (E.determinizeWith Meter.recorder).work = E.alphabet.size * E.determinize.size := by
  rw [determinizeWith, Recorded.work_bind, Recorded.work_pure, Nat.add_zero]
  exact (subsetMachine hE).work_run

end EpsilonNFA

/-- The value of the recorded minimization is the minimal automaton. -/
theorem DFA.value_minimizeWith (D : DFA) : (D.minimizeWith Meter.recorder).value = D.minimize :=
  meters_recording.minimize D

end RegularLanguages
