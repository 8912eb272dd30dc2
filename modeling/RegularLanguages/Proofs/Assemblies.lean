import RegularLanguages.Regex.Fragment
import RegularLanguages.Proofs.Denotation
import RegularLanguages.Proofs.Outcomes

/-!
# How expressions are put together

The program of an expression makes one fragment, whatever the stack holds, and this fragment is
found by recursion on the expression. So is the fragment that is made on a walk around the
expression, where an inner node is visited before its parts and once more behind them. Neither the
program nor the walk ever lacks an operand, and both stop at the leftmost literal that is not in the
alphabet.
-/

namespace RegularLanguages

variable {alphabet : Alphabet}

namespace Regex

/-- The fragment of an expression, made after those of its parts. -/
def assemble (alphabet : Alphabet) :
    Regex → Arena → Except Pattern.AssemblyFault (Arena × Fragment)
  | literal a, arena =>
    if alphabet.contains a then .ok (arena.literal a) else .error (.foreignLiteral a alphabet)
  | epsilon, arena => .ok arena.epsilon
  | empty, arena => .ok arena.nothing
  | union l r, arena => do
    let left ← l.assemble alphabet arena
    let right ← r.assemble alphabet left.1
    return right.1.union left.2 right.2
  | concat l r, arena => do
    let left ← l.assemble alphabet arena
    let right ← r.assemble alphabet left.1
    return right.1.concat left.2 right.2
  | star x, arena => do
    let inner ← x.assemble alphabet arena
    return inner.1.star inner.2
  | plus x, arena => do
    let inner ← x.assemble alphabet arena
    return inner.1.plus inner.2
  | optional x, arena => do
    let inner ← x.assemble alphabet arena
    return inner.1.optional inner.2
  | group x, arena => x.assemble alphabet arena

/-- An expression whose literals belong to the alphabet is put together. -/
theorem exists_assemble (x : Regex) (hliterals : ∀ a ∈ x.literals, a ∈ alphabet) (arena : Arena) :
    ∃ made, x.assemble alphabet arena = .ok made := by
  induction x generalizing arena with
  | literal a =>
    have ha : alphabet.contains a = true :=
      Std.ExtTreeSet.contains_iff_mem.mpr (hliterals a List.mem_cons_self)
    exact ⟨_, if_pos ha⟩
  | epsilon | empty => exact ⟨_, rfl⟩
  | union l r ihl ihr | concat l r ihl ihr =>
    obtain ⟨left, hl⟩ := ihl (fun a ha => hliterals a (List.mem_append_left _ ha)) arena
    obtain ⟨right, hr⟩ := ihr (fun a ha => hliterals a (List.mem_append_right _ ha)) left.1
    simp only [assemble, hl, hr, ok_bind]
    exact ⟨_, rfl⟩
  | star x ih | plus x ih | optional x ih =>
    obtain ⟨inner, hx⟩ := ih hliterals arena
    simp only [assemble, hx, ok_bind]
    exact ⟨_, rfl⟩
  | group x ih => exact ih hliterals arena

/-- The leftmost literal that is not in the alphabet is the one that is reported. -/
theorem assemble_of_find?_eq_some {x : Regex} {a : Symbol}
    (h : x.literals.find? (fun a => a ∉ alphabet) = some a) (arena : Arena) :
    x.assemble alphabet arena = .error (.foreignLiteral a alphabet) := by
  induction x generalizing arena with
  | literal b =>
    obtain ⟨hforeign, rfl⟩ : b ∉ alphabet ∧ b = a := by simpa [literals] using h
    exact if_neg fun hb => hforeign (Std.ExtTreeSet.contains_iff_mem.mp hb)
  | epsilon | empty => simp [literals] at h
  | union l r ihl ihr | concat l r ihl ihr =>
    rw [literals, List.find?_append, Option.or_eq_some_iff] at h
    rcases h with hleft | ⟨hleft, hright⟩
    · rw [assemble, ihl hleft, error_bind]
    · -- The left operand has no such literal, so that it is the right one that is refused.
      obtain ⟨left, hl⟩ := l.exists_assemble (by simpa using hleft) arena
      rw [assemble, hl, ok_bind, ihr hright, error_bind]
  | star x ih | plus x ih | optional x ih => rw [assemble, ih h, error_bind]
  | group x ih => exact ih h arena

/-- An expression that is put together has only literals of the alphabet. -/
theorem mem_of_assemble {x : Regex} {arena : Arena} {made : Arena × Fragment}
    (h : x.assemble alphabet arena = .ok made) : ∀ a ∈ x.literals, a ∈ alphabet := by
  cases hfind : x.literals.find? fun a => a ∉ alphabet with
  | none => simpa using hfind
  | some a =>
    rw [assemble_of_find?_eq_some hfind] at h
    contradiction

/-- An expression is not put together exactly if it has a literal outside the alphabet. The
leftmost of these is reported. -/
theorem assemble_eq_error_iff {x : Regex} {arena : Arena} {fault : Pattern.AssemblyFault} :
    x.assemble alphabet arena = .error fault ↔ ∃ before a after,
      x.literals = before ++ a :: after ∧ (∀ b ∈ before, b ∈ alphabet) ∧ a ∉ alphabet ∧
        fault = .foreignLiteral a alphabet := by
  constructor
  · intro h
    cases hfind : x.literals.find? fun a => a ∉ alphabet with
    | none =>
      obtain ⟨made, hmade⟩ := x.exists_assemble (by simpa using hfind) arena
      rw [hmade] at h
      contradiction
    | some a =>
      obtain ⟨hforeign, before, after, hsplit, hbefore⟩ := List.find?_eq_some_iff_append.mp hfind
      refine ⟨before, a, after, hsplit, by simpa using hbefore, by simpa using hforeign, ?_⟩
      exact Except.error.inj (h.symm.trans (assemble_of_find?_eq_some hfind arena))
  · intro h
    obtain ⟨before, a, after, hsplit, hbefore, hforeign, rfl⟩ := h
    refine assemble_of_find?_eq_some (List.find?_eq_some_iff_append.mpr ?_) arena
    exact ⟨by simpa using hforeign, before, after, hsplit, by simpa using hbefore⟩

/-- The program of an expression puts its fragment on the stack and leaves those below alone. -/
theorem run_program (x : Regex) (arena : Arena) (fragments : List Fragment)
    (rest : List FragmentOperation) :
    Assembly.run alphabet ⟨arena, fragments⟩ (x.program rest) =
      (x.assemble alphabet arena >>= fun made =>
        Assembly.run alphabet (Assembly.push fragments made) rest) := by
  induction x generalizing arena fragments rest with
  | literal a =>
    rw [program, Assembly.run, Assembly.step, assemble]
    cases alphabet.contains a <;> rfl
  | epsilon | empty => rfl
  | union l r ihl ihr | concat l r ihl ihr =>
    simp only [program, assemble, ihl, bind_assoc, pure_bind]
    refine bind_congr fun left => ?_
    exact ihr left.1 (left.2 :: fragments) _
  | star x ih | plus x ih | optional x ih =>
    simp only [program, assemble, ih, bind_assoc, pure_bind]
    rfl
  | group x ih => exact ih arena fragments rest

/-- The machine ends with the fragment of the expression and nothing else. -/
theorem run_start (x : Regex) : Assembly.start.run alphabet (x.program []) =
    (x.assemble alphabet .empty >>= fun made => .ok ⟨made.1, [made.2]⟩) :=
  x.run_program .empty [] []

/-- The automaton of an expression is made from its fragment. -/
theorem toAutomaton_eq_ok_iff {x : Regex} {E : EpsilonNFA} : x.toAutomaton alphabet = .ok E ↔
    ∃ made, x.assemble alphabet .empty = .ok made ∧
      Assembly.finish alphabet ⟨made.1, [made.2]⟩ = .ok E := by
  rw [toAutomaton, run_start]
  cases x.assemble alphabet .empty <;> simp [Assembly.finish]

/-- An expression has no automaton if it cannot be put together. -/
theorem toAutomaton_eq_error_iff {x : Regex} {e : PatternError} :
    x.toAutomaton alphabet = .error e ↔
      ∃ fault, x.assemble alphabet .empty = .error fault ∧ e = .assembly fault := by
  rw [toAutomaton, run_start]
  cases x.assemble alphabet .empty <;> simp [Assembly.finish, eq_comm]

end Regex

/-! ### Walks -/

/-- A stop on the walk around an expression: in front of the parts of a node, or behind them. -/
inductive Visit where
  | enter (x : Regex)
  | leave (x : Regex)
deriving DecidableEq, Repr

namespace Visit

/-- The visits that a visit leads to: those of the parts, and another one of the node. -/
def next : Visit → List Visit
  | enter x => if x.children.isEmpty then [] else x.children.map enter ++ [leave x]
  | leave _ => []

/-- Bounds the number of visits from this one on until its node has been left. -/
def weight : Visit → Nat
  | enter x => 2 * x.size
  | leave _ => 1

/-- Bounds the number of visits until none are left. -/
def remaining : List Visit → Nat
  | [] => 0
  | v :: visits => v.weight + remaining visits

/-- A visit outweighs those that it leads to. -/
theorem remaining_next_lt (v : Visit) (visits : List Visit) :
    remaining (v.next ++ visits) < remaining (v :: visits) := by
  cases v with
  | leave x => simp [next, remaining, weight]
  | enter x => cases x <;> simp [next, remaining, weight, Regex.children, Regex.size] <;> omega

end Visit

/-- Why a walk cannot go on. -/
inductive VisitFault where
  | assembly (fault : Pattern.AssemblyFault)
  /-- A leaf has no parts whose fragments could be combined. -/
  | combinedLeaf (leaf : Regex)
deriving DecidableEq

/-- The wording of a fault on a walk. -/
def VisitFault.message : VisitFault → String
  | assembly fault => fault.message
  | combinedLeaf leaf => "terminal node `" ++ leaf.text ++ "` cannot be combined"

namespace Assembly

/-- Makes the fragment of an inner node from those of its parts. -/
def combine (s : Assembly) : Regex → Except VisitFault Assembly
  | .union _ _ => (s.binary Arena.union).mapError .assembly
  | .concat _ _ => (s.binary Arena.concat).mapError .assembly
  | .star _ => (s.unary Arena.star).mapError .assembly
  | .plus _ => (s.unary Arena.plus).mapError .assembly
  | .optional _ => (s.unary Arena.optional).mapError .assembly
  | .group _ => (s.unary Prod.mk).mapError .assembly
  | leaf@(.literal _) | leaf@.epsilon | leaf@.empty => .error (.combinedLeaf leaf)

/-- Makes a visit. A leaf is made at once, an inner node when its parts have been made. -/
def visit (alphabet : Alphabet) (s : Assembly) : Visit → Except VisitFault Assembly
  | .enter (.literal a) => (s.step alphabet (.literal a)).mapError .assembly
  | .enter .epsilon => .ok (push s.fragments s.arena.epsilon)
  | .enter .empty => .ok (push s.fragments s.arena.nothing)
  | .enter (.union _ _) | .enter (.concat _ _) | .enter (.star _) | .enter (.plus _)
  | .enter (.optional _) | .enter (.group _) => .ok s
  | .leave x => s.combine x

/-- Makes visits, with all that they lead to, until none are left. -/
def walk (alphabet : Alphabet) (s : Assembly) : List Visit → Except VisitFault Assembly
  | [] => .ok s
  | v :: visits => do
    let s ← s.visit alphabet v
    s.walk alphabet (v.next ++ visits)
termination_by visits => Visit.remaining visits
decreasing_by exact v.remaining_next_lt visits

/-- A walk that enters an expression puts the fragment of this expression on the stack, leaves those
below alone, and goes on to the visits behind it. -/
theorem walk_enter (x : Regex) (s : Assembly) (visits : List Visit) :
    s.walk alphabet (.enter x :: visits) =
      ((x.assemble alphabet s.arena).mapError VisitFault.assembly >>= fun made =>
        (push s.fragments made).walk alphabet visits) := by
  induction x generalizing s visits with
  | literal a =>
    rw [walk, visit, step, Regex.assemble]
    cases alphabet.contains a <;> rfl
  | epsilon | empty =>
    rw [walk]
    rfl
  | union l r ihl ihr | concat l r ihl ihr =>
    rw [walk]
    change s.walk alphabet (.enter l :: .enter r :: .leave _ :: visits) = _
    simp only [ihl, ihr, Regex.assemble, mapError_bind, bind_assoc]
    refine bind_congr fun left => bind_congr fun right => ?_
    -- When the node is left, the fragments of both parts are the uppermost ones.
    rw [walk]
    rfl
  | star x ih | plus x ih | optional x ih =>
    rw [walk]
    change s.walk alphabet (.enter x :: .leave _ :: visits) = _
    simp only [ih, Regex.assemble, mapError_bind, bind_assoc]
    refine bind_congr fun inner => ?_
    rw [walk]
    rfl
  | group x ih =>
    rw [walk]
    change s.walk alphabet (.enter x :: .leave _ :: visits) = _
    rw [ih, Regex.assemble]
    refine bind_congr fun inner => ?_
    rw [walk]
    rfl

/-- A walk around an expression makes what the program of the expression makes. -/
theorem walk_eq_run (x : Regex) :
    start.walk alphabet [.enter x] =
      (start.run alphabet (x.program [])).mapError .assembly := by
  rw [walk_enter, x.run_start, mapError_bind]
  refine bind_congr fun made => ?_
  rw [walk]
  rfl

end Assembly
end RegularLanguages
