import RegularLanguages.Proofs.Grammar

/-!
# The parser follows the grammar

Tokens are read one after another with a stack of frames. Reading the tokens of a derivation has
the effect of adding its tree, whatever comes before and after them; and whenever some tokens have
been read, the frames hold the trees of derivations for parts of these tokens. So exactly the
patterns that the grammar derives have a tree, and it is the tree of their derivation.
-/

namespace RegularLanguages.Pattern

namespace Frame

variable {frame : Frame} {x y : Regex}

/-- A new factor leaves the terms before the last one alone. -/
@[simp] theorem alternatives_push : (frame.push x).alternatives = frame.alternatives := rfl

/-- A factor is joined to the term before it. -/
@[simp] theorem term?_push : (frame.push x).term? = some (joinLeft .concat frame.term? x) := rfl

/-- Several factors are joined to the term before them, one after another. -/
theorem foldl_push (ys : List Regex) (h : frame.term? = some x) :
    (ys.foldl push frame).term? = some (ys.foldl .concat x) ∧
      (ys.foldl push frame).alternatives = frame.alternatives := by
  induction ys generalizing frame x with
  | nil => exact ⟨h, rfl⟩
  | cons y ys ih =>
    have hterm : (frame.push y).term? = some (.concat x y) := by rw [term?_push, h]; rfl
    exact ih hterm

/-- The last term is joined to the terms before it. -/
theorem expression?_of_term? (h : frame.term? = some x) :
    frame.expression? = some (joinLeft .union frame.alternatives x) := by
  rw [expression?, h, Option.map_some]

end Frame

namespace Reading

variable {rules : Rules}

/-- Without tokens nothing is read. -/
@[simp] theorem readAll_nil (reading : Reading) : reading.readAll rules [] = .ok reading := rfl

/-- One token is read, and then the others. -/
theorem readAll_cons (reading : Reading) (token : Token) (tokens : List Token) :
    reading.readAll rules (token :: tokens) =
      match reading.read rules token with
      | .error e => .error e
      | .ok next => next.readAll rules tokens := rfl

/-- What follows a token that is read without an error. -/
theorem readAll_of_read {reading next : Reading} {token : Token}
    (h : reading.read rules token = .ok next) (tokens : List Token) :
    reading.readAll rules (token :: tokens) = next.readAll rules tokens := by
  rw [readAll_cons, h]

/-- If all tokens are read, then the first one is, and then the others. -/
theorem exists_read_of_readAll_cons {reading last : Reading} {token : Token} {tokens : List Token}
    (h : reading.readAll rules (token :: tokens) = .ok last) :
    ∃ next, reading.read rules token = .ok next ∧ next.readAll rules tokens = .ok last := by
  rw [readAll_cons] at h
  split at h
  · contradiction
  · rename_i next hread
    exact ⟨next, hread, h⟩

/-- The last factor becomes the operand of the operators behind it. -/
theorem readAll_operators (operators : List Repetition) (reading : Reading) (x : Regex)
    (tokens rest : List Token) (htokens : tokens.map Token.kind = operators.map Repetition.kind) :
    (reading.operand x).readAll rules (tokens ++ rest) =
      (reading.operand (operators.foldl (fun x operator => operator.apply x) x)).readAll rules
        rest := by
  induction operators generalizing x tokens with
  | nil =>
    obtain rfl := List.map_eq_nil_iff.mp htokens
    rfl
  | cons operator operators ih =>
    obtain ⟨token, tokens, rfl, hkind, htail⟩ := List.map_eq_cons_iff.mp htokens
    have hread :
        (reading.operand x).read rules token = .ok (reading.operand (operator.apply x)) := by
      cases operator <;>
        simp [read, hkind, Repetition.kind, postfixOperator, operand, Frame.push, Repetition.apply]
    rw [List.cons_append, readAll_of_read hread, ih _ _ htail]
    rfl

end Reading

variable {rules : Rules} {d : Nat} {u : List TokenKind}

/-- Reading these tokens adds operands, wherever the depth allows it. -/
def ReadsOperands (rules : Rules) (d : Nat) (u : List TokenKind) (ys : List Regex) : Prop :=
  ∀ (reading : Reading) (tokens rest : List Token), tokens.map Token.kind = u →
    reading.enclosing.length + d ≤ rules.maxDepth →
      reading.readAll rules (tokens ++ rest) =
        (ys.foldl Reading.operand reading).readAll rules rest

/-- Reading these tokens makes a change to the innermost frame, if the frame allows it. -/
def ReadsInFrame (rules : Rules) (d : Nat) (u : List TokenKind) (before : Frame → Prop)
    (after : Frame → Frame → Prop) : Prop :=
  ∀ (frame : Frame) (enclosing : List (Nat × Frame)) (tokens : List Token),
    tokens.map Token.kind = u → enclosing.length + d ≤ rules.maxDepth → before frame →
      ∃ next, after frame next ∧ ∀ rest, Reading.readAll rules ⟨frame, enclosing⟩ (tokens ++ rest) =
        Reading.readAll rules ⟨next, enclosing⟩ rest

/-- Adding operands changes the innermost frame only. -/
theorem foldl_operand (ys : List Regex) (frame : Frame) (enclosing : List (Nat × Frame)) :
    ys.foldl Reading.operand ⟨frame, enclosing⟩ = ⟨ys.foldl Frame.push frame, enclosing⟩ := by
  induction ys generalizing frame with
  | nil => rfl
  | cons y ys ih => exact ih (frame.push y)

/-- A leaf is read as an operand. -/
theorem readsOperands_leaf {kind : TokenKind} {x : Regex}
    (hread : ∀ (reading : Reading) (token : Token), token.kind = kind →
      reading.read rules token = .ok (reading.operand x)) : ReadsOperands rules d [kind] [x] := by
  intro reading tokens rest htokens _
  obtain ⟨token, rfl, hkind⟩ := List.map_eq_singleton_iff.mp htokens
  exact Reading.readAll_of_read (hread reading token hkind) rest

/-- A group is read as an operand if its expression is read from a blank frame. -/
theorem readsOperands_group {x : Regex}
    (h : ReadsInFrame rules d u (· = .blank) fun _ next => next.expression? = some x) :
    ReadsOperands rules (d + 1) (.opening :: (u ++ [.closing])) [.group x] := by
  intro reading tokens rest htokens hdepth
  obtain ⟨opening, inner, rfl, hopening, hinner⟩ := List.map_eq_cons_iff.mp htokens
  obtain ⟨tokens, last, rfl, htokens', hlast⟩ := List.map_eq_append_iff.mp hinner
  obtain ⟨closing, rfl, hclosing⟩ := List.map_eq_singleton_iff.mp hlast
  have hopen : reading.read rules opening =
      .ok ⟨.blank, (opening.position, reading.frame) :: reading.enclosing⟩ := by
    have hlimit : ¬reading.enclosing.length + 1 > rules.maxDepth := by omega
    simp only [Reading.read, hopening, Reading.openGroup, if_neg hlimit]
  obtain ⟨next, hnext, hread⟩ := h .blank ((opening.position, reading.frame) :: reading.enclosing)
    tokens htokens' (by rw [List.length_cons]; omega) rfl
  have hclose : Reading.read rules ⟨next, (opening.position, reading.frame) :: reading.enclosing⟩
      closing = .ok (reading.operand (.group x)) := by
    simp only [Reading.read, hclosing, Reading.closeGroup, hnext]
    rfl
  rw [List.cons_append, Reading.readAll_of_read hopen, List.append_assoc, hread,
    List.singleton_append, Reading.readAll_of_read hclose]
  rfl

mutual

/-- An expression is read from a blank frame. -/
theorem Expr.reads {d : Nat} {u : List TokenKind} {x : Regex} : Expr rules d u x →
    ReadsInFrame rules d u (· = .blank) fun _ next => next.expression? = some x
  | @Expr.terms _ _ _ _ y ys hterm halternatives => by
    intro frame enclosing tokens htokens hdepth h
    subst h
    obtain ⟨first, others, rfl, hfirst, hothers⟩ := List.map_eq_append_iff.mp htokens
    obtain ⟨middle, ⟨hx, halone⟩, hread⟩ := hterm.reads .blank enclosing first hfirst hdepth rfl
    have hmiddle : middle.expression? = some y := by
      rw [Frame.expression?_of_term? hx, halone]
      rfl
    obtain ⟨next, hnext, hread'⟩ := halternatives.reads middle enclosing others hothers hdepth
      (Option.isSome_of_eq_some hmiddle)
    refine ⟨next, ?_, fun rest => by rw [List.append_assoc, hread, hread']⟩
    simpa [hmiddle] using hnext

/-- Further terms are read behind an expression. -/
theorem Alternatives.reads {d : Nat} {u : List TokenKind} {ys : List Regex} :
    Alternatives rules d u ys → ReadsInFrame rules d u (fun frame => frame.expression?.isSome)
      fun frame next => next.expression? = frame.expression?.map (ys.foldl .union)
  | .nil => by
    intro frame enclosing tokens htokens _ _
    obtain rfl := List.map_eq_nil_iff.mp htokens
    exact ⟨frame, Option.map_id'.symm, fun _ => rfl⟩
  | @Alternatives.cons _ _ _ _ y ys hterm halternatives => by
    intro frame enclosing tokens htokens hdepth hsome
    obtain ⟨x, hx⟩ := Option.isSome_iff_exists.mp hsome
    obtain ⟨sign, tail, rfl, hsign, htail⟩ := List.map_eq_cons_iff.mp htokens
    obtain ⟨first, others, rfl, hfirst, hothers⟩ := List.map_eq_append_iff.mp htail
    have hread : Reading.read rules ⟨frame, enclosing⟩ sign =
        .ok ⟨⟨some x, none, none⟩, enclosing⟩ := by
      simp only [Reading.read, hsign, Reading.alternative, hx]
    obtain ⟨middle, ⟨hy, hsame⟩, hread'⟩ :=
      hterm.reads ⟨some x, none, none⟩ enclosing first hfirst hdepth rfl
    have hmiddle : middle.expression? = some (.union x y) := by
      rw [Frame.expression?_of_term? hy, hsame]
      rfl
    obtain ⟨next, hnext, hread''⟩ := halternatives.reads middle enclosing others hothers hdepth
      (Option.isSome_of_eq_some hmiddle)
    refine ⟨next, ?_, fun rest => ?_⟩
    · simpa [hmiddle, hx] using hnext
    · rw [List.cons_append, Reading.readAll_of_read hread, List.append_assoc, hread', hread'']

/-- A term is read where no factor stands before it. -/
theorem Term.reads {d : Nat} {u : List TokenKind} {x : Regex} : Term rules d u x →
    ReadsInFrame rules d u (fun frame => frame.term? = none)
      fun frame next => next.term? = some x ∧ next.alternatives = frame.alternatives
  | @Term.factors _ _ _ _ x ys hfactor hfactors => by
    intro frame enclosing tokens htokens hdepth hnone
    obtain ⟨first, others, rfl, hfirst, hothers⟩ := List.map_eq_append_iff.mp htokens
    have hterm : (frame.push x).term? = some x := by
      rw [Frame.term?_push, hnone]
      rfl
    refine ⟨ys.foldl Frame.push (frame.push x), Frame.foldl_push ys hterm, fun rest => ?_⟩
    rw [List.append_assoc, hfactor.reads _ first _ hfirst hdepth]
    change Reading.readAll rules ⟨frame.push x, enclosing⟩ (others ++ rest) = _
    rw [hfactors.reads _ others rest hothers hdepth, foldl_operand]

/-- Further factors are read as operands. -/
theorem Factors.reads {d : Nat} {u : List TokenKind} {ys : List Regex} :
    Factors rules d u ys → ReadsOperands rules d u ys
  | .nil => by
    intro reading tokens rest htokens _
    obtain rfl := List.map_eq_nil_iff.mp htokens
    rfl
  | .cons hfactor hfactors => by
    intro reading tokens rest htokens hdepth
    obtain ⟨first, others, rfl, hfirst, hothers⟩ := List.map_eq_append_iff.mp htokens
    rw [List.append_assoc, hfactor.reads reading first _ hfirst hdepth]
    exact hfactors.reads (reading.operand _) others rest hothers hdepth

/-- A factor is read as an operand. -/
theorem Factor.reads {d : Nat} {u : List TokenKind} {x : Regex} :
    Factor rules d u x → ReadsOperands rules d u [x]
  | .operators operators hatom => by
    intro reading tokens rest htokens hdepth
    obtain ⟨first, others, rfl, hfirst, hothers⟩ := List.map_eq_append_iff.mp htokens
    rw [List.append_assoc, hatom.reads reading first _ hfirst hdepth]
    exact Reading.readAll_operators operators reading _ others rest hothers

/-- An atom is read as an operand. -/
theorem Atom.reads {d : Nat} {u : List TokenKind} {x : Regex} :
    Atom rules d u x → ReadsOperands rules d u [x]
  | .literal a => readsOperands_leaf fun reading token h => by simp only [Reading.read, h]
  | .symbolClass hclass => readsOperands_leaf fun reading token h => by
    rw [classMembers_iff.mp hclass]
    simp only [Reading.read, h]
  | .epsilon => readsOperands_leaf fun reading token h => by simp only [Reading.read, h]
  | .empty => readsOperands_leaf fun reading token h => by simp only [Reading.read, h]
  | .group hexpr => readsOperands_group hexpr.reads

end

/-- What stands before the last term: nothing, or an expression and a union sign. -/
inductive BeforeTerm (rules : Rules) (d : Nat) : List TokenKind → Option Regex → Prop where
  | none : BeforeTerm rules d [] none
  | some {u : List TokenKind} {x : Regex} :
      Expr rules d u x → BeforeTerm rules d (u ++ [.union]) (some x)

/-- What stands before the last factor: nothing, or a term. -/
inductive BeforeFactor (rules : Rules) (d : Nat) : List TokenKind → Option Regex → Prop where
  | none : BeforeFactor rules d [] none
  | some {u : List TokenKind} {x : Regex} : Term rules d u x → BeforeFactor rules d u (some x)

/-- What stands behind the last union sign: nothing, or a term with its last factor. -/
inductive LastTerm (rules : Rules) (d : Nat) :
    List TokenKind → (factors operand : Option Regex) → Prop where
  | none : LastTerm rules d [] none none
  | some {u v : List TokenKind} {before : Option Regex} {x : Regex} :
      BeforeFactor rules d u before → Factor rules d v x → LastTerm rules d (u ++ v) before (some x)

/-- A frame holds the trees of the parts of an expression that has been read up to some token. -/
structure Frame.Holds (rules : Rules) (d : Nat) (u : List TokenKind) (frame : Frame) : Prop where
  parts : ∃ v w, u = v ++ w ∧ BeforeTerm rules d v frame.alternatives ∧
    LastTerm rules d w frame.factors frame.operand

/-- The frames of a reading hold the trees for the tokens behind each open parenthesis. -/
inductive Holds (rules : Rules) : (d : Nat) → List TokenKind → Reading → Prop where
  | outermost {u : List TokenKind} {frame : Frame} :
      frame.Holds rules rules.maxDepth u → Holds rules rules.maxDepth u ⟨frame, []⟩
  | inside {d position : Nat} {u v : List TokenKind} {frame outer : Frame}
      {enclosing : List (Nat × Frame)} :
      Holds rules (d + 1) u ⟨outer, enclosing⟩ → frame.Holds rules d v →
        Holds rules d (u ++ .opening :: v) ⟨frame, (position, outer) :: enclosing⟩

namespace BeforeTerm

/-- A term completes the expression that ends with it. -/
theorem expr {v : List TokenKind} {before : Option Regex} {x : Regex}
    (hbefore : BeforeTerm rules d u before) (hterm : Term rules d v x) :
    Expr rules d (u ++ v) (joinLeft .union before x) := by
  cases hbefore with
  | none => exact .ofTerm hterm
  | some hexpr =>
    rw [List.append_assoc, List.singleton_append]
    exact hexpr.snoc hterm

end BeforeTerm

namespace BeforeFactor

/-- A factor completes the term that ends with it. -/
theorem term {v : List TokenKind} {before : Option Regex} {x : Regex}
    (hbefore : BeforeFactor rules d u before) (hfactor : Factor rules d v x) :
    Term rules d (u ++ v) (joinLeft .concat before x) := by
  cases hbefore with
  | none => exact .ofFactor hfactor
  | some hterm => exact hterm.snoc hfactor

end BeforeFactor

namespace Frame.Holds

variable {frame : Frame}

/-- The tokens of the last term are a term, if there are any. -/
theorem of_term? (h : frame.Holds rules d u) {x : Regex} (hx : frame.term? = some x) :
    ∃ v w, u = v ++ w ∧ BeforeTerm rules d v frame.alternatives ∧ Term rules d w x := by
  obtain ⟨v, w, rfl, hbefore, hlast⟩ := h.parts
  obtain ⟨alternatives, factors, operand⟩ := frame
  cases hlast with
  | none => contradiction
  | some hfactors hfactor =>
    obtain rfl := Option.some.inj hx
    exact ⟨v, _, rfl, hbefore, hfactors.term hfactor⟩

/-- The tokens of a frame are an expression, if its last term is not empty. -/
theorem expr (h : frame.Holds rules d u) {x : Regex} (hx : frame.expression? = some x) :
    Expr rules d u x := by
  obtain ⟨y, hy, rfl⟩ := Option.map_eq_some_iff.mp hx
  obtain ⟨v, w, rfl, hbefore, hterm⟩ := h.of_term? hy
  exact hbefore.expr hterm

/-- One more factor may follow. -/
theorem push (h : frame.Holds rules d u) {v : List TokenKind} {x : Regex}
    (hx : Factor rules d v x) : (frame.push x).Holds rules d (u ++ v) := by
  obtain ⟨u, w, rfl, hbefore, hlast⟩ := h.parts
  obtain ⟨alternatives, factors, operand⟩ := frame
  refine ⟨u, w ++ v, List.append_assoc u w v, hbefore, ?_⟩
  cases hlast with
  | none => exact .some .none hx
  | some hfactors hfactor => exact .some (.some (hfactors.term hfactor)) hx

/-- An operator may follow where the last term has a factor. -/
theorem operator (h : frame.Holds rules d u) {x : Regex} (hx : frame.operand = some x)
    (operator : Repetition) :
    Holds rules d (u ++ [operator.kind]) { frame with operand := some (operator.apply x) } := by
  obtain ⟨u, w, rfl, hbefore, hlast⟩ := h.parts
  obtain ⟨alternatives, factors, operand⟩ := frame
  refine ⟨u, w ++ [operator.kind], List.append_assoc u w _, hbefore, ?_⟩
  cases hlast with
  | none => contradiction
  | some hfactors hfactor =>
    obtain rfl := Option.some.inj hx
    rw [List.append_assoc]
    exact .some hfactors (hfactor.snoc operator)

/-- A union sign may follow where the last term has a factor. -/
theorem alternative (h : frame.Holds rules d u) {x : Regex} (hx : frame.expression? = some x) :
    Holds rules d (u ++ [.union]) ⟨some x, none, none⟩ :=
  ⟨_, [], (List.append_nil _).symm, .some (h.expr hx), .none⟩

end Frame.Holds

/-- Nothing has been read in a blank frame. -/
theorem Frame.holds_blank : Frame.blank.Holds rules d [] := ⟨[], [], rfl, .none, .none⟩

namespace Holds

variable {frame : Frame} {enclosing : List (Nat × Frame)}

/-- The open parentheses and those that may still be opened add up to the greatest depth. -/
theorem depth_add (h : Holds rules d u ⟨frame, enclosing⟩) :
    d + enclosing.length = rules.maxDepth := by
  induction enclosing generalizing d u frame with
  | nil =>
    cases h
    rfl
  | cons _ enclosing ih =>
    cases h with
    | inside houter _ =>
      rw [List.length_cons, ← ih houter]
      omega

/-- A change to the innermost frame leaves the others as they are. -/
theorem change {next : Frame} {v : List TokenKind} (h : Holds rules d u ⟨frame, enclosing⟩)
    (hframe : ∀ w, frame.Holds rules d w → next.Holds rules d (w ++ v)) :
    Holds rules d (u ++ v) ⟨next, enclosing⟩ := by
  cases h with
  | outermost hinner => exact .outermost (hframe _ hinner)
  | inside houter hinner =>
    rw [List.append_assoc, List.cons_append]
    exact .inside houter (hframe _ hinner)

/-- An atom that is read becomes an operand. -/
theorem operand {v : List TokenKind} {x : Regex} {reading : Reading}
    (h : Holds rules d u reading) (hx : Atom rules d v x) :
    Holds rules d (u ++ v) (reading.operand x) :=
  h.change fun _ hinner => hinner.push (.ofAtom hx)

/-- An operator that is read applies to the last factor. -/
theorem postfixOperator {reading next : Reading} {token : Token} (operator : Repetition)
    (h : Holds rules d u reading) (hkind : token.kind = operator.kind)
    (hread : reading.postfixOperator token operator.apply = .ok next) :
    Holds rules d (u ++ [token.kind]) next := by
  obtain ⟨frame, enclosing⟩ := reading
  cases hoperand : frame.operand with
  | none => simp [Reading.postfixOperator, hoperand] at hread
  | some x =>
    simp only [Reading.postfixOperator, hoperand, Except.ok.injEq] at hread
    rw [← hread, hkind]
    exact h.change fun _ hinner => hinner.operator hoperand operator

/-- A union sign that is read ends a term. -/
theorem alternative {reading next : Reading} {position : Nat} (h : Holds rules d u reading)
    (hread : reading.alternative position = .ok next) : Holds rules d (u ++ [.union]) next := by
  obtain ⟨frame, enclosing⟩ := reading
  cases hexpr : frame.expression? with
  | none => simp [Reading.alternative, hexpr] at hread
  | some x =>
    simp only [Reading.alternative, hexpr, Except.ok.injEq] at hread
    rw [← hread]
    exact h.change fun _ hinner => hinner.alternative hexpr

/-- A parenthesis that is opened begins a frame inside the others. -/
theorem openGroup {reading next : Reading} {position : Nat} (h : Holds rules d u reading)
    (hread : reading.openGroup rules position = .ok next) :
    ∃ d, Holds rules d (u ++ [.opening]) next := by
  obtain ⟨frame, enclosing⟩ := reading
  by_cases hlimit : enclosing.length + 1 > rules.maxDepth
  · simp [Reading.openGroup, hlimit] at hread
  · simp only [Reading.openGroup, if_neg hlimit, Except.ok.injEq] at hread
    have hdepth := h.depth_add
    obtain ⟨inner, rfl⟩ : ∃ inner, d = inner + 1 := ⟨d - 1, by omega⟩
    rw [← hread]
    exact ⟨inner, .inside h Frame.holds_blank⟩

/-- A parenthesis that is closed makes an operand of the frame around it. -/
theorem closeGroup {reading next : Reading} {position : Nat} (h : Holds rules d u reading)
    (hread : reading.closeGroup position = .ok next) :
    ∃ d, Holds rules d (u ++ [.closing]) next := by
  obtain ⟨frame, enclosing⟩ := reading
  cases hexpr : frame.expression? with
  | none =>
    cases enclosing with
    | nil => simp [Reading.closeGroup, hexpr] at hread
    | cons outer enclosing =>
      simp only [Reading.closeGroup, hexpr] at hread
      split at hread <;> contradiction
  | some x =>
    cases h with
    | outermost => simp [Reading.closeGroup, hexpr] at hread
    | inside houter hinner =>
      simp only [Reading.closeGroup, hexpr, Except.ok.injEq] at hread
      rw [← hread, List.append_assoc]
      exact ⟨_, houter.change fun _ h => h.push (.ofAtom (.group (hinner.expr hexpr)))⟩

/-- A token that is read keeps the frames true to the tokens. -/
theorem read {reading next : Reading} {token : Token} (h : Holds rules d u reading)
    (hread : reading.read rules token = .ok next) :
    ∃ d, Holds rules d (u ++ [token.kind]) next := by
  cases hkind : token.kind with
  | literal a =>
    simp only [Reading.read, hkind, Except.ok.injEq] at hread
    exact ⟨d, hread ▸ h.operand (.literal a)⟩
  | symbolClass name =>
    simp only [Reading.read, hkind, Except.ok.injEq] at hread
    exact ⟨d, hread ▸ h.operand (.symbolClass (classMembers_iff.mpr rfl))⟩
  | epsilon =>
    simp only [Reading.read, hkind, Except.ok.injEq] at hread
    exact ⟨d, hread ▸ h.operand .epsilon⟩
  | empty =>
    simp only [Reading.read, hkind, Except.ok.injEq] at hread
    exact ⟨d, hread ▸ h.operand .empty⟩
  | union =>
    simp only [Reading.read, hkind] at hread
    exact ⟨d, h.alternative hread⟩
  | star =>
    simp only [Reading.read, hkind] at hread
    exact ⟨d, hkind ▸ h.postfixOperator .star hkind hread⟩
  | plus =>
    simp only [Reading.read, hkind] at hread
    exact ⟨d, hkind ▸ h.postfixOperator .plus hkind hread⟩
  | optional =>
    simp only [Reading.read, hkind] at hread
    exact ⟨d, hkind ▸ h.postfixOperator .optional hkind hread⟩
  | opening =>
    simp only [Reading.read, hkind] at hread
    exact h.openGroup hread
  | closing =>
    simp only [Reading.read, hkind] at hread
    exact h.closeGroup hread

/-- After any number of tokens, the frames hold what has been read of them. -/
theorem readAll {reading next : Reading} {tokens : List Token} (h : Holds rules d u reading)
    (hread : reading.readAll rules tokens = .ok next) :
    ∃ d, Holds rules d (u ++ tokens.map Token.kind) next := by
  induction tokens generalizing d u reading with
  | nil =>
    obtain rfl := Except.ok.inj hread
    exact ⟨d, by simpa using h⟩
  | cons token tokens ih =>
    obtain ⟨middle, hfirst, hread⟩ := Reading.exists_read_of_readAll_cons hread
    obtain ⟨d, hmiddle⟩ := h.read hfirst
    simpa using ih hmiddle hread

end Holds

/-- The tokens of an expression, and no others, are read to their end with its tree. -/
theorem finish_readAll_iff (position : Nat) {tokens : List Token} {x : Regex} :
    (∃ reading, Reading.start.readAll rules tokens = .ok reading ∧
      reading.finish position = .ok x) ↔ Expr rules rules.maxDepth (tokens.map Token.kind) x := by
  constructor
  · intro h
    obtain ⟨⟨frame, enclosing⟩, hread, hfinish⟩ := h
    obtain ⟨d, hholds⟩ := (Holds.outermost Frame.holds_blank).readAll hread
    generalize htokens : tokens.map Token.kind = u at hholds ⊢
    rw [List.nil_append] at hholds
    cases hexpr : frame.expression? with
    | none => simp [Reading.finish, hexpr] at hfinish
    | some y =>
      cases hholds with
      | inside => simp [Reading.finish, hexpr] at hfinish
      | outermost hframe =>
        simp only [Reading.finish, hexpr, Except.ok.injEq] at hfinish
        exact hframe.expr (hfinish ▸ hexpr)
  · intro h
    obtain ⟨frame, hframe, hread⟩ := h.reads .blank [] tokens rfl (Nat.zero_add _).le rfl
    have hall := hread []
    rw [List.append_nil] at hall
    exact ⟨⟨frame, []⟩, hall, by simp only [Reading.finish, hframe]⟩

/-- A pattern that is read consists of tokens that the grammar derives. -/
theorem expr_of_parse {pattern : String} {x : Regex} (h : parse rules pattern = .ok x) :
    Expr rules rules.maxDepth ((Lexed.ofText rules pattern).tokens.map Token.kind) x := by
  unfold parse at h
  split at h
  · contradiction
  · rw [← finish_readAll_iff pattern.utf8ByteSize]
    dsimp only at h
    split at h
    · contradiction
    · contradiction
    · rename_i reading hread _
      exact ⟨reading, hread, h⟩

/-- A pattern has a tree exactly if it is not empty, all its characters belong to tokens, and the
grammar derives the tokens with this tree. -/
theorem parse_eq_ok_iff (rules : Rules) (pattern : String) (x : Regex) :
    parse rules pattern = .ok x ↔ pattern ≠ "" ∧ ∃ tokens,
      (Lexed.ofText rules pattern).all = .ok tokens ∧
        Expr rules rules.maxDepth (tokens.map Token.kind) x := by
  by_cases hempty : pattern = ""
  · simp [parse, hempty]
  · have hnonempty : pattern.isEmpty = false := by simpa using hempty
    simp only [parse, hnonempty, Bool.false_eq_true, if_false, Lexed.all, ne_eq, hempty,
      not_false_eq_true, true_and, ← finish_readAll_iff pattern.utf8ByteSize]
    cases hlex : (Lexed.ofText rules pattern).error with
    | some e => cases Reading.start.readAll rules (Lexed.ofText rules pattern).tokens <;> simp
    | none =>
      simp only [Except.ok.injEq, exists_eq_left']
      cases hread : Reading.start.readAll rules (Lexed.ofText rules pattern).tokens <;> simp

end RegularLanguages.Pattern
