import RegularLanguages.Automaton.Naming
import RegularLanguages.Regex.Fragment
import RegularLanguages.Proofs.FiniteSets

/-!
# Different things have different names

A separator inside a part of a composite name stands behind a backslash, so the name can be split
at the other separators. What comes out are the parts, whatever they contain, and so sets of states,
pairs of states and numbered states each have a name of their own. A fresh name differs from all
names that are taken.
-/

namespace RegularLanguages

namespace State

/-- What stands between the separators, where a backslash keeps the character behind it from being
one and is left out. -/
def splitParts : List Char → List (List Char)
  | [] => [[]]
  | ',' :: rest => [] :: splitParts rest
  | '\\' :: c :: rest => (splitParts rest).modifyHead (c :: ·)
  | c :: rest => (splitParts rest).modifyHead (c :: ·)

/-- The parts of a composite name, between its first and its last character. -/
def parts (name : State) : List State :=
  (splitParts name.toList.tail.dropLast).map String.ofList

/-- An escaped part belongs to the first part of what it stands in front of. -/
theorem splitParts_escapedChars_append (name rest : List Char) :
    splitParts (escapedChars name ++ rest) = (splitParts rest).modifyHead (name ++ ·) := by
  induction name with
  | nil => cases hrest : splitParts rest <;> simp [escapedChars, hrest]
  | cons c name ih =>
    by_cases hc : c = ',' ∨ c = '\\'
    · have hescaped : escapedChars (c :: name) = '\\' :: c :: escapedChars name := by
        simp [escapedChars, hc]
      rw [hescaped, List.cons_append, List.cons_append, splitParts, ih, List.modifyHead_modifyHead]
      rfl
    · rw [not_or] at hc
      have hescaped : escapedChars (c :: name) = c :: escapedChars name := by
        simp [escapedChars, hc]
      rw [hescaped, List.cons_append, splitParts, ih, List.modifyHead_modifyHead]
      · rfl
      · exact hc.1
      · exact fun _ _ h => absurd h hc.2

/-- Joined parts are split into these parts. -/
theorem splitParts_intercalate (q : State) (states : List State) :
    splitParts (",".intercalate ((q :: states).map escaped)).toList =
      (q :: states).map String.toList := by
  induction states generalizing q with
  | nil =>
    have hsplit := splitParts_escapedChars_append q.toList []
    simpa [escaped, splitParts] using hsplit
  | cons r states ih =>
    have hsplit := splitParts_escapedChars_append q.toList
      (',' :: (",".intercalate ((r :: states).map escaped)).toList)
    rw [splitParts, ih] at hsplit
    simpa [escaped, String.intercalate_cons_cons] using hsplit

/-- Parts that are joined between two characters can be read off. -/
theorem parts_of_toList {name q : State} {states : List State} {first last : Char}
    (h : name.toList =
      first :: ((",".intercalate ((q :: states).map escaped)).toList ++ [last])) :
    parts name = q :: states := by
  rw [parts, h, List.tail_cons, List.dropLast_concat, splitParts_intercalate, List.map_map]
  simp

/-- The parts of the name of a pair are the two states. -/
theorem parts_ofPair (p q : State) : parts (ofPair p q) = [p, q] := by
  have hchars : (ofPair p q).toList =
      '(' :: ((",".intercalate ([p, q].map escaped)).toList ++ [')']) := by
    simp [ofPair, String.intercalate_cons_cons]
  exact parts_of_toList hchars

/-- The parts of the name of a set are its members in ascending order, if there are any. -/
theorem parts_ofSet {s : StateSet} (hs : s ≠ ∅) : parts (ofSet s) = s.toList := by
  cases hlist : s.toList with
  | nil => exact absurd (Std.ExtTreeSet.toList_eq_nil_iff.mp hlist) hs
  | cons q states =>
    have hchars : (ofSet s).toList =
        '\x7b' :: ((",".intercalate ((q :: states).map escaped)).toList ++ ['\x7d']) := by
      simp [ofSet, hlist]
    exact parts_of_toList hchars

/-- Pairs of states have names of their own. -/
theorem ofPair_inj {p q r s : State} (h : ofPair p q = ofPair r s) : p = r ∧ q = s := by
  have hparts := congrArg parts h
  rw [parts_ofPair, parts_ofPair] at hparts
  simpa using hparts

/-- Non-empty sets of states have names of their own. -/
theorem ofSet_inj {s t : StateSet} (hs : s ≠ ∅) (ht : t ≠ ∅) (h : ofSet s = ofSet t) :
    s = t := by
  have hparts := congrArg parts h
  rw [parts_ofSet hs, parts_ofSet ht] at hparts
  exact Std.ExtTreeSet.toList_inj.mp hparts

/-- The name of the empty set is also that of the set of the empty name, and of no other set. -/
theorem ofSet_eq_ofSet_empty_iff {s : StateSet} : ofSet s = ofSet ∅ ↔ s = ∅ ∨ s = .single "" := by
  have hempty : ofSet ∅ = ofSet (.single "") := by decide +kernel
  constructor
  · intro h
    rw [or_iff_not_imp_left]
    intro hs
    exact ofSet_inj hs (StateSet.single_ne_empty "") (h.trans hempty)
  · intro h
    rcases h with rfl | rfl
    · rfl
    · exact hempty.symm

/-- The parts of a composite name can be read off it, whatever they contain. So pairs of states have
the same name only if they are the same pair, and sets that are not empty only if they are the same
set. The empty set shares its name with the set of the empty name, and with no other. -/
theorem composite_names_determine_parts :
    (∀ p q, parts (ofPair p q) = [p, q]) ∧
    (∀ s : StateSet, s ≠ ∅ → parts (ofSet s) = s.toList) ∧
    (∀ p q r s, ofPair p q = ofPair r s ↔ p = r ∧ q = s) ∧
    (∀ s t : StateSet, s ≠ ∅ → t ≠ ∅ → (ofSet s = ofSet t ↔ s = t)) ∧
    (∀ s : StateSet, ofSet s = ofSet ∅ ↔ s = ∅ ∨ s = .single "") := by
  refine ⟨parts_ofPair, fun s => parts_ofSet, fun p q r s => ⟨ofPair_inj, ?_⟩,
    fun s t hs ht => ⟨ofSet_inj hs ht, congrArg ofSet⟩, fun s => ofSet_eq_ofSet_empty_iff⟩
  intro h
  rw [h.1, h.2]

/-- Names that end in a backslash, that look like two names, and that are empty: the sets below have
different names. -/
theorem composite_names_of_separators :
    let s : StateSet := .ofList ["a\\", "b"]
    let t : StateSet := .ofList ["a\\,b"]
    let u : StateSet := .ofList ["", "a\\,b"]
    s ≠ ∅ ∧ t ≠ ∅ ∧ u ≠ ∅ ∧ parts (ofSet u) = ["", "a\\,b"] ∧
      ofSet s ≠ ofSet t ∧ ofSet t ≠ ofSet u := by
  intro s t u
  have hs : s ≠ ∅ := StateSet.ne_empty_iff.mpr ⟨"b", by simp [s]⟩
  have ht : t ≠ ∅ := StateSet.ne_empty_iff.mpr ⟨"a\\,b", by simp [t]⟩
  have hu : u ≠ ∅ := StateSet.ne_empty_iff.mpr ⟨"", by simp [u]⟩
  obtain ⟨-, hread, -, hsets, -⟩ := composite_names_determine_parts
  refine ⟨hs, ht, hu, (hread u hu).trans (by decide +kernel), ?_, ?_⟩
  · rw [ne_eq, hsets s t hs ht]
    decide +kernel
  · rw [ne_eq, hsets t u ht hu]
    decide +kernel

/-- Different numbers are written differently. -/
theorem repr_injective : Function.Injective Nat.repr := by
  intro m n h
  have hdigits := congrArg String.toList h
  rw [Nat.toList_repr, Nat.toList_repr] at hdigits
  rw [← Nat.ofDigitChars_ten_toDigits (n := m), hdigits, Nat.ofDigitChars_ten_toDigits]

/-- Different numbers are written differently behind the same beginning. -/
theorem append_repr_injective (base : String) :
    Function.Injective fun n : Nat => base ++ n.repr := by
  intro m n h
  exact repr_injective ((String.append_right_inj base).mp h)

/-- The names with a given beginning differ from each other. -/
theorem numbered_injective (base : String) : Function.Injective (numbered base) := by
  have hsuffix (u v : String) (h : base ++ u = base ++ v) : u = v :=
    (String.append_right_inj base).mp h
  intro m n h
  cases m with
  | zero =>
    cases n with
    | zero => rfl
    | succ n =>
      have hempty : "" = (n + 1).repr := hsuffix "" _ (by simpa [numbered] using h)
      exact absurd hempty.symm Nat.repr_ne_empty
  | succ m =>
    cases n with
    | zero =>
      have hempty : (m + 1).repr = "" := hsuffix _ "" (by simp [numbered] at h)
      exact absurd hempty Nat.repr_ne_empty
    | succ n => exact congrArg _ (Nat.succ.inj (repr_injective (hsuffix _ _ h)))

/-- A fresh name is not taken. -/
theorem fresh_notMem (taken : StateSet) (base : String) : fresh taken base ∉ taken := by
  rw [fresh]
  split
  · rename_i n hfind
    simpa using List.find?_some hfind
  · rename_i hfind
    exfalso
    -- One name more than there are taken ones cannot all be taken.
    have hall :
        ∀ n ∈ Finset.range (taken.size + 1), numbered base n ∈ FiniteSet.toFinset taken := by
      intro n hn
      have hnot := List.find?_eq_none.mp hfind n (by simpa using hn)
      simpa using hnot
    have hcard := Finset.card_le_card_of_injOn (numbered base) hall (numbered_injective base).injOn
    rw [Finset.card_range, FiniteSet.card_toFinset] at hcard
    omega

end State

/-- Numbered states of an expression have names of their own. -/
theorem Assembly.stateName_injective : Function.Injective stateName :=
  State.append_repr_injective "q"

end RegularLanguages
