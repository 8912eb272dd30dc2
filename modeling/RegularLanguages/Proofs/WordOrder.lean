import Mathlib.Data.List.Shortlex
import RegularLanguages.Word

/-!
# The order of words

Words are in order of their lengths, and words of one length in the order of the first symbols in
which they differ. So words of one length stay in their order whatever symbols follow them. A search
for the least word with a property is specified by what it finds: this word, or nothing if no word
has the property.
-/

namespace RegularLanguages.Word

variable {v w : Word}

instance : Std.TransCmp lengthLex :=
  inferInstanceAs (Std.TransCmp (compareLex (compareOn List.length) compare))

instance : Std.LawfulEqCmp lengthLex where
  eq_of_compare h := Std.LawfulEqOrd.eq_of_compare (compareLex_eq_eq.mp h).2

/-- Words are ordered by length first, then by their symbols. -/
theorem lengthLex_eq :
    lengthLex v w = (compare v.length w.length).then (compare v w) := rfl

/-- A word is equal to itself in the order of words. -/
@[simp] theorem lengthLex_self : lengthLex w w = .eq := Std.ReflCmp.compare_self

/-- Shorter words come first. -/
theorem lengthLex_of_length_lt (h : v.length < w.length) : lengthLex v w = .lt := by
  rw [lengthLex_eq, Nat.compare_eq_lt.mpr h]
  rfl

/-- To be no greater than a word that is not shorter, only one of the same length has to be
compared. -/
theorem isLE_of_length_le (hle : v.length ≤ w.length)
    (h : v.length = w.length → (lengthLex v w).isLE) : (lengthLex v w).isLE := by
  rcases Nat.lt_or_eq_of_le hle with hlt | heq
  · exact Ordering.isLE_of_eq_lt (lengthLex_of_length_lt hlt)
  · exact h heq

/-- Words are compared at the first symbol in which they differ. -/
theorem compare_cons_cons (a b : Symbol) (v w : Word) :
    compare (a :: v) (b :: w) = (compare a b).then (compare v w) := List.compareLex_cons_cons

/-- Symbols are compared one by one, by their code points. -/
theorem compare_eq_lt_iff : compare v w = .lt ↔ List.Lex (· < ·) v w := by
  induction v generalizing w with
  | nil =>
    cases w with
    | nil => simp
    | cons b w => exact iff_of_true rfl .nil
  | cons a v ih =>
    cases w with
    | nil => exact iff_of_false (fun h => nomatch h) (fun h => nomatch h)
    | cons b w =>
      have hsymbols : compare a b = .lt ↔ a < b := compareOfLessAndEq_eq_lt
      rw [compare_cons_cons, Ordering.then_eq_lt, ih, List.cons_lex_cons_iff, hsymbols,
        Std.compare_eq_iff_eq]

/-- The order of words is the short-lex order over the order of the symbols. -/
theorem lengthLex_eq_lt_iff : lengthLex v w = .lt ↔ List.Shortlex (· < ·) v w := by
  rw [lengthLex_eq, Ordering.then_eq_lt, List.shortlex_def, Nat.compare_eq_lt, Nat.compare_eq_eq,
    compare_eq_lt_iff]

/-- Words of one length are compared before the symbols behind them. -/
theorem compare_concat (h : v.length = w.length) (a b : Symbol) :
    compare (v ++ [a]) (w ++ [b]) = (compare v w).then (compare a b) := by
  induction v generalizing w with
  | nil =>
    obtain rfl := List.length_eq_zero_iff.mp h.symm
    rw [List.nil_append, List.nil_append, compare_cons_cons, Std.compare_self, Ordering.then_eq]
    rfl
  | cons c v ih =>
    obtain ⟨d, w, rfl⟩ := List.exists_cons_of_length_eq_add_one h.symm
    rw [List.cons_append, List.cons_append, compare_cons_cons, compare_cons_cons,
      ih (Nat.succ.inj h), Ordering.then_assoc]

/-- For words of one length, a last symbol decides only if the words before it are equal. -/
theorem lengthLex_concat (h : v.length = w.length) (a b : Symbol) :
    lengthLex (v ++ [a]) (w ++ [b]) = (lengthLex v w).then (compare a b) := by
  simp [lengthLex_eq, compare_concat h, h]

/-- A word has a property, and no smaller word has it. -/
structure IsLeast (P : Word → Prop) (w : Word) : Prop where
  holds : P w
  isLE : ∀ v, P v → (lengthLex w v).isLE

/-- There is at most one least word. -/
theorem IsLeast.unique {P : Word → Prop} (hv : IsLeast P v) (hw : IsLeast P w) : v = w :=
  Std.LawfulEqCmp.eq_of_compare
    (Std.OrientedCmp.isLE_antisymm (hv.isLE w hw.holds) (hw.isLE v hv.holds))

/-- What a search for the least word with a property finds: this word, or nothing if no word has
the property. -/
structure FindsLeast (P : Word → Prop) (found : Option Word) : Prop where
  not_of_none : found = none → ∀ v, ¬P v
  isLeast : ∀ w, found = some w → IsLeast P w

namespace FindsLeast

variable {P Q : Word → Prop} {found found' : Option Word}

/-- Nothing is found exactly if there is nothing to be found. -/
theorem eq_none_iff (h : FindsLeast P found) : found = none ↔ ∀ v, ¬P v := by
  refine ⟨h.not_of_none, fun hnot => ?_⟩
  rw [Option.eq_none_iff_forall_ne_some]
  exact fun w hw => hnot w (h.isLeast w hw).holds

/-- Searches for the same find the same. -/
theorem unique (h : FindsLeast P found) (h' : FindsLeast P found') : found = found' := by
  cases hfound : found with
  | none => exact (h'.eq_none_iff.mpr (h.not_of_none hfound)).symm
  | some w =>
    cases hfound' : found' with
    | none => exact absurd (h.isLeast w hfound).holds (h'.not_of_none hfound' w)
    | some w' => rw [(h.isLeast w hfound).unique (h'.isLeast w' hfound')]

/-- Only which words have the property matters. -/
theorem congr (h : FindsLeast P found) (hPQ : ∀ v, P v ↔ Q v) : FindsLeast Q found := by
  obtain rfl : P = Q := funext fun v => propext (hPQ v)
  exact h

end FindsLeast

/-- The first of ascending words that has a property is the least of them. -/
theorem findsLeast_find? {words : List Word} {p : Word → Bool}
    (hordered : words.Pairwise fun v w => lengthLex v w = .lt) :
    FindsLeast (fun w => w ∈ words ∧ p w = true) (words.find? p) where
  not_of_none hnone v hv := List.find?_eq_none.mp hnone v hv.1 hv.2
  isLeast w hfound := by
    obtain ⟨hw, before, after, rfl, hbefore⟩ := List.find?_eq_some_iff_append.mp hfound
    refine ⟨⟨List.mem_append_cons_self, hw⟩, fun v hv => ?_⟩
    obtain ⟨hmem, hv⟩ := hv
    rcases List.mem_append.mp hmem with hmem | hmem
    · exact absurd hv (by simpa using hbefore v hmem)
    · rcases List.mem_cons.mp hmem with rfl | hmem
      · exact Std.ReflCmp.isLE_rfl
      · have hlater := (List.pairwise_cons.mp (List.pairwise_append.mp hordered).2.1).1 v hmem
        exact Ordering.isLE_of_eq_lt hlater

end RegularLanguages.Word
