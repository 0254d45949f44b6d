import Std.Data.ExtTreeMap
import Std.Data.ExtTreeSet

/-!
# The order of pairs of texts

Pairs are ordered by their first text and then by their second. Two pairs that the order does
not tell apart are equal, so maps over pairs have one entry per pair.
-/

namespace CodeAtlas.Text

/-- Pairs of texts in the order of a dictionary. -/
def comparePairs (a b : String × String) : Ordering :=
  compareLex (compareOn Prod.fst) (compareOn Prod.snd) a b

instance : Std.TransCmp comparePairs :=
  inferInstanceAs (Std.TransCmp (compareLex (compareOn Prod.fst) (compareOn Prod.snd)))

instance : Std.LawfulEqCmp comparePairs where
  eq_of_compare {a b} h := by
    simp only [comparePairs, compareLex, Ordering.then_eq_eq, compareOn] at h
    exact Prod.ext (Std.LawfulEqCmp.eq_of_compare h.1) (Std.LawfulEqCmp.eq_of_compare h.2)

abbrev PairMap (β : Type) := Std.ExtTreeMap (String × String) β comparePairs

abbrev TextMap (β : Type) := Std.ExtTreeMap String β

abbrev TextSet := Std.ExtTreeSet String

end CodeAtlas.Text
