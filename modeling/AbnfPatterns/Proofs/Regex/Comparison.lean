import Mathlib.Algebra.BigOperators.Group.List.Basic
import AbnfPatterns.Proofs.Regex.Shape

/-!
# Comparison of shapes

Two shapes that are put together differently may have the same texts.  They have, if their normal
forms list the same alternatives in whatever order.
-/

namespace AbnfPatterns.Shape

def concatOf : List Shape → Shape
  | [] => nothing
  | [a] => a
  | a :: b :: rest => concat a (concatOf (b :: rest))

def factors : Shape → List Shape
  | nothing => []
  | concat a b => a.factors ++ b.factors
  | a => [a]

theorem language_concatOf (shapes : List Shape) :
    (concatOf shapes).language = (shapes.map language).prod := by
  induction shapes with
  | nil => rfl
  | cons a rest ih =>
    cases rest with
    | nil => simp [concatOf]
    | cons b rest => rw [concatOf, language, ih, List.map_cons (l := b :: rest), List.prod_cons]

theorem prod_factors (a : Shape) : (a.factors.map language).prod = a.language := by
  induction a with
  | nothing => rfl
  | concat a b iha ihb => rw [factors, List.map_append, List.prod_append, iha, ihb, language]
  | _ => simp [factors]

def eitherOf : List Shape → Shape
  | [] => never
  | [a] => a
  | a :: b :: rest => either a (eitherOf (b :: rest))

def alternatives : Shape → List Shape
  | never => []
  | either a b => a.alternatives ++ b.alternatives
  | a => [a]

theorem language_eitherOf (shapes : List Shape) :
    (eitherOf shapes).language = (shapes.map language).sum := by
  induction shapes with
  | nil => rfl
  | cons a rest ih =>
    cases rest with
    | nil => simp [eitherOf]
    | cons b rest => rw [eitherOf, language, ih, List.map_cons (l := b :: rest), List.sum_cons]

theorem sum_alternatives (a : Shape) : (a.alternatives.map language).sum = a.language := by
  induction a with
  | never => rfl
  | either a b iha ihb => rw [alternatives, List.map_append, List.sum_append, iha, ihb, language]
  | _ => simp [alternatives]

/-- One more alternative in front of others; two sets of characters become one. -/
def addAlternative : Shape → List Shape → List Shape
  | oneOf s, oneOf t :: rest => oneOf (s ∪ t) :: rest
  | a, rest => a :: rest

/-- The alternatives with neighbouring sets of characters joined. -/
def merged (shapes : List Shape) : List Shape :=
  shapes.foldr addAlternative []

theorem language_union (s t : CharSet) :
    (oneOf (s ∪ t)).language = (oneOf s).language + (oneOf t).language := by
  ext w
  simp only [Language.mem_add, mem_language_oneOf, CharSet.mem_union, or_and_right, exists_or]

theorem sum_addAlternative (a : Shape) (rest : List Shape) :
    ((addAlternative a rest).map language).sum = a.language + (rest.map language).sum := by
  unfold addAlternative
  split
  · rw [List.map_cons, List.sum_cons, language_union, List.map_cons, List.sum_cons, add_assoc]
  · rw [List.map_cons, List.sum_cons]

theorem sum_merged (shapes : List Shape) :
    ((merged shapes).map language).sum = (shapes.map language).sum := by
  induction shapes with
  | nil => rfl
  | cons a rest ih =>
    rw [merged, List.foldr_cons, sum_addAlternative, ← merged, ih, List.map_cons, List.sum_cons]

/-- A fixed number of rounds is that power of the language. -/
theorem language_repeated_fixed (n : Nat) (item : Shape) :
    (repeated n (some n) item).language = item.language ^ n := by
  ext w
  rw [mem_language_repeated]
  constructor
  · rintro ⟨m, ⟨hleast, hmost⟩, hw⟩
    obtain rfl : m = n := Nat.le_antisymm (hmost n rfl) hleast
    exact hw
  · intro hw
    refine ⟨n, ⟨Nat.le_refl n, ?_⟩, hw⟩
    rintro m ⟨⟩
    exact Nat.le_refl n

/-- **The normal form** of a shape. -/
def norm : Shape → Shape
  | never => never
  | nothing => nothing
  | oneOf s => oneOf s
  | concat a b => concatOf (a.norm.factors ++ b.norm.factors)
  | either a b => eitherOf (merged (a.norm.alternatives ++ b.norm.alternatives))
  | repeated least most item =>
    if most = some least then concatOf (List.replicate least item.norm.factors).flatten
    else repeated least most item.norm

/-- **The normal form has the same texts.** -/
theorem language_norm (a : Shape) : a.norm.language = a.language := by
  induction a with
  | never => rfl
  | nothing => rfl
  | oneOf s => rfl
  | concat a b iha ihb =>
    rw [norm, language_concatOf, List.map_append, List.prod_append, prod_factors, prod_factors,
      iha, ihb, language]
  | either a b iha ihb =>
    rw [norm, language_eitherOf, sum_merged, List.map_append, List.sum_append, sum_alternatives,
      sum_alternatives, iha, ihb, language]
  | repeated least most item ih =>
    rw [norm]
    split
    · rename_i h
      -- a fixed number of rounds is written out as a row
      subst h
      rw [language_concatOf, language_repeated_fixed, List.map_flatten, List.map_replicate,
        List.prod_flatten, List.map_replicate, prod_factors, ih, List.prod_replicate]
    · rw [language, language, ih]

/-- **Whether two shapes have the same alternatives**, in whatever order, in their normal forms. -/
def same (a b : Shape) : Bool :=
  a.norm.alternatives.isPerm b.norm.alternatives

theorem language_eq_of_same {a b : Shape} (h : a.same b = true) : a.language = b.language := by
  have hperm := (List.isPerm_iff.1 h).map language
  rw [← language_norm a, ← language_norm b, ← sum_alternatives a.norm, ← sum_alternatives b.norm,
    hperm.sum_eq]

end AbnfPatterns.Shape
