/-!
# Sets of characters

A set of characters is kept as its maximal runs of consecutive characters, in ascending order.  The
surrogate code points are no characters: a run lies below them or above them.
-/

namespace AbnfPatterns

/-- A **run** of characters with consecutive code points, both ends included. -/
structure CharRun where
  first : Char
  last : Char
  first_le_last : first.toNat ≤ last.toNat
  /-- The surrogate code points U+D800 to U+DFFF do not lie inside the run. -/
  contiguous : last.toNat < 0xD800 ∨ 0xDFFF < first.toNat
  deriving DecidableEq

namespace CharRun

instance : Membership Char CharRun where
  mem r c := r.first.toNat ≤ c.toNat ∧ c.toNat ≤ r.last.toNat

instance (c : Char) (r : CharRun) : Decidable (c ∈ r) :=
  inferInstanceAs (Decidable (r.first.toNat ≤ c.toNat ∧ c.toNat ≤ r.last.toNat))

theorem mem_def {c : Char} {r : CharRun} :
    c ∈ r ↔ r.first.toNat ≤ c.toNat ∧ c.toNat ≤ r.last.toNat :=
  Iff.rfl

/-- No code point is a character and a surrogate at once. -/
theorem not_surrogate (c : Char) : c.toNat < 0xD800 ∨ 0xDFFF < c.toNat := by
  have h := c.valid
  simp only [UInt32.isValidChar, Nat.isValidChar] at h
  show c.val.toNat < 0xD800 ∨ 0xDFFF < c.val.toNat
  omega

def singleton (c : Char) : CharRun where
  first := c
  last := c
  first_le_last := Nat.le_refl _
  contiguous := not_surrogate c

/-- Whether run `r` ends before `s` starts, with at least one code point between them. -/
def Before (r s : CharRun) : Prop :=
  r.last.toNat + 1 < s.first.toNat

instance (r s : CharRun) : Decidable (r.Before s) :=
  inferInstanceAs (Decidable (_ < _))

/-- The run from the lower start to the higher end of two runs that overlap or touch. -/
def join (r s : CharRun) (hrs : ¬ r.Before s) (hsr : ¬ s.Before r) : CharRun where
  first := if r.first.toNat ≤ s.first.toNat then r.first else s.first
  last := if r.last.toNat ≤ s.last.toNat then s.last else r.last
  first_le_last := by
    have := r.first_le_last
    have := s.first_le_last
    split <;> split <;> omega
  contiguous := by
    simp only [Before] at hrs hsr
    have := r.first_le_last
    have := s.first_le_last
    have := r.contiguous
    have := s.contiguous
    have := not_surrogate r.first
    have := not_surrogate s.first
    split <;> split <;> omega

def size (r : CharRun) : Nat :=
  r.last.toNat + 1 - r.first.toNat

def members (r : CharRun) : List Char :=
  (List.range' r.first.toNat r.size).map Char.ofNat

/-- Add run `r` to ascending runs: the runs that it overlaps or touches become one with it. -/
def insert (r : CharRun) : List CharRun → List CharRun
  | [] => [r]
  | s :: rest =>
    if hsr : s.Before r then s :: insert r rest
    else if hrs : r.Before s then r :: s :: rest
    -- the joined run may overlap or touch the next one as well
    else insert (r.join s hrs hsr) rest

/-- A run after which `r` and all of `runs` start also lies before what `insert` makes of them. -/
theorem before_insert {t r : CharRun} {runs : List CharRun} (htr : t.Before r)
    (ht : ∀ s ∈ runs, t.Before s) : ∀ s ∈ insert r runs, t.Before s := by
  induction runs generalizing r with
  | nil => simpa [insert] using htr
  | cons s rest ih =>
    have hts : t.Before s := ht s (by simp)
    have hrest : ∀ u ∈ rest, t.Before u := fun u hu => ht u (by simp [hu])
    simp only [insert]
    split
    · intro u hu
      rcases List.mem_cons.1 hu with rfl | hu
      · exact hts
      · exact ih htr hrest u hu
    · split
      · intro u hu
        rcases List.mem_cons.1 hu with rfl | hu
        · exact htr
        · exact ht u hu
      · refine ih ?_ hrest
        simp only [Before, join] at *
        split <;> omega

/-- Adding a run keeps the runs ascending and apart. -/
theorem pairwise_insert (r : CharRun) {runs : List CharRun} (h : runs.Pairwise Before) :
    (insert r runs).Pairwise Before := by
  induction runs generalizing r with
  | nil => simp [insert]
  | cons s rest ih =>
    obtain ⟨hs, hrest⟩ := List.pairwise_cons.1 h
    simp only [insert]
    split
    · rename_i hsr
      exact List.pairwise_cons.2 ⟨before_insert hsr hs, ih r hrest⟩
    · split
      · rename_i hrs
        refine List.pairwise_cons.2 ⟨?_, h⟩
        intro u hu
        rcases List.mem_cons.1 hu with rfl | hu
        · exact hrs
        · -- `u` starts after `s`, and `s` after `r`
          have hsu := hs u hu
          have hlen := s.first_le_last
          simp only [Before] at *
          omega
      · exact ih _ hrest

theorem mem_insert {c : Char} {r : CharRun} {runs : List CharRun} :
    (∃ s ∈ insert r runs, c ∈ s) ↔ c ∈ r ∨ ∃ s ∈ runs, c ∈ s := by
  induction runs generalizing r with
  | nil => simp [insert]
  | cons s rest ih =>
    simp only [insert]
    split
    · simp only [List.mem_cons, exists_eq_or_imp, ih]
      grind
    · split
      · simp
      · rename_i hsr hrs
        have hjoin : c ∈ r.join s hrs hsr ↔ c ∈ r ∨ c ∈ s := by
          have := r.first_le_last
          have := s.first_le_last
          simp only [Before] at hsr hrs
          simp only [mem_def, join]
          split <;> split <;> omega
        simp only [List.mem_cons, exists_eq_or_imp, ih, hjoin]
        grind

end CharRun

/-- A **set of characters**, kept as ascending runs with at least one code point between any
two of them. -/
structure CharSet where
  runs : List CharRun
  apart : runs.Pairwise CharRun.Before

namespace CharSet

instance : Membership Char CharSet where
  mem s c := ∃ r ∈ s.runs, c ∈ r

instance (c : Char) (s : CharSet) : Decidable (c ∈ s) :=
  inferInstanceAs (Decidable (∃ r ∈ s.runs, c ∈ r))

theorem mem_def {c : Char} {s : CharSet} : c ∈ s ↔ ∃ r ∈ s.runs, c ∈ r :=
  Iff.rfl

/-- The code points at the ends of the runs. -/
def bounds (s : CharSet) : List (Nat × Nat) :=
  s.runs.map fun r => (r.first.toNat, r.last.toNat)

theorem bounds_inj {s t : CharSet} : s.bounds = t.bounds ↔ s = t := by
  constructor
  · intro h
    have hruns : s.runs = t.runs := by
      refine (List.map_inj_right ?_).1 h
      -- a character is given by its code point
      rintro ⟨first, last, hle, hgap⟩ ⟨first', last', hle', hgap'⟩ heq
      obtain ⟨hfirst, hlast⟩ := Prod.mk.inj heq
      obtain rfl := Char.toNat_inj.1 hfirst
      obtain rfl := Char.toNat_inj.1 hlast
      rfl
    obtain ⟨runs, apart⟩ := s
    subst hruns
    rfl
  · rintro rfl
    rfl

instance : DecidableEq CharSet := fun _ _ => decidable_of_iff _ bounds_inj

def empty : CharSet :=
  ⟨[], List.Pairwise.nil⟩

instance : EmptyCollection CharSet := ⟨empty⟩

@[simp] theorem not_mem_empty (c : Char) : ¬ c ∈ (∅ : CharSet) := by
  simp [mem_def, EmptyCollection.emptyCollection, empty]

def insertRun (r : CharRun) (s : CharSet) : CharSet :=
  ⟨CharRun.insert r s.runs, CharRun.pairwise_insert r s.apart⟩

@[simp] theorem mem_insertRun {c : Char} {r : CharRun} {s : CharSet} :
    c ∈ s.insertRun r ↔ c ∈ r ∨ c ∈ s :=
  CharRun.mem_insert

def insert (c : Char) (s : CharSet) : CharSet :=
  s.insertRun (CharRun.singleton c)

@[simp] theorem mem_insert {c d : Char} {s : CharSet} : c ∈ s.insert d ↔ c = d ∨ c ∈ s := by
  have h : c ∈ CharRun.singleton d ↔ c = d := by
    rw [CharRun.mem_def, ← Char.toNat_inj]
    simp only [CharRun.singleton]
    omega
  rw [insert, mem_insertRun, h]

def union (s t : CharSet) : CharSet :=
  t.runs.foldl (fun u r => u.insertRun r) s

instance : Union CharSet := ⟨union⟩

@[simp] theorem mem_union {c : Char} {s t : CharSet} : c ∈ s ∪ t ↔ c ∈ s ∨ c ∈ t := by
  have h : ∀ (runs : List CharRun) (u : CharSet),
      c ∈ runs.foldl (fun u r => u.insertRun r) u ↔ c ∈ u ∨ ∃ r ∈ runs, c ∈ r := by
    intro runs
    induction runs with
    | nil => simp
    | cons r rest ih =>
      intro u
      simp only [List.foldl_cons, ih, mem_insertRun, List.mem_cons, exists_eq_or_imp]
      grind
  exact h t.runs s

def unions (sets : List CharSet) : CharSet :=
  sets.foldl (· ∪ ·) ∅

@[simp] theorem mem_unions {c : Char} {sets : List CharSet} :
    c ∈ unions sets ↔ ∃ s ∈ sets, c ∈ s := by
  have h : ∀ (sets : List CharSet) (u : CharSet),
      c ∈ sets.foldl (· ∪ ·) u ↔ c ∈ u ∨ ∃ s ∈ sets, c ∈ s := by
    intro sets
    induction sets with
    | nil => simp
    | cons s rest ih =>
      intro u
      simp only [List.foldl_cons, ih, mem_union, List.mem_cons, exists_eq_or_imp]
      grind
  simp [unions, h]

def ofText (text : String) : CharSet :=
  text.toList.foldl (fun s c => s.insert c) ∅

@[simp] theorem mem_ofText {c : Char} {text : String} : c ∈ ofText text ↔ c ∈ text.toList := by
  have h : ∀ (cs : List Char) (u : CharSet),
      c ∈ cs.foldl (fun s c => s.insert c) u ↔ c ∈ u ∨ c ∈ cs := by
    intro cs
    induction cs with
    | nil => simp
    | cons d rest ih =>
      intro u
      rw [List.foldl_cons, ih, mem_insert, List.mem_cons]
      grind
  simp [ofText, h]

/-- Every character from `lo` through `hi`; empty when `hi` comes before `lo`.  A range over the
surrogate code points is two runs. -/
def ofRange (lo hi : Char) : CharSet :=
  if h : lo.toNat ≤ hi.toNat then
    if hgap : hi.toNat < 0xD800 ∨ 0xDFFF < lo.toNat then
      ⟨[⟨lo, hi, h, hgap⟩], List.pairwise_singleton _ _⟩
    else
      -- the surrogates lie between the ends, which are none themselves
      ⟨[⟨lo, '\uD7FF',
          by have := CharRun.not_surrogate lo; have : '\uD7FF'.toNat = 0xD7FF := rfl; omega,
          .inl (by decide)⟩,
        ⟨'\uE000', hi,
          by have := CharRun.not_surrogate hi; have : '\uE000'.toNat = 0xE000 := rfl; omega,
          .inr (by decide)⟩],
        by simp [CharRun.Before]⟩
  else ∅

@[simp] theorem mem_ofRange {c lo hi : Char} :
    c ∈ ofRange lo hi ↔ lo.toNat ≤ c.toNat ∧ c.toNat ≤ hi.toNat := by
  have hc := CharRun.not_surrogate c
  have hlow : '\uD7FF'.toNat = 0xD7FF := rfl
  have hhigh : '\uE000'.toNat = 0xE000 := rfl
  rw [ofRange]
  split
  · split
    · simp [mem_def, CharRun.mem_def]
    · simp only [mem_def, CharRun.mem_def, List.mem_cons, List.not_mem_nil, or_false,
        exists_eq_or_imp, exists_eq_left, hlow, hhigh]
      omega
  · simp only [not_mem_empty, false_iff]
    omega

def size (s : CharSet) : Nat :=
  s.runs.foldr (fun r n => r.size + n) 0

def members (s : CharSet) : List Char :=
  s.runs.flatMap CharRun.members

end CharSet

end AbnfPatterns
