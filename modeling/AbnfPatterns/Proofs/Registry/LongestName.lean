import AbnfPatterns.Registry
import AbnfPatterns.Proofs.Text.Utf8
import Mathlib.Data.List.Infix
import Mathlib.Order.Bounds.Basic

/-!
# Longest names

The search looks at no start that has more characters than the longest key has bytes.  No rule name
is missed by that: a name has as many characters as its key.
-/

namespace AbnfPatterns

/-- Whether the registry has a rule under the key of the text. -/
def Registry.knows (reg : Registry) (name : List Char) : Bool :=
  reg.rules.contains (RuleName.key (String.ofList name))

/-- **The longest known name at the start of a run.**  The empty text is no name. -/
structure IsLongestName (known : List Char → Bool) (run name : List Char) : Prop where
  starts : name <+: run
  ne_nil : name ≠ []
  is_known : known name = true
  longest : ∀ other, other <+: run → other ≠ [] → known other = true → other.length ≤ name.length

/-- The longest known name among all starts of a run. -/
def longestName? (known : List Char → Bool) (run : List Char) : Option (List Char) :=
  (run.inits.filter fun name => !name.isEmpty && known name).getLast?

variable {known : List Char → Bool} {run name : List Char}

theorem IsLongestName.eq {other : List Char} (h : IsLongestName known run name)
    (h' : IsLongestName known run other) : name = other := by
  have hlen : name.length = other.length :=
    Nat.le_antisymm (h'.longest name h.starts h.ne_nil h.is_known)
      (h.longest other h'.starts h'.ne_nil h'.is_known)
  rw [List.prefix_iff_eq_take.1 h.starts, List.prefix_iff_eq_take.1 h'.starts, hlen]

theorem pairwise_inits (l : List Char) : l.inits.Pairwise fun a b => a.length < b.length := by
  rw [List.pairwise_iff_getElem]
  intro i j hi hj hij
  simp only [List.length_inits] at hi hj
  simp only [List.getElem_inits, List.length_take]
  omega

theorem longestName?_eq_some_iff :
    longestName? known run = some name ↔ IsLongestName known run name := by
  have hmem : ∀ other, other ∈ run.inits.filter (fun name => !name.isEmpty && known name) ↔
      other <+: run ∧ other ≠ [] ∧ known other = true := by
    intro other
    simp [List.mem_filter]
  -- the starts are sorted by length, so the last one of the known ones is the longest
  have hsorted := (pairwise_inits run).filter (fun name => !name.isEmpty && known name)
  have hlast : ∀ last, longestName? known run = some last → IsLongestName known run last := by
    intro last h
    obtain ⟨front, hfront⟩ := List.getLast?_eq_some_iff.1 h
    rw [hfront, List.pairwise_append] at hsorted
    obtain ⟨hstart, hne, hknown⟩ := (hmem last).1 (by simp [hfront])
    refine ⟨hstart, hne, hknown, fun other hother hne' hknown' => ?_⟩
    have hin : other ∈ front ++ [last] := hfront ▸ (hmem other).2 ⟨hother, hne', hknown'⟩
    rcases List.mem_append.1 hin with hin | hin
    · exact Nat.le_of_lt (hsorted.2.2 other hin last (by simp))
    · rw [List.mem_singleton.1 hin]
  constructor
  · exact hlast name
  · intro h
    cases hfound : longestName? known run with
    | none =>
      have hnil := List.getLast?_eq_none_iff.1 hfound
      have hin := (hmem name).2 ⟨h.starts, h.ne_nil, h.is_known⟩
      simp [hnil] at hin
    | some last => rw [(hlast last hfound).eq h]

theorem longestName?_eq_none_iff :
    longestName? known run = none ↔ ∀ name, ¬ IsLongestName known run name := by
  simp only [Option.eq_none_iff_forall_ne_some, ne_eq, longestName?_eq_some_iff]

/-- There is no longest known name if no start is known, the empty one left aside. -/
theorem longestName?_eq_none_iff_forall :
    longestName? known run = none ↔ ∀ name ∈ run.inits, name ≠ [] → known name = false := by
  rw [longestName?, List.getLast?_eq_none_iff, List.filter_eq_nil_iff]
  simp

/-- The longest known name depends on the starts of the run only. -/
theorem longestName?_congr {known' : List Char → Bool}
    (h : ∀ name ∈ run.inits, name ≠ [] → known name = known' name) :
    longestName? known run = longestName? known' run := by
  rw [longestName?, longestName?]
  congr 1
  refine List.filter_congr fun name hname => ?_
  by_cases hne : name = []
  · simp [hne]
  · rw [h name hname hne]

namespace Registry

variable {reg : Registry}

theorem get?_isSome (name : List Char) :
    (reg.get? (String.ofList name)).isSome = reg.knows name := by
  simp [get?, knows, Std.TreeMap.isSome_getElem?_eq_contains]

theorem le_foldl_max {lengths : List Nat} {start n : Nat} (h : n ∈ lengths ∨ n ≤ start) :
    n ≤ lengths.foldl max start := by
  induction lengths generalizing start with
  | nil => simpa using h
  | cons m rest ih =>
    apply ih
    rcases h with h | h
    · rcases List.mem_cons.1 h with rfl | h
      · exact .inr (Nat.le_max_right _ _)
      · exact .inl h
    · exact .inr (Nat.le_trans h (Nat.le_max_left _ _))

theorem length_le_longestKey {name : List Char} (h : reg.knows name = true) :
    name.length ≤ reg.longestKey := by
  have hkey : RuleName.key (String.ofList name) ∈ reg.rules.keys :=
    Std.TreeMap.mem_keys.2 (Std.TreeMap.contains_iff_mem.1 h)
  rw [reg.longestKey_eq]
  calc name.length
    _ = (RuleName.key (String.ofList name)).length := by
      rw [RuleName.length_key, String.length_ofList]
    _ ≤ (RuleName.key (String.ofList name)).utf8ByteSize := length_le_utf8ByteSize _
    _ ≤ (reg.rules.keys.map String.utf8ByteSize).foldl max 0 :=
      le_foldl_max (.inl (List.mem_map_of_mem hkey))

/-- The search up to `limit` characters finds the longest start of at most so many characters. -/
theorem longestPrefixUpTo_eq_some_iff {run : List Char} {limit n : Nat} {rule : Rule} :
    reg.longestPrefixUpTo run limit = some (n, rule) ↔
      0 < n ∧ n ≤ limit ∧ reg.get? (String.ofList (run.take n)) = some rule ∧
        ∀ m, n < m → m ≤ limit → reg.knows (run.take m) = false := by
  induction limit with
  | zero =>
    simp only [longestPrefixUpTo, reduceCtorEq, false_iff]
    omega
  | succ limit ih =>
    have hknows : (reg.get? _).isSome = _ := get?_isSome (run.take (limit + 1))
    simp only [longestPrefixUpTo]
    split
    · -- the longest start that may be taken is known
      rename_i found hfound
      rw [hfound] at hknows
      constructor
      · intro h
        cases h
        exact ⟨Nat.succ_pos _, Nat.le_refl _, hfound, fun m hlt hle => by omega⟩
      · rintro ⟨-, hle, hget, hmax⟩
        by_cases hn : n = limit + 1
        · subst hn
          rw [hfound] at hget
          cases hget
          rfl
        · rw [hmax (limit + 1) (by omega) (Nat.le_refl _)] at hknows
          cases hknows
    · -- it is not known, so the search goes on with shorter ones
      rename_i hnone
      rw [hnone] at hknows
      rw [ih]
      constructor
      · rintro ⟨hpos, hle, hget, hmax⟩
        refine ⟨hpos, by omega, hget, fun m hlt hm => ?_⟩
        by_cases hlast : m = limit + 1
        · rw [hlast]
          exact hknows.symm
        · exact hmax m hlt (by omega)
      · rintro ⟨hpos, hle, hget, hmax⟩
        refine ⟨hpos, ?_, hget, fun m hlt hm => hmax m hlt (by omega)⟩
        by_contra hgt
        have hn : n = limit + 1 := by omega
        rw [hn, hnone] at hget
        cases hget

theorem longestPrefixUpTo_eq_none_iff {run : List Char} {limit : Nat} :
    reg.longestPrefixUpTo run limit = none ↔
      ∀ m, 1 ≤ m → m ≤ limit → reg.get? (String.ofList (run.take m)) = none := by
  induction limit with
  | zero =>
    rw [longestPrefixUpTo, eq_self, true_iff]
    intro m hpos hle
    omega
  | succ limit ih =>
    simp only [longestPrefixUpTo]
    split
    · rename_i found hfound
      simp only [reduceCtorEq, false_iff]
      intro h
      rw [h (limit + 1) (by omega) (Nat.le_refl _)] at hfound
      cases hfound
    · rename_i hnone
      rw [ih]
      constructor
      · intro h m hpos hle
        by_cases hlast : m = limit + 1
        · rw [hlast]
          exact hnone
        · exact h m hpos (by omega)
      · intro h m hpos hle
        exact h m hpos (by omega)

/-- Longer starts change nothing for the search if none of them is known. -/
theorem longestPrefixUpTo_eq_of_unknown {run : List Char} {limit most : Nat} (hle : limit ≤ most)
    (h : ∀ m, limit < m → m ≤ most → reg.knows (run.take m) = false) :
    reg.longestPrefixUpTo run limit = reg.longestPrefixUpTo run most := by
  induction hle with
  | refl => rfl
  | @step most hle ih =>
    have hunknown := h (most + 1) (Nat.lt_succ_of_le hle) (Nat.le_refl _)
    have hnone : reg.get? (String.ofList (run.take (most + 1))) = none := by
      rw [← Option.not_isSome_iff_eq_none, get?_isSome, hunknown]
      exact Bool.false_ne_true
    rw [ih fun m hlt hm => h m hlt (by omega), longestPrefixUpTo, hnone]

/-- **The limit hides no name.**  Starts with more characters than the longest key has bytes are
never tried, and none of them is known. -/
theorem longestPrefix_eq_longestPrefixUpTo (run : List Char) :
    reg.longestPrefix run = reg.longestPrefixUpTo run run.length := by
  refine longestPrefixUpTo_eq_of_unknown (Nat.min_le_left _ _) fun m hlt hle => ?_
  rw [← Bool.not_eq_true]
  intro hknown
  have hbound := length_le_longestKey hknown
  rw [List.length_take] at hbound
  omega

/-- **The search finds the longest known name, and its rule.** -/
theorem longestPrefix_eq_some_iff {run : List Char} {n : Nat} {rule : Rule} :
    reg.longestPrefix run = some (n, rule) ↔
      n ≤ run.length ∧ IsLongestName reg.knows run (run.take n) ∧
        reg.get? (String.ofList (run.take n)) = some rule := by
  have hlen : ∀ m, m ≤ run.length → (run.take m).length = m := fun m hm => by simp [hm]
  have hne : ∀ m, m ≤ run.length → (run.take m ≠ [] ↔ 0 < m) := fun m hm => by
    rw [← List.length_pos_iff, hlen m hm]
  rw [longestPrefix_eq_longestPrefixUpTo, longestPrefixUpTo_eq_some_iff]
  constructor
  · rintro ⟨hpos, hn, hget, hmax⟩
    refine ⟨hn, ⟨List.take_prefix n run, (hne n hn).2 hpos, ?_, ?_⟩, hget⟩
    · rw [← get?_isSome, hget]
      rfl
    · intro other hother _ hknown
      rw [hlen n hn]
      by_contra hgt
      rw [List.prefix_iff_eq_take.1 hother,
        hmax other.length (by omega) hother.length_le] at hknown
      cases hknown
  · rintro ⟨hn, ⟨-, hnil, -, hlong⟩, hget⟩
    refine ⟨(hne n hn).1 hnil, hn, hget, fun m hlt hm => ?_⟩
    rw [← Bool.not_eq_true]
    intro hknown
    have hle := hlong (run.take m) (List.take_prefix m run) ((hne m hm).2 (by omega)) hknown
    rw [hlen m hm, hlen n hn] at hle
    omega

/-- **The search finds how many characters the longest known name has.** -/
theorem longestPrefix_length (run : List Char) :
    (reg.longestPrefix run).map Prod.fst = (longestName? reg.knows run).map List.length := by
  cases hsearch : reg.longestPrefix run with
  | some found =>
    obtain ⟨n, rule⟩ := found
    obtain ⟨hn, hlongest, -⟩ := longestPrefix_eq_some_iff.1 hsearch
    rw [longestName?_eq_some_iff.2 hlongest, Option.map_some, Option.map_some, List.length_take,
      Nat.min_eq_left hn]
  | none =>
    refine (Option.map_eq_none_iff.2 (longestName?_eq_none_iff.2 fun name hname => ?_)).symm
    have htake := List.prefix_iff_eq_take.1 hname.starts
    obtain ⟨rule, hrule⟩ := Option.isSome_iff_exists.1 ((get?_isSome name).trans hname.is_known)
    have hsome : reg.longestPrefix run = some (name.length, rule) :=
      longestPrefix_eq_some_iff.2 ⟨hname.starts.length_le, htake ▸ hname, htake ▸ hrule⟩
    rw [hsearch] at hsome
    cases hsome

/-- **The limited search agrees with the full one.**  For every grammar, whatever its keys are, the
search finds the greatest length of a start that is found as a name, with the rule of that name, and
nothing if no start but the empty one is.  So the limit hides no name, and the empty key is never
found.  Characters are counted, which in a run of name characters are bytes as well. -/
theorem longestPrefix_isGreatest (g : Grammar) (run : List Char) :
    let reg := ofGrammar g
    let start (n : Nat) := String.ofList (run.take n)
    (∀ n rule, reg.longestPrefix run = some (n, rule) ↔
      IsGreatest {m | 1 ≤ m ∧ m ≤ run.length ∧ (reg.get? (start m)).isSome} n ∧
        reg.get? (start n) = some rule) ∧
    (reg.longestPrefix run = none ↔ ∀ m, 1 ≤ m → m ≤ run.length → reg.get? (start m) = none) ∧
    reg.longestPrefix run = reg.longestPrefixUpTo run run.length := by
  intro reg start
  have hknows : ∀ m, (reg.get? (start m)).isSome = reg.knows (run.take m) := fun m => get?_isSome _
  have hfull := reg.longestPrefix_eq_longestPrefixUpTo run
  refine ⟨fun n rule => ?_, ?_, hfull⟩
  · rw [hfull, longestPrefixUpTo_eq_some_iff]
    constructor
    · rintro ⟨hpos, hn, hget, hmax⟩
      refine ⟨⟨⟨hpos, hn, by rw [hget, Option.isSome_some]⟩, ?_⟩, hget⟩
      rintro m ⟨-, hm, hsome⟩
      by_contra hgt
      rw [hknows, hmax m (by omega) hm] at hsome
      cases hsome
    · rintro ⟨⟨⟨hpos, hn, -⟩, hgreatest⟩, hget⟩
      refine ⟨hpos, hn, hget, fun m hlt hm => ?_⟩
      rw [← Bool.not_eq_true, ← hknows]
      intro hsome
      have hle : m ≤ n := hgreatest ⟨by omega, hm, hsome⟩
      omega
  · rw [hfull]
    exact longestPrefixUpTo_eq_none_iff

/-- The empty key is never found, and no name leads to the key in lower case. -/
example :
    let rule (fragment : String) : Rule := ⟨"sp", "%x20", "blank", ∅, fragment⟩
    let g := Grammar.standalone "LOCAL"
      { entries := [("", rule "a"), ("S", rule "b"), ("sp", rule "c"), ("ÜÜÜ", rule "d")] }
    ((ofGrammar g).longestPrefix "sp".toList).map Prod.fst = some 1 ∧
      (ofGrammar g).longestPrefix "x".toList = none := by
  decide +kernel

end Registry

end AbnfPatterns
