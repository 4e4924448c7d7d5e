import AbnfPatterns.Event
import AbnfPatterns.Regex.Text
import AbnfPatterns.Registry
import AbnfPatterns.Text.Blank

/-!
# Templates

A template is pattern text with references to rules in it: `:name` stands for the fragment of a
rule, and `:#name` for the fragment and one comma-separated repeat of it.  It is cut into segments
first; inserted fragments are never looked at again.
-/

namespace AbnfPatterns.Template

/-- The text between the colon and the name of a reference. -/
def mark (repeated : Bool) : List Char :=
  if repeated then ['#'] else []

/-- A **segment** of a template. -/
inductive Segment where
  | literal (char : Char)
  /-- A colon, possibly a number sign, and a name that stands for a rule. -/
  | reference (repeated : Bool) (name : List Char)
  /-- A colon, possibly a number sign, and all name characters after it, which start with no rule
  name.  There may be none. -/
  | unresolved (repeated : Bool) (run : List Char)
  deriving DecidableEq, Repr

def Segment.source : Segment → List Char
  | literal c => [c]
  | reference repeated name => ':' :: (mark repeated ++ name)
  | unresolved repeated run => ':' :: (mark repeated ++ run)

/-- Whether the text starts with a number sign, and what follows it. -/
def splitMark : List Char → Bool × List Char
  | '#' :: rest => (true, rest)
  | text => (false, text)

theorem mark_splitMark (text : List Char) :
    mark (splitMark text).1 ++ (splitMark text).2 = text := by
  unfold splitMark
  split <;> simp [mark]

theorem length_splitMark_le (text : List Char) : (splitMark text).2.length ≤ text.length := by
  unfold splitMark
  split <;> simp

/-- **The segments of a template.**  `named run` tells how many characters the rule name at the
start of `run` has, if there is one. -/
def scan (named : List Char → Option Nat) : List Char → List Segment
  | [] => []
  | c :: rest =>
    if c = ':' then
      let marked := splitMark rest
      let run := marked.2.takeWhile RuleName.isNameChar
      match named run with
      -- what is left of the run is copied as it stands
      | some n => .reference marked.1 (run.take n) :: scan named (marked.2.drop n)
      | none =>
        .unresolved marked.1 run :: scan named (marked.2.dropWhile RuleName.isNameChar)
    else .literal c :: scan named rest
termination_by text => text.length
decreasing_by
  all_goals simp_wf
  · have := length_splitMark_le rest
    omega
  · have := length_splitMark_le rest
    have : ((splitMark rest).2.dropWhile RuleName.isNameChar).length ≤ (splitMark rest).2.length :=
      (List.dropWhile_suffix _).length_le
    omega

section Scan

variable {named : List Char → Option Nat} {rest : List Char}

theorem scan_colon_of_named {n : Nat}
    (h : named ((splitMark rest).2.takeWhile RuleName.isNameChar) = some n) :
    scan named (':' :: rest)
      = .reference (splitMark rest).1 (((splitMark rest).2.takeWhile RuleName.isNameChar).take n)
        :: scan named ((splitMark rest).2.drop n) := by
  rw [scan, if_pos rfl]
  simp only [h]

theorem scan_colon_of_unnamed
    (h : named ((splitMark rest).2.takeWhile RuleName.isNameChar) = none) :
    scan named (':' :: rest)
      = .unresolved (splitMark rest).1 ((splitMark rest).2.takeWhile RuleName.isNameChar)
        :: scan named ((splitMark rest).2.dropWhile RuleName.isNameChar) := by
  rw [scan, if_pos rfl]
  simp only [h]

theorem scan_cons_of_ne {c : Char} (h : c ≠ ':') :
    scan named (c :: rest) = .literal c :: scan named rest := by
  rw [scan, if_neg h]

end Scan

/-- How many characters the longest rule name at the start of a text has. -/
def nameLength (reg : Registry) (run : List Char) : Option Nat :=
  (reg.longestPrefix run).map Prod.fst

def segments (reg : Registry) (template : String) : List Segment :=
  scan (nameLength reg) template.toList

/-- What a segment stands for: a reference is replaced, all else is copied. -/
def expand (reg : Registry) (whitespace : String) : Segment → String
  | .literal c => String.ofList [c]
  | .unresolved repeated run => String.ofList (Segment.unresolved repeated run).source
  | .reference repeated name =>
    match reg.get? (String.ofList name) with
    -- does not occur: a reference is made from a name that the registry has
    | none => String.ofList (Segment.reference repeated name).source
    | some rule =>
      if repeated then rule.fragment ++ PatternText.commaSuffix whitespace rule.fragment
      else rule.fragment

/-- **The template with its references replaced.** -/
def resolve (reg : Registry) (whitespace template : String) : String :=
  String.join ((segments reg template).map (expand reg whitespace))

/-- The report on a segment: only a token with at least one name character is worth one. -/
def report (grammar : String) : Segment → Option Event
  | .unresolved repeated run =>
    if run.isEmpty then none
    else some (.unresolved (String.ofList (Segment.unresolved repeated run).source) grammar)
  | _ => none

/-- **The reports on a template**, one for each token that names no rule. -/
def unresolved (reg : Registry) (template : String) : List Event :=
  (segments reg template).filterMap (report reg.grammar.name)

/-- The template without its ASCII blanks; other blanks are pattern text. -/
def collapseBlanks (template : String) : String :=
  String.ofList (template.toList.filter fun c => !isAsciiBlank c)

/-- Only as many characters are taken for a name as there are. -/
theorem length_of_nameLength {reg : Registry} {run : List Char} {n : Nat}
    (h : nameLength reg run = some n) : n ≤ run.length := by
  have hle : ∀ limit, ∀ p ∈ reg.longestPrefixUpTo run limit, p.1 ≤ limit := by
    intro limit
    induction limit with
    | zero => simp [Registry.longestPrefixUpTo]
    | succ limit ih =>
      simp only [Registry.longestPrefixUpTo]
      split
      · simp
      · intro p hp
        exact Nat.le_succ_of_le (ih p hp)
  obtain ⟨p, hp, rfl⟩ := Option.map_eq_some_iff.1 h
  have := hle _ p hp
  omega

/-- The segments of a text make up the text. -/
theorem scan_source {named : List Char → Option Nat}
    (hnamed : ∀ run n, named run = some n → n ≤ run.length) (text : List Char) :
    (scan named text).flatMap Segment.source = text := by
  fun_induction scan named text with
  | case1 => rfl
  | case2 rest marked run n hn ih =>
    have htake : run.take n ++ marked.2.drop n = marked.2 := by
      have hlen := hnamed run n hn
      have hpre : run ++ marked.2.dropWhile RuleName.isNameChar = marked.2 :=
        List.takeWhile_append_dropWhile
      -- the name is cut off inside the run, so the cut is one of the run alone
      calc run.take n ++ marked.2.drop n
          = run.take n ++ (run ++ marked.2.dropWhile RuleName.isNameChar).drop n := by rw [hpre]
        _ = marked.2 := by
          rw [List.drop_append_of_le_length hlen, ← List.append_assoc, List.take_append_drop, hpre]
    simp only [List.flatMap_cons, Segment.source, ih, List.cons_append, List.append_assoc, htake]
    exact congrArg _ (mark_splitMark rest)
  | case3 rest marked run hn ih =>
    have hpre : run ++ marked.2.dropWhile RuleName.isNameChar = marked.2 :=
      List.takeWhile_append_dropWhile
    simp only [List.flatMap_cons, Segment.source, ih, List.cons_append, List.append_assoc, hpre]
    exact congrArg _ (mark_splitMark rest)
  | case4 c rest hc ih => simp [Segment.source, ih]

end AbnfPatterns.Template
