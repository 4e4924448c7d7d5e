import AbnfPatterns.Proofs.Registry.LongestName
import AbnfPatterns.Template

/-!
# Templates by place

What a resolved template looks like, said place by place instead of by a scan: the text of each
reference is replaced, and every other character stands where it stood.
-/

namespace AbnfPatterns.Template

/-! ### References -/

/-- A **reference**: the place of its colon, whether a number sign follows the colon, and the
name. -/
structure Reference where
  place : Nat
  repeated : Bool
  name : List Char
  deriving DecidableEq, Repr

namespace Reference

def size (r : Reference) : Nat :=
  (mark r.repeated).length + r.name.length + 1

/-- **A reference stands in a text**: its colon does, with a number sign behind it if and only if
it is repeated, and its name is the longest known one in the run of name characters after that. -/
structure StandsIn (known : List Char → Bool) (text : List Char) (r : Reference) : Prop where
  colon : text[r.place]? = some ':'
  repeated_iff : r.repeated = true ↔ text[r.place + 1]? = some '#'
  name_longest : IsLongestName known
    ((text.drop (r.place + 1 + (mark r.repeated).length)).takeWhile RuleName.isNameChar) r.name

end Reference

/-- The reference whose colon stands at a place, if there is one. -/
def referenceAt (known : List Char → Bool) (text : List Char) (place : Nat) : Option Reference :=
  if text[place]? = some ':' then
    let repeated := decide (text[place + 1]? = some '#')
    let run := (text.drop (place + 1 + (mark repeated).length)).takeWhile RuleName.isNameChar
    (longestName? known run).map fun name => ⟨place, repeated, name⟩
  else none

/-- Whether a number sign stands behind the place of a colon. -/
def markedAt (text : List Char) (place : Nat) : Bool :=
  decide (text[place + 1]? = some '#')

/-- **The run at a place**: the name characters behind the colon there and its number sign. -/
def runAt (text : List Char) (place : Nat) : List Char :=
  (text.drop (place + 1 + (mark (markedAt text place)).length)).takeWhile RuleName.isNameChar

/-- Whether a place lies inside a reference that starts before it. -/
def isInside (known : List Char → Bool) (text : List Char) (place : Nat) : Bool :=
  (List.range place).any fun start =>
    (referenceAt known text start).any fun r => place < start + r.size

/-- What stands for the character at a place: the replacement where a reference starts, nothing
inside a reference, and else the character itself. -/
def standsFor (known : List Char → Bool) (replacement : Reference → List Char) (text : List Char)
    (place : Nat) : List Char :=
  match referenceAt known text place with
  | some r => replacement r
  | none => if isInside known text place then [] else text[place]?.toList

/-- **The text with its references replaced.** -/
def replaced (known : List Char → Bool) (replacement : Reference → List Char)
    (text : List Char) : List Char :=
  (List.range text.length).flatMap (standsFor known replacement text)

/-- **What a reference is replaced by**: the fragment of the rule, and the comma suffix if the
reference is repeated. -/
def replacement (reg : Registry) (whitespace : String) (r : Reference) : List Char :=
  match reg.rules[RuleName.key (String.ofList r.name)]? with
  | none => []
  | some rule =>
    rule.fragment.toList
      ++ if r.repeated then (PatternText.commaSuffix whitespace rule.fragment).toList else []

section References

variable {known : List Char → Bool} {text : List Char} {place : Nat} {r : Reference}

/-- **The references of a text are those that stand in it.** -/
theorem referenceAt_eq_some_iff :
    referenceAt known text place = some r ↔ r.place = place ∧ r.StandsIn known text := by
  unfold referenceAt
  split
  · rename_i hcolon
    rw [Option.map_eq_some_iff]
    constructor
    · rintro ⟨name, hname, rfl⟩
      exact ⟨rfl, hcolon, by simp, longestName?_eq_some_iff.1 hname⟩
    · rintro ⟨rfl, -, hrep, hname⟩
      have hdec : decide (text[r.place + 1]? = some '#') = r.repeated := by
        rw [Bool.eq_iff_iff, decide_eq_true_iff, hrep]
      rw [hdec]
      exact ⟨r.name, longestName?_eq_some_iff.2 hname, rfl⟩
  · rename_i hcolon
    simp only [reduceCtorEq, false_iff, not_and]
    rintro rfl hr
    exact hcolon hr.colon

theorem referenceAt_eq_none (h : text[place]? ≠ some ':') : referenceAt known text place = none := by
  rw [referenceAt, if_neg h]

/-! ### The scan, place by place -/

/-- No reference that starts before the place reaches it. -/
def Clear (known : List Char → Bool) (text : List Char) (place : Nat) : Prop :=
  ∀ start r, start < place → referenceAt known text start = some r → start + r.size ≤ place

theorem isInside_eq_false (h : Clear known text place) : isInside known text place = false := by
  rw [isInside, List.any_eq_false]
  intro start hstart
  rw [List.mem_range] at hstart
  cases hr : referenceAt known text start with
  | none => simp
  | some r =>
    have := h start r hstart hr
    simpa using this

/-- Where no reference starts, the next place is as clear as this one. -/
theorem Clear.succ (h : Clear known text place) (hnone : referenceAt known text place = none) :
    Clear known text (place + 1) := by
  intro start r hstart hr
  by_cases heq : start = place
  · rw [heq, hnone] at hr
    cases hr
  · have := h start r (by omega) hr
    omega

/-- Behind a reference the text is clear again. -/
theorem Clear.add_size (h : Clear known text place) (hr : referenceAt known text place = some r)
    (hnone : ∀ j, place < j → j < place + r.size → referenceAt known text j = none) :
    Clear known text (place + r.size) := by
  intro start r' hstart hr'
  rcases Nat.lt_trichotomy start place with hlt | heq | hgt
  · have := h start r' hlt hr'
    omega
  · -- it is the reference at the place itself
    rw [heq, hr] at hr'
    cases hr'
    omega
  · rw [hnone start hgt hstart] at hr'
    cases hr'

variable (replacement : Reference → List Char)

/-- A clear part of a text without references is copied. -/
theorem flatMap_standsFor_copied {count : Nat} (hclear : Clear known text place)
    (hlen : place + count ≤ text.length)
    (hnone : ∀ j, place ≤ j → j < place + count → referenceAt known text j = none) :
    (List.range' place count).flatMap (standsFor known replacement text)
      = (text.drop place).take count ∧ Clear known text (place + count) := by
  induction count generalizing place with
  | zero => exact ⟨by simp, hclear⟩
  | succ count ih =>
    have hhere := hnone place (Nat.le_refl _) (by omega)
    have hlt : place < text.length := by omega
    obtain ⟨hrest, hend⟩ := ih (hclear.succ hhere) (by omega)
      (fun j hj hj' => hnone j (by omega) (by omega))
    have hchar : standsFor known replacement text place = [text[place]] := by
      simp [standsFor, hhere, isInside_eq_false hclear, hlt]
    refine ⟨?_, by rwa [Nat.add_right_comm, Nat.add_assoc] at hend⟩
    rw [List.range'_succ, List.flatMap_cons, hchar, hrest, List.drop_eq_getElem_cons hlt,
      List.take_succ_cons, List.singleton_append]

/-- The text of a reference is replaced as a whole. -/
theorem flatMap_standsFor_reference (hr : referenceAt known text place = some r)
    (hnone : ∀ j, place < j → j < place + r.size → referenceAt known text j = none) :
    (List.range' place r.size).flatMap (standsFor known replacement text) = replacement r := by
  -- the first place yields the whole replacement, the places inside the reference nothing
  have hrest : (List.range' (place + 1) (r.size - 1)).flatMap (standsFor known replacement text)
      = [] := by
    rw [List.flatMap_eq_nil_iff]
    intro j hj
    rw [List.mem_range'_1] at hj
    have hinside : isInside known text j = true := by
      rw [isInside, List.any_eq_true]
      refine ⟨place, List.mem_range.2 (by omega), ?_⟩
      simp only [hr, Option.any_some, decide_eq_true_eq]
      omega
    simp [standsFor, hnone j (by omega) (by omega), hinside]
  have hsize : r.size = r.size - 1 + 1 := by
    rw [Reference.size]
    omega
  rw [hsize, List.range'_succ, List.flatMap_cons, hrest, List.append_nil]
  simp [standsFor, hr]

theorem referenceAt_eq (known : List Char → Bool) (text : List Char) (place : Nat) :
    referenceAt known text place =
      if text[place]? = some ':' then
        (longestName? known (runAt text place)).map fun name => ⟨place, markedAt text place, name⟩
      else none :=
  rfl

section Colon

variable {rest : List Char} (htext : text.drop place = ':' :: rest)

include htext

theorem getElem?_of_drop : text[place]? = some ':' := by
  rw [← List.head?_drop, htext, List.head?_cons]

theorem drop_succ_of_drop : text.drop (place + 1) = rest := by
  rw [← List.drop_drop, htext, List.drop_one, List.tail_cons]

theorem markedAt_of_drop : markedAt text place = (splitMark rest).1 := by
  rw [markedAt, ← List.head?_drop, drop_succ_of_drop htext]
  unfold splitMark
  split
  · simp
  · rename_i hne
    cases rest with
    | nil => simp
    | cons c rest =>
      have : c ≠ '#' := fun h => hne rest (by rw [h])
      simpa using this

theorem runAt_of_drop : runAt text place = (splitMark rest).2.takeWhile RuleName.isNameChar := by
  rw [runAt, markedAt_of_drop htext, ← List.drop_drop, drop_succ_of_drop htext]
  have h := mark_splitMark rest
  generalize splitMark rest = marked at h
  rw [← h, List.drop_left]

/-- A colon starts a reference where a known name follows its marker. -/
theorem referenceAt_of_drop :
    referenceAt known text place =
      (longestName? known ((splitMark rest).2.takeWhile RuleName.isNameChar)).map
        fun name => ⟨place, (splitMark rest).1, name⟩ := by
  rw [referenceAt_eq, if_pos (getElem?_of_drop htext), markedAt_of_drop htext, runAt_of_drop htext]

end Colon

theorem colon_notMem_takeWhile (rest : List Char) : ':' ∉ rest.takeWhile RuleName.isNameChar := by
  intro hmem
  have hname := List.all_takeWhile (p := RuleName.isNameChar) (l := rest)
  rw [List.all_eq_true] at hname
  exact absurd (hname _ hmem) (by decide)

theorem colon_notMem_mark (repeated : Bool) : ':' ∉ mark repeated := by
  cases repeated <;> decide

/-- Behind its first character, a part of the text has a colon only where one is written. -/
theorem getElem?_ne_colon {c : Char} {between rest : List Char} {j : Nat}
    (htext : text.drop place = c :: (between ++ rest)) (hbetween : ':' ∉ between)
    (hj : place < j) (hj' : j < place + (between.length + 1)) : text[j]? ≠ some ':' := by
  intro hcolon
  have hget : (text.drop place)[j - place]? = some ':' := by
    rw [List.getElem?_drop, Nat.add_sub_cancel' (Nat.le_of_lt hj)]
    exact hcolon
  obtain ⟨k, hk⟩ : ∃ k, j - place = k + 1 := ⟨j - place - 1, by omega⟩
  rw [htext, hk, List.getElem?_cons_succ, List.getElem?_append_left (by omega)] at hget
  exact hbetween (List.mem_of_getElem? hget)

/-- What a segment with a colon holds behind the colon: no other colon. -/
theorem colon_notMem_of_starts {rest name : List Char}
    (h : name <+: (splitMark rest).2.takeWhile RuleName.isNameChar) :
    ':' ∉ mark (splitMark rest).1 ++ name := by
  rw [List.mem_append, not_or]
  exact ⟨colon_notMem_mark _, fun hmem => colon_notMem_takeWhile _ (h.subset hmem)⟩

theorem mark_append_drop {rest name : List Char} (h : name <+: (splitMark rest).2) :
    (mark (splitMark rest).1 ++ name) ++ (splitMark rest).2.drop name.length = rest := by
  rw [List.append_assoc, ← List.prefix_append_drop h, mark_splitMark]

theorem mark_append_dropWhile (rest : List Char) :
    (mark (splitMark rest).1 ++ (splitMark rest).2.takeWhile RuleName.isNameChar) ++
      (splitMark rest).2.dropWhile RuleName.isNameChar = rest := by
  rw [List.append_assoc, List.takeWhile_append_dropWhile, mark_splitMark]

theorem range'_cut {size : Nat} (hsize : place + size ≤ text.length) :
    List.range' place (text.length - place)
      = List.range' place size ++ List.range' (place + size) (text.length - (place + size)) := by
  rw [List.range'_append_1]
  congr 1
  omega

theorem place_add_le {c : Char} {taken rest : List Char}
    (htext : text.drop place = c :: (taken ++ rest)) :
    place + (c :: taken).length ≤ text.length := by
  have hlen := congrArg List.length htext
  simp only [List.length_drop, List.length_cons, List.length_append] at hlen ⊢
  omega

theorem drop_of_taken {c : Char} {taken rest : List Char}
    (htext : text.drop place = c :: (taken ++ rest)) :
    text.drop (place + (c :: taken).length) = rest := by
  rw [← List.drop_drop, htext]
  exact List.drop_left

/-- **A part of the text has been scanned**: the text is clear behind it, and `emitted` is what
stands for the characters of the part. -/
def Scanned (known : List Char → Bool) (replacement : Reference → List Char) (text : List Char)
    (place : Nat) (emitted rest : List Char) : Prop :=
  ∃ next, Clear known text next ∧ text.drop next = rest ∧
    (List.range' place (text.length - place)).flatMap (standsFor known replacement text)
      = emitted ++
        (List.range' next (text.length - next)).flatMap (standsFor known replacement text)

theorem scanned_of_copied {c : Char} {taken rest : List Char} (hclear : Clear known text place)
    (htext : text.drop place = c :: (taken ++ rest))
    (hnone : ∀ j, place ≤ j → j < place + (c :: taken).length → referenceAt known text j = none) :
    Scanned known replacement text place (c :: taken) rest := by
  have hle := place_add_le htext
  obtain ⟨hcopied, hnext⟩ := flatMap_standsFor_copied replacement hclear hle hnone
  refine ⟨_, hnext, drop_of_taken htext, ?_⟩
  rw [range'_cut hle, List.flatMap_append, hcopied, htext]
  exact congrArg (· ++ _) List.take_left

/-- A reference is replaced, and what follows its name is scanned next. -/
theorem scanned_of_reference {rest name : List Char} (hclear : Clear known text place)
    (htext : text.drop place = ':' :: rest)
    (hname : longestName? known ((splitMark rest).2.takeWhile RuleName.isNameChar) = some name) :
    Scanned known replacement text place (replacement ⟨place, (splitMark rest).1, name⟩)
      ((splitMark rest).2.drop name.length) := by
  have hr : referenceAt known text place = some ⟨place, (splitMark rest).1, name⟩ := by
    rw [referenceAt_of_drop htext, hname, Option.map_some]
  have hstarts := (longestName?_eq_some_iff.1 hname).starts
  have hsplit : text.drop place
      = ':' :: ((mark (splitMark rest).1 ++ name) ++ (splitMark rest).2.drop name.length) := by
    rw [htext, mark_append_drop (hstarts.trans (List.takeWhile_prefix _))]
  have hsize : Reference.size ⟨place, (splitMark rest).1, name⟩
      = (':' :: (mark (splitMark rest).1 ++ name)).length := by
    simp [Reference.size]
  have hle := place_add_le hsplit
  have hnone : ∀ j, place < j → j < place + Reference.size ⟨place, (splitMark rest).1, name⟩ →
      referenceAt known text j = none := by
    -- the name has no colon in it, so no other reference starts inside this one
    intro j hj hj'
    rw [hsize] at hj'
    exact referenceAt_eq_none (getElem?_ne_colon hsplit (colon_notMem_of_starts hstarts) hj hj')
  refine ⟨_, hclear.add_size hr hnone, hsize ▸ drop_of_taken hsplit, ?_⟩
  rw [range'_cut (hsize ▸ hle), List.flatMap_append, flatMap_standsFor_reference replacement hr hnone]

theorem scanned_of_unresolved {rest : List Char} (hclear : Clear known text place)
    (htext : text.drop place = ':' :: rest)
    (hname : longestName? known ((splitMark rest).2.takeWhile RuleName.isNameChar) = none) :
    Scanned known replacement text place
      (Segment.unresolved (splitMark rest).1
        ((splitMark rest).2.takeWhile RuleName.isNameChar)).source
      ((splitMark rest).2.dropWhile RuleName.isNameChar) := by
  have hsplit : text.drop place
      = ':' :: ((mark (splitMark rest).1 ++ (splitMark rest).2.takeWhile RuleName.isNameChar) ++
        (splitMark rest).2.dropWhile RuleName.isNameChar) := by
    rw [htext, mark_append_dropWhile]
  refine scanned_of_copied replacement hclear hsplit fun j hj hj' => ?_
  by_cases heq : j = place
  · rw [heq, referenceAt_of_drop htext, hname, Option.map_none]
  · exact referenceAt_eq_none
      (getElem?_ne_colon hsplit (colon_notMem_of_starts List.prefix_rfl) (by omega) hj')

theorem scanned_of_literal {c : Char} {rest : List Char} (hclear : Clear known text place)
    (htext : text.drop place = c :: rest) (hc : c ≠ ':') :
    Scanned known replacement text place [c] rest := by
  refine scanned_of_copied replacement hclear htext fun j hj hj' => ?_
  rw [List.length_singleton] at hj'
  have heq : j = place := by omega
  apply referenceAt_eq_none
  rw [heq, ← List.head?_drop, htext, List.head?_cons]
  simpa using hc

/-- **The scan yields what stands for the characters, place by place.**  The induction follows the
scan; between two of its segments the text is clear. -/
theorem flatMap_scan (named : List Char → Option Nat) (emit : Segment → List Char)
    (hnamed : ∀ run, named run = (longestName? known run).map List.length)
    (hliteral : ∀ c, emit (.literal c) = [c])
    (hunresolved : ∀ repeated run,
      emit (.unresolved repeated run) = (Segment.unresolved repeated run).source)
    (hreference : ∀ r : Reference, known r.name = true →
      emit (.reference r.repeated r.name) = replacement r)
    (hclear : Clear known text place) :
    (scan named (text.drop place)).flatMap emit
      = (List.range' place (text.length - place)).flatMap (standsFor known replacement text) := by
  generalize htext : text.drop place = rest
  fun_induction scan named rest generalizing place with
  | case1 =>
    rw [List.drop_eq_nil_iff] at htext
    simp [Nat.sub_eq_zero_of_le htext]
  | case2 =>
    -- a reference
    rename_i rest marked run n hn ih
    rw [hnamed, Option.map_eq_some_iff] at hn
    obtain ⟨name, hname, rfl⟩ := hn
    have hlongest := longestName?_eq_some_iff.1 hname
    obtain ⟨next, hnext, hrest, hstep⟩ :=
      scanned_of_reference replacement hclear htext hname
    rw [List.flatMap_cons, ih hnext hrest, hstep, ← List.prefix_iff_eq_take.1 hlongest.starts,
      hreference ⟨place, marked.1, name⟩ hlongest.is_known]
  | case3 =>
    -- a colon without a known name behind it
    rename_i rest marked run hn ih
    rw [hnamed, Option.map_eq_none_iff] at hn
    obtain ⟨next, hnext, hrest, hstep⟩ :=
      scanned_of_unresolved replacement hclear htext hn
    rw [List.flatMap_cons, ih hnext hrest, hstep, hunresolved]
  | case4 c rest hc ih =>
    -- any other character
    obtain ⟨next, hnext, hrest, hstep⟩ :=
      scanned_of_literal replacement hclear htext hc
    rw [List.flatMap_cons, ih hnext hrest, hstep, hliteral]

end References

/-! ### Resolved templates -/

section Resolve

variable (reg : Registry) (whitespace : String)

theorem toList_expand_reference {r : Reference} (hknown : reg.knows r.name = true) :
    (expand reg whitespace (.reference r.repeated r.name)).toList
      = replacement reg whitespace r := by
  obtain ⟨rule, hrule⟩ :=
    Option.isSome_iff_exists.1 ((Registry.get?_isSome r.name).trans hknown)
  have hget : reg.rules[RuleName.key (String.ofList r.name)]? = some rule := hrule
  simp only [expand, hrule, replacement, hget]
  split <;> simp

theorem toList_resolve (template : String) :
    (resolve reg whitespace template).toList
      = (segments reg template).flatMap fun segment => (expand reg whitespace segment).toList := by
  rw [resolve, String.toList_join]
  simp [List.flatMap_def, Function.comp_def]

theorem toList_resolve_eq_replaced (template : String) :
    (resolve reg whitespace template).toList
      = replaced reg.knows (replacement reg whitespace) template.toList := by
  -- nothing stands before the first place
  have hclear : Clear reg.knows template.toList 0 := fun start _ hstart => by omega
  have hscan := flatMap_scan (replacement reg whitespace) (nameLength reg)
    (fun segment => (expand reg whitespace segment).toList)
    Registry.longestPrefix_length (fun c => String.toList_ofList)
    (fun repeated run => String.toList_ofList)
    (fun r hr => toList_expand_reference reg whitespace hr) hclear
  rw [toList_resolve, segments, replaced, List.range_eq_range']
  simpa using hscan

end Resolve

/-- **Resolution, place by place.**  For every grammar, white space and template: the references
are those that stand in the template, a resolved template is the template with these replaced, and
any other grammar with the same keys replaces the same places. -/
theorem resolve_eq_replaced (g : Grammar) (whitespace template : String) :
    (∀ place r, referenceAt (Registry.ofGrammar g).knows template.toList place = some r ↔
        r.place = place ∧ r.StandsIn (Registry.ofGrammar g).knows template.toList) ∧
      (resolve (Registry.ofGrammar g) whitespace template).toList
        = replaced (Registry.ofGrammar g).knows (replacement (Registry.ofGrammar g) whitespace)
            template.toList ∧
      ∀ (other : Grammar) (whitespace' : String),
        (∀ key, (Registry.ofGrammar other).rules.contains key
          = (Registry.ofGrammar g).rules.contains key) →
        (resolve (Registry.ofGrammar other) whitespace' template).toList
          = replaced (Registry.ofGrammar g).knows
              (replacement (Registry.ofGrammar other) whitespace') template.toList := by
  refine ⟨fun _ _ => referenceAt_eq_some_iff, toList_resolve_eq_replaced _ _ _, ?_⟩
  intro other whitespace' hkeys
  -- what is known depends on the keys alone
  have hknows : (Registry.ofGrammar other).knows = (Registry.ofGrammar g).knows :=
    funext fun name => hkeys _
  rw [toList_resolve_eq_replaced, hknows]

/-- Two rules whose fragments may look like references. -/
def lookalikes (first second : String) : Grammar :=
  .standalone "LOOKALIKES"
    { entries :=
        [("A", { name := "A", abnf := "", description := "", fragment := first }),
          ("B", { name := "B", abnf := "", description := "", fragment := second })]
      distinct := by simp }

/-- Inserted text that looks like a reference stays, and moves no other reference. -/
theorem resolve_lookalikes :
    resolve (.ofGrammar (lookalikes ":b" "[b]")) "" ":a:#bc" = ":b[b](?:,[b])c" ∧
      (∀ key, (Registry.ofGrammar (lookalikes "x" "y")).rules.contains key
        = (Registry.ofGrammar (lookalikes ":b" "[b]")).rules.contains key) ∧
      (resolve (.ofGrammar (lookalikes "x" "y")) " " ":a:#bc").toList
        = replaced (Registry.ofGrammar (lookalikes ":b" "[b]")).knows
            (replacement (.ofGrammar (lookalikes "x" "y")) " ") ":a:#bc".toList := by
  have hkeys : ∀ key, (Registry.ofGrammar (lookalikes "x" "y")).rules.contains key
      = (Registry.ofGrammar (lookalikes ":b" "[b]")).rules.contains key := by
    intro key
    simp [Registry.ofGrammar, Grammar.index, lookalikes, Grammar.entries,
      Std.TreeMap.contains_insert]
  exact ⟨by decide +kernel, hkeys,
    (resolve_eq_replaced (lookalikes ":b" "[b]") "" ":a:#bc").2.2 _ " " hkeys⟩

end AbnfPatterns.Template
