import AbnfPatterns.Composer
import AbnfPatterns.Proofs.Rule.Spelling
import AbnfPatterns.Proofs.Template.Replacement

/-!
# Spelling in templates

It makes no difference how a name in a template is spelled.
-/

namespace AbnfPatterns

variable {name other : String}

theorem Registry.get?_of_key_eq (reg : Registry) (h : RuleName.key name = RuleName.key other) :
    reg.get? name = reg.get? other := by
  rw [get?, get?, h]

theorem Registry.lookup_of_key_eq (reg : Registry) (h : RuleName.key name = RuleName.key other) :
    reg.lookup name = reg.lookup other := by
  rw [lookup, lookup, reg.get?_of_key_eq h, h]

namespace Template

open RuleName (keyChar isNameChar isNameChar_keyChar)

/-! ### Scanning keys -/

/-- The segment with its characters replaced by their keys. -/
def Segment.key : Segment → Segment
  | literal c => literal (keyChar c)
  | reference repeated name => reference repeated (name.map keyChar)
  | unresolved repeated run => unresolved repeated (run.map keyChar)

theorem keyChar_colon : keyChar ':' = ':' := by
  decide

theorem map_keyChar_mark (repeated : Bool) : (mark repeated).map keyChar = mark repeated := by
  cases repeated <;> decide

theorem Segment.source_key (s : Segment) : s.key.source = s.source.map keyChar := by
  cases s <;> simp [key, source, map_keyChar_mark, keyChar_colon]

theorem splitMark_map_keyChar (text : List Char) :
    splitMark (text.map keyChar) = ((splitMark text).1, (splitMark text).2.map keyChar) := by
  cases text with
  | nil => rfl
  | cons c rest =>
    have hc : keyChar c = '#' ↔ c = '#' :=
      RuleName.keyChar_eq_iff_of_not_nameChar (by decide)
    by_cases h : c = '#'
    · rw [h]
      rfl
    · simp [splitMark, h, hc]

theorem takeWhile_map_keyChar (text : List Char) :
    (text.map keyChar).takeWhile isNameChar = (text.takeWhile isNameChar).map keyChar := by
  rw [List.takeWhile_map]
  simp [Function.comp_def, isNameChar_keyChar]

theorem dropWhile_map_keyChar (text : List Char) :
    (text.map keyChar).dropWhile isNameChar = (text.dropWhile isNameChar).map keyChar := by
  rw [List.dropWhile_map]
  simp [Function.comp_def, isNameChar_keyChar]

/-- **The scan sees no spelling**: it cuts the keys of the characters where it cuts the
characters. -/
theorem scan_map_keyChar {named : List Char → Option Nat}
    (hnamed : ∀ run, named (run.map keyChar) = named run) (text : List Char) :
    scan named (text.map keyChar) = (scan named text).map Segment.key := by
  fun_induction scan named text with
  | case1 => simp [scan]
  | case2 rest marked run n hn ih =>
    have hmap : named (((splitMark (rest.map keyChar)).2).takeWhile isNameChar) = some n := by
      rw [splitMark_map_keyChar, takeWhile_map_keyChar, hnamed]
      exact hn
    rw [List.map_cons, keyChar_colon, scan_colon_of_named hmap, splitMark_map_keyChar,
      takeWhile_map_keyChar, ← List.map_take, ← List.map_drop, ih, List.map_cons, Segment.key]
  | case3 rest marked run hn ih =>
    have hmap : named (((splitMark (rest.map keyChar)).2).takeWhile isNameChar) = none := by
      rw [splitMark_map_keyChar, takeWhile_map_keyChar, hnamed]
      exact hn
    rw [List.map_cons, keyChar_colon, scan_colon_of_unnamed hmap, splitMark_map_keyChar,
      takeWhile_map_keyChar, dropWhile_map_keyChar, ih, List.map_cons, Segment.key]
  | case4 c rest hc ih =>
    have hmap : keyChar c ≠ ':' :=
      fun h => hc ((RuleName.keyChar_eq_iff_of_not_nameChar (by decide)).1 h)
    rw [List.map_cons, scan_cons_of_ne hmap, ih, List.map_cons, Segment.key]

/-- Segments that have the same keys and make up the same text are the same. -/
theorem eq_of_map_key_eq {segs segs' : List Segment}
    (hkey : segs.map Segment.key = segs'.map Segment.key)
    (hsource : segs.flatMap Segment.source = segs'.flatMap Segment.source) : segs = segs' := by
  induction segs generalizing segs' with
  | nil =>
    rw [List.map_nil, eq_comm, List.map_eq_nil_iff] at hkey
    exact hkey.symm
  | cons s rest ih =>
    cases segs' with
    | nil => cases hkey
    | cons s' rest' =>
      rw [List.map_cons, List.map_cons, List.cons.injEq] at hkey
      obtain ⟨hs, hrest⟩ := hkey
      rw [List.flatMap_cons, List.flatMap_cons] at hsource
      -- segments with the same keys are equally long, so the text is cut in one way
      have hlen : s.source.length = s'.source.length := by
        have := congrArg (fun s => s.source.length) hs
        simpa only [Segment.source_key, List.length_map] using this
      obtain ⟨hhead, htail⟩ := List.append_inj hsource hlen
      have hss : s = s' := by
        cases s <;> cases s' <;> simp_all [Segment.key, Segment.source]
      rw [hss, ih hrest htail]

theorem longestPrefixUpTo_map_keyChar (reg : Registry) (run : List Char) (limit : Nat) :
    reg.longestPrefixUpTo (run.map keyChar) limit = reg.longestPrefixUpTo run limit := by
  induction limit with
  | zero => rfl
  | succ limit ih =>
    have hkey := RuleName.key_ofList_map_keyChar (run.take (limit + 1))
    rw [Registry.longestPrefixUpTo, Registry.longestPrefixUpTo, ih, ← List.map_take,
      reg.get?_of_key_eq hkey]

theorem nameLength_map_keyChar (reg : Registry) (run : List Char) :
    nameLength reg (run.map keyChar) = nameLength reg run := by
  rw [nameLength, nameLength, Registry.longestPrefix, Registry.longestPrefix, List.length_map,
    longestPrefixUpTo_map_keyChar]

/-! ### Respelled references -/

/-- **Segments that are the same but for the spelling** of a known name. -/
inductive Segment.Respells (known : List Char → Bool) : Segment → Segment → Prop
  | same (s : Segment) : Respells known s s
  | reference (repeated : Bool) {name name' : List Char} (hknown : known name = true)
      (hkey : name.map keyChar = name'.map keyChar) :
      Respells known (.reference repeated name) (.reference repeated name')

variable {known : List Char → Bool} {named : List Char → Option Nat} {text : List Char}

theorem Segment.Respells.key_eq {s s' : Segment} (h : s.Respells known s') : s.key = s'.key := by
  cases h with
  | same => rfl
  | reference repeated hknown hkey => simp only [Segment.key, hkey]

theorem map_key_of_respells {segs segs' : List Segment}
    (h : List.Forall₂ (Segment.Respells known) segs segs') :
    segs.map Segment.key = segs'.map Segment.key := by
  induction h with
  | nil => rfl
  | cons hs _ ih => rw [List.map_cons, List.map_cons, hs.key_eq, ih]

theorem flatMap_source_key (segs : List Segment) :
    (segs.map Segment.key).flatMap Segment.source = (segs.flatMap Segment.source).map keyChar := by
  rw [List.flatMap_map, List.map_flatMap]
  simp only [Segment.source_key]

/-- **A respelled reference is scanned as a reference again**, and the text around it as before. -/
theorem scan_respelled {segs' : List Segment}
    (hnamed : ∀ run n, named run = some n → n ≤ run.length)
    (hkey : ∀ run, named (run.map keyChar) = named run)
    (h : List.Forall₂ (Segment.Respells known) (scan named text) segs') :
    scan named (segs'.flatMap Segment.source) = segs' := by
  have hsegs := map_key_of_respells h
  have htext : (segs'.flatMap Segment.source).map keyChar = text.map keyChar := by
    rw [← flatMap_source_key, ← hsegs, flatMap_source_key, scan_source hnamed]
  apply eq_of_map_key_eq
  · rw [← scan_map_keyChar hkey, htext, scan_map_keyChar hkey, hsegs]
  · exact scan_source hnamed _

/-- The text of a reference with another spelling of its name. -/
def Reference.spelled (spelling : Reference → String) (r : Reference) : List Char :=
  ':' :: (mark r.repeated ++ (spelling r).toList)

/-- **The template with the names in its references spelled otherwise.**  A name that keeps its
spelling is one of its own variants. -/
def respelled (known : List Char → Bool) (spelling : Reference → String) (template : String) :
    String :=
  String.ofList (replaced known (Reference.spelled spelling) template.toList)

/-- A respelled template is made up of respelled segments.  The induction follows the scan, as in
`flatMap_scan`. -/
theorem exists_respelled {place : Nat} {spelling : Reference → String}
    (hnamed : ∀ run, named run = (longestName? known run).map List.length)
    (hspelling : ∀ r : Reference, r.StandsIn known text →
      RuleName.Variants (String.ofList r.name) (spelling r))
    (hclear : Clear known text place) :
    ∃ segs', List.Forall₂ (Segment.Respells known) (scan named (text.drop place)) segs' ∧
      (List.range' place (text.length - place)).flatMap
          (standsFor known (Reference.spelled spelling) text)
        = segs'.flatMap Segment.source := by
  generalize htext : text.drop place = rest
  fun_induction scan named rest generalizing place with
  | case1 =>
    rw [List.drop_eq_nil_iff] at htext
    exact ⟨[], .nil, by simp [Nat.sub_eq_zero_of_le htext]⟩
  | case2 =>
    -- a reference
    rename_i rest marked run n hn ih
    rw [hnamed, Option.map_eq_some_iff] at hn
    obtain ⟨name, hname, rfl⟩ := hn
    have hlongest := longestName?_eq_some_iff.1 hname
    obtain ⟨next, hnext, hrest, hstep⟩ := scanned_of_reference _ hclear htext hname
    obtain ⟨segs', hsegs', hsource⟩ := ih hnext hrest
    have hr : referenceAt known text place = some ⟨place, marked.1, name⟩ := by
      rw [referenceAt_of_drop htext, hname, Option.map_some]
    have hkey := RuleName.key_eq_key_iff.2 (hspelling _ (referenceAt_eq_some_iff.1 hr).2)
    rw [← String.toList_inj, RuleName.toList_key, RuleName.toList_key, String.toList_ofList] at hkey
    rw [← List.prefix_iff_eq_take.1 hlongest.starts]
    refine ⟨_, .cons (.reference marked.1 hlongest.is_known hkey) hsegs', ?_⟩
    rw [hstep, hsource, List.flatMap_cons, Segment.source, Reference.spelled]
  | case3 =>
    -- a colon without a known name behind it
    rename_i rest marked run hn ih
    rw [hnamed, Option.map_eq_none_iff] at hn
    obtain ⟨next, hnext, hrest, hstep⟩ := scanned_of_unresolved _ hclear htext hn
    obtain ⟨segs', hsegs', hsource⟩ := ih hnext hrest
    exact ⟨_, .cons (.same _) hsegs', by rw [hstep, hsource, List.flatMap_cons]⟩
  | case4 c rest hc ih =>
    -- any other character
    obtain ⟨next, hnext, hrest, hstep⟩ := scanned_of_literal _ hclear htext hc
    obtain ⟨segs', hsegs', hsource⟩ := ih hnext hrest
    exact ⟨_, .cons (.same _) hsegs', by rw [hstep, hsource, List.flatMap_cons, Segment.source]⟩

/-! ### Resolving respelled references -/

variable {reg : Registry}

theorem Segment.Respells.expand_eq {s s' : Segment} (whitespace : String)
    (h : s.Respells reg.knows s') : expand reg whitespace s' = expand reg whitespace s := by
  cases h with
  | same => rfl
  | @reference repeated name name' hknown hkey =>
    obtain ⟨rule, hrule⟩ := Option.isSome_iff_exists.1 ((Registry.get?_isSome name).trans hknown)
    have hrule' : reg.get? (String.ofList name') = some rule := by
      rw [← hrule]
      apply reg.get?_of_key_eq
      rw [← RuleName.key_ofList_map_keyChar name', ← hkey, RuleName.key_ofList_map_keyChar]
    simp only [expand, hrule, hrule']

theorem Segment.Respells.report_eq {s s' : Segment} (grammar : String)
    (h : s.Respells known s') : report grammar s' = report grammar s := by
  cases h <;> rfl

theorem map_expand_of_respells {segs segs' : List Segment} (whitespace : String)
    (h : List.Forall₂ (Segment.Respells reg.knows) segs segs') :
    segs'.map (expand reg whitespace) = segs.map (expand reg whitespace) := by
  induction h with
  | nil => rfl
  | cons hs _ ih => rw [List.map_cons, List.map_cons, hs.expand_eq, ih]

theorem filterMap_report_of_respells {segs segs' : List Segment} (grammar : String)
    (h : List.Forall₂ (Segment.Respells known) segs segs') :
    segs'.filterMap (report grammar) = segs.filterMap (report grammar) := by
  induction h with
  | nil => rfl
  | cons hs _ ih => rw [List.filterMap_cons, List.filterMap_cons, hs.report_eq, ih]

/-- The segments of a respelled template are those of the template, respelled. -/
theorem segments_respelled {template : String} {spelling : Reference → String}
    (hspelling : ∀ r : Reference, r.StandsIn reg.knows template.toList →
      RuleName.Variants (String.ofList r.name) (spelling r)) :
    List.Forall₂ (Segment.Respells reg.knows) (segments reg template)
      (segments reg (respelled reg.knows spelling template)) := by
  -- nothing stands before the first place
  have hclear : Clear reg.knows template.toList 0 := fun start _ hstart => by omega
  obtain ⟨segs', hsegs', hsource⟩ :=
    exists_respelled Registry.longestPrefix_length hspelling hclear
  rw [List.drop_zero] at hsegs'
  have hscan := scan_respelled (fun _ _ => length_of_nameLength) (nameLength_map_keyChar reg) hsegs'
  rw [segments, segments, respelled, String.toList_ofList, replaced, List.range_eq_range']
  rw [Nat.sub_zero] at hsource
  rwa [hsource, hscan]

/-- **Spelling has no effect.**

* Names have one key if and only if they differ in spelling only, and a key is its own key.
* For names that differ in spelling only, every grammar and its registry have the same rule or the
  same error, and every composer adds the same text or fails with the same error.
* If the names in the references of a template are spelled otherwise, each in a way of its own or
  not at all, then the template is resolved to the same text, with the same reports. -/
theorem resolve_respelled :
    (∀ name other, RuleName.key name = RuleName.key other ↔ RuleName.Variants name other) ∧
    (∀ name, RuleName.key (RuleName.key name) = RuleName.key name) ∧
    (∀ name other, RuleName.Variants name other →
      (∀ g : Grammar, g.rule? name = g.rule? other ∧
        (Registry.ofGrammar g).get? name = (Registry.ofGrammar g).get? other ∧
        (Registry.ofGrammar g).lookup name = (Registry.ofGrammar g).lookup other ∧
        (Registry.ofGrammar g).contains name = (Registry.ofGrammar g).contains other) ∧
      ∀ c : Composer, c.add (.reference name) = c.add (.reference other) ∧
        c.add (.commaReference name) = c.add (.commaReference other)) ∧
    ∀ (g : Grammar) (whitespace template : String) (spelling : Reference → String),
      (∀ r : Reference, r.StandsIn (Registry.ofGrammar g).knows template.toList →
        RuleName.Variants (String.ofList r.name) (spelling r)) →
      resolve (Registry.ofGrammar g) whitespace
          (respelled (Registry.ofGrammar g).knows spelling template)
        = resolve (Registry.ofGrammar g) whitespace template ∧
      unresolved (Registry.ofGrammar g)
          (respelled (Registry.ofGrammar g).knows spelling template)
        = unresolved (Registry.ofGrammar g) template := by
  refine ⟨fun _ _ => RuleName.key_eq_key_iff, RuleName.key_key, ?_, ?_⟩
  · intro name other hvariants
    have hkey := RuleName.key_eq_key_iff.2 hvariants
    refine ⟨fun g => ?_, fun c => ?_⟩
    · have hget := (Registry.ofGrammar g).get?_of_key_eq hkey
      refine ⟨?_, hget, Registry.lookup_of_key_eq _ hkey, ?_⟩
      · rw [Grammar.rule?, Grammar.rule?, hkey]
      · rw [Registry.contains, Registry.contains, hget]
    · have hlookup := c.registry.lookup_of_key_eq hkey
      simp only [Composer.add, Registry.expand, hlookup, and_self]
  · intro g whitespace template spelling hspelling
    have hsegs := segments_respelled hspelling
    refine ⟨?_, filterMap_report_of_respells _ hsegs⟩
    rw [resolve, resolve, map_expand_of_respells whitespace hsegs]

/-- A rule whose name has a separator in it. -/
def separated : Grammar :=
  .standalone "SEPARATED"
    { entries := [("A_B", { name := "A-B", abnf := "", description := "", fragment := "[x]" })]
      distinct := by simp }

/-- One of two references is respelled; the rest of its run and the token behind are not. -/
theorem resolve_respelled_separated :
    (∀ r : Reference, r.StandsIn (Registry.ofGrammar separated).knows ":a-b_c:#A_B:a-".toList →
      RuleName.Variants (String.ofList r.name)
        (if r.place = 0 then "A_b" else String.ofList r.name)) ∧
    respelled (Registry.ofGrammar separated).knows
        (fun r => if r.place = 0 then "A_b" else String.ofList r.name) ":a-b_c:#A_B:a-"
      = ":A_b_c:#A_B:a-" ∧
    resolve (.ofGrammar separated) "" ":A_b_c:#A_B:a-" = "[x]_c[x](?:,[x]):a-" ∧
    unresolved (.ofGrammar separated) ":A_b_c:#A_B:a-" = [.unresolved ":a-" "SEPARATED"] := by
  have hspelling : ∀ r : Reference,
      r.StandsIn (Registry.ofGrammar separated).knows ":a-b_c:#A_B:a-".toList →
      RuleName.Variants (String.ofList r.name)
        (if r.place = 0 then "A_b" else String.ofList r.name) := by
    have hplaces : ∀ place < 14, ∀ r ∈
        referenceAt (Registry.ofGrammar separated).knows ":a-b_c:#A_B:a-".toList place,
        RuleName.key (String.ofList r.name)
          = RuleName.key (if r.place = 0 then "A_b" else String.ofList r.name) := by
      decide +kernel
    intro r hr
    have hplace : r.place < 14 := (List.getElem?_eq_some_iff.1 hr.colon).1
    exact RuleName.key_eq_key_iff.1
      (hplaces r.place hplace r (referenceAt_eq_some_iff.2 ⟨rfl, hr⟩))
  have hrespelled : respelled (Registry.ofGrammar separated).knows
      (fun r => if r.place = 0 then "A_b" else String.ofList r.name) ":a-b_c:#A_B:a-"
        = ":A_b_c:#A_B:a-" := by
    decide +kernel
  obtain ⟨hresolve, hunresolved⟩ :=
    resolve_respelled.2.2.2 separated "" ":a-b_c:#A_B:a-" _ hspelling
  rw [hrespelled] at hresolve hunresolved
  refine ⟨hspelling, hrespelled, hresolve.trans ?_, hunresolved.trans ?_⟩
  · decide +kernel
  · decide +kernel

end Template

end AbnfPatterns
