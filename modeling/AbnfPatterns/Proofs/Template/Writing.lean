import AbnfPatterns.Proofs.Composer.Additions
import AbnfPatterns.Proofs.Registry.LongestName
import Mathlib.Data.List.Chain

/-!
# Writing templates

Literals and references can be given to a composer one by one, or written down as one template.
Both ways lead to the same pattern, as long as the template can be read in one way only.
-/

namespace AbnfPatterns.Template

/-- A **part** of a pattern: a text, or the name of a rule, possibly with one comma-separated
repeat. -/
inductive Part where
  | literal (text : String)
  | reference (repeated : Bool) (name : String)
  deriving DecidableEq, Repr

namespace Part

/-- The part as a piece that is added by itself. -/
def addition : Part → Addition
  | literal text => .literal text
  | reference false name => .reference name
  | reference true name => .commaReference name

/-- How the part is written in a template. -/
def source : Part → List Char
  | literal text => text.toList
  | reference repeated name => ':' :: (mark repeated ++ name.toList)

/-- The segments that the part is scanned as. -/
def segments : Part → List Segment
  | literal text => text.toList.map .literal
  | reference repeated name => [.reference repeated name.toList]

/-- **The parts that can stand in a template**: texts without colons, and names that are made of
name characters and stand for a rule. -/
def Fits (reg : Registry) : Part → Prop
  | literal text => ':' ∉ text.toList
  | reference _ name =>
    name ≠ "" ∧ (∀ c ∈ name.toList, RuleName.isNameChar c = true)
      ∧ (reg.lookup name).isOk = true

instance (reg : Registry) : (p : Part) → Decidable (p.Fits reg)
  | literal text => inferInstanceAs (Decidable (':' ∉ text.toList))
  | reference _ name =>
    -- goes through the name, not through all characters
    have : Decidable (∀ c ∈ name.toList, RuleName.isNameChar c = true) := List.decidableBAll _ _
    inferInstanceAs (Decidable (name ≠ "" ∧
      (∀ c ∈ name.toList, RuleName.isNameChar c = true) ∧ (reg.lookup name).isOk = true))

/-- Whether the second part, right behind the first, would be read as more of its name. -/
def runsInto : Part → Part → Bool
  | reference _ _, literal text => text.toList.head?.any RuleName.isNameChar
  | _, _ => false

end Part

/-- **The template that is made of some parts.** -/
def written (parts : List Part) : String :=
  String.ofList (parts.flatMap Part.source)

/-- The parts that leave a trace in a template. -/
def nonempty (parts : List Part) : List Part :=
  parts.filter (· ≠ .literal "")

variable {reg : Registry} {parts : List Part} {p : Part}

/-! ### Scanning a written template -/

section Scan

variable {named : List Char → Option Nat} {text name rest : List Char} {repeated : Bool}

/-- A run of name characters ends where the name ends. -/
theorem takeWhile_name (hname : ∀ c ∈ name, RuleName.isNameChar c = true)
    (hrest : ∀ c ∈ rest.head?, RuleName.isNameChar c = false) :
    (name ++ rest).takeWhile RuleName.isNameChar = name := by
  rw [List.takeWhile_append_of_pos hname]
  cases rest with
  | nil => simp
  | cons c rest => rw [List.takeWhile_cons_of_neg (by simp [hrest c rfl]), List.append_nil]

theorem splitMark_mark (hname : name ≠ []) (hchars : ∀ c ∈ name, RuleName.isNameChar c = true) :
    splitMark (mark repeated ++ (name ++ rest)) = (repeated, name ++ rest) := by
  cases repeated with
  | true => rfl
  | false =>
    obtain ⟨c, tail, rfl⟩ := List.exists_cons_of_ne_nil hname
    have hc : c ≠ '#' := by
      rintro rfl
      exact absurd (hchars '#' List.mem_cons_self) (by decide)
    simp only [mark, splitMark, Bool.false_eq_true, if_false, List.nil_append, List.cons_append]
    split
    · rename_i heq
      exact absurd (List.cons.inj heq).1 hc
    · rfl

theorem scan_literal (h : ':' ∉ text) :
    scan named (text ++ rest) = text.map .literal ++ scan named rest := by
  induction text with
  | nil => rfl
  | cons c text ih =>
    rw [List.mem_cons, not_or] at h
    rw [List.cons_append, scan, if_neg (Ne.symm h.1), ih h.2, List.map_cons, List.cons_append]

theorem scan_reference (hname : name ≠ [])
    (hchars : ∀ c ∈ name, RuleName.isNameChar c = true)
    (hrest : ∀ c ∈ rest.head?, RuleName.isNameChar c = false)
    (hnamed : named name = some name.length) :
    scan named (':' :: (mark repeated ++ name) ++ rest)
      = .reference repeated name :: scan named rest := by
  rw [List.cons_append, List.append_assoc, scan, if_pos rfl]
  simp only [splitMark_mark hname hchars, takeWhile_name hchars hrest, hnamed, List.take_length,
    List.drop_left]

end Scan

/-- A name that stands for a rule is the longest name at its own start. -/
theorem nameLength_eq {name : List Char} {rule : Rule} (hname : name ≠ [])
    (h : reg.get? (String.ofList name) = some rule) : nameLength reg name = some name.length := by
  have hknown : reg.knows name = true := by
    rw [← Registry.get?_isSome, h]
    rfl
  have hlongest : IsLongestName reg.knows name name :=
    ⟨List.prefix_rfl, hname, hknown, fun other hother _ _ => hother.length_le⟩
  rw [nameLength, Registry.longestPrefix_length, longestName?_eq_some_iff.2 hlongest,
    Option.map_some]

theorem Part.exists_rule {repeated : Bool} {name : String}
    (h : (reference repeated name).Fits reg) : ∃ rule, reg.get? name = some rule := by
  obtain ⟨-, -, hok⟩ := h
  cases hlookup : reg.lookup name with
  | error e =>
    rw [hlookup] at hok
    cases hok
  | ok rule => exact ⟨rule, Registry.get?_of_lookup hlookup⟩

/-- What follows a part does not go on with name characters, unless the part runs into it. -/
theorem head?_source_of_runsInto_eq_false {repeated : Bool} {name : String}
    (hne : ∀ q ∈ parts, q ≠ .literal "")
    (h : ∀ q ∈ parts.head?, (Part.reference repeated name).runsInto q = false) :
    ∀ c ∈ (parts.flatMap Part.source).head?, RuleName.isNameChar c = false := by
  cases parts with
  | nil => simp
  | cons q rest =>
    have hq := h q rfl
    cases q with
    | reference repeated' name' =>
      intro c hc
      obtain rfl : ':' = c := by simpa [Part.source] using hc
      decide
    | literal text =>
      have htext : text.toList ≠ [] := by
        have := hne (.literal text) List.mem_cons_self
        simpa using this
      intro c hc
      rw [List.flatMap_cons, Part.source, List.head?_append_of_ne_nil _ htext] at hc
      rw [Part.runsInto, Option.mem_def.1 hc] at hq
      exact hq

/-- **A written template is scanned part by part.**  The induction runs over the parts; what comes
behind a name starts with no name character. -/
theorem scan_written (hfits : ∀ p ∈ parts, p.Fits reg) (hne : ∀ p ∈ parts, p ≠ .literal "")
    (hborders : parts.IsChain fun p q => p.runsInto q = false) :
    scan (nameLength reg) (parts.flatMap Part.source) = parts.flatMap Part.segments := by
  induction parts with
  | nil => simp [scan]
  | cons p rest ih =>
    rw [List.isChain_cons] at hborders
    have hrest := ih (fun q hq => hfits q (List.mem_cons_of_mem p hq))
      (fun q hq => hne q (List.mem_cons_of_mem p hq)) hborders.2
    have hp := hfits p List.mem_cons_self
    rw [List.flatMap_cons, List.flatMap_cons]
    cases p with
    | literal text => rw [Part.source, scan_literal hp, hrest, Part.segments]
    | reference repeated name =>
      obtain ⟨rule, hrule⟩ := Part.exists_rule hp
      have hname : name.toList ≠ [] := by simpa using hp.1
      have hlength : nameLength reg name.toList = some name.toList.length :=
        nameLength_eq hname (by rwa [String.ofList_toList])
      have hhead := head?_source_of_runsInto_eq_false
        (fun q hq => hne q (List.mem_cons_of_mem _ hq)) hborders.1
      rw [Part.source, scan_reference hname hp.2.1 hhead hlength, hrest, Part.segments,
        List.singleton_append]

/-! ### Resolving a written template -/

theorem Part.Fits.canAdd (h : p.Fits reg) : reg.CanAdd p.addition := by
  cases p with
  | literal text => exact ⟨_, rfl⟩
  | reference repeated name =>
    obtain ⟨rule, hrule⟩ := Part.exists_rule h
    cases repeated with
    | false => exact ⟨_, Registry.expand_reference hrule⟩
    | true => exact ⟨_, Registry.expand_commaReference hrule⟩

/-- The segments of a part stand for what the part adds. -/
theorem join_expand_segments (h : p.Fits reg) :
    String.join (p.segments.map (expand reg optionalWhitespace))
      = (reg.expansion p.addition).text := by
  cases p with
  | literal text =>
    rw [← String.toList_inj, String.toList_join, Part.segments, Part.addition]
    simp [Registry.expansion, Registry.expand, expand, List.flatMap_map]
  | reference repeated name =>
    obtain ⟨rule, hrule⟩ := Part.exists_rule h
    simp only [Part.segments, List.map_singleton, String.join_cons, String.join_nil,
      String.append_empty, expand, String.ofList_toList, hrule]
    cases repeated with
    | false => simp [Registry.expansion, Part.addition, Registry.expand_reference hrule]
    | true => simp [Registry.expansion, Part.addition, Registry.expand_commaReference hrule]

/-- Empty literals add nothing to a list that is made of what the parts yield. -/
theorem flatMap_nonempty {α : Type} (f : Part → List α) (h : f (.literal "") = []) :
    (nonempty parts).flatMap f = parts.flatMap f := by
  induction parts with
  | nil => rfl
  | cons p rest ih =>
    rw [nonempty] at ih
    by_cases hp : p = .literal ""
    · rw [nonempty, List.filter_cons_of_neg (by simp [hp]), ih, List.flatMap_cons, hp, h,
        List.nil_append]
    · rw [nonempty, List.filter_cons_of_pos (by simpa using hp), List.flatMap_cons, ih,
        List.flatMap_cons]

theorem join_expand_flatMap (hfits : ∀ p ∈ parts, p.Fits reg) :
    String.join ((parts.flatMap Part.segments).map (expand reg optionalWhitespace))
      = String.join (parts.map fun p => (reg.expansion p.addition).text) := by
  induction parts with
  | nil => rfl
  | cons p rest ih =>
    rw [List.flatMap_cons, List.map_append, String.join_append,
      join_expand_segments (hfits p List.mem_cons_self),
      ih fun q hq => hfits q (List.mem_cons_of_mem p hq), List.map_cons, String.join_cons]

/-- A written template stands for what its parts stand for, one behind the other. -/
theorem resolve_written (hfits : ∀ p ∈ parts, p.Fits reg)
    (hborders : (nonempty parts).IsChain fun p q => p.runsInto q = false) :
    resolve reg optionalWhitespace (written parts)
      = String.join (parts.map fun p => (reg.expansion p.addition).text) := by
  have hmem : ∀ p ∈ nonempty parts, p ∈ parts ∧ p ≠ .literal "" := fun p hp => by
    simpa [nonempty] using hp
  have hscan : segments reg (written parts) = (nonempty parts).flatMap Part.segments := by
    rw [segments, written, String.toList_ofList, ← flatMap_nonempty Part.source rfl]
    exact scan_written (fun p hp => hfits p (hmem p hp).1) (fun p hp => (hmem p hp).2) hborders
  rw [resolve, hscan, flatMap_nonempty Part.segments rfl, join_expand_flatMap hfits]

/-- Names and markers hold no blanks, so only those of literals could be dropped. -/
theorem collapseBlanks_written (hfits : ∀ p ∈ parts, p.Fits reg)
    (hblanks : ∀ text, .literal text ∈ parts → ∀ c ∈ text.toList, isAsciiBlank c = false) :
    collapseBlanks (written parts) = written parts := by
  have hchar : ∀ c ∈ (written parts).toList, isAsciiBlank c = false := by
    intro c hc
    rw [written, String.toList_ofList, List.mem_flatMap] at hc
    obtain ⟨p, hp, hc⟩ := hc
    cases p with
    | literal text => exact hblanks text hp c hc
    | reference repeated name =>
      have hname := (hfits _ hp).2.1
      rcases List.mem_cons.1 hc with rfl | hc
      · decide
      · rcases List.mem_append.1 hc with hc | hc
        · cases repeated with
          | false => simp [mark] at hc
          | true =>
            obtain rfl : c = '#' := by simpa [mark] using hc
            decide
        · exact isAsciiBlank_of_isNameChar (hname c hc)
  have hkeep : (written parts).toList.filter (fun c => !isAsciiBlank c) = (written parts).toList :=
    List.filter_eq_self.2 fun c hc => by rw [hchar c hc]; rfl
  rw [collapseBlanks, hkeep, String.ofList_toList]

/-- **A written template adds what its parts add.**  For every composer, whatever its pattern is so
far, and all parts that fit: if no literal goes on with name characters right behind a reference,
where empty literals do not count, then the parts can be added one by one, and the template that is
made of them leaves the composer that they leave.  If no literal holds an ASCII blank, this is so
even if the template is collapsed. -/
theorem addAll_eq_add_written (c : Composer) (parts : List Part)
    (hfits : ∀ p ∈ parts, p.Fits c.registry)
    (hborders : (nonempty parts).IsChain fun p q => p.runsInto q = false) :
    ∃ c' events, c.addAll (parts.map Part.addition) = .ok (c', events) ∧
      (∃ expansion, c.add (.template (written parts) false) = .ok (c', expansion)) ∧
      ((∀ text, .literal text ∈ parts → ∀ ch ∈ text.toList, isAsciiBlank ch = false) →
        ∃ expansion, c.add (.template (written parts) true) = .ok (c', expansion)) := by
  have hcan : ∀ a ∈ parts.map Part.addition, c.registry.CanAdd a := by
    intro a ha
    obtain ⟨p, hp, rfl⟩ := List.mem_map.1 ha
    exact (hfits p hp).canAdd
  have hall := Composer.addAll_eq_ok hcan
  rw [List.map_map, Function.comp_def, ← resolve_written hfits hborders] at hall
  refine ⟨_, _, hall, c.exists_add_template (written parts) false, fun hblanks => ?_⟩
  have hcollapsed := c.exists_add_template (written parts) true
  rwa [if_pos rfl, collapseBlanks_written hfits hblanks] at hcollapsed

/-- A name that a longer name goes on from, and an empty literal in front of text. -/
def returnThenBits : List Part :=
  [.literal "a#", .reference false "Cr", .literal "", .literal "+LF", .reference true "bit"]

/-- The template does not read the name of the carriage return as that of a line end. -/
theorem returnThenBits_added :
    written returnThenBits = "a#:Cr+LF:#bit" ∧
      (∀ p ∈ returnThenBits, p.Fits (Composer.ofGrammar Standard.coreGrammar).registry) ∧
      (nonempty returnThenBits).IsChain (fun p q => p.runsInto q = false) ∧
      ∃ c' events, (Composer.ofGrammar Standard.coreGrammar).addAll
          [.literal "a#", .reference "Cr", .literal "", .literal "+LF", .commaReference "bit"]
            = .ok (c', events) ∧
        c'.pattern = "a#\\x0D+LF[01](?:[\\x20\\x09]*,[\\x20\\x09]*[01])" ∧
        ∃ expansion, (Composer.ofGrammar Standard.coreGrammar).add
          (.template "a#:Cr+LF:#bit" true) = .ok (c', expansion) := by
  have hfits : ∀ p ∈ returnThenBits,
      p.Fits (Composer.ofGrammar Standard.coreGrammar).registry := by decide +kernel
  have hborders : (nonempty returnThenBits).IsChain fun p q => p.runsInto q = false := by
    decide +kernel
  obtain ⟨c', events, hall, -, htemplate⟩ := addAll_eq_add_written _ _ hfits hborders
  have hblanks : ∀ text, .literal text ∈ returnThenBits →
      ∀ c ∈ text.toList, isAsciiBlank c = false := by
    simp [returnThenBits, isAsciiBlank]
  refine ⟨by decide +kernel, hfits, hborders, c', events, hall, ?_, htemplate hblanks⟩
  have hpattern : (((Composer.ofGrammar Standard.coreGrammar).addAll
      (returnThenBits.map Part.addition)).toOption.map fun result => result.1.pattern)
        = some "a#\\x0D+LF[01](?:[\\x20\\x09]*,[\\x20\\x09]*[01])" := by
    decide +kernel
  rw [hall] at hpattern
  exact Option.some.inj hpattern

end AbnfPatterns.Template
