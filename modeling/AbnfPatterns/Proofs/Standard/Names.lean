import AbnfPatterns.Composer
import AbnfPatterns.Proofs.Abnf.Language
import Mathlib.Data.List.DropRight
import Mathlib.Data.List.Forall2

/-!
# Names of standards

A text names a standard if it is the name of the standard with blanks around it, its ASCII letters
in either case.
-/

namespace AbnfPatterns

/-! ### Case -/

section Case

open CharSet

variable {c d : Char} {text other : List Char}

/-- A capital letter of ASCII, and the small one. -/
def CapitalOf (capital small : Char) : Prop :=
  ∃ n < 26, capital = Char.ofNat ('A'.toNat + n) ∧ small = Char.ofNat ('a'.toNat + n)

/-- **Characters that differ at most in the case of ASCII letters.** -/
def SameLetter (c d : Char) : Prop :=
  c = d ∨ CapitalOf c d ∨ CapitalOf d c

theorem CapitalOf.toLower_eq (h : CapitalOf c d) : c.toLower = d ∧ d.toLower = d := by
  obtain ⟨n, hn, rfl, rfl⟩ := h
  exact ⟨(toLower_toUpper_letter n hn).2, toLower_lower n hn⟩

/-- A character with another lower case is the capital letter of that. -/
theorem capitalOf_toLower (h : c.toLower ≠ c) : CapitalOf c c.toLower := by
  obtain ⟨n, hn, rfl⟩ := exists_upper h
  exact ⟨n, hn, rfl, (toLower_toUpper_letter n hn).2⟩

theorem CapitalOf.capital_unique {c' : Char} (h : CapitalOf c d) (h' : CapitalOf c' d) :
    c = c' := by
  obtain ⟨n, hn, rfl, rfl⟩ := h
  obtain ⟨m, hm, rfl, hsmall⟩ := h'
  rw [← (toLower_toUpper_letter n hn).1, hsmall, (toLower_toUpper_letter m hm).1]

/-- **Lower case takes away the case of ASCII letters and nothing else.** -/
theorem toLower_eq_toLower_iff : c.toLower = d.toLower ↔ SameLetter c d := by
  constructor
  · intro h
    by_cases hc : c.toLower = c
    · by_cases hd : d.toLower = d
      · exact .inl (hc.symm.trans (h.trans hd))
      · have hcapital : CapitalOf d d.toLower := capitalOf_toLower hd
        rw [← h, hc] at hcapital
        exact .inr (.inr hcapital)
    · have hcapital : CapitalOf c c.toLower := capitalOf_toLower hc
      rw [h] at hcapital
      by_cases hd : d.toLower = d
      · rw [hd] at hcapital
        exact .inr (.inl hcapital)
      · exact .inl (hcapital.capital_unique (capitalOf_toLower hd))
  · rintro (rfl | h | h)
    · rfl
    · exact h.toLower_eq.1.trans h.toLower_eq.2.symm
    · exact h.toLower_eq.2.trans h.toLower_eq.1.symm

/-- Texts with one image under a function have one image place by place. -/
theorem map_eq_map_iff_forall₂ {α : Type} {f : Char → α} :
    text.map f = other.map f ↔ List.Forall₂ (fun c d => f c = f d) text other := by
  rw [← List.forall₂_eq_eq_eq, List.forall₂_map_left_iff, List.forall₂_map_right_iff]

theorem map_toLower_eq_map_toLower_iff :
    text.map Char.toLower = other.map Char.toLower ↔ List.Forall₂ SameLetter text other := by
  simp only [map_eq_map_iff_forall₂, toLower_eq_toLower_iff]

/-- No letter is a blank, so case makes no difference to which characters are. -/
theorem SameLetter.isBlank_eq (h : SameLetter c d) : isBlank c = isBlank d := by
  have hletters : ∀ n < 26, isBlank (Char.ofNat ('A'.toNat + n)) = false
      ∧ isBlank (Char.ofNat ('a'.toNat + n)) = false := by
    decide
  have hcapital : ∀ {c d : Char}, CapitalOf c d → isBlank c = isBlank d := by
    rintro _ _ ⟨n, hn, rfl, rfl⟩
    exact (hletters n hn).1.trans (hletters n hn).2.symm
  obtain rfl | h | h := h
  · rfl
  · exact hcapital h
  · exact (hcapital h).symm

end Case

/-! ### Blanks -/

section Blanks

variable {c : Char} {text before core after : List Char}

/-- Whether a text neither starts nor ends with a blank. -/
def IsBare (text : List Char) : Prop :=
  (∀ c ∈ text.head?, isBlank c = false) ∧ (∀ c ∈ text.getLast?, isBlank c = false)

theorem isBare_of_forall (h : ∀ c ∈ text, isBlank c = false) : IsBare text :=
  ⟨fun c hc => h c (List.mem_of_mem_head? hc), fun c hc => h c (List.mem_of_mem_getLast? hc)⟩

theorem isBlank_of_mem_head?_dropWhile (h : c ∈ (text.dropWhile isBlank).head?) :
    isBlank c = false := by
  obtain ⟨rest, hrest⟩ := List.head?_eq_some_iff.1 h
  have hne : text.dropWhile isBlank ≠ [] := by simp [hrest]
  have hhead : (text.dropWhile isBlank).head hne = c := by simp [hrest]
  rw [← hhead]
  exact List.head_dropWhile_not isBlank hne

theorem dropWhile_isBlank_eq_self (h : ∀ c ∈ text.head?, isBlank c = false) :
    text.dropWhile isBlank = text := by
  cases text with
  | nil => rfl
  | cons c rest =>
    have hc : isBlank c = false := h c rfl
    rw [List.dropWhile_cons_of_neg (by simp [hc])]

theorem exists_eq_append_trimBlanks (text : List Char) :
    ∃ before after, text = before ++ trimBlanks text ++ after ∧
      (∀ c ∈ before, isBlank c = true) ∧ (∀ c ∈ after, isBlank c = true) := by
  refine ⟨text.takeWhile isBlank, (text.dropWhile isBlank).rtakeWhile isBlank, ?_,
    fun _ => List.mem_takeWhile_imp, fun _ => List.mem_rtakeWhile_imp⟩
  calc
    text = text.takeWhile isBlank ++ text.dropWhile isBlank :=
      List.takeWhile_append_dropWhile.symm
    _ = text.takeWhile isBlank ++ ((text.dropWhile isBlank).rdropWhile isBlank
          ++ (text.dropWhile isBlank).rtakeWhile isBlank) := by
      rw [List.rdropWhile_append_rtakeWhile]
    _ = text.takeWhile isBlank ++ trimBlanks text
          ++ (text.dropWhile isBlank).rtakeWhile isBlank :=
      (List.append_assoc _ _ _).symm

theorem isBare_trimBlanks (text : List Char) : IsBare (trimBlanks text) := by
  constructor
  · intro c hc
    -- the blanks at the end have gone from behind the first character
    have hstart : c ∈ (text.dropWhile isBlank).head? := by
      rw [← List.rdropWhile_append_rtakeWhile (p := isBlank) (l := text.dropWhile isBlank)]
      exact List.mem_head?_append_of_mem_head? hc
    exact isBlank_of_mem_head?_dropWhile hstart
  · intro c hc
    rw [trimBlanks, List.getLast?_reverse] at hc
    exact isBlank_of_mem_head?_dropWhile hc

theorem trimBlanks_append (hbefore : ∀ c ∈ before, isBlank c = true)
    (hafter : ∀ c ∈ after, isBlank c = true) (hcore : IsBare core) :
    trimBlanks (before ++ core ++ after) = core := by
  obtain ⟨hhead, hlast⟩ := hcore
  have hafter' : ∀ c ∈ after.reverse, isBlank c = true :=
    fun c hc => hafter c (List.mem_reverse.1 hc)
  rw [trimBlanks, List.append_assoc, List.dropWhile_append_of_pos hbefore]
  cases core with
  | nil =>
    -- nothing but blanks
    rw [List.nil_append, List.dropWhile_eq_nil_iff.2 hafter]
    rfl
  | cons c rest =>
    have hstart : (c :: rest ++ after).dropWhile isBlank = c :: rest ++ after :=
      dropWhile_isBlank_eq_self hhead
    have hend : (c :: rest).reverse.dropWhile isBlank = (c :: rest).reverse := by
      apply dropWhile_isBlank_eq_self
      rw [List.head?_reverse]
      exact hlast
    rw [hstart, List.reverse_append, List.dropWhile_append_of_pos hafter', hend,
      List.reverse_reverse]

/-- **What is left of a text without the blanks at its ends**: the one part of it that is bare and
has nothing but blanks around it. -/
theorem trimBlanks_eq_iff :
    trimBlanks text = core ↔ IsBare core ∧ ∃ before after, text = before ++ core ++ after ∧
      (∀ c ∈ before, isBlank c = true) ∧ (∀ c ∈ after, isBlank c = true) := by
  constructor
  · rintro rfl
    exact ⟨isBare_trimBlanks text, exists_eq_append_trimBlanks text⟩
  · rintro ⟨hcore, before, after, rfl, hbefore, hafter⟩
    exact trimBlanks_append hbefore hafter hcore

end Blanks

/-! ### Names -/

namespace Standard

variable {s s' : Standard} {text : String} {name : List Char}

/-- **A text that names a standard**: the name of the standard, with letters of either case, and
with blanks around it. -/
def NamedBy (s : Standard) (text : String) : Prop :=
  ∃ before name after, text.toList = before ++ name ++ after ∧
    (∀ c ∈ before, isBlank c = true) ∧ (∀ c ∈ after, isBlank c = true) ∧
    List.Forall₂ SameLetter name s.label.toList

theorem mem_all (s : Standard) : s ∈ all := by
  cases s <;> decide

theorem map_toLower_label (s : Standard) :
    s.label.toList.map Char.toLower = s.grammar.name.toList.map Char.toLower := by
  rw [label, String.toList_ofList, List.map_map]
  exact List.map_congr_left fun c _ => CharSet.toLower_toLower c

theorem sameIgnoringCase_iff :
    sameIgnoringCase s.grammar.name.toList name = true
      ↔ List.Forall₂ SameLetter name s.label.toList := by
  rw [sameIgnoringCase, beq_iff_eq, ← map_toLower_eq_map_toLower_iff, map_toLower_label, eq_comm]

theorem isBlank_of_mem_label {c : Char} (s : Standard) (hc : c ∈ s.label.toList) :
    isBlank c = false := by
  have hall : (s.label.toList.all fun c => !isBlank c) = true := by
    cases s <;> decide +kernel
  simpa using List.all_eq_true.1 hall c hc

/-- As there are no blanks in a name, none are lost with those around it. -/
theorem isBare_of_forall₂ (h : List.Forall₂ SameLetter name s.label.toList) : IsBare name := by
  have hblank : name.map isBlank = s.label.toList.map isBlank :=
    map_eq_map_iff_forall₂.2 (h.imp fun _ _ => SameLetter.isBlank_eq)
  apply isBare_of_forall
  intro c hc
  have hmem : isBlank c ∈ s.label.toList.map isBlank := hblank ▸ List.mem_map_of_mem hc
  obtain ⟨d, hd, hsame⟩ := List.mem_map.1 hmem
  rw [← hsame, isBlank_of_mem_label s hd]

/-- Only one cut of a text can be meant: what is left without the blanks at its ends. -/
theorem namedBy_iff :
    s.NamedBy text ↔ List.Forall₂ SameLetter (trimBlanks text.toList) s.label.toList := by
  constructor
  · rintro ⟨before, name, after, htext, hbefore, hafter, hname⟩
    have htrim : trimBlanks text.toList = name :=
      trimBlanks_eq_iff.2 ⟨isBare_of_forall₂ hname, before, after, htext, hbefore, hafter⟩
    rw [htrim]
    exact hname
  · intro hname
    obtain ⟨-, before, after, htext, hbefore, hafter⟩ := trimBlanks_eq_iff.1 rfl
    exact ⟨before, _, after, htext, hbefore, hafter, hname⟩

theorem namedBy_ofList {before after : List Char} (hbefore : ∀ c ∈ before, isBlank c = true)
    (hafter : ∀ c ∈ after, isBlank c = true)
    (hname : List.Forall₂ SameLetter name s.label.toList) :
    s.NamedBy (String.ofList (before ++ name ++ after)) :=
  ⟨before, name, after, String.toList_ofList, hbefore, hafter, hname⟩

theorem eq_of_map_toLower_eq
    (h : s.label.toList.map Char.toLower = s'.label.toList.map Char.toLower) : s = s' := by
  revert h
  cases s <;> cases s' <;> decide +kernel

/-- **A text names one standard at most.** -/
theorem NamedBy.unique (h : s.NamedBy text) (h' : s'.NamedBy text) : s = s' := by
  rw [namedBy_iff, ← map_toLower_eq_map_toLower_iff] at h h'
  exact eq_of_map_toLower_eq (h.symm.trans h')

theorem ofText?_eq_some_iff : ofText? text = some s ↔ s.NamedBy text := by
  have hfound : ∀ {s' : Standard}, ofText? text = some s' → s'.NamedBy text := by
    intro s' h
    rw [ofText?] at h
    have hsame := List.find?_some h
    exact namedBy_iff.2 (sameIgnoringCase_iff.1 hsame)
  constructor
  · exact hfound
  · intro hnamed
    cases h : ofText? text with
    | none =>
      have hnot := List.find?_eq_none.1 h s (mem_all s)
      exact absurd (sameIgnoringCase_iff.2 (namedBy_iff.1 hnamed)) hnot
    | some s' => rw [(hfound h).unique hnamed]

theorem ofText?_eq_none_iff : ofText? text = none ↔ ∀ s : Standard, ¬ s.NamedBy text := by
  rw [Option.eq_none_iff_forall_not_mem]
  exact forall_congr' fun s => not_congr ofText?_eq_some_iff

theorem ofText_eq_ok_iff : ofText text = .ok s ↔ s.NamedBy text := by
  rw [← ofText?_eq_some_iff, ofText]
  cases ofText? text <;> simp

theorem ofText_eq_error_iff {e : LookupError} :
    ofText text = .error e ↔ (∀ s : Standard, ¬ s.NamedBy text) ∧ e = .unknownGrammar text := by
  rw [← ofText?_eq_none_iff, ofText]
  cases ofText? text <;> simp [eq_comm]

end Standard

namespace Composer

variable {text : String} {c : Composer}

/-- There is only one empty composer for a grammar. -/
theorem eq_ofGrammar_iff {g : Grammar} : c = ofGrammar g ↔ c.grammar = g ∧ c.pattern = "" := by
  constructor
  · rintro rfl
    exact ⟨rfl, rfl⟩
  · obtain ⟨reg, pattern⟩ := c
    rintro ⟨rfl, rfl⟩
    rw [ofGrammar, grammar, ← reg.eq_ofGrammar]

theorem ofStandardText_eq_ok_iff :
    ofStandardText text = .ok c ↔
      ∃ s : Standard, s.NamedBy text ∧ c.grammar = s.grammar ∧ c.pattern = "" := by
  simp only [← eq_ofGrammar_iff, ← Standard.ofText_eq_ok_iff]
  rw [ofStandardText]
  cases Standard.ofText text <;> simp [eq_comm]

theorem ofStandardText_eq_error_iff {e : LookupError} :
    ofStandardText text = .error e ↔ Standard.ofText text = .error e := by
  rw [ofStandardText]
  cases Standard.ofText text <;> simp

end Composer

/-- **The standard that is read is the one that the text names.**  A text is read as a standard if
and only if it is the name of it with blanks around, in letters of either case; no text is the name
of two, and one that is no name is quoted in the error as it is.  So the name of a standard is read
back however it is put.  An empty composer for the grammar of the standard is had from the same
texts, and from no others. -/
theorem Standard.ofText_exact :
    (∀ text s, ofText text = .ok s ↔ s.NamedBy text) ∧
      (∀ text (s s' : Standard), s.NamedBy text → s'.NamedBy text → s = s') ∧
      (∀ text e, ofText text = .error e ↔
        (∀ s : Standard, ¬ s.NamedBy text) ∧ e = .unknownGrammar text) ∧
      (∀ (s : Standard) before name after, (∀ c ∈ before, isBlank c = true) →
        (∀ c ∈ after, isBlank c = true) → List.Forall₂ SameLetter name s.label.toList →
          ofText (String.ofList (before ++ name ++ after)) = .ok s) ∧
      (∀ text c, Composer.ofStandardText text = .ok c ↔
        ∃ s : Standard, s.NamedBy text ∧ c.grammar = s.grammar ∧ c.pattern = "") ∧
      (∀ text e, Composer.ofStandardText text = .error e ↔
        (∀ s : Standard, ¬ s.NamedBy text) ∧ e = .unknownGrammar text) := by
  refine ⟨fun _ _ => ofText_eq_ok_iff, fun _ _ _ h h' => h.unique h',
    fun _ _ => ofText_eq_error_iff, ?_, fun _ _ => Composer.ofStandardText_eq_ok_iff, ?_⟩
  · intro s before name after hbefore hafter hname
    exact ofText_eq_ok_iff.2 (namedBy_ofList hbefore hafter hname)
  · intro text e
    rw [Composer.ofStandardText_eq_error_iff, ofText_eq_error_iff]

example : Standard.ofText? "\u00a0RfC9110\t" = some .rfc9110
    ∧ Standard.ofText? "RFC 9110" = none ∧ Standard.ofText? "\u0441ore" = none := by
  decide +kernel

end AbnfPatterns
