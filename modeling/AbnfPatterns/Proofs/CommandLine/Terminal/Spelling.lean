import AbnfPatterns.CommandLine.Terminal.Occurrences
import AbnfPatterns.Proofs.CommandLine.Arrangement
import AbnfPatterns.Proofs.CommandLine.Spelling

/-!
# Spellings at a terminal

However arguments are spelled, the words are read as the arguments in their order.
-/

namespace AbnfPatterns.CommandLine

namespace Terminal

/-! ### Words -/

theorem ofLong?_setting (s : Setting) : ofLong? s.long = some (.setting s) := by
  cases s <;> decide

theorem ofShort?_switch (s : Switch) : ofShort? s.short = some (.switch s) := by
  cases s <;> decide

theorem ofShort?_setting (s : Setting) : ofShort? s.short = some (.setting s) := by
  cases s <;> decide

theorem splitValue_append {text value : List Char} (h : '=' ∉ text) :
    Word.splitValue (text ++ '=' :: value) = (String.ofList text, some (String.ofList value)) := by
  have hchars : ∀ c ∈ text, (c != '=') = true := by
    intro c hc
    rw [bne_iff_ne]
    rintro rfl
    exact h hc
  rw [Word.splitValue, List.dropWhile_append_of_pos hchars, List.takeWhile_append_of_pos hchars]
  simp

theorem ofString_longValue (s : Setting) (value : String) :
    Word.ofString ("--" ++ s.long ++ "=" ++ value)
      = .options (OptionWord.ofLong s.long (some value)) := by
  have hlong : '=' ∉ s.long.toList := by
    cases s <;> decide
  have hword : ("--" ++ s.long ++ "=" ++ value).toList
      = '-' :: '-' :: (s.long.toList ++ '=' :: value.toList) := by
    simp
  rw [Word.ofString, hword]
  simp [splitValue_append hlong]

/-- The letters of switches are read one by one, whatever comes behind them. -/
theorem ofCluster_switches (ss : List Switch) (tail : List Char) :
    OptionWord.ofCluster (ss.map Switch.short ++ tail)
      = { OptionWord.ofCluster tail with
          found := ss.map .switch ++ (OptionWord.ofCluster tail).found } := by
  induction ss with
  | nil => rfl
  | cons s ss ih =>
    simp only [List.map_cons, List.cons_append, OptionWord.ofCluster, ofShort?_switch, ih]

theorem ofString_cluster {word : String} (ss : List Switch) (tail : List Char)
    (hword : word.toList = '-' :: (ss.map Switch.short ++ tail))
    (hne : ss.map Switch.short ++ tail ≠ []) (htail : tail.head? ≠ some '-') :
    Word.ofString word = .options
      { OptionWord.ofCluster tail with
        found := ss.map .switch ++ (OptionWord.ofCluster tail).found } := by
  rw [← ofCluster_switches, Word.ofString, hword]
  match ss, tail with
  | [], [] => exact absurd rfl hne
  | [], letter :: rest =>
    have hletter : letter ≠ '-' := by
      rintro rfl
      exact htail rfl
    simp [hletter]
  | s :: ss, tail =>
    have hletter : s.short ≠ '-' := by
      cases s <;> decide
    simp [hletter]

theorem head?_short (s : Setting) (rest : List Char) : (s.short :: rest).head? ≠ some '-' := by
  cases s <;> simp [Setting.short]

theorem ofCluster_setting (s : Setting) {rest : List Char} (hrest : rest ≠ []) :
    OptionWord.ofCluster (s.short :: rest)
      = { found := [.setting s (OptionWord.attachedValue rest)] } := by
  simp [OptionWord.ofCluster, ofShort?_setting, hrest]

end Terminal

open Terminal

/-- **A word of options is read as what it spells.** -/
theorem SpellsOptions.ofString_eq {word : String} {found : List Argument}
    {awaiting : Option Setting} (h : SpellsOptions word found awaiting) :
    Word.ofString word = .options { found, awaiting } := by
  cases h with
  | longSwitch s => cases s <;> decide
  | longSetting s => cases s <;> decide
  | longValue s value => simp [ofString_longValue, OptionWord.ofLong, ofLong?_setting]
  | cluster ss h =>
    rw [ofString_cluster ss [] (by simp [letters]) (by simpa using h) (by simp)]
    simp [OptionWord.ofCluster]
  | clusterSetting ss s =>
    rw [ofString_cluster ss [s.short] (by simp [letters]) (by simp)
      (head?_short s [])]
    simp [OptionWord.ofCluster, ofShort?_setting]
  | clusterValue ss s value hvalue hequals =>
    have hattached : OptionWord.attachedValue value.toList = value := by
      unfold OptionWord.attachedValue
      split
      · rename_i rest hrest
        exact absurd (by rw [hrest]; rfl) hequals
      · exact String.ofList_toList
    rw [ofString_cluster ss (s.short :: value.toList) (by simp [letters]) (by simp)
      (head?_short s _), ofCluster_setting s (by simpa using hvalue.1), hattached]
  | clusterEquals ss s value =>
    rw [ofString_cluster ss (s.short :: '=' :: value.toList) (by simp [letters])
      (by simp) (head?_short s _), ofCluster_setting s (by simp)]
    simp [OptionWord.attachedValue]

theorem IsValue.ofString_eq {word : String} (h : IsValue word) :
    Word.ofString word = .operand word := by
  unfold Word.ofString
  split <;> simp_all [IsValue]

/-! ### Command lines -/

theorem SpellsOptions.template?_eq_none {word : String} {found : List Argument}
    {awaiting : Option Setting} (h : SpellsOptions word found awaiting) :
    found.filterMap Argument.template? = [] := by
  cases h <;> simp

/-- From a closed option on, the words of a command line are read as what they spell, as long as
there is room for its template.  The induction is on the spelling, for any option that is held: its
occurrence comes out in front of all that follows. -/
theorem Spells.occurrencesFrom_eq {words : List String} {given : List Argument}
    (h : Spells words given) {held : Option OpenSetting} {templateSeen : Bool}
    (hheld : ∀ s, held ≠ some (s, none))
    (hroom : templateSeen.toNat + (given.filterMap Argument.template?).length ≤ 1) :
    occurrencesFrom held templateSeen words = close held ++ given.map .argument := by
  induction h generalizing held templateSeen with
  | nil => rw [occurrencesFrom, List.map_nil, List.append_nil]
  | @options word found words given hword hwords ih =>
    rw [List.filterMap_append, hword.template?_eq_none, List.nil_append] at hroom
    have hrest : occurrencesFrom none templateSeen words = given.map .argument := ih (by simp) hroom
    simp only [occurrencesFrom, hword.ofString_eq, Option.map_none, hrest, List.map_append,
      List.append_assoc]
  | @detached word value found s words given hword hvalue hwords ih =>
    rw [List.filterMap_append, hword.template?_eq_none, List.nil_append] at hroom
    -- the option is held open until its value is read in the next word
    have hrest : occurrencesFrom (some (s, some value)) templateSeen words
        = .argument (.setting s value) :: given.map .argument := ih (by simp) hroom
    simp only [occurrencesFrom, hword.ofString_eq, hvalue.ofString_eq, Option.map_some, hrest,
      List.map_append, List.map_cons, List.append_assoc]
  | @template text words given htext hwords ih =>
    simp only [List.filterMap_cons, Argument.template?, List.length_cons] at hroom
    obtain rfl : templateSeen = false := by
      cases templateSeen
      · rfl
      · rw [Bool.toNat_true] at hroom
        omega
    have hrest : occurrencesFrom none true words = given.map .argument :=
      ih (by simp) (by rw [Bool.toNat_true]; omega)
    match held with
    | none => simp [occurrencesFrom, htext.ofString_eq, hrest, close]
    | some (s, none) => exact absurd rfl (hheld s)
    | some (s, some value) => simp [occurrencesFrom, htext.ofString_eq, hrest, close]
  | separator =>
    have hword : Word.ofString "--" = .separator := by decide
    simp only [occurrencesFrom, hword, operands, List.map_nil, List.append_nil]
  | separated text hne =>
    obtain rfl : templateSeen = false := by
      cases templateSeen
      · rfl
      · simp [Argument.template?] at hroom
    have hword : Word.ofString "--" = .separator := by decide
    simp [occurrencesFrom, hword, operands]

/-- **A command line is read as the arguments that it spells**, if there is at most one template
among them. -/
theorem Spells.occurrences_eq {words : List String} {given : List Argument}
    (h : Spells words given) (hone : (given.filterMap Argument.template?).length ≤ 1) :
    occurrences words = given.map .argument :=
  h.occurrencesFrom_eq (by simp) (by simpa using hone)

end AbnfPatterns.CommandLine
