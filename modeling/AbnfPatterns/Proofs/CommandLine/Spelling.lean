import AbnfPatterns.CommandLine.Parameter

/-!
# Spellings of a command line

An option goes by its long name or, in a cluster with others, by its letter; a value stands in the
next word, behind an equals sign, or right behind the letter.
-/

namespace AbnfPatterns.CommandLine

/-- A text that stands for itself, at any place where a value is looked for. -/
def IsValue (text : String) : Prop :=
  text ≠ "" ∧ text.toList.head? ≠ some '-'

instance (text : String) : Decidable (IsValue text) :=
  inferInstanceAs (Decidable (text ≠ "" ∧ text.toList.head? ≠ some '-'))

/-- The letters of some options in a cluster. -/
def letters (ss : List Switch) : String :=
  String.ofList (ss.map Switch.short)

/-- **A word of options**: the arguments that it gives in full, and the option at its end whose
value is the next word. -/
inductive SpellsOptions : String → List Argument → Option Setting → Prop where
  | longSwitch (s : Switch) : SpellsOptions ("--" ++ s.long) [.switch s] none
  | longSetting (s : Setting) : SpellsOptions ("--" ++ s.long) [] (some s)
  | longValue (s : Setting) (value : String) (hvalue : IsValue value) :
    SpellsOptions ("--" ++ s.long ++ "=" ++ value) [.setting s value] none
  | cluster (ss : List Switch) (h : ss ≠ []) :
    SpellsOptions ("-" ++ letters ss) (ss.map .switch) none
  | clusterSetting (ss : List Switch) (s : Setting) :
    SpellsOptions ("-" ++ letters ss ++ String.singleton s.short) (ss.map .switch) (some s)
  /-- An equals sign right behind the letter would not count as part of the value. -/
  | clusterValue (ss : List Switch) (s : Setting) (value : String) (hvalue : IsValue value)
    (hequals : value.toList.head? ≠ some '=') :
    SpellsOptions ("-" ++ letters ss ++ String.singleton s.short ++ value)
      (ss.map .switch ++ [.setting s value]) none
  | clusterEquals (ss : List Switch) (s : Setting) (value : String) (hvalue : IsValue value) :
    SpellsOptions ("-" ++ letters ss ++ String.singleton s.short ++ "=" ++ value)
      (ss.map .switch ++ [.setting s value]) none

/-- **The command lines for a list of arguments.** -/
inductive Spells : List String → List Argument → Prop where
  | nil : Spells [] []
  | options {word : String} {found : List Argument} {words : List String} {given : List Argument}
    (hword : SpellsOptions word found none) (hwords : Spells words given) :
    Spells (word :: words) (found ++ given)
  | detached {word value : String} {found : List Argument} {s : Setting} {words : List String}
    {given : List Argument} (hword : SpellsOptions word found (some s)) (hvalue : IsValue value)
    (hwords : Spells words given) :
    Spells (word :: value :: words) (found ++ .setting s value :: given)
  | template {text : String} {words : List String} {given : List Argument}
    (htext : IsValue text) (hwords : Spells words given) :
    Spells (text :: words) (.template text :: given)
  | separator : Spells ["--"] []
  | separated (text : String) (hne : text ≠ "") : Spells ["--", text] [.template text]

end AbnfPatterns.CommandLine
