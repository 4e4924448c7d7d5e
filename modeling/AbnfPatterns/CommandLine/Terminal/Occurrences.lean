import AbnfPatterns.CommandLine.Terminal.Word

/-!
# Occurrences of parameters

An option that needs a value takes the next operand.  That value counts only once something else is
read without a fault, so a fault in the very next word comes before a bad value.
-/

namespace AbnfPatterns.CommandLine.Terminal

/-- An argument, or a fault behind which no word is read. -/
inductive Occurrence where
  | argument (a : Argument)
  | fault (error : UsageError)
  deriving DecidableEq, Repr

/-- An option that is still open: it waits for its value, or has just got it. -/
abbrev OpenSetting := Setting × Option String

/-- The occurrence that closes an open option. -/
def close : Option OpenSetting → List Occurrence
  | none => []
  | some (s, none) => [.fault (.missingValue s)]
  | some (s, some value) => [.argument (.setting s value)]

/-- The operands after the separator. -/
def operands (held : Option OpenSetting) (templateSeen : Bool) : List String → List Occurrence
  | [] => close held
  | word :: rest =>
    if templateSeen then [.fault (.unexpectedArgument word)]
    else close held ++ .argument (.template word) ::
      match rest with
      | [] => []
      | second :: _ => [.fault (.unexpectedArgument second)]

/-- The occurrences in the words of a command line, from an open option on. -/
def occurrencesFrom (held : Option OpenSetting) (templateSeen : Bool) :
    List String → List Occurrence
  | [] => close held
  | word :: rest =>
    match Word.ofString word with
    | .separator => operands held templateSeen rest
    | .options reading =>
      let found := reading.found.map Occurrence.argument
      match reading.fault with
      | some e => (if found.isEmpty then [] else close held) ++ found ++ [.fault e]
      | none =>
        close held ++ found
          ++ occurrencesFrom (reading.awaiting.map fun s => (s, none)) templateSeen rest
    | .operand text =>
      match held with
      | some (s, none) => occurrencesFrom (some (s, some text)) templateSeen rest
      | _ =>
        if templateSeen then [.fault (.unexpectedArgument text)]
        else close held ++ .argument (.template text) :: occurrencesFrom none true rest

/-- **What stands on a command line**, in order, up to the first fault. -/
def occurrences (words : List String) : List Occurrence :=
  occurrencesFrom none false words

end AbnfPatterns.CommandLine.Terminal
