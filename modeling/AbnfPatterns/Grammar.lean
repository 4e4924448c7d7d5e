import AbnfPatterns.Rule.Production

/-!
# Grammars

A grammar is a named table of rules, either on its own or on top of a base grammar.  It has every
rule of its base; an entry of its own table hides an entry of the base with the same key.
-/

namespace AbnfPatterns

/-- A **table of rules** under distinct keys, in the order of its list. -/
structure RuleTable where
  entries : List (String × Rule)
  distinct : (entries.map Prod.fst).Nodup := by decide

namespace RuleTable

def find? (t : RuleTable) (key : String) : Option Rule :=
  t.entries.lookup key

def size (t : RuleTable) : Nat :=
  t.entries.length

/-- Productions under the keys of their own names. -/
def ofProductions (productions : List Production)
    (distinct : (productions.map Production.key).Nodup) : RuleTable where
  entries := productions.map fun p => (p.key, p.rule)
  distinct := by simpa [Function.comp_def] using distinct

end RuleTable

/-- A **grammar**: a named table of rules, possibly on top of another grammar. -/
inductive Grammar where
  | standalone (name : String) (table : RuleTable)
  | extending (base : Grammar) (name : String) (table : RuleTable)

namespace Grammar

def name : Grammar → String
  | standalone name _ => name
  | extending _ name _ => name

/-- The rules that the grammar adds to its base. -/
def table : Grammar → RuleTable
  | standalone _ table => table
  | extending _ _ table => table

def base? : Grammar → Option Grammar
  | standalone _ _ => none
  | extending base _ _ => some base

/-- Every entry, those of the base first, each table in its own order.  Hidden entries are still
listed. -/
def entries : Grammar → List (String × Rule)
  | standalone _ table => table.entries
  | extending base _ table => base.entries ++ table.entries

/-- The rule under a key: the grammar's own table comes before its base. -/
def find? (key : String) : Grammar → Option Rule
  | standalone _ table => table.find? key
  | extending base _ table => (table.find? key).or (base.find? key)

/-- **The rule that a name stands for**, whatever its case and separators. -/
def rule? (g : Grammar) (name : String) : Option Rule :=
  g.find? (RuleName.key name)

/-- Name, base and number of own rules, on one line.  Names stand between double quotes and are
expected to need no escapes there. -/
def overview (g : Grammar) : String :=
  let base := match g.base? with
    | none => "None"
    | some base => "Some(\"" ++ base.name ++ "\")"
  "Grammar \x7b name: \"" ++ g.name ++ "\", base: " ++ base ++ ", rules: " ++ g.table.size.repr
    ++ " \x7d"

end Grammar

end AbnfPatterns
