import AbnfPatterns.Registry
import Mathlib.Data.List.Dedup
import Std.Data.TreeMap.Lemmas

/-!
# Layers of a grammar

A name can be looked up along the chain of a grammar's tables, or in the index of all their entries.
Both ways find the rule of the first table in the chain with the key.
-/

namespace AbnfPatterns

variable {key : String} {rule : Rule}

namespace RuleTable

def keys (t : RuleTable) : List String :=
  t.entries.map Prod.fst

/-- As keys are distinct, an entry of a table is the one that is found under its key. -/
theorem find?_eq_some_iff {t : RuleTable} : t.find? key = some rule ↔ (key, rule) ∈ t.entries := by
  rw [find?, List.lookup_eq_some_iff]
  constructor
  · rintro ⟨before, after, hsplit, -⟩
    rw [hsplit]
    simp
  · intro h
    obtain ⟨before, after, hsplit⟩ := List.append_of_mem h
    refine ⟨before, after, hsplit, fun entry hentry => ?_⟩
    have hdistinct := t.distinct
    rw [hsplit, List.map_append, List.map_cons] at hdistinct
    have hnotin := (List.nodup_middle.1 hdistinct).notMem
    rw [bne_iff_ne]
    intro heq
    exact hnotin (List.mem_append_left _ (List.mem_map.2 ⟨entry, hentry, heq.symm⟩))

theorem find?_eq_none_iff {t : RuleTable} : t.find? key = none ↔ key ∉ t.keys := by
  rw [find?, List.lookup_eq_none_iff, keys, List.mem_map]
  constructor
  · rintro h ⟨entry, hentry, rfl⟩
    simpa using h entry hentry
  · intro h entry hentry
    rw [bne_iff_ne]
    rintro rfl
    exact h ⟨entry, hentry, rfl⟩

/-- A table has one entry for a key, so it does not matter from which end it is searched. -/
theorem lookup_reverse_entries (t : RuleTable) : t.entries.reverse.lookup key = t.find? key := by
  cases hfind : t.find? key with
  | none =>
    rw [find?, List.lookup_eq_none_iff] at hfind
    rw [List.lookup_eq_none_iff]
    intro entry hentry
    exact hfind entry (List.mem_reverse.1 hentry)
  | some rule =>
    let reversed : RuleTable :=
      { entries := t.entries.reverse
        distinct := by
          rw [List.map_reverse]
          exact List.nodup_reverse.2 t.distinct }
    have hmem : (key, rule) ∈ reversed.entries := List.mem_reverse.2 (find?_eq_some_iff.1 hfind)
    exact find?_eq_some_iff.2 hmem

end RuleTable

namespace Grammar

variable {g : Grammar}

/-- Entries that are put into an index one after the other: the last one for a key counts. -/
theorem getElem?_foldl_insert (entries : List (String × Rule)) (rules : Std.TreeMap String Rule) :
    (entries.foldl (fun rules entry => rules.insert entry.1 entry.2) rules)[key]?
      = (entries.reverse.lookup key).or rules[key]? := by
  induction entries generalizing rules with
  | nil => rfl
  | cons entry rest ih =>
    obtain ⟨own, added⟩ := entry
    rw [List.foldl_cons, ih, List.reverse_cons, List.lookup_append, Option.or_assoc,
      Std.TreeMap.getElem?_insert]
    by_cases h : key = own
    · rw [h, if_pos (Std.ReflCmp.compare_self : compare own own = .eq), List.lookup_cons_self]
      rfl
    · have hcompare : compare own key ≠ .eq :=
        fun heq => h (Std.LawfulEqCmp.eq_of_compare heq).symm
      rw [if_neg hcompare, List.lookup_cons, beq_eq_false_iff_ne.2 h]
      rfl

/-- **The index holds the last entry that is listed for a key.** -/
theorem getElem?_index (g : Grammar) : g.index[key]? = g.entries.reverse.lookup key := by
  rw [index, getElem?_foldl_insert, Std.TreeMap.getElem?_emptyc, Option.or_none]

/-- What the index holds under a key is an entry of the grammar. -/
theorem mem_entries_of_index (h : g.index[key]? = some rule) : (key, rule) ∈ g.entries := by
  rw [getElem?_index, List.lookup_eq_some_iff] at h
  obtain ⟨before, after, hsplit, -⟩ := h
  rw [← List.mem_reverse, hsplit]
  exact List.mem_append_right before List.mem_cons_self

theorem mem_index_iff {key : String} : key ∈ g.index ↔ key ∈ g.entries.map Prod.fst := by
  rw [Std.TreeMap.mem_iff_isSome_getElem?, getElem?_index, Option.isSome_iff_ne_none, ne_eq,
    List.lookup_eq_none_iff, List.mem_map]
  constructor
  · intro h
    by_contra hnone
    exact h fun entry hentry =>
      bne_iff_ne.2 fun heq => hnone ⟨entry, List.mem_reverse.1 hentry, heq.symm⟩
  · rintro ⟨entry, hentry, rfl⟩ h
    simpa using h entry (List.mem_reverse.2 hentry)

/-- The keys of a grammar, each of them once. -/
def distinctKeys (g : Grammar) : List String :=
  (g.entries.map Prod.fst).dedup

/-- The index has one entry for each key. -/
theorem size_index (g : Grammar) : g.index.size = g.distinctKeys.length := by
  have hkeys : g.index.keys.Perm (g.entries.map Prod.fst).dedup := by
    rw [List.perm_ext_iff_of_nodup Std.TreeMap.nodup_keys (List.nodup_dedup _)]
    intro key
    rw [Std.TreeMap.mem_keys, mem_index_iff, List.mem_dedup]
  rw [← Std.TreeMap.length_keys, hkeys.length_eq, distinctKeys]

/-- The last entry listed for a key is the one that the chain is searched for. -/
theorem lookup_reverse_entries (g : Grammar) : g.entries.reverse.lookup key = g.find? key := by
  induction g with
  | standalone name table => exact table.lookup_reverse_entries
  | extending base name table ih =>
    rw [entries, List.reverse_append, List.lookup_append, ih, table.lookup_reverse_entries, find?]

/-- The tables of a grammar, its own first and that of its last base at the end. -/
def layers : Grammar → List RuleTable
  | standalone _ table => [table]
  | extending base _ table => table :: base.layers

/-- **The grammar supplies a rule under a key**: the first of its tables that has the key at all has
the rule under it. -/
def Supplies (g : Grammar) (key : String) (rule : Rule) : Prop :=
  ∃ nearer table farther, g.layers = nearer ++ table :: farther
    ∧ (∀ t ∈ nearer, key ∉ t.keys) ∧ (key, rule) ∈ table.entries

theorem find?_eq_findSome?_layers (g : Grammar) :
    g.find? key = g.layers.findSome? fun table => table.find? key := by
  induction g with
  | standalone name table => simp [find?, layers]
  | extending base name table ih =>
    rw [find?, layers, List.findSome?_cons, ih]
    cases table.find? key with
    | none => rfl
    | some rule => rfl

/-- **The search along the chain stops at the first table with the key.** -/
theorem find?_eq_some_iff : g.find? key = some rule ↔ g.Supplies key rule := by
  rw [find?_eq_findSome?_layers, List.findSome?_eq_some_iff]
  simp only [RuleTable.find?_eq_some_iff, RuleTable.find?_eq_none_iff]
  exact exists_congr fun nearer => exists_congr fun table => exists_congr fun farther =>
    and_congr_right fun _ => and_comm

theorem find?_eq_none_iff : g.find? key = none ↔ ∀ t ∈ g.layers, key ∉ t.keys := by
  rw [find?_eq_findSome?_layers, List.findSome?_eq_none_iff]
  simp only [RuleTable.find?_eq_none_iff]

theorem get?_ofGrammar (g : Grammar) (name : String) :
    (Registry.ofGrammar g).get? name = g.rule? name :=
  (getElem?_index g).trans (lookup_reverse_entries g)

/-- A registry has no rules but those of its grammar. -/
theorem get?_eq_rule? (reg : Registry) (name : String) :
    reg.get? name = reg.grammar.rule? name := by
  rw [Registry.get?, reg.rules_eq]
  exact (getElem?_index _).trans (lookup_reverse_entries _)

/-- A table has no say on a key that it does not have. -/
theorem rule?_extending {table : RuleTable} {n : String} (h : RuleName.key n ∉ table.keys)
    (g : Grammar) (name : String) : (extending g name table).rule? n = g.rule? n := by
  rw [rule?, find?, RuleTable.find?_eq_none_iff.2 h, Option.none_or, rule?]

/-- A name that leads to no rule is reported by its key and the grammar's own name. -/
theorem lookup_ofGrammar (g : Grammar) (name : String) :
    (Registry.ofGrammar g).lookup name
      = ((g.rule? name).elim (.error (.ruleNotFound g.name (RuleName.key name))) .ok) := by
  rw [Registry.lookup, get?_ofGrammar]
  cases g.rule? name with
  | none => rfl
  | some rule => rfl

/-- **Both ways to look a name up agree.**  The rule that the chain of tables has under the key of
the name is the rule that the registry has under it: the one of the first table that has the key.
If no table has the key, the registry reports the key with the grammar's own name. -/
theorem rule?_eq_get? (g : Grammar) (name : String) :
    g.rule? name = (Registry.ofGrammar g).get? name ∧
      (∀ rule, g.rule? name = some rule ↔ g.Supplies (RuleName.key name) rule) ∧
      (g.rule? name = none ↔ ∀ t ∈ g.layers, RuleName.key name ∉ t.keys) ∧
      (∀ rule, (Registry.ofGrammar g).lookup name = .ok rule ↔ g.rule? name = some rule) ∧
      (∀ e, (Registry.ofGrammar g).lookup name = .error e ↔
        g.rule? name = none ∧ e = .ruleNotFound g.name (RuleName.key name)) ∧
      ((Registry.ofGrammar g).contains name = true ↔ ∃ rule, g.rule? name = some rule) := by
  refine ⟨(get?_ofGrammar g name).symm, fun _ => find?_eq_some_iff, find?_eq_none_iff, ?_, ?_, ?_⟩
  · intro rule
    rw [lookup_ofGrammar]
    cases g.rule? name <;> simp
  · intro e
    rw [lookup_ofGrammar]
    cases g.rule? name with
    | none => simp [eq_comm]
    | some rule => simp
  · rw [Registry.contains, get?_ofGrammar, Option.isSome_iff_exists]

end Grammar

theorem Registry.mem_entries_of_lookup {g : Grammar} {name : String}
    (h : (Registry.ofGrammar g).lookup name = .ok rule) :
    (RuleName.key name, rule) ∈ g.entries := by
  rw [Registry.lookup] at h
  split at h
  · rename_i rule' hget
    cases h
    exact Grammar.mem_entries_of_index hget
  · cases h

end AbnfPatterns
