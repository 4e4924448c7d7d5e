import AbnfPatterns.Proofs.Registry.Layers
import AbnfPatterns.Proofs.Text.Utf8

/-!
# What a registry lists and what names find in it

A registry lists every key of its grammar once, in the order of the bytes.  A name leads to an entry
if it is found, but not any more when the entries under the key are taken out of the grammar.
-/

namespace AbnfPatterns

variable {g : Grammar} {key name : String} {rule : Rule}

/-- **The last entry for a key** in a list of entries has this rule. -/
def LastListed (entries : List (String × Rule)) (key : String) (rule : Rule) : Prop :=
  ∃ before after, entries = before ++ (key, rule) :: after ∧ key ∉ after.map Prod.fst

/-- A search from the end finds the last entry. -/
theorem lookup_reverse_eq_some_iff {entries : List (String × Rule)} :
    entries.reverse.lookup key = some rule ↔ LastListed entries key rule := by
  have hskipped : ∀ after : List (String × Rule),
      (∀ entry ∈ after.reverse, (key != entry.1) = true) ↔ key ∉ after.map Prod.fst := by
    intro after
    simp only [List.mem_reverse, bne_iff_ne, List.mem_map, not_exists, not_and]
    exact forall₂_congr fun entry _ => ne_comm
  rw [List.lookup_eq_some_iff]
  constructor
  · rintro ⟨after, before, hsplit, hafter⟩
    refine ⟨before.reverse, after.reverse, ?_, ?_⟩
    · rw [← List.reverse_reverse entries, hsplit]
      simp
    · rw [← hskipped, List.reverse_reverse]
      exact hafter
  · rintro ⟨before, after, rfl, hafter⟩
    refine ⟨after.reverse, before.reverse, by simp, ?_⟩
    exact (hskipped after).2 hafter

/-- Every key of a grammar is a key of one of its tables. -/
theorem Grammar.mem_keys_iff :
    key ∈ g.entries.map Prod.fst ↔ ∃ t ∈ g.layers, key ∈ t.keys := by
  induction g with
  | standalone name table => simp [entries, layers, RuleTable.keys]
  | extending base name table ih =>
    rw [entries, layers, List.map_append, List.mem_append, ih, List.exists_mem_cons_iff, or_comm,
      RuleTable.keys]

/-! ### What is listed -/

namespace Registry

/-- **A registry lists the last entry for each key.** -/
theorem mem_toList_iff :
    (key, rule) ∈ (ofGrammar g).toList ↔ LastListed g.entries key rule := by
  rw [toList, Std.TreeMap.mem_toList_iff_getElem?_eq_some, ofGrammar, Grammar.getElem?_index,
    lookup_reverse_eq_some_iff]

theorem keys_toList (reg : Registry) : reg.toList.map Prod.fst = reg.rules.keys :=
  Std.TreeMap.map_fst_toList_eq_keys

theorem pairwise_utf8_lt (reg : Registry) :
    (reg.toList.map Prod.fst).Pairwise fun a b => utf8 a < utf8 b := by
  rw [keys_toList]
  refine Std.TreeMap.ordered_keys.imp fun {a b} h => ?_
  exact utf8_lt_utf8_iff.2 (compareOfLessAndEq_eq_lt.1 h)

/-- **Each key of the grammar is listed once**, and no other key is. -/
theorem count_keys (g : Grammar) (key : String) :
    ((ofGrammar g).toList.map Prod.fst).count key
      = if key ∈ g.entries.map Prod.fst then 1 else 0 := by
  have hmem : key ∈ g.index.keys ↔ key ∈ g.entries.map Prod.fst := by
    rw [Std.TreeMap.mem_keys, Grammar.mem_index_iff]
  rw [keys_toList, ofGrammar]
  split_ifs with h
  · exact List.count_eq_one_of_mem Std.TreeMap.nodup_keys (hmem.2 h)
  · exact List.count_eq_zero_of_not_mem fun hkeys => h (hmem.1 hkeys)

theorem isEmpty_iff : (ofGrammar g).isEmpty = true ↔ ∀ t ∈ g.layers, t.entries = [] := by
  rw [isEmpty, ofGrammar, Std.TreeMap.isEmpty_iff_forall_not_mem]
  simp only [Grammar.mem_index_iff, Grammar.mem_keys_iff, not_exists, not_and]
  constructor
  · intro h t ht
    have hkeys : t.keys = [] := List.eq_nil_iff_forall_not_mem.2 fun key => h key t ht
    exact List.map_eq_nil_iff.1 hkeys
  · intro h key t ht
    rw [RuleTable.keys, h t ht]
    exact List.not_mem_nil

end Registry

/-! ### What is found -/

/-- A table without the entry under a key. -/
def RuleTable.without (t : RuleTable) (key : String) : RuleTable where
  entries := t.entries.filter fun entry => entry.1 != key
  distinct := t.distinct.sublist (List.filter_sublist.map Prod.fst)

theorem RuleTable.find?_without (t : RuleTable) (removed : String) :
    (t.without removed).find? key = if key = removed then none else t.find? key := by
  ext rule
  rw [find?_eq_some_iff, without, List.mem_filter, bne_iff_ne]
  split_ifs with h
  · simp [h]
  · simp [h, find?_eq_some_iff]

/-- **A grammar without the entries under a key**, in all of its tables. -/
def Grammar.without (key : String) : Grammar → Grammar
  | standalone name table => standalone name (table.without key)
  | extending base name table => extending (base.without key) name (table.without key)

theorem Grammar.find?_without (g : Grammar) (removed : String) :
    (g.without removed).find? key = if key = removed then none else g.find? key := by
  induction g with
  | standalone name table => exact table.find?_without removed
  | extending base name table ih =>
    rw [without, find?, find?, ih, table.find?_without]
    split_ifs <;> rfl

/-- The ways to ask a registry for a name. -/
inductive Query where
  | get
  | lookup
  | contains
  deriving DecidableEq, Repr

namespace Query

/-- Whether the registry answers that there is a rule. -/
def finds (query : Query) (reg : Registry) (name : String) : Bool :=
  match query with
  | get => (reg.get? name).isSome
  | lookup => (reg.lookup name).isOk
  | contains => reg.contains name

/-- **A name leads to the entries under a key**: it is found, and it is not found without them. -/
def Reaches (query : Query) (g : Grammar) (key name : String) : Prop :=
  query.finds (.ofGrammar g) name = true ∧ query.finds (.ofGrammar (g.without key)) name = false

variable {query : Query}

/-- All ways to ask give the same answer. -/
theorem finds_eq (query : Query) (g : Grammar) (name : String) :
    query.finds (.ofGrammar g) name = (g.find? (RuleName.key name)).isSome := by
  cases query with
  | get => rw [finds, Grammar.get?_ofGrammar, Grammar.rule?]
  | lookup =>
    rw [finds, Grammar.lookup_ofGrammar, Grammar.rule?]
    cases g.find? (RuleName.key name) with
    | none => rfl
    | some rule => rfl
  | contains => rw [finds, Registry.contains, Grammar.get?_ofGrammar, Grammar.rule?]

/-- **The names that lead to an entry are the spellings of its key.** -/
theorem reaches_iff :
    query.Reaches g key name ↔ RuleName.key name = key ∧ key ∈ g.entries.map Prod.fst := by
  have hlisted : ∀ {k}, (g.find? k).isSome ↔ k ∈ g.entries.map Prod.fst := by
    intro k
    rw [← Grammar.mem_index_iff, Std.TreeMap.mem_iff_isSome_getElem?, Grammar.getElem?_index,
      Grammar.lookup_reverse_entries]
  rw [Reaches, finds_eq, finds_eq, Grammar.find?_without]
  split_ifs with h
  · rw [hlisted, h, and_iff_left Option.isSome_none, and_iff_right rfl]
  · constructor
    · rintro ⟨hfound, hlost⟩
      exact absurd hfound (by simp [hlost])
    · rintro ⟨hkey, -⟩
      exact absurd hkey h

theorem exists_reaches_iff (hkey : key ∈ g.entries.map Prod.fst) :
    (∃ name, query.Reaches g key name) ↔ RuleName.key key = key := by
  constructor
  · rintro ⟨name, h⟩
    obtain ⟨rfl, -⟩ := reaches_iff.1 h
    exact RuleName.key_key name
  · intro h
    exact ⟨key, reaches_iff.2 ⟨h, hkey⟩⟩

/-- A name that leads to an entry is answered with the rule of the entry. -/
theorem Reaches.get?_eq (h : query.Reaches g key name)
    (hentry : (key, rule) ∈ (Registry.ofGrammar g).toList) :
    (Registry.ofGrammar g).get? name = some rule := by
  obtain ⟨rfl, -⟩ := reaches_iff.1 h
  exact Std.TreeMap.mem_toList_iff_getElem?_eq_some.1 hentry

end Query

/-- **Discovery neither loses nor duplicates rules.**  For every grammar, a registry lists each key
of the grammar once, in the order of the bytes and with the rule that is listed last for the key.
Its size is the number of keys, and it is empty exactly if all tables are.  In each way to ask, some
name leads to an entry exactly if the key of the entry is the key of a rule name, and such a name is
answered with the rule of the entry; in a grammar of such keys there is a name for every entry. -/
theorem Registry.discovery_complete (g : Grammar) :
    let reg := Registry.ofGrammar g
    (reg.toList.map Prod.fst).Pairwise (fun a b => utf8 a < utf8 b) ∧
    (∀ key, (reg.toList.map Prod.fst).count key
      = if key ∈ g.entries.map Prod.fst then 1 else 0) ∧
    (∀ key rule, (key, rule) ∈ reg.toList ↔ LastListed g.entries key rule) ∧
    reg.size = g.distinctKeys.length ∧
    (reg.isEmpty = true ↔ ∀ t ∈ g.layers, t.entries = []) ∧
    (∀ query : Query, ∀ key ∈ g.entries.map Prod.fst,
      (∃ name, query.Reaches g key name) ↔ RuleName.key key = key) ∧
    (∀ query : Query, ∀ key rule, (key, rule) ∈ reg.toList → ∀ name, query.Reaches g key name →
      reg.get? name = some rule ∧ reg.lookup name = .ok rule ∧ reg.contains name = true) ∧
    ((∀ t ∈ g.layers, ∀ key ∈ t.keys, RuleName.key key = key) →
      ∀ query : Query, ∀ key ∈ g.entries.map Prod.fst, ∃ name, query.Reaches g key name) := by
  refine ⟨pairwise_utf8_lt _, count_keys g, fun _ _ => mem_toList_iff, Grammar.size_index g,
    isEmpty_iff, fun _ _ => Query.exists_reaches_iff, ?_, ?_⟩
  · intro query key rule hentry name hname
    have hget := hname.get?_eq hentry
    refine ⟨hget, ?_, ?_⟩
    · rw [lookup, hget]
    · rw [contains, hget, Option.isSome_some]
  · intro hcanonical query key hkey
    refine (Query.exists_reaches_iff hkey).2 ?_
    obtain ⟨t, ht, hkey⟩ := Grammar.mem_keys_iff.1 hkey
    exact hcanonical t ht key hkey

/-- A key of the base that is listed again has the later rule, a key in small letters has no name,
and one with a letter outside ASCII has a name. -/
theorem Registry.discovery_of_shadowed_key :
    let rule (fragment : String) : Rule := ⟨"sp", "%x20", "blank", ∅, fragment⟩
    let base := Grammar.standalone "BASE" { entries := [("é", rule "a"), ("SP", rule "b")] }
    let g := Grammar.extending base "LOCAL" { entries := [("SP", rule "c"), ("sp", rule "d")] }
    ("SP", rule "c") ∈ (Registry.ofGrammar g).toList ∧ (Registry.ofGrammar g).size = 3 ∧
      (Registry.ofGrammar g).lookup "sp" = .ok (rule "c") ∧
      (¬ ∃ name, Query.contains.Reaches g "sp" name) ∧
      ∀ query : Query, ∀ key ∈ ["é", "SP"], ∃ name, query.Reaches base key name := by
  intro rule base g
  obtain ⟨-, -, hlisted, hsize, -, hreached, hanswer, -⟩ := discovery_complete g
  obtain ⟨-, -, -, -, -, -, -, hcanonical⟩ := discovery_complete base
  have hentry : ("SP", rule "c") ∈ (Registry.ofGrammar g).toList :=
    (hlisted _ _).2 ⟨[("é", rule "a"), ("SP", rule "b")], [("sp", rule "d")], rfl, by decide⟩
  have hspelling : Query.lookup.Reaches g "SP" "sp" :=
    Query.reaches_iff.2 ⟨by decide, by decide⟩
  refine ⟨hentry, hsize, (hanswer _ _ _ hentry _ hspelling).2.1, ?_, hcanonical ?_⟩
  · rw [hreached _ _ (by decide)]
    decide
  · decide

end AbnfPatterns
