import AbnfPatterns.Composer

/-!
# Lists of additions

A list of pieces puts their texts one behind the other, or, if one of them cannot be added, comes to
an end at the first such piece.
-/

namespace AbnfPatterns

/-- A template without its spaces, tabs, line feeds, form feeds and carriage returns. -/
def Template.withoutBlanks (text : String) : String :=
  String.ofList (text.toList.filter (· ∉ [' ', '\t', '\n', '\x0c', '\r']))

theorem Template.collapseBlanks_eq (text : String) : collapseBlanks text = withoutBlanks text := by
  refine congrArg String.ofList (List.filter_congr fun c _ => ?_)
  rw [Bool.eq_iff_iff]
  simp [isAsciiBlank, and_assoc]

namespace Registry

variable {reg : Registry} {name : String} {rule : Rule}

/-- What a piece stands for, nothing if it cannot be added. -/
def expansion (reg : Registry) (a : Addition) : Expansion :=
  match reg.expand a with
  | .ok expansion => expansion
  | .error _ => { text := "" }

/-- Whether a piece can be added. -/
def CanAdd (reg : Registry) (a : Addition) : Prop :=
  ∃ expansion, reg.expand a = .ok expansion

theorem CanAdd.expand_eq {a : Addition} (h : reg.CanAdd a) :
    reg.expand a = .ok (reg.expansion a) := by
  obtain ⟨expansion, h⟩ := h
  rw [Registry.expansion, h]

theorem lookup_of_get? (h : reg.get? name = some rule) : reg.lookup name = .ok rule := by
  rw [lookup, h]

theorem lookup_of_get?_none (h : reg.get? name = none) :
    reg.lookup name = .error (.ruleNotFound reg.grammar.name (RuleName.key name)) := by
  rw [lookup, h]

theorem get?_of_lookup (h : reg.lookup name = .ok rule) : reg.get? name = some rule := by
  unfold lookup at h
  split at h
  · rename_i found hfound
    cases h
    exact hfound
  · cases h

theorem expand_reference (h : reg.get? name = some rule) :
    reg.expand (.reference name)
      = .ok { text := rule.fragment, events := [.referenced rule.name] } := by
  simp only [expand, lookup_of_get? h]

theorem expand_commaReference (h : reg.get? name = some rule) :
    reg.expand (.commaReference name) = .ok
      { text := rule.fragment ++ PatternText.commaSuffix optionalWhitespace rule.fragment
        events := [.referencedWithCommas rule.name] } := by
  simp only [expand, lookup_of_get? h]

theorem expand_reference_of_none (h : reg.get? name = none) :
    reg.expand (.reference name)
      = .error (.ruleNotFound reg.grammar.name (RuleName.key name)) := by
  simp only [expand, lookup_of_get?_none h]

theorem expand_commaReference_of_none (h : reg.get? name = none) :
    reg.expand (.commaReference name)
      = .error (.ruleNotFound reg.grammar.name (RuleName.key name)) := by
  simp only [expand, lookup_of_get?_none h]

end Registry

namespace Composer

variable {c : Composer}

@[simp] theorem append_empty (c : Composer) : c.append "" = c := by
  rw [append, String.append_empty]

@[simp] theorem append_append (c : Composer) (s t : String) :
    (c.append s).append t = c.append (s ++ t) := by
  rw [append, append, append, String.append_assoc]

@[simp] theorem registry_append (c : Composer) (text : String) :
    (c.append text).registry = c.registry :=
  rfl

theorem add_of_expand {a : Addition} {expansion : Expansion}
    (h : c.registry.expand a = .ok expansion) :
    c.add a = .ok (c.append expansion.text, expansion) := by
  rw [add, h]

theorem add_of_expand_error {a : Addition} {e : LookupError} (h : c.registry.expand a = .error e) :
    c.add a = .error e := by
  rw [add, h]

/-- A template can always be added. -/
theorem exists_add_template (c : Composer) (text : String) (collapse : Bool) :
    ∃ expansion, c.add (.template text collapse) = .ok
      (c.append (Template.resolve c.registry optionalWhitespace
        (if collapse then Template.collapseBlanks text else text)), expansion) :=
  ⟨_, rfl⟩

/-- **Pieces that can all be added** put their texts behind the pattern, one behind the other. -/
theorem addAll_eq_ok {additions : List Addition} (h : ∀ a ∈ additions, c.registry.CanAdd a) :
    c.addAll additions = .ok
      (c.append (String.join (additions.map fun a => (c.registry.expansion a).text)),
        additions.flatMap fun a => (c.registry.expansion a).events) := by
  induction additions generalizing c with
  | nil =>
    rw [List.map_nil, String.join_nil, append_empty]
    rfl
  | cons a rest ih =>
    have hrest := ih (c := c.append (c.registry.expansion a).text)
      fun b hb => h b (List.mem_cons_of_mem a hb)
    simp only [addAll, add_of_expand (h a List.mem_cons_self).expand_eq, hrest, registry_append,
      append_append, List.map_cons, String.join_cons, List.flatMap_cons]

/-- **The first piece that cannot be added** ends the list, whatever follows it. -/
theorem addAll_eq_error {before : List Addition} (after : List Addition) {a : Addition}
    {e : LookupError} (hbefore : ∀ b ∈ before, c.registry.CanAdd b)
    (ha : c.registry.expand a = .error e) :
    c.addAll (before ++ a :: after) = .error
      { addition := a
        error := e
        events := before.flatMap fun b => (c.registry.expansion b).events } := by
  induction before generalizing c with
  | nil => simp only [List.nil_append, addAll, add_of_expand_error ha, List.flatMap_nil]
  | cons b rest ih =>
    have hrest := ih (c := c.append (c.registry.expansion b).text)
      (fun b' hb => hbefore b' (List.mem_cons_of_mem b hb)) ha
    simp only [List.cons_append, addAll, add_of_expand (hbefore b List.mem_cons_self).expand_eq,
      hrest, registry_append, List.flatMap_cons]

end Composer

end AbnfPatterns
