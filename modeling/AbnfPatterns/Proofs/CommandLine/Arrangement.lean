import AbnfPatterns.CommandLine.Request

/-!
# Arrangements of a request

The arguments for a request may come in any order, as long as the rules stay in their order and the
comma-separated rules in theirs.
-/

namespace AbnfPatterns.CommandLine

/-! ### What is given -/

namespace Argument

/-- The value of an option. -/
def value? (s : Setting) : Argument → Option String
  | setting t value => if t = s then some value else none
  | _ => none

/-- The text of a template. -/
def template? : Argument → Option String
  | template text => some text
  | _ => none

variable {a : Argument} {s : Setting} {text : String}

@[simp] theorem value?_switch (t : Switch) : (switch t).value? s = none :=
  rfl

@[simp] theorem value?_template : (template text).value? s = none :=
  rfl

@[simp] theorem value?_self : (setting s text).value? s = some text :=
  if_pos rfl

@[simp] theorem template?_switch (t : Switch) : (switch t).template? = none :=
  rfl

@[simp] theorem template?_setting : (setting s text).template? = none :=
  rfl

@[simp] theorem template?_template : (template text).template? = some text :=
  rfl

theorem value?_eq_some : a.value? s = some text ↔ a = .setting s text := by
  rcases a with t | ⟨t, value⟩ | text'
  all_goals simp [value?]

theorem parameter_eq_switch {t : Switch} : a.parameter = .switch t ↔ a = .switch t := by
  cases a <;> simp [parameter]

theorem parameter_eq_setting : a.parameter = .setting s ↔ (a.value? s).isSome := by
  rcases a with t | ⟨t, value⟩ | text'
  all_goals simp [parameter, value?]

theorem parameter_eq_template : a.parameter = .template ↔ a.template?.isSome := by
  cases a <;> simp [parameter]

end Argument

/-- **Arguments that may be given together**: the value `choice` of the option for the grammar, the
template and each option without a value once at most, and no question about the program itself. -/
structure Proper (given : List Argument) (choice : Option String) : Prop where
  grammar : given.filterMap (Argument.value? .grammar) = choice.toList
  template : (given.filterMap Argument.template?).length ≤ 1
  switches : ∀ s, given.count (.switch s) ≤ 1
  help : .switch .help ∉ given
  version : .switch .version ∉ given

/-- Whether the list of rules is asked for together with anything that it excludes. -/
def InConflict (given : List Argument) : Prop :=
  .switch .list ∈ given ∧ ∃ a ∈ given, a.parameter.conflictsWithList

/-- The standard that is chosen by the value of the option for it, if there is one. -/
def chosen (choice : Option String) : Except LookupError Standard :=
  Standard.ofText (choice.getD defaultGrammar)

/-! ### What is asked for -/

theorem Parameter.ne_grammar_of_conflictsWithList {p : Parameter} (h : p.conflictsWithList) :
    p ≠ setting .grammar := by
  rintro rfl
  cases h

namespace Request

/-- Whether an option without a value is set. -/
def isSet (r : Request) : Switch → Bool
  | .anchor => r.anchor
  | .keepWhitespace => r.keepWhitespace
  | .list => r.list
  | .verbose => r.verbose
  | .help => false
  | .version => false

/-- The values of an option.  The grammar is left out, as it may be the one without an option. -/
def values (r : Request) : Setting → List String
  | .grammar => []
  | .rule => r.rules
  | .comma => r.commaRules

/-- Whether a parameter is given, the grammar left out. -/
def gives (r : Request) : Parameter → Bool
  | .template => r.template.isSome
  | .switch s => r.isSet s
  | .setting s => !(r.values s).isEmpty

/-- Whether anything is given that composes a pattern. -/
def Composes (r : Request) : Prop :=
  r.template.isSome ∨ r.rules ≠ [] ∨ r.commaRules ≠ [] ∨ r.anchor ∨ r.keepWhitespace

theorem composes_iff {r : Request} :
    r.Composes ↔ ∃ p : Parameter, p.conflictsWithList ∧ r.gives p := by
  constructor
  · rintro (h | h | h | h | h)
    · exact ⟨.template, rfl, h⟩
    · exact ⟨.setting .rule, rfl, by simpa [gives, values] using h⟩
    · exact ⟨.setting .comma, rfl, by simpa [gives, values] using h⟩
    · exact ⟨.switch .anchor, rfl, h⟩
    · exact ⟨.switch .keepWhitespace, rfl, h⟩
  · rintro ⟨p, hp, h⟩
    match p with
    | .template => exact .inl h
    | .setting .rule => exact .inr (.inl (by simpa [gives, values] using h))
    | .setting .comma => exact .inr (.inr (.inl (by simpa [gives, values] using h)))
    | .switch .anchor => exact .inr (.inr (.inr (.inl h)))
    | .switch .keepWhitespace => exact .inr (.inr (.inr (.inr h)))

theorem eq_of_values_eq {r r' : Request} (hgrammar : r.grammar = r'.grammar)
    (hvalues : ∀ s ≠ .grammar, r.values s = r'.values s) (htemplate : r.template = r'.template)
    (hswitches : ∀ s, r.isSet s = r'.isSet s) : r = r' := by
  have hrules : r.rules = r'.rules := hvalues .rule (by simp)
  have hcomma : r.commaRules = r'.commaRules := hvalues .comma (by simp)
  have hanchor : r.anchor = r'.anchor := hswitches .anchor
  have hkeep : r.keepWhitespace = r'.keepWhitespace := hswitches .keepWhitespace
  have hlist : r.list = r'.list := hswitches .list
  have hverbose : r.verbose = r'.verbose := hswitches .verbose
  cases r
  cases r'
  simp_all

end Request

/-! ### Arrangements -/

/-- **The arguments for a request, in some order**: the rules are given in their order, and so are
the comma-separated rules; all else is given once, or not at all.  The text `choice` of the option
for the grammar need not name one. -/
structure Arranges (given : List Argument) (choice : Option String) (r : Request) : Prop where
  grammar : given.filterMap (Argument.value? .grammar) = choice.toList
  standard : ∀ g, chosen choice = .ok g → g = r.grammar
  rules : given.filterMap (Argument.value? .rule) = r.rules
  commaRules : given.filterMap (Argument.value? .comma) = r.commaRules
  template : given.filterMap Argument.template? = r.template.toList
  switches : ∀ s, given.count (.switch s) = (r.isSet s).toNat

namespace Arranges

variable {given : List Argument} {choice : Option String} {r : Request}

/-- An order for the same request with the option for the list of rules at any place. -/
theorem insert_list {before after : List Argument} (h : Arranges (before ++ after) choice r)
    (hlist : r.list = false) :
    Arranges (before ++ .switch .list :: after) choice { r with list := true } where
  grammar := by simpa [List.filterMap_cons] using h.grammar
  standard := h.standard
  rules := by simpa [List.filterMap_cons] using h.rules
  commaRules := by simpa [List.filterMap_cons] using h.commaRules
  template := by simpa [List.filterMap_cons] using h.template
  switches s := by
    have hs := h.switches s
    cases s <;> simp_all [Request.isSet]

theorem values (h : Arranges given choice r) {s : Setting} (hs : s ≠ .grammar) :
    given.filterMap (Argument.value? s) = r.values s := by
  cases s with
  | grammar => exact absurd rfl hs
  | rule => exact h.rules
  | comma => exact h.commaRules

theorem mem_switch_iff (h : Arranges given choice r) {s : Switch} :
    .switch s ∈ given ↔ r.isSet s := by
  rw [← List.count_pos_iff, h.switches]
  cases r.isSet s <;> simp

theorem proper (h : Arranges given choice r) : Proper given choice where
  grammar := h.grammar
  template := by
    rw [h.template]
    exact Option.length_toList_le
  switches s := by
    rw [h.switches]
    exact Bool.toNat_le _
  help := by
    rw [h.mem_switch_iff]
    exact Bool.false_ne_true
  version := by
    rw [h.mem_switch_iff]
    exact Bool.false_ne_true

private theorem filterMap_ne_nil_iff {f : Argument → Option String} :
    given.filterMap f ≠ [] ↔ ∃ a ∈ given, (f a).isSome := by
  simp [Option.ne_none_iff_isSome]

/-- The parameters of a request are those of its arguments, whatever their order. -/
theorem gives_iff (h : Arranges given choice r) {p : Parameter} (hp : p ≠ .setting .grammar) :
    r.gives p ↔ ∃ a ∈ given, a.parameter = p := by
  match p with
  | .template =>
    simp only [Argument.parameter_eq_template]
    rw [← filterMap_ne_nil_iff, h.template, Request.gives, ne_eq, Option.toList_eq_nil_iff,
      ← ne_eq, Option.ne_none_iff_isSome]
  | .switch s => simp [Request.gives, Argument.parameter_eq_switch, h.mem_switch_iff]
  | .setting s =>
    have hs : s ≠ .grammar := by
      rintro rfl
      exact hp rfl
    simp only [Argument.parameter_eq_setting]
    rw [← filterMap_ne_nil_iff, h.values hs]
    simp [Request.gives]

/-- The list of rules is in conflict with all that composes a pattern, and with nothing else. -/
theorem inConflict_iff (h : Arranges given choice r) : InConflict given ↔ r.list ∧ r.Composes := by
  rw [InConflict, h.mem_switch_iff, Request.composes_iff, Request.isSet]
  refine and_congr_right fun _ => ⟨?_, ?_⟩
  · rintro ⟨a, ha, hconflict⟩
    have hne := Parameter.ne_grammar_of_conflictsWithList hconflict
    exact ⟨a.parameter, hconflict, (h.gives_iff hne).mpr ⟨a, ha, rfl⟩⟩
  · rintro ⟨p, hconflict, hgives⟩
    have hne := Parameter.ne_grammar_of_conflictsWithList hconflict
    obtain ⟨a, ha, rfl⟩ := (h.gives_iff hne).mp hgives
    exact ⟨a, ha, hconflict⟩

end Arranges

end AbnfPatterns.CommandLine
