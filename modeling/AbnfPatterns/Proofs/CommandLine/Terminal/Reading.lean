import AbnfPatterns.CommandLine.Outcome
import AbnfPatterns.Proofs.CommandLine.Frontend
import AbnfPatterns.Proofs.CommandLine.Terminal.Spelling

/-!
# The front end of a terminal is lawful

The reading is followed by what is missing yet: what the draft holds, together with what the rest of
the arguments gives, makes up the request.
-/

namespace AbnfPatterns.CommandLine

namespace Terminal

namespace Draft

variable {d : Draft} {g : Standard} {a : Argument}

/-! ### One more argument -/

/-- The draft with one more argument.  The value for the grammar has been read as a standard. -/
def take (d : Draft) (g : Standard) : Argument → Draft
  | .switch s => (d.turnOn s).note (.switch s)
  | .setting .grammar _ =>
    note { d with request := { d.request with grammar := g } } (.setting .grammar)
  | .setting .rule name =>
    note { d with request := { d.request with rules := d.request.rules ++ [name] } }
      (.setting .rule)
  | .setting .comma name =>
    note { d with request := { d.request with commaRules := d.request.commaRules ++ [name] } }
      (.setting .comma)
  | .template text =>
    note { d with request := { d.request with template := some text } } .template

@[simp] theorem request_note (d : Draft) (p : Parameter) : (d.note p).request = d.request := by
  unfold note
  split <;> rfl

@[simp] theorem mem_seen_note {p q : Parameter} :
    q ∈ (d.note p).seen ↔ q ∈ d.seen ∨ q = p := by
  unfold note
  split
  · rename_i hp
    constructor
    · exact .inl
    · rintro (h | rfl)
      · exact h
      · exact hp
  · simp

theorem values_take {s : Setting} (hs : s ≠ .grammar) :
    (d.take g a).request.values s = d.request.values s ++ (a.value? s).toList := by
  rcases a with t | ⟨_ | _ | _, value⟩ | text
  case switch => cases t <;> cases s <;> simp [take, turnOn, Request.values]
  all_goals cases s <;> simp_all [take, Request.values, Argument.value?]

theorem template_take :
    (d.take g a).request.template = a.template?.or d.request.template := by
  rcases a with s | ⟨_ | _ | _, value⟩ | text
  case switch => cases s <;> simp [take, turnOn]
  all_goals simp [take]

theorem grammar_take :
    (d.take g a).request.grammar
      = if (a.value? .grammar).isSome then g else d.request.grammar := by
  rcases a with s | ⟨_ | _ | _, value⟩ | text
  case switch => cases s <;> simp [take, turnOn]
  all_goals simp [take, Argument.value?]

theorem isSet_take (hhelp : a ≠ .switch .help) (hversion : a ≠ .switch .version) (s : Switch) :
    (d.take g a).request.isSet s = (d.request.isSet s || decide (a = .switch s)) := by
  rcases a with t | ⟨_ | _ | _, value⟩ | text
  case switch => cases t <;> cases s <;> simp_all [take, turnOn, Request.isSet]
  all_goals cases s <;> simp [take, Request.isSet]

theorem mem_seen_take {p : Parameter} :
    p ∈ (d.take g a).seen ↔ p ∈ d.seen ∨ a.parameter = p := by
  rcases a with t | ⟨_ | _ | _, value⟩ | text
  all_goals simp [take, turnOn, Argument.parameter, eq_comm]

theorem gives_take (hhelp : a ≠ .switch .help) (hversion : a ≠ .switch .version) {p : Parameter}
    (hp : p ≠ .setting .grammar) :
    (d.take g a).request.gives p ↔ d.request.gives p ∨ a.parameter = p := by
  match p with
  | .template =>
    simp [Request.gives, template_take, Argument.parameter_eq_template, or_comm]
  | .switch s =>
    simp [Request.gives, isSet_take hhelp hversion, Argument.parameter_eq_switch]
  | .setting s =>
    have hs : s ≠ .grammar := by
      rintro rfl
      exact hp rfl
    rw [Argument.parameter_eq_setting, Request.gives, values_take hs]
    cases a.value? s <;> simp [Request.gives]

/-! ### Conflicts -/

theorem conflict?_eq_none
    (h : .switch .list ∉ d.seen ∨ ∀ p ∈ d.seen, p.conflictsWithList = false) :
    d.conflict? = none := by
  refine if_neg ?_
  rintro ⟨hlist, hothers⟩
  rcases h with h | h
  · exact h hlist
  · refine hothers (List.filter_eq_nil_iff.mpr fun p hp => ?_)
    simp [h p hp]

theorem exists_conflict {p : Parameter} (hlist : .switch .list ∈ d.seen) (hp : p ∈ d.seen)
    (hconflict : p.conflictsWithList) : ∃ q others, d.conflict? = some (.conflict q others) := by
  have hothers : d.seen.filter Parameter.conflictsWithList ≠ [] :=
    List.ne_nil_of_mem (List.mem_filter.mpr ⟨hp, hconflict⟩)
  rw [conflict?, if_pos ⟨hlist, hothers⟩]
  split
  · split
    · exact ⟨_, _, rfl⟩
    · exact ⟨_, _, rfl⟩
  · rename_i hnone
    have := List.find?_eq_none.mp hnone p hp
    simp [hconflict] at this

/-! ### What is missing -/

/-- The standard of a draft, once the value of the option for it is known. -/
def standard (d : Draft) : Option String → Except LookupError Standard
  | none => .ok d.request.grammar
  | some text => Standard.ofText text

theorem standard_empty (choice : Option String) : standard {} choice = chosen choice := by
  cases choice with
  | none =>
    have hdefault : Standard.ofText? defaultGrammar = some .rfc9110 := by decide +kernel
    simp [standard, chosen, Standard.ofText, hdefault]
  | some text => rfl

/-- The standard stays the one that is chosen. -/
theorem standard_take {choice : Option String} (hg : d.standard choice = .ok g) :
    (d.take g a).standard (if (a.value? .grammar).isSome then none else choice) = .ok g := by
  have hgrammar := d.grammar_take (g := g) (a := a)
  cases ha : (a.value? .grammar).isSome with
  | true =>
    rw [ha] at hgrammar
    exact congrArg Except.ok hgrammar
  | false =>
    rw [ha] at hgrammar
    cases choice with
    | none => exact (congrArg Except.ok hgrammar).trans hg
    | some text => exact hg

/-- **What is missing of a request**: with what the draft holds already, it makes up the request. -/
structure CompletedBy (d : Draft) (rest : List Argument) (choice : Option String)
    (r : Request) : Prop where
  grammar : rest.filterMap (Argument.value? .grammar) = choice.toList
  fresh : choice.isSome → .setting .grammar ∉ d.seen
  values : ∀ s ≠ .grammar,
    d.request.values s ++ rest.filterMap (Argument.value? s) = r.values s
  template : d.request.template.toList ++ rest.filterMap Argument.template? = r.template.toList
  switches : ∀ s, (d.request.isSet s).toNat + rest.count (.switch s) = (r.isSet s).toNat
  seen : ∀ p ≠ .setting .grammar, (p ∈ d.seen ↔ d.request.gives p)

namespace CompletedBy

variable {rest : List Argument} {choice : Option String} {r : Request}

theorem of_arranges (h : Arranges rest choice r) : CompletedBy {} rest choice r where
  grammar := h.grammar
  fresh := by simp
  values s hs := by
    rw [h.values hs]
    cases s <;> rfl
  template := h.template
  switches s := by
    rw [← h.switches s]
    cases s <;> exact Nat.zero_add _
  seen p hp := by
    match p with
    | .template => simp [Request.gives]
    | .switch s => cases s <;> simp [Request.gives, Request.isSet]
    | .setting s => cases s <;> simp [Request.gives, Request.values]

/-- An option without a value is given once, and never asks about the program itself. -/
theorem isSet_of_switch {s : Switch} (h : d.CompletedBy (.switch s :: rest) choice r) :
    r.isSet s ∧ d.request.isSet s = false := by
  have hcount := h.switches s
  rw [List.count_cons_self] at hcount
  have hle := Bool.toNat_le (r.isSet s)
  constructor
  · rw [← Bool.toNat_eq_one]
    omega
  · rw [← Bool.toNat_eq_zero]
    omega

theorem ne_question (h : d.CompletedBy (a :: rest) choice r) :
    a ≠ .switch .help ∧ a ≠ .switch .version := by
  constructor
  · rintro rfl
    cases h.isSet_of_switch.1
  · rintro rfl
    cases h.isSet_of_switch.1

private theorem filterMap_cons_toList (f : Argument → Option String) (a : Argument)
    (rest : List Argument) :
    (a :: rest).filterMap f = (f a).toList ++ rest.filterMap f := by
  cases h : f a <;> simp [h]

/-- The value for the grammar is the one that is missing. -/
theorem choice_eq {text : String} (h : d.CompletedBy (a :: rest) choice r)
    (ha : a.value? .grammar = some text) :
    choice = some text ∧ rest.filterMap (Argument.value? .grammar) = [] := by
  have hgrammar := h.grammar
  rw [filterMap_cons_toList, ha] at hgrammar
  cases choice with
  | none => cases hgrammar
  | some text' =>
    obtain ⟨rfl, hrest⟩ := List.cons.inj hgrammar
    exact ⟨rfl, hrest⟩

/-- **One more argument taken from what is missing.** -/
theorem step (h : d.CompletedBy (a :: rest) choice r) (g : Standard) :
    (d.take g a).CompletedBy rest (if (a.value? .grammar).isSome then none else choice) r := by
  obtain ⟨hhelp, hversion⟩ := h.ne_question
  exact
    { grammar := by
        cases hvalue : a.value? .grammar with
        | none => simpa [filterMap_cons_toList, hvalue] using h.grammar
        | some text => exact (h.choice_eq hvalue).2
      fresh := by
        intro hchoice
        rw [mem_seen_take, Argument.parameter_eq_setting]
        cases hvalue : (a.value? .grammar).isSome
        · rw [hvalue] at hchoice
          simpa using h.fresh hchoice
        · rw [hvalue] at hchoice
          simp at hchoice
      values := fun s hs => by
        rw [← h.values s hs, values_take hs, filterMap_cons_toList, List.append_assoc]
      template := by
        have htemplate := h.template
        rw [filterMap_cons_toList] at htemplate
        rw [← htemplate, template_take]
        cases ha : a.template? with
        | none => simp
        | some text =>
          cases hd : d.request.template with
          | none => simp
          | some text' =>
            -- there is no room for a second template
            have hlength := Option.length_toList_le (o := r.template)
            rw [← htemplate, ha, hd] at hlength
            simp only [List.length_append, Option.toList_some, List.length_singleton] at hlength
            omega
      switches := fun s => by
        rw [← h.switches s, isSet_take hhelp hversion]
        by_cases ha : a = .switch s
        · subst ha
          simp [h.isSet_of_switch.2, Nat.add_comm]
        · rw [List.count_cons_of_ne ha]
          simp [ha]
      seen := fun p hp => by
        rw [mem_seen_take, gives_take hhelp hversion hp, h.seen p hp] }

/-- The reading goes on with that argument taken, unless it is a grammar that does not exist. -/
theorem ofOccurrences_cons (h : d.CompletedBy (a :: rest) choice r)
    (hg : ∀ text, a.value? .grammar = some text → Standard.ofText text = .ok g) :
    Intent.ofOccurrences d ((a :: rest).map .argument)
      = Intent.ofOccurrences (d.take g a) (rest.map .argument) := by
  match a with
  | .switch s =>
    obtain ⟨hhelp, hversion⟩ := h.ne_question
    have hfresh : .switch s ∉ d.seen := by
      rw [h.seen (.switch s) (by simp), Request.gives, h.isSet_of_switch.2]
      simp
    cases s <;> simp_all [Intent.ofOccurrences, take]
  | .setting .grammar text =>
    have hfresh := h.fresh (by rw [(h.choice_eq rfl).1, Option.isSome_some])
    simp only [List.map_cons, Intent.ofOccurrences, Draft.assign, if_neg hfresh, hg text rfl, take]
  | .setting .rule name => rfl
  | .setting .comma name => rfl
  | .template text => rfl

/-- Nothing is missing any more. -/
theorem request_eq (h : d.CompletedBy [] none r) (hg : d.request.grammar = r.grammar) :
    d.request = r := by
  refine Request.eq_of_values_eq hg ?_ ?_ ?_
  · intro s hs
    rw [← h.values s hs, List.filterMap_nil, List.append_nil]
  · have htemplate := h.template
    rw [List.filterMap_nil, List.append_nil] at htemplate
    simpa using congrArg List.head? htemplate
  · intro s
    have hs := h.switches s
    rw [List.count_nil, Nat.add_zero] at hs
    cases hd : d.request.isSet s <;> cases hr : r.isSet s <;> simp_all

/-- **All that is missing is taken**, whatever its order. -/
theorem run (h : d.CompletedBy rest choice r) (hg : d.standard choice = .ok r.grammar) :
    ∃ d' : Draft, d'.CompletedBy [] none r ∧ d'.request = r
      ∧ Intent.ofOccurrences d (rest.map .argument) = Intent.ofOccurrences d' [] := by
  induction rest generalizing d choice with
  | nil =>
    obtain rfl : choice = none := by simpa using h.grammar.symm
    exact ⟨d, h, h.request_eq (Except.ok.inj hg), rfl⟩
  | cons a rest ih =>
    have hvalue : ∀ text, a.value? .grammar = some text → Standard.ofText text = .ok r.grammar := by
      intro text ha
      rw [(h.choice_eq ha).1] at hg
      exact hg
    obtain ⟨d', hd', hrequest, heq⟩ := ih (h.step r.grammar) (standard_take hg)
    exact ⟨d', hd', hrequest, (h.ofOccurrences_cons hvalue).trans heq⟩

/-- A value that names no standard ends the reading, whatever comes before it and after it. -/
theorem run_invalid {text : String} {e : LookupError} (h : d.CompletedBy rest (some text) r)
    (he : Standard.ofText text = .error e) :
    Intent.ofOccurrences d (rest.map .argument) = .error (.invalidValue text .grammar e) := by
  induction rest generalizing d with
  | nil => cases h.grammar
  | cons a rest ih =>
    cases ha : a.value? .grammar with
    | none =>
      have hnext := h.step .core
      rw [ha] at hnext
      rw [h.ofOccurrences_cons (g := .core) (by simp [ha])]
      exact ih hnext
    | some value =>
      obtain ⟨hvalue, -⟩ := h.choice_eq ha
      cases hvalue
      obtain rfl := Argument.value?_eq_some.mp ha
      simp only [List.map_cons, Intent.ofOccurrences, Draft.assign, if_neg (h.fresh rfl), he]

end CompletedBy

end Draft

/-! ### Arrangements -/

section

variable {given : List Argument} {choice : Option String} {r : Request}

theorem ofOccurrences_invalid {e : LookupError} (h : Arranges given choice r)
    (he : chosen choice = .error e) :
    ∃ text, Intent.ofOccurrences {} (given.map .argument)
      = .error (.invalidValue text .grammar e) := by
  rw [← Draft.standard_empty] at he
  cases choice with
  | none => cases he
  | some text => exact ⟨text, (Draft.CompletedBy.of_arranges h).run_invalid he⟩

/-- All arguments of an arrangement make it into a draft of the request. -/
theorem exists_draft (h : Arranges given choice r) (hg : chosen choice = .ok r.grammar) :
    ∃ d : Draft, d.request = r ∧ (∀ p ≠ .setting .grammar, (p ∈ d.seen ↔ r.gives p))
      ∧ Intent.ofOccurrences {} (given.map .argument) = Intent.ofOccurrences d [] := by
  rw [← Draft.standard_empty] at hg
  obtain ⟨d, hd, rfl, heq⟩ := (Draft.CompletedBy.of_arranges h).run hg
  exact ⟨d, rfl, hd.seen, heq⟩

/-- **The request that is read from any arrangement of it.** -/
theorem ofOccurrences_eq (h : Arranges given choice r) (hg : chosen choice = .ok r.grammar)
    (hfree : ¬ InConflict given) :
    Intent.ofOccurrences {} (given.map .argument) = .ok (.serve r) := by
  obtain ⟨d, hrequest, hseen, heq⟩ := exists_draft h hg
  have hnone : d.conflict? = none := by
    apply Draft.conflict?_eq_none
    by_cases hlist : r.list
    · right
      intro p hp
      cases hconflict : p.conflictsWithList with
      | false => rfl
      | true =>
        have hne := Parameter.ne_grammar_of_conflictsWithList hconflict
        have hgives := (hseen p hne).mp hp
        have hcomposes := Request.composes_iff.mpr ⟨p, hconflict, hgives⟩
        exact absurd (h.inConflict_iff.mpr ⟨hlist, hcomposes⟩) hfree
    · left
      rw [hseen _ (by simp)]
      exact hlist
  rw [heq, Intent.ofOccurrences, hnone, hrequest]

/-- **The list of rules excludes all that composes a pattern.** -/
theorem ofOccurrences_conflict (h : Arranges given choice r) (hg : chosen choice = .ok r.grammar)
    (hconflict : InConflict given) :
    ∃ p others, Intent.ofOccurrences {} (given.map .argument) = .error (.conflict p others) := by
  obtain ⟨hlist, hcomposes⟩ := h.inConflict_iff.mp hconflict
  obtain ⟨d, -, hseen, heq⟩ := exists_draft h hg
  obtain ⟨p, hp, hgives⟩ := Request.composes_iff.mp hcomposes
  have hpseen : p ∈ d.seen :=
    (hseen p (Parameter.ne_grammar_of_conflictsWithList hp)).mpr hgives
  have hlistseen : .switch .list ∈ d.seen := (hseen _ (by simp)).mpr hlist
  obtain ⟨q, others, hnone⟩ := Draft.exists_conflict hlistseen hpseen hp
  exact ⟨q, others, by rw [heq, Intent.ofOccurrences, hnone]⟩

end

/-! ### The laws -/

section

variable {words : List String} {given : List Argument} {choice : Option String}

/-- The request that arguments make under a standard. -/
def requestOf (given : List Argument) (g : Standard) : Request where
  grammar := g
  rules := given.filterMap (Argument.value? .rule)
  commaRules := given.filterMap (Argument.value? .comma)
  template := (given.filterMap Argument.template?).head?
  anchor := .switch .anchor ∈ given
  keepWhitespace := .switch .keepWhitespace ∈ given
  list := .switch .list ∈ given
  verbose := .switch .verbose ∈ given

private theorem toList_head?_of_length_le_one {xs : List String} (h : xs.length ≤ 1) :
    xs.head?.toList = xs := by
  match xs, h with
  | [], _ => rfl
  | [x], _ => rfl

theorem arranges_requestOf (h : Proper given choice) {g : Standard}
    (hg : ∀ g', chosen choice = .ok g' → g' = g) : Arranges given choice (requestOf given g) where
  grammar := h.grammar
  standard := hg
  rules := rfl
  commaRules := rfl
  template := (toList_head?_of_length_le_one h.template).symm
  switches s := by
    have hset : (requestOf given g).isSet s = decide (.switch s ∈ given) := by
      cases s with
      | help => simpa [Request.isSet] using h.help
      | version => simpa [Request.isSet] using h.version
      | _ => rfl
    rw [hset]
    by_cases hs : .switch s ∈ given
    · have hcount := List.count_pos_iff.mpr hs
      have hle := h.switches s
      simp only [hs, decide_true, Bool.toNat_true]
      omega
    · simp [hs, List.count_eq_zero_of_not_mem hs]

theorem ofWords_eq (hwords : Spells words given) (h : Proper given choice) :
    Intent.ofWords words = Intent.ofOccurrences {} (given.map .argument) := by
  rw [Intent.ofWords, hwords.occurrences_eq h.template]

theorem reads (hwords : Spells words given) (h : Proper given choice) :
    Frontend.Reads (read words) given choice := by
  have hofWords := ofWords_eq hwords h
  cases hchosen : chosen choice with
  | error e =>
    have harranged := arranges_requestOf (g := .core) h (by simp [hchosen])
    obtain ⟨text, htext⟩ := ofOccurrences_invalid harranged hchosen
    rw [read, hofWords, htext]
    exact .of_refusal (fun _ _ => rfl) (by simp [hchosen])
  | ok g =>
    have harranged := arranges_requestOf (g := g) h (by simp [hchosen])
    by_cases hconflict : InConflict given
    · obtain ⟨p, others, hothers⟩ := ofOccurrences_conflict harranged hchosen hconflict
      rw [read, hofWords, hothers]
      exact .of_refusal (by simp [hchosen]) fun _ _ => ⟨hconflict, rfl⟩
    · rw [read, hofWords, ofOccurrences_eq harranged hchosen hconflict]
      exact .of_arranges harranged hchosen hconflict

theorem indented_eq {text : String} (h : '\n' ∉ text.toList) : indented text = text := by
  have hchars : ∀ c ∈ text.toList,
      (if c = '\n' then "\n    ".toList else [c]) = [c] := by
    intro c hc
    rw [if_neg]
    rintro rfl
    exact h hc
  rw [indented, List.flatMap_def, List.map_congr_left hchars, ← List.flatMap_def,
    List.flatMap_singleton', String.ofList_toList]

end

end Terminal

/-- **The front end of a terminal is lawful.** -/
theorem Frontend.terminal_lawful : Frontend.terminal.Lawful where
  read := Terminal.reads
  halt refusal hhelp hversion := by
    simp [terminal, Terminal.halt, hhelp, hversion]
  heading message cause := by
    have hheading : "\n\nCaused by:\n    " = "\n\nCaused by:\n" ++ "    " := by decide
    refine ⟨"    " ++ Terminal.indented cause, ?_⟩
    simp only [terminal, Terminal.render, hheading, String.append_assoc]
  cause message cause hline := by
    refine ⟨"", ?_⟩
    simp only [terminal, Terminal.render, Terminal.indented_eq hline, String.append_empty]

end AbnfPatterns.CommandLine
