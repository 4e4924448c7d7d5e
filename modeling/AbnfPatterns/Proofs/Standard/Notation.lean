import AbnfPatterns.Proofs.Abnf.Language
import AbnfPatterns.Proofs.Regex.Comparison
import AbnfPatterns.Proofs.Standard.Fragments

/-!
# Notation and fragment

The ABNF notation of a rule derives exactly the texts that its fragment matches.  Comments are the
one exception, as their notation nests without limit.  No other rule refers to itself, so the rules
are checked one by one, each after those that it refers to.
-/

namespace AbnfPatterns

/-! ### Spelled productions -/

/-- A production with the characters of its name and of its ABNF text at hand.  Cutting a text into
its characters is the one step of the check that does not compute well. -/
structure Spelled where
  production : Production
  name : List Char
  abnf : List Char
  toList_name : production.name.toList = name
  toList_abnf : production.abnf.toList = abnf

namespace Spelled

theorem toList_lines (first : List Char) (rest : List (List Char)) :
    (rest.foldl (fun text line => text ++ String.ofList line) (String.ofList first)).toList
      = first ++ rest.flatten := by
  induction rest generalizing first with
  | nil => simp
  | cons line rest ih =>
    rw [List.foldl_cons, ← String.ofList_append, ih, List.flatten_cons, List.append_assoc]

/-- A production whose ABNF text is written on one line, or on as many more as `rest` has. -/
def spell (p : Production) {name first : List Char} (rest : List (List Char) := [])
    (hname : String.ofList name = p.name := by rfl)
    (habnf : rest.foldl (fun text line => text ++ String.ofList line) (String.ofList first)
      = p.abnf := by rfl) : Spelled where
  production := p
  name := name
  abnf := first ++ rest.flatten
  toList_name := by rw [← hname, String.toList_ofList]
  toList_abnf := by rw [← habnf, toList_lines]

end Spelled

open Spelled

open CoreRules in
def spelledCore : List Spelled :=
  [spell alpha, spell bit, spell char, spell cr, spell crlf, spell ctl, spell digit, spell dquote,
    spell hexdig, spell htab, spell lf, spell lwsp, spell octet, spell sp, spell vchar, spell wsp,
    spell ows, spell rws, spell bws]

open UriRules in
def spelledUri : List Spelled :=
  [spell uri, spell hierPart, spell uriReference, spell absoluteUri, spell relativeRef,
    spell relativePart, spell scheme, spell authority, spell userinfo, spell host,
    spell portNumber, spell ipLiteral, spell ipvfuture, spell ipv6address [_, _, _, _, _, _],
    spell h16, spell ls32, spell ipv4address, spell decOctet, spell regName, spell path,
    spell pathAbempty, spell pathAbsolute, spell pathNoscheme, spell pathRootless, spell pathEmpty,
    spell segment, spell segmentNz, spell segmentNzNc, spell pchar, spell query, spell fragment,
    spell pctEncoded, spell unreserved, spell reserved, spell genDelims, spell subDelims]

open HttpRules in
def spelledHttp : List Spelled :=
  [spell tchar [_], spell token, spell obsText, spell quotedString, spell qdtext,
    spell quotedPair, spell comment, spell ctext, spell httpDate, spell date, spell imfFixdate,
    spell date1, spell dayName, spell day, spell month [_], spell year, spell timeOfDay,
    spell hour, spell minute, spell second, spell gmt, spell obsDate, spell rfc850Date,
    spell dayNameL [_], spell date2, spell asctimeDate, spell date3, spell etag, spell entityTag,
    spell weak, spell opaqueTag, spell etagc, spell fieldName, spell fieldValue,
    spell fieldContent, spell fieldVchar, spell parameters, spell parameter, spell parameterName,
    spell parameterValue, spell UriRules.uriReference, spell UriRules.absoluteUri,
    spell UriRules.relativePart, spell UriRules.authority, spell UriRules.host, spell uriHost,
    spell UriRules.portNumber, spell UriRules.pathAbempty, spell UriRules.segment,
    spell UriRules.query, spell UriRules.pathAbsolute, spell absolutePath, spell partialUri,
    spell httpUri, spell httpsUri]

namespace Standard

def spelled : Standard → List Spelled
  | core => spelledCore
  | rfc3986 => spelledUri
  | rfc9110 => spelledHttp

theorem map_spelled (s : Standard) : s.spelled.map Spelled.production = s.productions := by
  cases s <;> rfl

/-- The spelled production of a standard's own that a name leads to. -/
def findSpelled (s : Standard) (name : List Char) : Option Spelled :=
  s.spelled.find? fun e => e.name.map RuleName.keyChar == name.map RuleName.keyChar

/-- The spelled production that a name leads to, with the standard where it is at home. -/
def spelled? (name : List Char) : Standard → Option (Standard × Spelled)
  | core => (core.findSpelled name).map fun e => (core, e)
  | rfc3986 =>
    match rfc3986.findSpelled name with
    | some e => some (rfc3986, e)
    | none => (core.findSpelled name).map fun e => (core, e)
  | rfc9110 =>
    match rfc9110.findSpelled name with
    | some e => some (if (rfc3986.findSpelled name).isSome then rfc3986 else rfc9110, e)
    | none => (core.findSpelled name).map fun e => (core, e)

theorem beq_key (e : Spelled) (name : List Char) :
    (e.production.key == RuleName.key (String.ofList name))
      = (e.name.map RuleName.keyChar == name.map RuleName.keyChar) := by
  rw [Bool.eq_iff_iff, beq_iff_eq, beq_iff_eq, Production.key, ← String.toList_inj,
    RuleName.toList_key, RuleName.toList_key, e.toList_name, String.toList_ofList]

theorem find?_productions (s : Standard) (name : List Char) :
    Production.find? s.productions (String.ofList name)
      = (s.findSpelled name).map Spelled.production := by
  rw [Production.find?, ← map_spelled, List.find?_map, findSpelled]
  congr 2
  funext e
  exact beq_key e name

theorem production?_ofList (s : Standard) (name : List Char) :
    s.production? (String.ofList name)
      = (s.spelled? name).map fun found => (found.1, found.2.production) := by
  have hcore := find?_productions core name
  have huri := find?_productions rfc3986 name
  have hhttp := find?_productions rfc9110 name
  simp only [productions] at hcore huri hhttp
  cases s with
  | core =>
    rw [production?, hcore, spelled?, Option.map_map, Option.map_map]
    rfl
  | rfc3986 =>
    rw [production?, hcore, huri, spelled?]
    cases rfc3986.findSpelled name with
    | none =>
      simp only [Option.map_none, Option.map_map]
      rfl
    | some e => rfl
  | rfc9110 =>
    rw [production?, hcore, huri, hhttp, spelled?]
    cases rfc9110.findSpelled name with
    | none =>
      simp only [Option.map_none, Option.map_map]
      rfl
    | some e => simp only [Option.map_some, Option.isSome_map]

/-! ### The check -/

/-- The shape of the pattern of the rule that is referred to. -/
def ruleShape? (r : RuleReference) : Option Shape :=
  (r.1.spelled? r.2).map fun e => e.2.production.pattern.shape false

/-- **Whether the notation of a production has the shape of its pattern**, its names being read at
home. -/
def agrees (home : Standard) (e : Spelled) (body : Abnf) : Bool :=
  (body.shape? ruleShape? home).any fun t => t.same (e.production.pattern.shape false)

/-- **Check a rule** after the rules that it refers to, unless it is checked already.  The result is
the list of checked rules. -/
def check : Nat → List RuleReference → RuleReference → Option (List RuleReference)
  | 0, _, _ => none
  | depth + 1, checked, r =>
    if r ∈ checked then some checked
    else match r.1.spelled? r.2 with
      | none => none
      | some (home, e) =>
        match Abnf.read? e.abnf with
        | none => none
        | some body =>
          match (body.references home).foldlM (check depth) checked with
          | none => none
          | some checked => if agrees home e body then some (r :: checked) else none

/-- References to all rules of a standard but the one for comments. -/
def ownReferences (s : Standard) : List RuleReference :=
  (s.spelled.filter fun e => e.name ≠ ['C', 'O', 'M', 'M', 'E', 'N', 'T']).map fun e => (s, e.name)

/-- Notation and pattern of the rule that is referred to have the same language. -/
def Agree (r : RuleReference) : Prop :=
  ∃ home p body, r.1.production? (String.ofList r.2) = some (home, p)
    ∧ Abnf.read? p.abnf.toList = some body
    ∧ ∀ w, AbnfPatterns.Derives home body w ↔ w ∈ (p.pattern.shape false).language

theorem derives_iff_of_agree {r : RuleReference} {t : Shape} (h : Agree r)
    (ht : ruleShape? r = some t) (w : List Char) : r.Derives w ↔ w ∈ t.language := by
  obtain ⟨home, p, body, hfound, hread, hbody⟩ := h
  obtain ⟨⟨home', e⟩, hspelled, rfl⟩ := Option.map_eq_some_iff.1 ht
  have hfound' := production?_ofList r.1 r.2
  rw [hfound, hspelled] at hfound'
  cases hfound'
  refine Iff.trans ⟨?_, ?_⟩ (hbody w)
  · intro h
    cases h with
    | rule found read derived =>
      cases hfound.symm.trans found
      cases hread.symm.trans read
      exact derived
  · exact .rule hfound hread

/-- A production that agrees, after all that it refers to. -/
theorem agree_of_agrees {r : RuleReference} {home : Standard} {e : Spelled} {body : Abnf}
    (hspelled : r.1.spelled? r.2 = some (home, e)) (hread : Abnf.read? e.abnf = some body)
    (hreferences : ∀ q ∈ body.references home, Agree q) (h : agrees home e body = true) :
    Agree r := by
  obtain ⟨t, ht, hsame⟩ := (Option.any_eq_true _ _).1 h
  have hfound := production?_ofList r.1 r.2
  rw [hspelled, Option.map_some] at hfound
  refine ⟨home, e.production, body, hfound, e.toList_abnf ▸ hread, fun w => ?_⟩
  rw [← Shape.language_eq_of_same hsame]
  exact Abnf.derives_iff_mem_language ht
    (fun q hq t ht => derives_iff_of_agree (hreferences q hq) ht) w

/-- What a list of checks establishes, if each of them keeps what is established. -/
theorem foldlM_sound {f : List RuleReference → RuleReference → Option (List RuleReference)}
    (hf : ∀ {checked r checked'}, (∀ q ∈ checked, Agree q) → f checked r = some checked' →
      (∀ q ∈ checked', Agree q) ∧ r ∈ checked' ∧ checked ⊆ checked')
    {references checked checked' : List RuleReference} (hchecked : ∀ q ∈ checked, Agree q)
    (h : references.foldlM f checked = some checked') :
    (∀ q ∈ checked', Agree q) ∧ references ⊆ checked' ∧ checked ⊆ checked' := by
  induction references generalizing checked with
  | nil =>
    cases h
    exact ⟨hchecked, List.nil_subset _, List.Subset.refl _⟩
  | cons r references ih =>
    rw [List.foldlM_cons] at h
    obtain ⟨next, hnext, h⟩ := Option.bind_eq_some_iff.1 h
    obtain ⟨hagree, hr, hsub⟩ := hf hchecked hnext
    obtain ⟨hagree', hreferences, hsub'⟩ := ih hagree h
    exact ⟨hagree', List.cons_subset.2 ⟨hsub' hr, hreferences⟩, List.Subset.trans hsub hsub'⟩

/-- **Notation and pattern of checked rules have the same language.** -/
theorem check_sound {depth : Nat} {checked checked' : List RuleReference} {r : RuleReference}
    (hchecked : ∀ q ∈ checked, Agree q) (h : check depth checked r = some checked') :
    (∀ q ∈ checked', Agree q) ∧ r ∈ checked' ∧ checked ⊆ checked' := by
  induction depth generalizing checked r checked' with
  | zero => cases h
  | succ depth ih =>
    rw [check] at h
    split at h
    · -- checked before
      rename_i hr
      cases h
      exact ⟨hchecked, hr, List.Subset.refl _⟩
    · split at h
      · cases h
      · rename_i home e hspelled
        split at h
        · cases h
        · rename_i body hread
          split at h
          · cases h
          · rename_i next hnext
            split at h
            · rename_i hagrees
              cases h
              -- the rules that it refers to agree already, by the induction hypothesis
              obtain ⟨hagree, hreferences, hsub⟩ := foldlM_sound ih hchecked hnext
              have hr := agree_of_agrees hspelled hread (fun q hq => hagree q (hreferences hq))
                hagrees
              refine ⟨?_, List.mem_cons_self, List.Subset.trans hsub (List.subset_cons_self _ _)⟩
              exact List.forall_mem_cons.2 ⟨hr, hagree⟩
            · cases h

/-! ### All rules -/

theorem exists_checked :
    ∃ checked, (Standard.all.flatMap ownReferences).foldlM (check 20) [] = some checked :=
  Option.isSome_iff_exists.1 (by decide +kernel)

/-- Notation and pattern of every rule have the same language, but for comments. -/
theorem agree_own {s : Standard} {e : Spelled} (he : e ∈ s.spelled)
    (hname : e.name ≠ ['C', 'O', 'M', 'M', 'E', 'N', 'T']) : Agree (s, e.name) := by
  obtain ⟨checked, hchecked⟩ := exists_checked
  obtain ⟨hagree, hreferences, -⟩ :=
    foldlM_sound check_sound (fun q hq => absurd hq List.not_mem_nil) hchecked
  refine hagree _ (hreferences (List.mem_flatMap.2 ⟨s, ?_, ?_⟩))
  · cases s <;> decide
  · exact List.mem_map.2 ⟨e, List.mem_filter.2 ⟨he, decide_eq_true hname⟩, rfl⟩

theorem production?_key (s : Standard) (name : String) :
    s.production? (RuleName.key name) = s.production? name := by
  have hfind : ∀ productions, Production.find? productions (RuleName.key name)
      = Production.find? productions name := by
    intro productions
    rw [Production.find?, RuleName.key_key, Production.find?]
  cases s <;> simp only [production?, hfind]

/-- The key of a production leads to that production, if it leads to no other one. -/
theorem find?_own {productions : List Production} (hdistinct : (productions.map Production.key).Nodup)
    {p : Production} (hp : p ∈ productions) : Production.find? productions p.key = some p := by
  induction productions with
  | nil => exact absurd hp List.not_mem_nil
  | cons q rest ih =>
    rw [List.map_cons, List.nodup_cons] at hdistinct
    obtain ⟨hq, hrest⟩ := hdistinct
    rw [Production.find?, List.find?_cons]
    rcases List.mem_cons.1 hp with rfl | hp
    · rw [Production.key, RuleName.key_key, beq_self_eq_true]
    · -- another production comes first, under another key
      have hne : q.key ≠ p.key := fun heq => hq (heq ▸ List.mem_map_of_mem hp)
      rw [show RuleName.key p.key = p.key from RuleName.key_key p.name, beq_false_of_ne hne]
      have hfind := ih hrest hp
      rw [Production.find?, show RuleName.key p.key = p.key from RuleName.key_key p.name] at hfind
      exact hfind

theorem production?_own {s : Standard} {p : Production} (hp : p ∈ s.productions) :
    ∃ home, s.production? p.key = some (home, p) := by
  have hdistinct := s.grammar.table.distinct
  rw [entries_table, List.map_map] at hdistinct
  have hfind := find?_own hdistinct hp
  cases s with
  | core =>
    change Production.find? CoreRules.productions p.key = some p at hfind
    exact ⟨core, by rw [production?, hfind, Option.map_some]⟩
  | rfc3986 =>
    change Production.find? UriRules.productions p.key = some p at hfind
    exact ⟨rfc3986, by rw [production?, hfind]⟩
  | rfc9110 =>
    change Production.find? HttpRules.productions p.key = some p at hfind
    exact ⟨_, by rw [production?, hfind]⟩

/-- **A fragment matches exactly what the notation derives**, for every rule but the one for
comments. -/
theorem fragmentMatches_iff_derives {s : Standard} {key : String} {rule : Rule}
    (h : (key, rule) ∈ s.grammar.table.entries) (hkey : key ≠ "COMMENT") :
    ∃ home p body, s.production? key = some (home, p) ∧ p.rule = rule
      ∧ Abnf.read? rule.abnf.toList = some body
      ∧ ∀ w, FragmentMatches rule.fragment w ↔ AbnfPatterns.Derives home body w := by
  rw [entries_table] at h
  obtain ⟨q, hq, heq⟩ := List.mem_map.1 h
  cases heq
  obtain ⟨e, he, rfl⟩ := List.mem_map.1 (map_spelled s ▸ hq)
  have hname : e.name ≠ ['C', 'O', 'M', 'M', 'E', 'N', 'T'] := by
    intro hname
    apply hkey
    rw [Production.key, ← String.toList_inj, RuleName.toList_key, e.toList_name, hname]
    decide
  obtain ⟨home, p, body, hfound, hread, hbody⟩ := agree_own he hname
  obtain ⟨home', hown⟩ := production?_own hq
  rw [← e.toList_name, String.ofList_toList, ← production?_key] at hfound
  cases hfound.symm.trans hown
  exact ⟨home, _, body, hown, rfl, hread, fun w => (fragmentMatches_iff hq).trans (hbody w).symm⟩

/-- The numbers up to 255, which notation and fragment list in different orders. -/
theorem fragmentMatches_decOctet_iff :
    (UriRules.decOctet.key, UriRules.decOctet.rule) ∈ rfc3986.grammar.table.entries
      ∧ UriRules.decOctet.key ≠ "COMMENT"
      ∧ ∃ home p body, rfc3986.production? UriRules.decOctet.key = some (home, p)
        ∧ p.rule = UriRules.decOctet.rule ∧ Abnf.read? UriRules.decOctet.abnf.toList = some body
        ∧ ∀ w, FragmentMatches UriRules.decOctet.fragment w ↔ AbnfPatterns.Derives home body w := by
  have hentry : (UriRules.decOctet.key, UriRules.decOctet.rule)
      ∈ rfc3986.grammar.table.entries := by
    rw [entries_table]
    exact List.mem_map_of_mem (by simp [productions, UriRules.productions])
  have hkey : UriRules.decOctet.key ≠ "COMMENT" := by decide +kernel
  exact ⟨hentry, hkey, fragmentMatches_iff_derives hentry hkey⟩

end Standard

end AbnfPatterns
