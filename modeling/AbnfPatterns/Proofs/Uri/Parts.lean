import AbnfPatterns.Proofs.Regex.Preference
import AbnfPatterns.Proofs.Uri.Marks

/-!
# The parts of a reference

A reference is taken apart at its marks.  The rules allow some of them inside of the parts as well,
but never where a mark of the reference could be meant.
-/

namespace AbnfPatterns.Uri

open UriRules (pathAbempty pathAbsolute pathRootless pathNoscheme pathEmpty hierPart relativePart
  uri relativeRef uriReference slashedSegments authorityAndPath optionalQuery optionalFragment)
open Pattern

variable {w : List Char}

/-! ### Paths -/

theorem head?_slashedSegments (hw : w ∈ slashedSegments.texts) : ∀ c ∈ w.head?, c = '/' := by
  have hfirsts : (slashedSegments.shape false).firsts = CharSet.ofText "/" := by decide +kernel
  intro c hc
  have hmem := mem_firsts_of_head? hw c hc
  rw [hfirsts, CharSet.mem_ofText] at hmem
  exact List.mem_singleton.1 hmem

/-- An absolute path starts with one slash. -/
theorem exists_of_mem_pathAbsolute (hw : w ∈ pathAbsolute.pattern.texts) :
    ∃ v, w = '/' :: v ∧ ∀ c ∈ v.head?, c ≠ '/' := by
  obtain ⟨v, hv, rfl⟩ := mem_texts_literal_append.1 hw
  refine ⟨v, rfl, ?_⟩
  rintro c hc rfl
  exact absurd (mem_firsts_of_head? hv '/' hc) (by decide +kernel)

/-- The first segment of a path without a colon in it ends at the first slash. -/
theorem clear_pathNoscheme (hw : w ∈ pathNoscheme.pattern.texts) : Clear ':' ['/'] w := by
  obtain ⟨u, hu, t, ht, rfl⟩ := mem_texts_append.1 hw
  have hcolon : ':' ∉ u := not_mem_of_texts hu (by decide +kernel)
  have hslash : '/' ∉ u := not_mem_of_texts hu (by decide +kernel)
  exact ⟨u, t, rfl, List.forall_mem_cons.2 ⟨hcolon, List.forall_mem_singleton.2 hslash⟩,
    fun c hc => List.mem_singleton.2 (head?_slashedSegments ht c hc)⟩

/-! ### References -/

/-- **The parts of a reference.** -/
@[ext] structure Parts where
  scheme : Option (List Char)
  authority : Option (List Char)
  path : List Char
  query : Option (List Char)
  fragment : Option (List Char)

namespace Parts

/-- The authority with two slashes in front of it, and the path. -/
def hierarchy (p : Parts) : List Char :=
  preceded "//" p.authority ++ p.path

/-- **The text that the parts make up**, with the marks between them. -/
def text (p : Parts) : List Char :=
  followed ":" p.scheme ++ p.hierarchy ++ preceded "?" p.query ++ preceded "#" p.fragment

end Parts

section

variable (scheme authority : Option (List Char)) (path : List Char)

/-- The rule for what stands behind the scheme, or at the start if there is none. -/
def hierarchyRule : Production :=
  match scheme with
  | some _ => hierPart
  | none => relativePart

/-- The rule for paths that stand right behind the scheme, or at the start. -/
def bareRule : Production :=
  match scheme with
  | some _ => pathRootless
  | none => pathNoscheme

/-- Whether the path is one of those that the rules allow in its place. -/
def PathFits : Prop :=
  match authority with
  | some _ => path ∈ pathAbempty.language
  | none => path ∈ pathAbsolute.language ∨ path ∈ (bareRule scheme).language ∨ path = []

variable {scheme authority path}

theorem hierarchyRule_mem : hierarchyRule scheme ∈ UriRules.productions := by
  cases scheme <;> simp [hierarchyRule, UriRules.productions]

theorem bareRule_mem : bareRule scheme ∈ UriRules.productions := by
  cases scheme <;> simp [bareRule, UriRules.productions]

theorem chars_hierarchyRule : (hierarchyRule scheme).chars = hierPart.chars := by
  cases scheme with
  | none =>
    show relativePart.chars = hierPart.chars
    decide +kernel
  | some s => rfl

theorem slash_not_mem_firsts : '/' ∉ ((bareRule scheme).pattern.shape false).firsts := by
  cases scheme with
  | none => decide +kernel
  | some s =>
    show '/' ∉ (pathRootless.pattern.shape false).firsts
    decide +kernel

/-- A path without an authority does not start like one. -/
theorem PathFits.ne_slashes (h : PathFits scheme none path) (s : List Char) :
    path ≠ '/' :: '/' :: s := by
  intro heq
  rcases h with h | h | h
  · rw [mem_language_iff (by simp [UriRules.productions])] at h
    obtain ⟨v, hv, hhead⟩ := exists_of_mem_pathAbsolute h
    obtain ⟨-, rfl⟩ := List.cons.inj (heq.symm.trans hv)
    exact hhead '/' rfl rfl
  · rw [mem_language_iff bareRule_mem] at h
    exact slash_not_mem_firsts (mem_firsts_of_head? h '/' (by rw [heq]; rfl))
  · rw [h] at heq
    cases heq

/-- Without a scheme, the first colon of a path is behind a slash. -/
theorem PathFits.clear (h : PathFits none none path) : Clear ':' ['/'] path := by
  rcases h with h | h | h
  · rw [mem_language_iff (by simp [UriRules.productions])] at h
    obtain ⟨v, rfl, -⟩ := exists_of_mem_pathAbsolute h
    exact ⟨[], _, rfl, by simp, by simp⟩
  · rw [mem_language_iff bareRule_mem] at h
    exact clear_pathNoscheme h
  · rw [h]
    exact ⟨[], [], rfl, by simp, by simp⟩

end

namespace Parts

/-- **The parts are what the rules say.** -/
structure Fits (p : Parts) : Prop where
  scheme : ∀ s ∈ p.scheme, s ∈ UriRules.scheme.language
  authority : ∀ a ∈ p.authority, a ∈ UriRules.authority.language
  query : ∀ q ∈ p.query, q ∈ UriRules.query.language
  fragment : ∀ f ∈ p.fragment, f ∈ UriRules.fragment.language
  hierarchy : p.hierarchy ∈ (hierarchyRule p.scheme).language
  path : PathFits p.scheme p.authority p.path

variable {p q : Parts} {c : Char}

/-! ### One way to take a reference apart -/

/-- The marks of the query and of the fragment do not occur in front of them. -/
theorem Fits.not_mem_front (h : p.Fits) (hc : c = '?' ∨ c = '#') :
    c ∉ followed ":" p.scheme ++ p.hierarchy := by
  have hchars : (c ∉ UriRules.scheme.chars ∧ c ∉ ":".toList) ∧ c ∉ hierPart.chars := by
    rcases hc with rfl | rfl
    · decide +kernel
    · decide +kernel
  rw [← chars_hierarchyRule] at hchars
  exact List.not_mem_append
    (not_mem_followed (by simp [UriRules.productions]) h.scheme hchars.1)
    (not_mem_of_mem_language hierarchyRule_mem h.hierarchy hchars.2)

/-- The mark of the fragment does not occur in the query. -/
theorem Fits.not_mem_query (h : p.Fits) : '#' ∉ preceded "?" p.query :=
  not_mem_preceded (by simp [UriRules.productions]) h.query (by decide +kernel)

theorem Fits.not_mem_scheme (h : p.Fits) : ∀ s ∈ p.scheme, ∀ e ∈ [':', '/'], e ∉ s := by
  intro s hs
  have hmem : UriRules.scheme ∈ UriRules.productions := by simp [UriRules.productions]
  refine List.forall_mem_cons.2 ⟨?_, List.forall_mem_singleton.2 ?_⟩
  · exact not_mem_of_mem_language hmem (h.scheme s hs) (by decide +kernel)
  · exact not_mem_of_mem_language hmem (h.scheme s hs) (by decide +kernel)

/-- Without a scheme, the first colon is behind a slash. -/
theorem Fits.clear_hierarchy (h : p.Fits) (hscheme : p.scheme = none) :
    Clear ':' ['/'] p.hierarchy := by
  have hpath := h.path
  rw [Parts.hierarchy]
  cases hauthority : p.authority with
  | none =>
    rw [hscheme, hauthority] at hpath
    exact hpath.clear
  | some a =>
    refine ⟨[], _, rfl, by simp, ?_⟩
    rintro c ⟨⟩
    decide

/-- An authority ends at the first slash behind it. -/
theorem Fits.authority_ends (h : p.Fits) {a : List Char} (hauthority : p.authority = some a) :
    '/' ∉ a ∧ ∀ c ∈ p.path.head?, c = '/' := by
  have hpath := h.path
  rw [hauthority] at hpath
  constructor
  · exact not_mem_of_mem_language (by simp [UriRules.productions]) (h.authority a hauthority)
      (by decide +kernel)
  · exact head?_slashedSegments ((mem_language_iff (by simp [UriRules.productions])).1 hpath)

theorem Fits.eq_of_hierarchy_eq (hp : p.Fits) (hq : q.Fits) (h : p.hierarchy = q.hierarchy) :
    p.authority = q.authority ∧ p.path = q.path := by
  have hpath := hp.path
  have hpath' := hq.path
  rw [Parts.hierarchy, Parts.hierarchy] at h
  cases ha : p.authority with
  | none =>
    rw [ha, preceded, List.nil_append] at h
    cases hb : q.authority with
    | none =>
      rw [hb, preceded, List.nil_append] at h
      exact ⟨rfl, h⟩
    | some b =>
      rw [ha] at hpath
      rw [hb] at h
      exact absurd h (hpath.ne_slashes _)
  | some a =>
    rw [ha] at h
    cases hb : q.authority with
    | none =>
      rw [hb] at hpath'
      rw [hb, preceded, List.nil_append] at h
      exact absurd h.symm (hpath'.ne_slashes _)
    | some b =>
      rw [hb, preceded, preceded, List.append_assoc, List.append_assoc] at h
      obtain ⟨hslash, hhead⟩ := hp.authority_ends ha
      obtain ⟨hslash', hhead'⟩ := hq.authority_ends hb
      obtain ⟨rfl, hpath⟩ := eq_of_append_eq_of_delimiter hslash hslash' hhead hhead'
        (List.append_cancel_left h)
      exact ⟨rfl, hpath⟩

/-- **Other parts make up another text.** -/
theorem eq_of_text_eq (hp : p.Fits) (hq : q.Fits) (h : p.text = q.text) : p = q := by
  have hnumber : ∀ {r : Parts}, r.Fits →
      '#' ∉ followed ":" r.scheme ++ r.hierarchy ++ preceded "?" r.query := fun hr =>
    List.not_mem_append (hr.not_mem_front (.inr rfl)) hr.not_mem_query
  obtain ⟨h, hfragment⟩ := append_preceded_inj rfl (hnumber hp) (hnumber hq) h
  obtain ⟨h, hquery⟩ := append_preceded_inj rfl (hp.not_mem_front (.inl rfl))
    (hq.not_mem_front (.inl rfl)) h
  obtain ⟨hscheme, h⟩ := followed_append_inj rfl (by decide) hp.not_mem_scheme hq.not_mem_scheme
    hp.clear_hierarchy hq.clear_hierarchy h
  obtain ⟨hauthority, hpath⟩ := hp.eq_of_hierarchy_eq hq h
  exact Parts.ext hscheme hauthority hpath hquery hfragment

/-! ### References have parts -/

theorem mem_texts_pathEmpty : w ∈ pathEmpty.pattern.texts ↔ w = [] := by
  rw [pathEmpty, notAhead, texts_singleton]
  exact Shape.mem_language_nothing

/-- The alternatives for what stands behind the scheme, or at the start. -/
theorem pattern_hierarchyRule (scheme : Option (List Char)) :
    (hierarchyRule scheme).pattern = anyOf [authorityAndPath, pathAbsolute.pattern,
      (bareRule scheme).pattern, pathEmpty.pattern] := by
  cases scheme <;> rfl

theorem exists_hierarchy {scheme : Option (List Char)}
    (hw : w ∈ (hierarchyRule scheme).pattern.texts) :
    ∃ authority path, w = preceded "//" authority ++ path
      ∧ (∀ a ∈ authority, a ∈ UriRules.authority.language) ∧ PathFits scheme authority path := by
  rw [pattern_hierarchyRule, mem_texts_anyOf] at hw
  simp only [List.mem_cons, List.not_mem_nil, or_false, exists_eq_or_imp, exists_eq_left,
    mem_texts_pathEmpty] at hw
  rcases hw with hw | hw
  · rw [authorityAndPath, mem_texts_append] at hw
    obtain ⟨_, hslashes, path, hpath, rfl⟩ := hw
    obtain ⟨a, ha, rfl⟩ := mem_texts_literal_append.1 hslashes
    refine ⟨some a, path, rfl, ?_, ?_⟩
    · rintro _ ⟨⟩
      exact (mem_language_iff (by simp [UriRules.productions])).2 ha
    · exact (mem_language_iff (by simp [UriRules.productions])).2 hpath
  · refine ⟨none, w, rfl, ?_, ?_⟩
    · rintro _ ⟨⟩
    · exact hw.imp (mem_language_iff (by simp [UriRules.productions])).2
        (Or.imp_left (mem_language_iff bareRule_mem).2)

/-- What stands behind a scheme, or at the start, has parts. -/
theorem exists_parts {scheme : Option (List Char)}
    (hscheme : ∀ s ∈ scheme, s ∈ UriRules.scheme.language)
    (hw : w ∈ ((hierarchyRule scheme).pattern ++ optionalQuery ++ optionalFragment).texts) :
    ∃ p : Parts, p.Fits ∧ p.scheme = scheme ∧ p.text = followed ":" scheme ++ w := by
  rw [mem_texts_append] at hw
  obtain ⟨_, hfront, _, hlast, rfl⟩ := hw
  obtain ⟨h, hh, _, hmiddle, rfl⟩ := mem_texts_append.1 hfront
  obtain ⟨query, hquery, rfl⟩ :=
    (mem_texts_preceded (p := UriRules.query) (by simp [UriRules.productions])).1 hmiddle
  obtain ⟨fragment, hfragment, rfl⟩ :=
    (mem_texts_preceded (p := UriRules.fragment) (by simp [UriRules.productions])).1 hlast
  obtain ⟨authority, path, rfl, hauthority, hpath⟩ := exists_hierarchy hh
  refine ⟨⟨scheme, authority, path, query, fragment⟩,
    ⟨hscheme, hauthority, hquery, hfragment, ?_, hpath⟩, rfl, ?_⟩
  · exact (mem_language_iff hierarchyRule_mem).2 hh
  · simp only [text, Parts.hierarchy, List.append_assoc]

theorem exists_parts_uri (hw : w ∈ uri.language) :
    ∃ p : Parts, p.Fits ∧ p.scheme ≠ none ∧ p.text = w := by
  rw [mem_language_iff (by simp [UriRules.productions]), uri] at hw
  simp only [List.append_assoc] at hw
  obtain ⟨s, hs, v, hv, rfl⟩ := mem_texts_append_literal_append.1 hw
  rw [← List.append_assoc] at hv
  have hscheme : ∀ t ∈ some s, t ∈ UriRules.scheme.language := by
    rintro _ ⟨⟩
    exact (mem_language_iff (by simp [UriRules.productions])).2 hs
  obtain ⟨p, hp, hsome, htext⟩ := exists_parts hscheme hv
  refine ⟨p, hp, by simp [hsome], ?_⟩
  rw [htext, followed, List.append_assoc]

theorem exists_parts_relativeRef (hw : w ∈ relativeRef.language) :
    ∃ p : Parts, p.Fits ∧ p.scheme = none ∧ p.text = w := by
  rw [mem_language_iff (by simp [UriRules.productions])] at hw
  exact exists_parts (by simp) hw

/-- Each reference has its parts. -/
theorem existsUnique (hw : w ∈ uriReference.language) : ∃! p : Parts, p.Fits ∧ p.text = w := by
  rw [mem_language_iff (by simp [UriRules.productions]), uriReference, mem_texts_anyOf] at hw
  simp only [List.mem_cons, List.not_mem_nil, or_false, exists_eq_or_imp, exists_eq_left] at hw
  obtain ⟨p, hp, htext⟩ : ∃ p : Parts, p.Fits ∧ p.text = w := by
    rcases hw with hw | hw
    · obtain ⟨p, hp, -, htext⟩ :=
        exists_parts_uri ((mem_language_iff (by simp [UriRules.productions])).2 hw)
      exact ⟨p, hp, htext⟩
    · obtain ⟨p, hp, -, htext⟩ :=
        exists_parts_relativeRef ((mem_language_iff (by simp [UriRules.productions])).2 hw)
      exact ⟨p, hp, htext⟩
  refine ⟨p, ⟨hp, htext⟩, ?_⟩
  rintro q ⟨hq, htext'⟩
  exact eq_of_text_eq hq hp (htext'.trans htext.symm)

end Parts

/-! ### Authorities -/

/-- **The parts of an authority.** -/
@[ext] structure AuthorityParts where
  userinfo : Option (List Char)
  host : List Char
  port : Option (List Char)

namespace AuthorityParts

/-- **The text that the parts make up**, with the marks between them. -/
def text (p : AuthorityParts) : List Char :=
  followed "@" p.userinfo ++ p.host ++ preceded ":" p.port

/-- **The parts are what the rules say.** -/
structure Fits (p : AuthorityParts) : Prop where
  userinfo : ∀ u ∈ p.userinfo, u ∈ UriRules.userinfo.language
  host : p.host ∈ UriRules.host.language
  port : ∀ n ∈ p.port, n ∈ UriRules.portNumber.language

variable {p q : AuthorityParts}

/-- A host in brackets ends at the closing one, and any other host has no colon in it. -/
theorem bracketed_or_clear (hw : w ∈ UriRules.host.language) :
    (∃ v, w = '[' :: (v ++ [']']) ∧ ']' ∉ v) ∨ ':' ∉ w ∧ '[' ∉ w := by
  rw [mem_language_iff (by simp [UriRules.productions]), UriRules.host, mem_texts_anyOf] at hw
  simp only [List.mem_cons, List.not_mem_nil, or_false, exists_eq_or_imp, exists_eq_left] at hw
  rcases hw with hw | hw | hw
  · rw [UriRules.ipLiteral, List.append_assoc] at hw
    obtain ⟨_, hbracketed, rfl⟩ := mem_texts_literal_append.1 hw
    obtain ⟨v, hv, _, hclose, rfl⟩ := mem_texts_append.1 hbracketed
    rw [mem_texts_literal.1 hclose]
    exact .inl ⟨v, rfl, not_mem_of_texts hv (by decide +kernel)⟩
  · exact .inr ⟨not_mem_of_texts hw (by decide +kernel), not_mem_of_texts hw (by decide +kernel)⟩
  · exact .inr ⟨not_mem_of_texts hw (by decide +kernel), not_mem_of_texts hw (by decide +kernel)⟩

theorem Fits.not_mem_rest (h : p.Fits) {c : Char} (hhost : c ∉ p.host)
    (hc : c ∉ ":".toList ∧ c ∉ UriRules.portNumber.chars) : c ∉ p.host ++ preceded ":" p.port :=
  List.not_mem_append hhost (not_mem_preceded (by simp [UriRules.productions]) h.port hc)

theorem Fits.not_mem_userinfo (h : p.Fits) : ∀ u ∈ p.userinfo, ∀ e ∈ ['@'], e ∉ u := by
  intro u hu e he
  obtain rfl := List.mem_singleton.1 he
  exact not_mem_of_mem_language (by simp [UriRules.productions]) (h.userinfo u hu)
    (by decide +kernel)

/-- The mark of the user information does not occur behind it. -/
theorem Fits.clear_rest (h : p.Fits) : Clear '@' [] (p.host ++ preceded ":" p.port) := by
  refine ⟨_, [], (List.append_nil _).symm, ?_, by simp⟩
  intro e he
  obtain rfl := List.mem_singleton.1 he
  refine h.not_mem_rest ?_ (by decide +kernel)
  exact not_mem_of_mem_language (by simp [UriRules.productions]) h.host (by decide +kernel)

/-- A bracket at the start tells hosts in brackets from other hosts. -/
theorem Fits.ne_bracketed (h : p.Fits) (hhost : '[' ∉ p.host) (s : List Char) :
    p.host ++ preceded ":" p.port ≠ '[' :: s := by
  intro heq
  refine h.not_mem_rest hhost (by decide +kernel) ?_
  rw [heq]
  exact List.mem_cons_self

theorem Fits.eq_of_rest_eq (hp : p.Fits) (hq : q.Fits)
    (h : p.host ++ preceded ":" p.port = q.host ++ preceded ":" q.port) :
    p.host = q.host ∧ p.port = q.port := by
  rcases bracketed_or_clear hp.host with ⟨u, hu, hclose⟩ | ⟨hcolon, hopen⟩
  · rcases bracketed_or_clear hq.host with ⟨v, hv, hclose'⟩ | ⟨-, hopen'⟩
    · rw [hu, hv, List.cons_append, List.cons_append, List.append_assoc, List.append_assoc] at h
      obtain ⟨rfl, hrest⟩ := eq_of_append_eq_of_delimiter hclose hclose' (by simp) (by simp)
        (List.cons.inj h).2
      exact ⟨hu.trans hv.symm, preceded_inj (by simp) (List.append_cancel_left hrest)⟩
    · rw [hu] at h
      exact absurd h.symm (hq.ne_bracketed hopen' _)
  · rcases bracketed_or_clear hq.host with ⟨v, hv, -⟩ | ⟨hcolon', -⟩
    · rw [hv] at h
      exact absurd h (hp.ne_bracketed hopen _)
    · exact append_preceded_inj rfl hcolon hcolon' h

/-- **Other parts make up another text.** -/
theorem eq_of_text_eq (hp : p.Fits) (hq : q.Fits) (h : p.text = q.text) : p = q := by
  rw [text, text, List.append_assoc, List.append_assoc] at h
  obtain ⟨huserinfo, h⟩ := followed_append_inj rfl List.not_mem_nil hp.not_mem_userinfo
    hq.not_mem_userinfo (fun _ => hp.clear_rest) (fun _ => hq.clear_rest) h
  obtain ⟨hhost, hport⟩ := hp.eq_of_rest_eq hq h
  exact AuthorityParts.ext huserinfo hhost hport

/-- Each authority has its parts. -/
theorem existsUnique (hw : w ∈ UriRules.authority.language) :
    ∃! p : AuthorityParts, p.Fits ∧ p.text = w := by
  rw [mem_language_iff (by simp [UriRules.productions]), UriRules.authority, mem_texts_append] at hw
  obtain ⟨_, hfront, _, hlast, rfl⟩ := hw
  obtain ⟨_, hfirst, host, hhost, rfl⟩ := mem_texts_append.1 hfront
  obtain ⟨userinfo, huserinfo, rfl⟩ :=
    (mem_texts_followed (p := UriRules.userinfo) (by simp [UriRules.productions])).1 hfirst
  obtain ⟨port, hport, rfl⟩ :=
    (mem_texts_preceded (p := UriRules.portNumber) (by simp [UriRules.productions])).1 hlast
  rw [← mem_language_iff (by simp [UriRules.productions])] at hhost
  have hfits : (AuthorityParts.mk userinfo host port).Fits := ⟨huserinfo, hhost, hport⟩
  refine ⟨_, ⟨hfits, rfl⟩, ?_⟩
  rintro q ⟨hq, htext⟩
  exact eq_of_text_eq hq hfits htext

end AuthorityParts

/-- **References and authorities are unambiguous**: no text is both a URI and a relative reference,
and there is one way to write a reference, or an authority, as its parts. -/
theorem existsUnique_parts :
    (∀ w, ¬ (FragmentMatches uri.fragment w ∧ FragmentMatches relativeRef.fragment w))
      ∧ (∀ w, FragmentMatches uriReference.fragment w → ∃! p : Parts, p.Fits ∧ p.text = w)
      ∧ ∀ w, FragmentMatches UriRules.authority.fragment w →
        ∃! p : AuthorityParts, p.Fits ∧ p.text = w := by
  refine ⟨?_, fun w => Parts.existsUnique, fun w => AuthorityParts.existsUnique⟩
  rintro w ⟨huri, hrelative⟩
  obtain ⟨p, hp, hsome, htext⟩ := Parts.exists_parts_uri huri
  obtain ⟨q, hq, hnone, htext'⟩ := Parts.exists_parts_relativeRef hrelative
  -- the same parts would have a scheme and have none
  obtain rfl := Parts.eq_of_text_eq hp hq (htext.trans htext'.symm)
  exact hsome hnone

/-- Colons in the user information, the host and the path, and a question mark in the fragment. -/
theorem existsUnique_parts_of_marks :
    FragmentMatches uriReference.fragment "h://u:p@[v1.:]:8/a:b?c/d#?".toList
      ∧ FragmentMatches UriRules.authority.fragment "u:p@[v1.:]:8".toList
      ∧ (∃! p : Parts, p.Fits ∧ p.text = "h://u:p@[v1.:]:8/a:b?c/d#?".toList)
      ∧ ∃! p : AuthorityParts, p.Fits ∧ p.text = "u:p@[v1.:]:8".toList := by
  obtain ⟨-, hreference, hauthority⟩ := existsUnique_parts
  have hw : FragmentMatches uriReference.fragment "h://u:p@[v1.:]:8/a:b?c/d#?".toList := by
    rw [Production.fragment, fragmentMatches_text_iff_nil_mem (by decide +kernel)]
    decide +kernel
  have hw' : FragmentMatches UriRules.authority.fragment "u:p@[v1.:]:8".toList := by
    rw [Production.fragment, fragmentMatches_text_iff_nil_mem (by decide +kernel)]
    decide +kernel
  exact ⟨hw, hw', hreference _ hw, hauthority _ hw'⟩

end AbnfPatterns.Uri
