import AbnfPatterns.Proofs.Composer.Additions
import AbnfPatterns.Proofs.Regex.Spacing
import AbnfPatterns.Proofs.Registry.Layers
import AbnfPatterns.Proofs.Standard.Fragments
import AbnfPatterns.Proofs.Template.Replacement
import Mathlib.Data.List.TakeWhile

/-!
# Templates without their blanks

To drop the ASCII blanks of a template and to resolve it is the same as to resolve it and to drop
the blanks then, as long as no token comes about, or gets longer, where blanks kept parts apart.
-/

namespace AbnfPatterns

/-- **A registry without ASCII blanks** in its fragments. -/
def Registry.HasBlankFreeFragments (reg : Registry) : Prop :=
  ∀ name, ∀ rule ∈ reg.get? name, BlankFree rule.fragment

namespace Template

variable {text rest : List Char} {left right c : Char}

/-! ### Blanks inside of tokens -/

/-- Whether a name character may follow inside a token. -/
def LeadsName (left : Char) : Prop :=
  left = ':' ∨ left = '#' ∨ RuleName.isNameChar left = true

instance (left : Char) : Decidable (LeadsName left) :=
  inferInstanceAs (Decidable (_ ∨ _))

/-- **Characters that can be next to each other inside a token**: a name character behind the colon,
the number sign or another name character, or the number sign behind the colon. -/
def Joins (left right : Char) : Prop :=
  RuleName.isNameChar right = true ∧ LeadsName left ∨ right = '#' ∧ left = ':'

instance (left right : Char) : Decidable (Joins left right) :=
  inferInstanceAs (Decidable (_ ∨ _))

/-- **A text in which no blanks keep the characters of a token apart.** -/
def Spaced (text : List Char) : Prop :=
  ∀ before left blanks right after, text = before ++ left :: (blanks ++ right :: after) →
    blanks ≠ [] → (∀ c ∈ blanks, isAsciiBlank c = true) → ¬ Joins left right

theorem Spaced.of_suffix {last : List Char} (h : Spaced text) (hlast : last <:+ text) :
    Spaced last := by
  obtain ⟨first, rfl⟩ := hlast
  rintro before left blanks right after rfl
  exact h (first ++ before) left blanks right after (List.append_assoc _ _ _).symm

/-- A text without its ASCII blanks. -/
def compact (text : List Char) : List Char :=
  text.filter fun c => !isAsciiBlank c

theorem compact_cons_of_blank (h : isAsciiBlank c = true) (rest : List Char) :
    compact (c :: rest) = compact rest := by
  simp [compact, h]

theorem compact_cons_of_not_blank (h : isAsciiBlank c = false) (rest : List Char) :
    compact (c :: rest) = c :: compact rest := by
  simp [compact, h]

/-- Name characters are no blanks. -/
theorem compact_append_of_name {name : List Char} (h : ∀ c ∈ name, RuleName.isNameChar c = true)
    (rest : List Char) : compact (name ++ rest) = name ++ compact rest := by
  rw [compact, List.filter_append, List.filter_eq_self.2, compact]
  intro c hc
  rw [isAsciiBlank_of_isNameChar (h c hc)]
  rfl

theorem compact_drop {n : Nat} (h : n ≤ (text.takeWhile RuleName.isNameChar).length) :
    (compact text).drop n = compact (text.drop n) := by
  have hname : ∀ c ∈ (text.takeWhile RuleName.isNameChar).take n, RuleName.isNameChar c = true :=
    fun c hc => List.mem_takeWhile_imp (List.mem_of_mem_take hc)
  have hlength : ((text.takeWhile RuleName.isNameChar).take n).length = n :=
    List.length_take_of_le h
  have htext := List.prefix_append_drop
    ((List.take_prefix n _).trans (List.takeWhile_prefix (l := text) RuleName.isNameChar))
  rw [hlength] at htext
  calc (compact text).drop n
      = (compact ((text.takeWhile RuleName.isNameChar).take n ++ text.drop n)).drop n := by
        rw [← htext]
    _ = compact (text.drop n) := by
        rw [compact_append_of_name hname, List.drop_left' hlength]

/-- Behind a character of a spaced text, dropped blanks bring no character forward that could go on
with its token. -/
theorem Spaced.head?_compact (h : Spaced (left :: text)) (hright : (compact text).head? = some right) :
    text.head? = some right ∨ ¬ Joins left right := by
  obtain ⟨others, hothers⟩ := List.head?_eq_some_iff.1 hright
  obtain ⟨blanks, after, rfl, hblanks, -, -⟩ := List.filter_eq_cons_iff.1 hothers
  cases blanks with
  | nil => exact .inl rfl
  | cons c blanks =>
    refine .inr (h [] left (c :: blanks) right after rfl (List.cons_ne_nil _ _) ?_)
    simpa using hblanks

theorem Joins.not_blank (h : Joins left right) : isAsciiBlank right = false := by
  obtain ⟨hname, -⟩ | ⟨rfl, -⟩ := h
  · exact isAsciiBlank_of_isNameChar hname
  · decide

/-- A spaced text, character by character. -/
theorem spaced_cons :
    Spaced (left :: text) ↔
      (∀ right ∈ (compact text).head?, text.head? = some right ∨ ¬ Joins left right) ∧
        Spaced text := by
  constructor
  · intro h
    exact ⟨fun right hright => h.head?_compact hright, h.of_suffix (List.suffix_cons left text)⟩
  · rintro ⟨hhead, hrest⟩ before left' blanks right after heq hne hblanks hjoins
    cases before with
    | cons c before =>
      exact hrest before left' blanks right after (List.cons.inj heq).2 hne hblanks hjoins
    | nil =>
      obtain ⟨rfl, rfl⟩ := List.cons.inj heq
      have hnone : blanks.filter (fun c => !isAsciiBlank c) = [] := by simpa using hblanks
      have hcompact : (compact (blanks ++ right :: after)).head? = some right := by
        rw [compact, List.filter_append, hnone, List.nil_append, ← compact,
          compact_cons_of_not_blank hjoins.not_blank, List.head?_cons]
      cases blanks with
      | nil => exact hne rfl
      | cons c blanks =>
        refine (hhead right hcompact).elim (fun hc => ?_) (fun hapart => hapart hjoins)
        obtain rfl : c = right := Option.some.inj hc
        exact absurd (hblanks c List.mem_cons_self) (by rw [hjoins.not_blank]; decide)

instance decidableSpaced : (text : List Char) → Decidable (Spaced text)
  | [] => .isTrue fun before _ _ _ _ h => absurd h (by cases before <;> simp)
  | left :: text =>
    have := decidableSpaced text
    -- there is at most one character to be tried
    have : Decidable
        (∀ right ∈ (compact text).head?, text.head? = some right ∨ ¬ Joins left right) :=
      (compact text).head?.decidableForallMem
    decidable_of_iff' _ spaced_cons

/-- Blanks may stand around tokens, but not behind the colon of a name. -/
example : Spaced "(\t:bit :nope )+".toList ∧ ¬ Spaced ": bit".toList := by
  decide

/-! ### Marks and runs -/

theorem splitMark_of_ne (h : text.head? ≠ some '#') : splitMark text = (false, text) := by
  cases text with
  | nil => rfl
  | cons c text =>
    have hc : c ≠ '#' := fun hc => h (congrArg some hc)
    simp [splitMark, hc]

/-- The number sign of a token stays where it is, and none comes about. -/
theorem Spaced.splitMark_compact (h : Spaced (':' :: rest)) :
    splitMark (compact rest) = ((splitMark rest).1, compact (splitMark rest).2) := by
  by_cases hmark : rest.head? = some '#'
  · obtain ⟨others, rfl⟩ := List.head?_eq_some_iff.1 hmark
    rfl
  · rw [splitMark_of_ne hmark, splitMark_of_ne]
    intro hcompact
    exact (h.head?_compact hcompact).elim hmark fun hjoins => hjoins (.inr ⟨rfl, rfl⟩)

/-- A run of name characters stays as it is, and does not go on behind blanks. -/
theorem Spaced.takeWhile_compact (h : Spaced (left :: text)) (hleft : LeadsName left) :
    (compact text).takeWhile RuleName.isNameChar = text.takeWhile RuleName.isNameChar := by
  induction text generalizing left with
  | nil => rfl
  | cons c text ih =>
    by_cases hc : RuleName.isNameChar c = true
    · rw [compact_cons_of_not_blank (isAsciiBlank_of_isNameChar hc),
        List.takeWhile_cons_of_pos hc, List.takeWhile_cons_of_pos hc,
        ih (h.of_suffix (List.suffix_cons left _)) (.inr (.inr hc))]
    · rw [List.takeWhile_cons_of_neg hc]
      cases hcompact : compact (c :: text) with
      | nil => rfl
      | cons right others =>
        refine List.takeWhile_cons_of_neg fun hright => ?_
        rcases h.head?_compact (congrArg List.head? hcompact) with heq | hjoins
        · exact hc (Option.some.inj heq ▸ hright)
        · exact hjoins (.inl ⟨hright, hleft⟩)

/-- What stands in front of the run of a token. -/
theorem Spaced.exists_before_run (h : Spaced (':' :: rest)) :
    ∃ left, LeadsName left ∧ Spaced (left :: (splitMark rest).2) := by
  by_cases hmark : rest.head? = some '#'
  · obtain ⟨others, rfl⟩ := List.head?_eq_some_iff.1 hmark
    exact ⟨'#', .inr (.inl rfl), h.of_suffix (List.suffix_cons ':' _)⟩
  · rw [splitMark_of_ne hmark]
    exact ⟨':', .inl rfl, h⟩

theorem Spaced.dropWhile_compact (h : Spaced (left :: text)) (hleft : LeadsName left) :
    (compact text).dropWhile RuleName.isNameChar
      = compact (text.dropWhile RuleName.isNameChar) := by
  have hrun := h.takeWhile_compact hleft
  have hname : ∀ c ∈ text.takeWhile RuleName.isNameChar, RuleName.isNameChar c = true :=
    fun c hc => List.mem_takeWhile_imp hc
  -- the run is the same in front of both
  have hsplit : text.takeWhile RuleName.isNameChar ++ (compact text).dropWhile RuleName.isNameChar
      = text.takeWhile RuleName.isNameChar ++ compact (text.dropWhile RuleName.isNameChar) := by
    rw [← compact_append_of_name hname, List.takeWhile_append_dropWhile, ← hrun,
      List.takeWhile_append_dropWhile]
  exact List.append_cancel_left hsplit

/-! ### Segments -/

/-- Whether a segment is an ASCII blank. -/
def Segment.isBlank : Segment → Bool
  | literal c => isAsciiBlank c
  | reference _ _ => false
  | unresolved _ _ => false

/-- **The segments of a spaced text without its blanks** are those of the text without the blanks
among them.  The induction follows the scan of the text, of which an end is left at each step. -/
theorem scan_filter {named : List Char → Option Nat}
    (hnamed : ∀ run n, named run = some n → n ≤ run.length) (h : Spaced text) :
    scan named (compact text) = (scan named text).filter fun s => !s.isBlank := by
  have hcolon : isAsciiBlank ':' = false := by decide
  fun_induction scan named text with
  | case1 =>
    rw [compact, List.filter_nil, scan, List.filter_nil]
  | case2 rest marked run n hn ih =>
    -- a reference
    obtain ⟨left, hleft, hspaced⟩ := h.exists_before_run
    have hmark := h.splitMark_compact
    have hrun := hspaced.takeWhile_compact hleft
    have hlen : n ≤ run.length := hnamed run n hn
    have hscan : named ((splitMark (compact rest)).2.takeWhile RuleName.isNameChar) = some n := by
      rw [hmark, hrun]
      exact hn
    have hrest : Spaced (marked.2.drop n) :=
      hspaced.of_suffix ((List.drop_suffix n _).trans (List.suffix_cons left _))
    rw [compact_cons_of_not_blank hcolon, scan_colon_of_named hscan, hmark, hrun,
      compact_drop hlen, ih hrest, List.filter_cons_of_pos rfl]
  | case3 rest marked run hn ih =>
    -- a colon without a known name behind it
    obtain ⟨left, hleft, hspaced⟩ := h.exists_before_run
    have hmark := h.splitMark_compact
    have hrun := hspaced.takeWhile_compact hleft
    have hscan : named ((splitMark (compact rest)).2.takeWhile RuleName.isNameChar) = none := by
      rw [hmark, hrun]
      exact hn
    have hrest : Spaced (marked.2.dropWhile RuleName.isNameChar) :=
      hspaced.of_suffix ((List.dropWhile_suffix _).trans (List.suffix_cons left _))
    rw [compact_cons_of_not_blank hcolon, scan_colon_of_unnamed hscan, hmark, hrun,
      hspaced.dropWhile_compact hleft, ih hrest, List.filter_cons_of_pos rfl]
  | case4 c rest hc ih =>
    -- any other character, possibly a blank
    have hrest := ih (h.of_suffix (List.suffix_cons c rest))
    cases hblank : isAsciiBlank c with
    | true =>
      rw [compact_cons_of_blank hblank, hrest, List.filter_cons_of_neg]
      simp [Segment.isBlank, hblank]
    | false =>
      rw [compact_cons_of_not_blank hblank, scan_cons_of_ne hc, hrest, List.filter_cons_of_pos]
      simp [Segment.isBlank, hblank]

/-- The only blanks among the characters of a template are segments of their own. -/
theorem not_blank_of_mem_scan {named : List Char → Option Nat} {s : Segment}
    (hs : s ∈ scan named text) (hblank : s.isBlank = false) :
    ∀ c ∈ s.source, isAsciiBlank c = false := by
  have htoken : ∀ (repeated : Bool) {name : List Char},
      (∀ c ∈ name, RuleName.isNameChar c = true) →
      ∀ c ∈ ':' :: (mark repeated ++ name), isAsciiBlank c = false := by
    intro repeated name hname
    rw [List.forall_mem_cons, List.forall_mem_append]
    refine ⟨by decide, ?_, fun c hc => isAsciiBlank_of_isNameChar (hname c hc)⟩
    cases repeated with
    | false => exact fun c hc => absurd hc List.not_mem_nil
    | true => exact List.forall_mem_singleton.2 (by decide)
  fun_induction scan named text with
  | case1 => exact absurd hs List.not_mem_nil
  | case2 rest marked run n hn ih =>
    rcases List.mem_cons.1 hs with rfl | hs
    · exact htoken _ fun c hc => List.mem_takeWhile_imp (List.mem_of_mem_take hc)
    · exact ih hs
  | case3 rest marked run hn ih =>
    rcases List.mem_cons.1 hs with rfl | hs
    · exact htoken _ fun c hc => List.mem_takeWhile_imp hc
    · exact ih hs
  | case4 c rest hc ih =>
    rcases List.mem_cons.1 hs with rfl | hs
    · exact List.forall_mem_singleton.2 hblank
    · exact ih hs

/-- No blank is reported. -/
theorem filterMap_report_filter (grammar : String) (segs : List Segment) :
    (segs.filter fun s => !s.isBlank).filterMap (report grammar)
      = segs.filterMap (report grammar) := by
  rw [List.filterMap_filter]
  congr 1
  funext s
  cases s with
  | literal c => simp [report]
  | reference repeated name => rfl
  | unresolved repeated run => rfl

/-! ### Resolved templates -/

variable {reg : Registry} {whitespace : String}

/-- Nothing but a blank of the template is resolved to text with blanks. -/
theorem blankFree_expand {named : List Char → Option Nat} {s : Segment}
    (hreg : reg.HasBlankFreeFragments) (hwhitespace : BlankFree whitespace)
    (hs : s ∈ scan named text) (hblank : s.isBlank = false) :
    BlankFree (expand reg whitespace s) := by
  have hsource : BlankFree (String.ofList s.source) := by
    intro c hc
    rw [String.toList_ofList] at hc
    exact not_blank_of_mem_scan hs hblank c hc
  cases s with
  | literal c => exact hsource
  | unresolved repeated run => exact hsource
  | reference repeated name =>
    rw [expand]
    split
    · exact hsource
    · rename_i rule hrule
      have hfragment := hreg _ rule hrule
      split
      · have hcomma : BlankFree "," := by decide
        exact hfragment.append (.append (.append (by decide)
          (.append (.append (hwhitespace.append hcomma) hwhitespace) hfragment)) (by decide))
      · exact hfragment

theorem compact_of_blankFree {s : String} (h : BlankFree s) : compact s.toList = s.toList := by
  rw [compact, List.filter_eq_self]
  intro c hc
  rw [h c hc]
  rfl

/-- To drop the blanks of what segments stand for is to leave the blank segments out. -/
theorem compact_flatMap_expand {segs : List Segment}
    (h : ∀ s ∈ segs, s.isBlank = false → BlankFree (expand reg whitespace s)) :
    compact (segs.flatMap fun s => (expand reg whitespace s).toList)
      = (segs.filter fun s => !s.isBlank).flatMap fun s => (expand reg whitespace s).toList := by
  induction segs with
  | nil => rfl
  | cons s segs ih =>
    have hrest := ih fun s' hs' => h s' (List.mem_cons_of_mem s hs')
    rw [List.flatMap_cons, compact, List.filter_append, ← compact, ← compact, hrest]
    cases hblank : s.isBlank with
    | true =>
      cases s with
      | literal c =>
        have hnone : compact (expand reg whitespace (.literal c)).toList = [] := by
          rw [expand, String.toList_ofList, compact_cons_of_blank hblank, compact, List.filter_nil]
        rw [hnone, List.filter_cons_of_neg (by simp [hblank]), List.nil_append]
      | reference repeated name => cases hblank
      | unresolved repeated run => cases hblank
    | false =>
      rw [compact_of_blankFree (h s List.mem_cons_self hblank),
        List.filter_cons_of_pos (by simp [hblank]), List.flatMap_cons]

theorem toList_collapseBlanks (template : String) :
    (collapseBlanks template).toList = compact template.toList :=
  String.toList_ofList

theorem segments_collapseBlanks (reg : Registry) {template : String}
    (h : Spaced template.toList) :
    segments reg (collapseBlanks template)
      = (segments reg template).filter fun s => !s.isBlank := by
  rw [segments, toList_collapseBlanks, scan_filter (fun _ _ => length_of_nameLength) h, segments]

/-- **Blanks can be dropped before or after a template is resolved.** -/
theorem resolve_collapseBlanks (hreg : reg.HasBlankFreeFragments)
    (hwhitespace : BlankFree whitespace) {template : String} (h : Spaced template.toList) :
    resolve reg whitespace (collapseBlanks template)
      = collapseBlanks (resolve reg whitespace template) := by
  rw [← String.toList_inj, toList_collapseBlanks, toList_resolve, toList_resolve,
    segments_collapseBlanks reg h, compact_flatMap_expand]
  intro s hs hblank
  exact blankFree_expand hreg hwhitespace hs hblank

theorem unresolved_collapseBlanks (reg : Registry) {template : String}
    (h : Spaced template.toList) :
    unresolved reg (collapseBlanks template) = unresolved reg template := by
  rw [unresolved, segments_collapseBlanks reg h, filterMap_report_filter, unresolved]

end Template

/-! ### The standards -/

namespace Standard

theorem blankFree_fragment {s : Standard} {p : Production} (hp : p ∈ s.productions) :
    BlankFree p.fragment := by
  have hpattern : p.pattern.blankFree = true := by
    revert p
    cases s <;> decide +kernel
  exact Pattern.blankFree_text hpattern

/-- A blank is written by its code in the fragments of the standards. -/
theorem hasBlankFreeFragments (s : Standard) :
    (Registry.ofGrammar s.grammar).HasBlankFreeFragments := by
  intro name rule hrule
  obtain ⟨home, p, hp, rfl⟩ := exists_production (Grammar.mem_entries_of_index hrule)
  exact blankFree_fragment hp

theorem blankFree_optionalWhitespace : BlankFree optionalWhitespace :=
  blankFree_fragment (s := core) (by simp [productions, CoreRules.productions])

end Standard

namespace Template

/-- **To collapse a template changes its spacing only**, unless it joins the parts of a token.

* For the grammar of a standard and a template in which no blanks keep the characters of a token
  apart, the template without its ASCII blanks is resolved to what the template is resolved to,
  without the ASCII blanks.  The reports are the same.
* Templates with the same characters but for space, tab, line feed, form feed and carriage return
  are the same piece for every composer that drops blanks. -/
theorem collapse_commutes :
    (∀ (s : Standard) (template : String), Spaced template.toList →
      resolve (.ofGrammar s.grammar) optionalWhitespace (collapseBlanks template)
        = collapseBlanks (resolve (.ofGrammar s.grammar) optionalWhitespace template) ∧
      unresolved (.ofGrammar s.grammar) (collapseBlanks template)
        = unresolved (.ofGrammar s.grammar) template) ∧
    ∀ (c : Composer) (first second : String),
      (first.toList.filter fun d => d ∉ [' ', '\t', '\n', '\x0c', '\r'])
        = (second.toList.filter fun d => d ∉ [' ', '\t', '\n', '\x0c', '\r']) →
      ∃ expansion, c.add (.template first true) = .ok (c.append expansion.text, expansion) ∧
        c.add (.template second true) = .ok (c.append expansion.text, expansion) := by
  constructor
  · intro s template h
    exact ⟨resolve_collapseBlanks s.hasBlankFreeFragments Standard.blankFree_optionalWhitespace h,
      unresolved_collapseBlanks _ h⟩
  · intro c first second h
    have hblanks : (fun d => decide (d ∉ [' ', '\t', '\n', '\x0c', '\r']))
        = fun d => !isAsciiBlank d := by
      funext d
      rw [Bool.eq_iff_iff]
      simp [isAsciiBlank, and_assoc]
    rw [hblanks] at h
    have hcollapsed : collapseBlanks first = collapseBlanks second := congrArg String.ofList h
    refine ⟨_, rfl, ?_⟩
    rw [Composer.add, Registry.expand, if_pos rfl, ← hcollapsed]
    rfl

/-- Blanks between two references, and one in the middle of a name that is dropped all the same. -/
theorem collapse_commutes_bits :
    Spaced "(\t:bit :nope )+ :#Bit\n".toList ∧
      collapseBlanks (resolve (.ofGrammar Standard.core.grammar) optionalWhitespace
          "(\t:bit :nope )+ :#Bit\n")
        = "([01]:nope)+[01](?:" ++ optionalWhitespace ++ "," ++ optionalWhitespace ++ "[01])" ∧
      unresolved (.ofGrammar Standard.core.grammar) (collapseBlanks "(\t:bit :nope )+ :#Bit\n")
        = [.unresolved ":nope" "CORE"] ∧
      ∃ expansion, (Composer.ofGrammar Standard.core.grammar).add (.template ":b it\u00A0" true)
          = .ok ((Composer.ofGrammar Standard.core.grammar).append expansion.text, expansion) ∧
        (Composer.ofGrammar Standard.core.grammar).add (.template "\t:bit\u00A0 \n" true)
          = .ok ((Composer.ofGrammar Standard.core.grammar).append expansion.text, expansion) := by
  have hspaced : Spaced "(\t:bit :nope )+ :#Bit\n".toList := by decide
  obtain ⟨hresolve, hreports⟩ := collapse_commutes.1 .core _ hspaced
  refine ⟨hspaced, ?_, ?_, collapse_commutes.2 _ _ _ (by decide)⟩
  · rw [← hresolve]
    decide +kernel
  · rw [hreports]
    decide +kernel

end Template

end AbnfPatterns
