import AbnfPatterns.Proofs.Template.Replacement

/-!
# Unresolved tokens, place by place

The reports on a template, said without the scan: there is one for each colon whose run of name
characters is not empty and starts with no known name.
-/

namespace AbnfPatterns.Template

/-- **The unresolved token at a place**: there is a colon, the run behind it is not empty, and none
of the starts of the run is a known name.  The empty start is no name. -/
def unresolvedAt (known : List Char → Bool) (text : List Char) (place : Nat) :
    Option (List Char) :=
  if text[place]? = some ':' ∧ runAt text place ≠ [] ∧
      ∀ name ∈ (runAt text place).inits, name ≠ [] → known name = false then
    some (':' :: (mark (markedAt text place) ++ runAt text place))
  else none

/-- **The unresolved tokens of a text**, from left to right. -/
def unresolvedTokens (known : List Char → Bool) (text : List Char) : List (List Char) :=
  (List.range text.length).filterMap (unresolvedAt known text)

variable {known : List Char → Bool} {text : List Char} {place : Nat}

theorem unresolvedAt_eq_none (h : text[place]? ≠ some ':') :
    unresolvedAt known text place = none :=
  if_neg fun hand => h hand.1

/-- Only the first character of a segment can be the colon of an unresolved token. -/
theorem filterMap_unresolvedAt {c : Char} {taken rest : List Char}
    (htext : text.drop place = c :: (taken ++ rest)) (hcolon : ':' ∉ taken) :
    (List.range' place (text.length - place)).filterMap (unresolvedAt known text)
      = (unresolvedAt known text place).toList ++
        (List.range' (place + (c :: taken).length)
          (text.length - (place + (c :: taken).length))).filterMap (unresolvedAt known text) := by
  have hinside :
      (List.range' (place + 1) taken.length).filterMap (unresolvedAt known text) = [] := by
    rw [List.filterMap_eq_nil_iff]
    intro j hj
    rw [List.mem_range'_1] at hj
    exact unresolvedAt_eq_none (getElem?_ne_colon htext hcolon (by omega) (by omega))
  rw [range'_cut (place_add_le htext), List.filterMap_append, List.length_cons, List.range'_succ,
    List.filterMap_cons, hinside]
  cases unresolvedAt known text place <;> rfl

theorem unresolvedAt_of_drop {rest : List Char} (htext : text.drop place = ':' :: rest) :
    unresolvedAt known text place =
      if (splitMark rest).2.takeWhile RuleName.isNameChar ≠ [] ∧
          longestName? known ((splitMark rest).2.takeWhile RuleName.isNameChar) = none then
        some (Segment.unresolved (splitMark rest).1
          ((splitMark rest).2.takeWhile RuleName.isNameChar)).source
      else none := by
  simp only [unresolvedAt, getElem?_of_drop htext, markedAt_of_drop htext, runAt_of_drop htext,
    true_and, longestName?_eq_none_iff_forall, Segment.source]

theorem report_literal (grammar : String) (c : Char) : report grammar (.literal c) = none :=
  rfl

theorem report_reference (grammar : String) (repeated : Bool) (name : List Char) :
    report grammar (.reference repeated name) = none :=
  rfl

/-- **The scan reports on the unresolved tokens, place by place.** -/
theorem filterMap_scan (named : List Char → Option Nat) (grammar : String)
    (hnamed : ∀ run, named run = (longestName? known run).map List.length) :
    (scan named (text.drop place)).filterMap (report grammar)
      = ((List.range' place (text.length - place)).filterMap (unresolvedAt known text)).map
        fun token => .unresolved (String.ofList token) grammar := by
  generalize htext : text.drop place = rest
  fun_induction scan named rest generalizing place with
  | case1 =>
    rw [List.drop_eq_nil_iff] at htext
    simp [Nat.sub_eq_zero_of_le htext]
  | case2 =>
    -- a reference
    rename_i rest marked run n hn ih
    rw [hnamed, Option.map_eq_some_iff] at hn
    obtain ⟨name, hname, rfl⟩ := hn
    have hstarts := (longestName?_eq_some_iff.1 hname).starts
    have hsplit : text.drop place
        = ':' :: ((mark marked.1 ++ name) ++ marked.2.drop name.length) := by
      rw [htext, mark_append_drop (hstarts.trans (List.takeWhile_prefix _))]
    have hnone : unresolvedAt known text place = none := by
      rw [unresolvedAt_of_drop htext, if_neg]
      rintro ⟨-, hnone⟩
      rw [hname] at hnone
      cases hnone
    rw [List.filterMap_cons, report_reference, ih (drop_of_taken hsplit),
      filterMap_unresolvedAt hsplit (colon_notMem_of_starts hstarts), hnone]
    rfl
  | case3 =>
    -- a colon without a known name behind it
    rename_i rest marked run hn ih
    rw [hnamed, Option.map_eq_none_iff] at hn
    have hsplit : text.drop place
        = ':' :: ((mark marked.1 ++ run) ++ marked.2.dropWhile RuleName.isNameChar) := by
      rw [htext, mark_append_dropWhile]
    rw [List.filterMap_cons, ih (drop_of_taken hsplit),
      filterMap_unresolvedAt hsplit (colon_notMem_of_starts List.prefix_rfl),
      unresolvedAt_of_drop htext, List.map_append]
    by_cases hrun : run = []
    · rw [if_neg fun hand => hand.1 hrun, report, hrun]
      rfl
    · rw [if_pos ⟨hrun, hn⟩, report, if_neg (by simpa using hrun)]
      rfl
  | case4 c rest hc ih =>
    -- any other character
    have hsplit : text.drop place = c :: ([] ++ rest) := htext
    have hnone : unresolvedAt known text place = none := by
      apply unresolvedAt_eq_none
      rw [← List.head?_drop, htext, List.head?_cons]
      simpa using hc
    rw [List.filterMap_cons, report_literal, ih (drop_of_taken hsplit),
      filterMap_unresolvedAt hsplit (by simp), hnone]
    rfl

/-- **The reports on a template are those on its unresolved tokens**, from left to right. -/
theorem unresolved_eq (reg : Registry) (template : String) :
    unresolved reg template
      = (unresolvedTokens reg.knows template.toList).map
        fun token => .unresolved (String.ofList token) reg.grammar.name := by
  have hscan : (scan (nameLength reg) (template.toList.drop 0)).filterMap (report reg.grammar.name)
      = ((List.range' 0 (template.toList.length - 0)).filterMap
          (unresolvedAt reg.knows template.toList)).map
        fun token => .unresolved (String.ofList token) reg.grammar.name :=
    filterMap_scan _ _ Registry.longestPrefix_length
  rw [unresolved, segments, unresolvedTokens, List.range_eq_range']
  simpa using hscan

end AbnfPatterns.Template
