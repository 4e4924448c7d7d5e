import AbnfPatterns.Regex.Reading

/-!
# Tokens of joined texts

A token of pattern text says itself where it ends, so the tokens of a text stay the same whatever
text follows.  A question mark behind a bracket is the one exception.
-/

namespace AbnfPatterns

namespace ClassItem

def lower : ClassItem → Glyph
  | one g => g
  | range lo _ => lo

def ordered : ClassItem → Bool
  | one _ => true
  | range lo hi => lo.char.toNat ≤ hi.char.toNat

/-- Whether a class can be written down: it has an entry, its ranges are in order, and it does not
start with a circumflex. -/
def spellable : List ClassItem → Bool
  | [] => false
  | first :: others => first.lower != .symbol '^' && (first :: others).all ordered

end ClassItem

def Quantifier.ordered : Quantifier → Bool
  | .between least most => least ≤ most
  | _ => true

namespace Quantifier

theorem toList_text_exactly (count : UInt64) :
    (text (.exactly count)).toList = '\x7b' :: ((decimal count).toList ++ ['\x7d']) := by
  simp [text, braced]

theorem toList_text_atLeast (least : UInt64) :
    (text (.atLeast least)).toList = '\x7b' :: ((decimal least).toList ++ [',', '\x7d']) := by
  simp [text, braced]

theorem toList_text_between (least most : UInt64) :
    (text (.between least most)).toList
      = '\x7b' :: ((decimal least).toList ++ ',' :: ((decimal most).toList ++ ['\x7d'])) := by
  simp [text, braced]

end Quantifier

/-- Whether the name of a capture is one that can be read back. -/
def GroupKind.spellable : GroupKind → Bool
  | .capture (some name) => Pattern.Token.isCaptureName name.toList
  | _ => true

namespace Pattern.Token

/-! ### Readers and what follows -/

/-- A run of characters that is cut off inside a text is cut off there in any longer text. -/
theorem takeWhile_append_of_dropWhile {p : Char → Bool} {text rest : List Char} {c : Char}
    (h : text.dropWhile p = c :: rest) (more : List Char) :
    (text ++ more).takeWhile p = text.takeWhile p
      ∧ (text ++ more).dropWhile p = c :: (rest ++ more) := by
  induction text with
  | nil => simp at h
  | cons d text ih =>
    by_cases hd : p d = true
    · rw [List.dropWhile_cons_of_pos hd] at h
      obtain ⟨htake, hdrop⟩ := ih h
      rw [List.cons_append, List.takeWhile_cons_of_pos hd, List.takeWhile_cons_of_pos hd,
        List.dropWhile_cons_of_pos hd, htake, hdrop]
      exact ⟨rfl, rfl⟩
    · rw [List.dropWhile_cons_of_neg hd] at h
      rw [List.cons_append, List.takeWhile_cons_of_neg hd, List.takeWhile_cons_of_neg hd,
        List.dropWhile_cons_of_neg hd, ← List.cons_append, h]
      exact ⟨rfl, rfl⟩

theorem readEscape_symbol {c : Char} (hc : isPunctuation c = true) (rest : List Char) :
    readEscape (c :: rest) = some (.symbol c, rest) := by
  have hx : c ≠ 'x' := by
    rintro rfl
    exact absurd hc (by decide)
  unfold readEscape
  split
  · rename_i heq
    exact absurd (List.cons.inj heq).1 hx
  · rename_i heq
    obtain ⟨rfl, rfl⟩ := List.cons.inj heq
    rw [if_pos hc]
  · rename_i heq
    cases heq

theorem readEscape_append {text rest : List Char} {g : Glyph}
    (h : readEscape text = some (g, rest)) (more : List Char) :
    readEscape (text ++ more) = some (g, rest ++ more) := by
  unfold readEscape at h
  split at h
  · split at h
    · rename_i hhigh hlow
      cases h
      simp only [List.cons_append, readEscape, hhigh, hlow]
    · cases h
  · split at h
    · rename_i hc
      cases h
      exact readEscape_symbol hc _
    · cases h
  · cases h

theorem readClassGlyph_append {text rest : List Char} {g : Glyph}
    (h : readClassGlyph text = some (g, rest)) (more : List Char) :
    readClassGlyph (text ++ more) = some (g, rest ++ more) := by
  unfold readClassGlyph at h
  split at h
  · exact readEscape_append h more
  · rename_i c _ hslash
    split at h
    · cases h
    · rename_i hc
      cases h
      simp only [List.cons_append, readClassGlyph, hc, if_false]
  · cases h

/-- An entry of a class ends where no hyphen follows, so something must follow it. -/
theorem readClassItem_append {text rest : List Char} {item : ClassItem}
    (h : readClassItem text = some (item, rest)) (hrest : rest ≠ []) (more : List Char) :
    readClassItem (text ++ more) = some (item, rest ++ more) := by
  unfold readClassItem at h
  split at h
  · cases h
  · rename_i lo after hlo
    split at h
    · cases h
    · rename_i hi last hhi
      split at h
      · rename_i hle
        cases h
        rw [readClassItem, readClassGlyph_append hlo, List.cons_append]
        simp only [readClassGlyph_append hhi, if_pos hle]
      · cases h
  · rename_i g after hhyphen hg
    -- no hyphen follows the entry, and none can come to follow it, as `rest` is not empty
    cases h
    rw [readClassItem, readClassGlyph_append hg]
    split
    · rename_i heq
      cases heq
    · rename_i lo _ heq
      obtain ⟨d, rest, rfl⟩ := List.exists_cons_of_ne_nil hrest
      cases heq
      exact absurd rfl (hhyphen rest)
    · rename_i heq
      cases heq
      rfl

theorem readClassItems_nil : readClassItems [] = none := by
  rw [readClassItems.eq_def]
  rfl

theorem readClassItems_append {text rest : List Char} {items : List ClassItem}
    (h : readClassItems text = some (items, rest)) (more : List Char) :
    readClassItems (text ++ more) = some (items, rest ++ more) := by
  fun_induction readClassItems text generalizing items with
  | case1 after =>
    cases h
    rw [List.cons_append, readClassItems]
  | case2 => cases h
  | case3 => cases h
  | case4 text hbracket item after hitem items' after' hitems ih =>
    cases h
    -- the closing bracket at least is still to come
    have hafter : after ≠ [] := by
      rintro rfl
      rw [readClassItems_nil] at hitems
      cases hitems
    have hmore := readClassItem_append hitem hafter more
    rw [readClassItems.eq_def]
    split
    · rename_i rest heq
      cases text with
      | nil => cases hitem
      | cons c text =>
        obtain ⟨rfl, -⟩ := List.cons.inj heq
        exact absurd rfl (hbracket text)
    · rw [hmore]
      simp only [ih hitems]

theorem readClass_append {text rest : List Char} {p : Piece}
    (h : readClass text = some (p, rest)) (more : List Char) :
    readClass (text ++ more) = some (p, rest ++ more) := by
  unfold readClass at h
  split at h
  · cases h
  · rename_i hhead
    have hhead' : (text ++ more).head? ≠ some '^' := by
      cases text with
      | nil =>
        rw [readClassItems_nil] at h
        cases h
      | cons c text => exact hhead
    split at h
    · rename_i hitems
      cases h
      rw [readClass, if_neg hhead', readClassItems_append hitems]
    · cases h

theorem readCount_nil : readCount [] = none := rfl

/-- Bounds are two numbers with a comma between them and a brace behind them. -/
theorem readBounds_between {text more rest : List Char} {least most : UInt64}
    (hleast : readCount (text.takeWhile Char.isDigit) = some least)
    (hcomma : text.dropWhile Char.isDigit = ',' :: more)
    (hmost : readCount (more.takeWhile Char.isDigit) = some most)
    (hbrace : more.dropWhile Char.isDigit = '\x7d' :: rest) (hle : least ≤ most) :
    readBounds text = some (.between least most, rest) := by
  rw [readBounds]
  simp only [hleast]
  split
  · rename_i heq
    rw [hcomma] at heq
    cases heq
  · rename_i heq
    -- a brace right after the comma leaves no digits for the upper bound
    rw [hcomma] at heq
    cases heq
    rw [List.takeWhile_cons_of_neg (by decide), readCount_nil] at hmost
    cases hmost
  · rename_i heq
    rw [hcomma] at heq
    cases heq
    simp only [hmost, hbrace, if_pos hle]
  · rename_i hnone
    exact absurd hcomma (hnone more)

theorem readBounds_append {text rest : List Char} {q : Quantifier}
    (h : readBounds text = some (q, rest)) (more : List Char) :
    readBounds (text ++ more) = some (q, rest ++ more) := by
  unfold readBounds at h
  split at h
  · cases h
  · rename_i least hleast
    split at h
    · rename_i hdrop
      cases h
      obtain ⟨htake, hdrop⟩ := takeWhile_append_of_dropWhile hdrop more
      simp only [readBounds, htake, hleast, hdrop]
    · rename_i hdrop
      cases h
      obtain ⟨htake, hdrop⟩ := takeWhile_append_of_dropWhile hdrop more
      simp only [readBounds, htake, hleast, hdrop, List.cons_append]
    · rename_i upper _ hdrop
      split at h
      · rename_i hmost hdrop'
        split at h
        · rename_i hle
          cases h
          obtain ⟨htake, hdrop⟩ := takeWhile_append_of_dropWhile hdrop more
          obtain ⟨htake', hdrop'⟩ := takeWhile_append_of_dropWhile hdrop' more
          exact readBounds_between (htake ▸ hleast) hdrop (htake' ▸ hmost) hdrop' hle
        · cases h
      · cases h
    · cases h

theorem readCaptureName_append {text rest : List Char} {kind : GroupKind}
    (h : readCaptureName text = some (kind, rest)) (more : List Char) :
    readCaptureName (text ++ more) = some (kind, rest ++ more) := by
  simp only [readCaptureName] at h
  split at h
  · rename_i hdrop
    split at h
    · rename_i hname
      cases h
      obtain ⟨htake, hdrop⟩ := takeWhile_append_of_dropWhile hdrop more
      simp only [readCaptureName, htake, hdrop, if_pos hname]
    · cases h
  · cases h

/-- A bracket that nothing follows may open any kind of group. -/
theorem readOpening_append {text rest : List Char} {kind : GroupKind}
    (h : readOpening text = some (kind, rest)) (htext : text ≠ []) (more : List Char) :
    readOpening (text ++ more) = some (kind, rest ++ more) := by
  unfold readOpening at h
  split at h
  · cases h
    rfl
  · cases h
    rfl
  · cases h
    rfl
  · exact readCaptureName_append h more
  · cases h
  · rename_i hquestion
    -- a bare bracket: the first character of `text` still decides that it is one
    cases h
    obtain ⟨c, text, rfl⟩ := List.exists_cons_of_ne_nil htext
    rw [List.cons_append]
    unfold readOpening
    split
    all_goals first
      | rename_i heq
        obtain ⟨rfl, -⟩ := List.cons.inj heq
        exact absurd rfl (hquestion text)
      | rfl

theorem readFirst_append {c : Char} {text rest : List Char} {t : Token}
    (h : readFirst c text = some (t, rest)) (hopen : c = '(' → text ≠ []) (more : List Char) :
    readFirst c (text ++ more) = some (t, rest ++ more) := by
  unfold readFirst at h ⊢
  split at h
  · obtain ⟨⟨g, after⟩, hread, heq⟩ := Option.map_eq_some_iff.1 h
    cases heq
    rw [readEscape_append hread]
    rfl
  · obtain ⟨⟨p, after⟩, hread, heq⟩ := Option.map_eq_some_iff.1 h
    cases heq
    rw [readClass_append hread]
    rfl
  · obtain ⟨⟨kind, after⟩, hread, heq⟩ := Option.map_eq_some_iff.1 h
    cases heq
    rw [readOpening_append hread (hopen rfl)]
    rfl
  · cases h
    rfl
  · cases h
    rfl
  · cases h
    rfl
  · cases h
    rfl
  · cases h
    rfl
  · obtain ⟨⟨q, after⟩, hread, heq⟩ := Option.map_eq_some_iff.1 h
    cases heq
    rw [readBounds_append hread]
    rfl
  · split at h
    · cases h
    · cases h
      simp only [*, if_false]

/-! ### Tokens of a text -/

@[simp] theorem readAll_nil : readAll [] = some [] := by
  rw [readAll]

theorem readAll_cons {c : Char} {text rest : List Char} {t : Token}
    (h : readFirst c text = some (t, rest)) :
    readAll (c :: text) = (readAll rest).map (t :: ·) := by
  rw [readAll]
  split
  · rename_i hnone
    rw [hnone] at h
    cases h
  · rename_i t' rest' hsome
    rw [hsome] at h
    cases h
    split <;> simp [*]

/-- **The tokens of joined texts** are those of the first and those of the second, unless the first
ends with a bare bracket. -/
theorem readAll_append {text : List Char} {tokens : List Token}
    (h : readAll text = some tokens)
    (hlast : ∀ t ∈ tokens.getLast?, t ≠ .opening (.capture none)) (more : List Char) :
    readAll (text ++ more) = (readAll more).map (tokens ++ ·) := by
  fun_induction readAll text generalizing tokens with
  | case1 =>
    cases h
    simp
  | case2 => cases h
  | case3 => cases h
  | case4 c text t rest hfirst ts hrest ih =>
    cases h
    -- a bracket at the end of the text would be its last token
    have hopen : c = '(' → text ≠ [] := by
      rintro rfl rfl
      cases hfirst
      rw [readAll_nil] at hrest
      cases hrest
      exact hlast _ rfl rfl
    have hlast' : ∀ t ∈ ts.getLast?, t ≠ .opening (.capture none) := by
      intro u hu
      apply hlast u
      rw [List.getLast?_cons, Option.mem_def.1 hu]
      rfl
    rw [List.cons_append, readAll_cons (readFirst_append hfirst hopen more), ih hrest hlast',
      Option.map_map]
    rfl

/-- A text that is one token, whatever follows. -/
theorem readAll_singleton {c : Char} {text : List Char} {t : Token}
    (h : readFirst c text = some (t, [])) : readAll (c :: text) = some [t] := by
  rw [readAll_cons h, readAll_nil]
  rfl

/-! ### Written tokens -/

theorem hexValue?_hexDigit : ∀ n < 16, hexValue? (PatternText.hexDigit n) = some n := by
  decide

theorem readEscape_hexChar (byte : UInt8) (rest : List Char) :
    readEscape ('x' :: PatternText.hexDigit (byte.toNat / 16)
      :: PatternText.hexDigit (byte.toNat % 16) :: rest) = some (.code byte, rest) := by
  have hlt := byte.toNat_lt
  have hhigh := hexValue?_hexDigit (byte.toNat / 16) (by omega)
  have hlow := hexValue?_hexDigit (byte.toNat % 16) (by omega)
  simp only [readEscape, hhigh, hlow, Nat.div_add_mod, UInt8.ofNat_toNat]

theorem isPunctuation_of_mem {c : Char} (h : c ∈ Piece.operators) : isPunctuation c = true := by
  have hall : Piece.operators.all isPunctuation = true := by decide
  exact List.all_eq_true.1 hall c h

theorem isPunctuation_of_mem_class {c : Char} (h : c ∈ ClassItem.operators) :
    isPunctuation c = true := by
  have hall : ClassItem.operators.all isPunctuation = true := by decide
  exact List.all_eq_true.1 hall c h

theorem readFirst_symbol {c : Char} (hc : c ∉ Piece.operators) (rest : List Char) :
    readFirst c rest = some (.piece (.glyph (.symbol c)), rest) := by
  unfold readFirst
  split
  all_goals first
    | exact absurd (by decide) hc
    | rw [if_neg hc]

theorem readAll_text_glyph (g : Glyph) :
    readAll (g.text Piece.operators).toList = some [.piece (.glyph g)] := by
  cases g with
  | symbol c =>
    simp only [Glyph.text]
    split
    · rename_i hc
      rw [String.toList_ofList]
      apply readAll_singleton
      simp only [readFirst, readEscape_symbol (isPunctuation_of_mem hc), Option.map_some]
    · rename_i hc
      rw [String.toList_ofList]
      exact readAll_singleton (readFirst_symbol hc [])
  | code byte =>
    rw [Glyph.text, PatternText.hexChar, String.toList_ofList]
    apply readAll_singleton
    simp only [readFirst, readEscape_hexChar, Option.map_some]

theorem readClassGlyph_text (g : Glyph) (rest : List Char) :
    readClassGlyph ((g.text ClassItem.operators).toList ++ rest) = some (g, rest) := by
  cases g with
  | symbol c =>
    simp only [Glyph.text]
    split
    · rename_i hc
      rw [String.toList_ofList]
      exact readEscape_symbol (isPunctuation_of_mem_class hc) rest
    · rename_i hc
      have hslash : c ≠ '\\' := by
        rintro rfl
        exact hc (by decide)
      simp only [String.toList_ofList, List.cons_append, List.nil_append, readClassGlyph, hc,
        if_false]
  | code byte =>
    rw [Glyph.text, PatternText.hexChar, String.toList_ofList]
    exact readEscape_hexChar byte rest

/-- A written character of a class starts with a backslash, or is no operator. -/
theorem text_glyph_eq_cons (g : Glyph) (rest : List Char) :
    ∃ c text, (g.text ClassItem.operators).toList ++ rest = c :: text
      ∧ (c = '\\' ∨ g = .symbol c ∧ c ∉ ClassItem.operators) := by
  cases g with
  | symbol c =>
    simp only [Glyph.text]
    split
    · rw [String.toList_ofList]
      exact ⟨_, _, rfl, .inl rfl⟩
    · rename_i hc
      rw [String.toList_ofList]
      exact ⟨_, _, rfl, .inr ⟨rfl, hc⟩⟩
  | code byte =>
    rw [Glyph.text, PatternText.hexChar, String.toList_ofList]
    exact ⟨_, _, rfl, .inl rfl⟩

theorem text_item_eq_cons (item : ClassItem) (rest : List Char) :
    ∃ c text, item.text.toList ++ rest = c :: text
      ∧ (c = '\\' ∨ item.lower = .symbol c ∧ c ∉ ClassItem.operators) := by
  cases item with
  | one g => exact text_glyph_eq_cons g rest
  | range lo hi =>
    simp only [ClassItem.text, String.toList_append, List.append_assoc]
    exact text_glyph_eq_cons lo _

/-- A written entry of a class does not start with a character that ends the entry before it, or
the class. -/
theorem ne_of_starts_item {item : ClassItem} {c : Char}
    (h : c = '\\' ∨ item.lower = .symbol c ∧ c ∉ ClassItem.operators) : c ≠ '-' ∧ c ≠ ']' := by
  obtain rfl | ⟨-, hc⟩ := h
  · exact ⟨by decide, by decide⟩
  · refine ⟨?_, ?_⟩
    · rintro rfl
      exact hc (by decide)
    · rintro rfl
      exact hc (by decide)

theorem readClassItem_text {item : ClassItem} (hitem : item.ordered = true) {rest : List Char}
    (hrest : ∀ c ∈ rest.head?, c ≠ '-') :
    readClassItem (item.text.toList ++ rest) = some (item, rest) := by
  cases item with
  | one g =>
    rw [ClassItem.text, readClassItem, readClassGlyph_text]
    -- a hyphen in front of the rest would make the entry a range
    cases rest with
    | nil => rfl
    | cons c rest =>
      have hc : c ≠ '-' := hrest c rfl
      split
      · rename_i heq
        cases heq
      · rename_i heq
        cases heq
        exact absurd rfl hc
      · rename_i heq
        cases heq
        rfl
  | range lo hi =>
    have hle : lo.char.toNat ≤ hi.char.toNat := of_decide_eq_true hitem
    have htext : (ClassItem.text (.range lo hi)).toList ++ rest
        = (lo.text ClassItem.operators).toList
          ++ '-' :: ((hi.text ClassItem.operators).toList ++ rest) := by
      simp [ClassItem.text]
    rw [htext, readClassItem, readClassGlyph_text]
    simp only [readClassGlyph_text, if_pos hle]

theorem readClassItems_text {items : List ClassItem} (hitems : ∀ item ∈ items, item.ordered = true)
    (rest : List Char) :
    readClassItems ((items.map ClassItem.text).flatMap String.toList ++ ']' :: rest)
      = some (items, rest) := by
  induction items with
  | nil =>
    rw [List.map_nil, List.flatMap_nil, List.nil_append, readClassItems]
  | cons item items ih =>
    have ih := ih fun i hi => hitems i (List.mem_cons_of_mem _ hi)
    -- what follows an entry is the next one or the closing bracket, but no hyphen
    have hrest : ∀ c ∈ ((items.map ClassItem.text).flatMap String.toList ++ ']' :: rest).head?,
        c ≠ '-' := by
      intro c hc
      cases items with
      | nil =>
        cases hc
        decide
      | cons next items =>
        obtain ⟨d, text, heq, hd⟩ := text_item_eq_cons next
          ((items.map ClassItem.text).flatMap String.toList ++ ']' :: rest)
        rw [List.map_cons, List.flatMap_cons, List.append_assoc, heq] at hc
        cases hc
        exact (ne_of_starts_item hd).1
    have hread := readClassItem_text (hitems item List.mem_cons_self) hrest
    rw [List.map_cons, List.flatMap_cons, List.append_assoc]
    rw [readClassItems.eq_def]
    split
    · rename_i after heq
      -- an entry does not start with the closing bracket
      obtain ⟨d, text, heq', hd⟩ := text_item_eq_cons item
        ((items.map ClassItem.text).flatMap String.toList ++ ']' :: rest)
      rw [heq'] at heq
      exact absurd (List.cons.inj heq).1 (ne_of_starts_item hd).2
    · rw [hread]
      simp only [ih]

theorem readAll_text_class {items : List ClassItem} (hitems : ClassItem.spellable items = true) :
    readAll (Piece.text (.charIn items)).toList = some [.piece (.charIn items)] := by
  obtain ⟨item, items, rfl⟩ : ∃ item rest, items = item :: rest := by
    cases items with
    | nil => cases hitems
    | cons item items => exact ⟨item, items, rfl⟩
  simp only [ClassItem.spellable, Bool.and_eq_true, bne_iff_ne, ne_eq] at hitems
  obtain ⟨hcircumflex, hordered⟩ := hitems
  have hread := readClassItems_text (List.all_eq_true.1 hordered) []
  have htext : (Piece.text (.charIn (item :: items))).toList
      = '[' :: (((item :: items).map ClassItem.text).flatMap String.toList ++ [']']) := by
    simp [Piece.text, String.toList_join]
  -- a circumflex in front is no entry but negates the class
  have hhead : (((item :: items).map ClassItem.text).flatMap String.toList ++ [']']).head?
      ≠ some '^' := by
    obtain ⟨c, text, heq, hc⟩ := text_item_eq_cons item
      ((items.map ClassItem.text).flatMap String.toList ++ [']'])
    rw [List.map_cons, List.flatMap_cons, List.append_assoc, heq]
    rintro heq'
    cases heq'
    exact hc.elim (by decide) fun h => hcircumflex h.1
  rw [htext]
  apply readAll_singleton
  simp only [readFirst, readClass, if_neg hhead, hread, Option.map_some]

theorem readCount_decimal (n : UInt64) : readCount (Quantifier.decimal n).toList = some n := by
  have hlt := n.toNat_lt
  have hdigits : (Quantifier.decimal n).toList = Nat.toDigits 10 n.toNat := Nat.toList_repr
  have hne : Nat.toDigits 10 n.toNat ≠ [] := Nat.toDigits_ne_nil
  rw [hdigits, readCount, Nat.ofDigitChars_ten_toDigits, if_neg (not_or.2 ⟨hne, Nat.not_le.2 hlt⟩),
    UInt64.ofNat_toNat]

/-- A written number is cut off at the character behind it. -/
theorem takeWhile_decimal (n : UInt64) {c : Char} (hc : c.isDigit = false) (rest : List Char) :
    ((Quantifier.decimal n).toList ++ c :: rest).takeWhile Char.isDigit
        = (Quantifier.decimal n).toList
      ∧ ((Quantifier.decimal n).toList ++ c :: rest).dropWhile Char.isDigit = c :: rest := by
  have hdigits : ∀ d ∈ (Quantifier.decimal n).toList, d.isDigit = true := by
    intro d hd
    rw [Quantifier.decimal, Nat.toList_repr] at hd
    exact Nat.isDigit_of_mem_toDigits (by decide) (by decide) hd
  rw [List.takeWhile_append_of_pos hdigits, List.dropWhile_append_of_pos hdigits,
    List.takeWhile_cons_of_neg (by simp [hc]), List.dropWhile_cons_of_neg (by simp [hc]),
    List.append_nil]
  exact ⟨rfl, rfl⟩

theorem readAll_text_quantifier {q : Quantifier} (hq : q.ordered = true) :
    readAll q.text.toList = some [.quantifier q] := by
  cases q with
  | zeroOrOne => exact readAll_singleton rfl
  | zeroOrMore => exact readAll_singleton rfl
  | oneOrMore => exact readAll_singleton rfl
  | exactly count =>
    obtain ⟨htake, hdrop⟩ := takeWhile_decimal count (c := '\x7d') (by decide) []
    rw [Quantifier.toList_text_exactly]
    apply readAll_singleton
    simp only [readFirst, readBounds, htake, hdrop, readCount_decimal, Option.map_some]
  | atLeast least =>
    obtain ⟨htake, hdrop⟩ := takeWhile_decimal least (c := ',') (by decide) ['\x7d']
    rw [Quantifier.toList_text_atLeast]
    apply readAll_singleton
    simp only [readFirst, readBounds, htake, hdrop, readCount_decimal, Option.map_some]
  | between least most =>
    obtain ⟨htake, hdrop⟩ := takeWhile_decimal least (c := ',') (by decide)
      ((Quantifier.decimal most).toList ++ ['\x7d'])
    obtain ⟨htake', hdrop'⟩ := takeWhile_decimal most (c := '\x7d') (by decide) []
    rw [Quantifier.toList_text_between]
    apply readAll_singleton
    have hbounds := readBounds_between (by rw [htake, readCount_decimal]) hdrop
      (by rw [htake', readCount_decimal]) hdrop' (of_decide_eq_true hq)
    simp only [readFirst, hbounds, Option.map_some]

theorem isCaptureNameChar_of_mem {name : List Char} (hname : isCaptureName name = true) :
    ∀ c ∈ name, isCaptureNameChar c = true := by
  cases name with
  | nil => cases hname
  | cons first others =>
    simp only [isCaptureName, Bool.and_eq_true, Bool.or_eq_true] at hname
    obtain ⟨hfirst, hothers⟩ := hname
    intro c hc
    rcases List.mem_cons.1 hc with rfl | hc
    · rw [isCaptureNameChar, Char.isAlphanum]
      rcases hfirst with h | h
      · simp [h]
      · simp [h]
    · exact List.all_eq_true.1 hothers c hc

/-- A written bracket with a proper name is one token; a bare one must not be followed by a
question mark. -/
theorem readAll_opening {kind : GroupKind} (hkind : kind.spellable = true) {text : List Char}
    (htext : kind = .capture none → text.head? ≠ some '?') :
    readAll (kind.opening.toList ++ text) = (readAll text).map (.opening kind :: ·) := by
  cases kind with
  | plain => exact readAll_cons rfl
  | ignoreCase => exact readAll_cons rfl
  | notAhead => exact readAll_cons rfl
  | capture name =>
    cases name with
    | none =>
      have hquestion : text.head? ≠ some '?' := htext rfl
      have hopening : (GroupKind.opening (.capture none)).toList ++ text = '(' :: text := by
        simp [GroupKind.opening]
      have hopen : readOpening text = some (.capture none, text) := by
        unfold readOpening
        split
        all_goals first
          | exact absurd rfl hquestion
          | rfl
      rw [hopening]
      apply readAll_cons
      simp only [readFirst, hopen, Option.map_some]
    | some name =>
      have hname : isCaptureName name.toList = true := hkind
      have hchars : ∀ c ∈ name.toList, isCaptureNameChar c = true := isCaptureNameChar_of_mem hname
      have hopening : (GroupKind.opening (.capture (some name))).toList ++ text
          = '(' :: '?' :: '<' :: (name.toList ++ '>' :: text) := by
        simp [GroupKind.opening]
      rw [hopening]
      apply readAll_cons
      have hread : readCaptureName (name.toList ++ '>' :: text)
          = some (.capture (some name), text) := by
        rw [readCaptureName, List.takeWhile_append_of_pos hchars,
          List.dropWhile_append_of_pos hchars, List.takeWhile_cons_of_neg (by decide),
          List.dropWhile_cons_of_neg (by decide), List.append_nil]
        simp only [if_pos hname, String.ofList_toList]
      simp only [readFirst, readOpening, hread, Option.map_some]

end Pattern.Token

end AbnfPatterns
