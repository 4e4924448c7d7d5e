import AbnfPatterns.Rule.Basic
import AbnfPatterns.Proofs.CharSet.Runs

/-!
# Sets put together from ranges and texts

The character sets of rules are unions of ranges of characters and the characters of texts.  A union
holds what its pieces hold, whatever their order, number and grouping.
-/

namespace AbnfPatterns

/-- What sets of characters are put together from. -/
inductive CharPiece where
  /-- The characters from `lo` through `hi`, none if `hi` comes first. -/
  | range (lo hi : Char)
  | text (s : String)
  deriving DecidableEq, Repr

namespace CharPiece

def Holds (c : Char) : CharPiece → Prop
  | range lo hi => lo ≤ c ∧ c ≤ hi
  | text s => c ∈ s.toList

instance : Membership Char CharPiece where
  mem piece c := piece.Holds c

@[simp] theorem mem_range {c lo hi : Char} : c ∈ range lo hi ↔ lo ≤ c ∧ c ≤ hi :=
  Iff.rfl

@[simp] theorem mem_text {c : Char} {s : String} : c ∈ text s ↔ c ∈ s.toList :=
  Iff.rfl

def chars : CharPiece → CharSet
  | range lo hi => .ofRange lo hi
  | text s => .ofText s

@[simp] theorem mem_chars {c : Char} {piece : CharPiece} : c ∈ piece.chars ↔ c ∈ piece := by
  cases piece with
  | range lo hi => exact CharSet.mem_ofRange
  | text s => exact CharSet.mem_ofText

end CharPiece

namespace CharSet

/-- **The set put together from pieces.** -/
def ofPieces (pieces : List CharPiece) : CharSet :=
  unions (pieces.map CharPiece.chars)

@[simp] theorem mem_ofPieces {c : Char} {pieces : List CharPiece} :
    c ∈ ofPieces pieces ↔ ∃ piece ∈ pieces, c ∈ piece := by
  simp only [ofPieces, mem_unions, List.mem_map, exists_exists_and_eq_and, CharPiece.mem_chars]

/-- **The characters of several texts** are those of the joined text. -/
theorem unions_ofText (texts : List String) :
    unions (texts.map ofText) = ofText (String.join texts) := by
  ext c
  simp only [mem_unions, List.mem_map, exists_exists_and_eq_and, mem_ofText, String.toList_join,
    List.mem_flatMap]

/-- Pieces put together in groups, groups in further groups. -/
inductive Grouping where
  | one (piece : CharPiece)
  | group (parts : List Grouping)

namespace Grouping

/-- The set put together group by group, from within. -/
def chars : Grouping → CharSet
  | one piece => piece.chars
  | group parts => unions (parts.map chars)

/-- The pieces of all groups, from left to right. -/
def pieces : Grouping → List CharPiece
  | one piece => [piece]
  | group parts => parts.flatMap pieces

theorem mem_chars {c : Char} (g : Grouping) : c ∈ g.chars ↔ ∃ piece ∈ g.pieces, c ∈ piece := by
  induction g using chars.induct with
  | case1 piece => simp only [chars, pieces, CharPiece.mem_chars, List.mem_singleton, exists_eq_left]
  | case2 parts ih =>
    have hparts : (∃ part ∈ parts, c ∈ part.chars) ↔
        ∃ part ∈ parts, ∃ piece ∈ part.pieces, c ∈ piece :=
      exists_congr fun part => and_congr_right (ih part)
    simp only [chars, pieces, mem_unions, List.mem_map, exists_exists_and_eq_and, hparts,
      List.mem_flatMap]
    grind

/-- A grouping gives the set of its pieces, in whatever order and however often they come. -/
theorem chars_eq_ofPieces {g : Grouping} {pieces : List CharPiece}
    (h : ∀ piece, piece ∈ g.pieces ↔ piece ∈ pieces) : g.chars = ofPieces pieces := by
  ext c
  rw [mem_chars, mem_ofPieces]
  exact exists_congr fun piece => and_congr_left' (h piece)

end Grouping

/-- **A set of pieces is exact.**  It holds a character if and only if one of its pieces does,
lists these characters in strictly ascending order, keeps them as their maximal runs and counts
them.  Any grouping of the same pieces, in any order and each as often as one likes, gives the same
set, and so does a single text in place of several.  A rule with this set admits just these
characters. -/
theorem ofPieces_exact (pieces : List CharPiece) :
    (∀ c, c ∈ ofPieces pieces ↔ ∃ piece ∈ pieces, c ∈ piece)
    ∧ (∀ c, c ∈ (ofPieces pieces).members ↔ ∃ piece ∈ pieces, c ∈ piece)
    ∧ (ofPieces pieces).members.Pairwise (· < ·)
    ∧ (∀ c ∈ (ofPieces pieces).members, c.toNat < 0xD800 ∨ 0xDFFF < c.toNat)
    ∧ (∀ r, r ∈ (ofPieces pieces).runs ↔ r.IsMaximalIn fun c => ∃ piece ∈ pieces, c ∈ piece)
    ∧ {c : Char | ∃ piece ∈ pieces, c ∈ piece}.encard = (ofPieces pieces).size
    ∧ (∀ g : Grouping, (∀ piece, piece ∈ g.pieces ↔ piece ∈ pieces) → g.chars = ofPieces pieces)
    ∧ (∀ texts : List String, unions (texts.map ofText) = ofText (String.join texts))
    ∧ ∀ (rule : Rule) (c : Char),
      (rule.withChars (ofPieces pieces)).admits c = true ↔ ∃ piece ∈ pieces, c ∈ piece := by
  have hmem : (· ∈ ofPieces pieces) = fun c => ∃ piece ∈ pieces, c ∈ piece :=
    funext fun c => propext mem_ofPieces
  refine ⟨fun c => mem_ofPieces, fun c => mem_members.trans mem_ofPieces, pairwise_members _,
    fun c _ => CharRun.not_surrogate c, fun r => ?_, ?_, fun g => Grouping.chars_eq_ofPieces,
    unions_ofText, fun rule c => decide_eq_true_iff.trans mem_ofPieces⟩
  · rw [mem_runs_iff, hmem]
  · rw [← encard_eq_size]
    exact congrArg Set.encard hmem.symm

/-- Groups with a piece in two of them, and a range over the gap of the surrogates. -/
theorem ofPieces_exact_over_gap :
    let pieces : List CharPiece := [.range '\uD7FE' '\uE001', .text "ba", .range 'z' 'a']
    let g : Grouping := .group [.one (.text "ba"), .group [.one (.range 'z' 'a'), .group []],
      .group [.one (.range '\uD7FE' '\uE001'), .one (.text "ba")]]
    (∀ piece, piece ∈ g.pieces ↔ piece ∈ pieces) ∧ g.chars = ofPieces pieces
      ∧ g.chars.members = ['a', 'b', '\uD7FE', '\uD7FF', '\uE000', '\uE001'] := by
  intro pieces g
  have hsame : ∀ piece, piece ∈ g.pieces ↔ piece ∈ pieces := by
    intro piece
    simp only [g, pieces, Grouping.pieces, List.flatMap_cons, List.flatMap_nil, List.append_nil,
      List.cons_append, List.nil_append, List.mem_cons, List.not_mem_nil]
    tauto
  obtain ⟨-, -, -, -, -, -, hgrouped, -⟩ := ofPieces_exact pieces
  have heq : g.chars = ofPieces pieces := hgrouped g hsame
  refine ⟨hsame, heq, ?_⟩
  rw [heq]
  decide +kernel

end CharSet

end AbnfPatterns
