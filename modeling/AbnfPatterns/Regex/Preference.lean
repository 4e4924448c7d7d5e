import AbnfPatterns.Regex.Matching

/-!
# Preferred matches

The matches of a pattern at one place, the preferred one first.
-/

namespace AbnfPatterns

/-- Greedy repetition: further rounds come before none.  Beyond the `least` rounds, a round that
takes no text is not followed up.  At most `rounds` rounds are tried. -/
def greedy (leftovers : List Char → List (List Char)) :
    (rounds least : Nat) → (most : Option Nat) → List Char → List (List Char)
  | 0, least, _, s => if least = 0 then [s] else []
  | rounds + 1, least, most, s =>
    let further :=
      if most = some 0 then []
      else (leftovers s).flatMap fun r =>
        if r.length < s.length ∨ 0 < least then
          greedy leftovers rounds (least - 1) (most.map (· - 1)) r
        else []
    further ++ if least = 0 then [s] else []

def afterChar (matching : Char → Bool) : List Char → List (List Char)
  | [] => []
  | c :: rest => if matching c then [rest] else []

mutual

/-- What the matches of a piece leave, the preferred one first. -/
def Piece.leftovers (ignoreCase : Bool) : Piece → List Char → List (List Char)
  | .glyph g, s => afterChar (fun c => decide ((CharSet.empty.insert g.char).Covers ignoreCase c)) s
  | .charIn items, s =>
    afterChar (fun c => items.any fun item => decide (item.chars.Covers ignoreCase c)) s
  | .group .plain alternatives, s => alternativesLeftovers ignoreCase alternatives s
  | .group .ignoreCase alternatives, s => alternativesLeftovers true alternatives s
  | .group .notAhead alternatives, s =>
    if (alternativesLeftovers ignoreCase alternatives s).isEmpty then [s] else []
  | .group (.capture _) alternatives, s => alternativesLeftovers ignoreCase alternatives s
  | .repeated piece q, s =>
    greedy (Piece.leftovers ignoreCase piece) (q.least + s.length) q.least q.most s

/-- **What the matches of a pattern leave**, the preferred one first. -/
def Pattern.leftovers (ignoreCase : Bool) : Pattern → List Char → List (List Char)
  | [], s => [s]
  | piece :: pieces, s =>
    (piece.leftovers ignoreCase s).flatMap (Pattern.leftovers ignoreCase pieces)

def alternativesLeftovers (ignoreCase : Bool) : List Pattern → List Char → List (List Char)
  | [], _ => []
  | first :: others, s =>
    Pattern.leftovers ignoreCase first s ++ alternativesLeftovers ignoreCase others s

end

/-- What the preferred match of a fragment at the start of a text leaves, if there is a match. -/
def Pattern.preferred? (fragment : String) (s : List Char) : Option (List Char) :=
  (Pattern.read? fragment.toList).bind fun alternatives =>
    (alternativesLeftovers false alternatives s).head?

end AbnfPatterns
