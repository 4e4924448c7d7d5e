import AbnfPatterns.Rule.Production

/-!
# Core rules

The core rules of ABNF (RFC 5234, appendix B.1) and the whitespace rules of HTTP (RFC 9110,
section 5.6.3), which the other standards build on.
-/

namespace AbnfPatterns.CoreRules

open Pattern (literal code codes charIn itemsOf span anyOf)

def alpha : Production where
  name := "ALPHA"
  abnf := "%x41-5A / %x61-7A"
  description := "A-Z / a-z"
  chars := CharSet.unions [.ofRange 'A' 'Z', .ofRange 'a' 'z']
  pattern := charIn [.range (.code 0x41) (.code 0x5A), .range (.code 0x61) (.code 0x7A)]

def bit : Production where
  name := "BIT"
  abnf := "\"0\" / \"1\""
  description := "zero or one"
  chars := CharSet.ofText "01"
  pattern := charIn (itemsOf "01")

def char : Production where
  name := "CHAR"
  abnf := "%x01-7F"
  description := "any 7-bit US-ASCII character, excluding NUL"
  chars := CharSet.ofRange '\x01' '\x7F'
  pattern := codes 0x01 0x7F

def cr : Production where
  name := "CR"
  abnf := "%x0D"
  description := "carriage return"
  chars := CharSet.ofText "\r"
  pattern := code 0x0D

def lf : Production where
  name := "LF"
  abnf := "%x0A"
  description := "linefeed"
  chars := CharSet.ofText "\n"
  pattern := code 0x0A

def crlf : Production where
  name := "CRLF"
  abnf := "CR LF"
  description := "Internet standard newline"
  chars := CharSet.unions [cr.chars, lf.chars]
  pattern := cr.pattern ++ lf.pattern

def ctl : Production where
  name := "CTL"
  abnf := "%x00-1F / %x7F"
  description := "controls"
  chars := CharSet.unions [.ofRange '\x00' '\x1F', .ofText "\x7F"]
  pattern := charIn [.range (.code 0x00) (.code 0x1F), .one (.code 0x7F)]

def digit : Production where
  name := "DIGIT"
  abnf := "%x30-39"
  description := "0-9"
  chars := CharSet.ofRange '0' '9'
  pattern := codes 0x30 0x39

def dquote : Production where
  name := "DQUOTE"
  abnf := "%x22"
  description := "\" (Double Quote)"
  chars := CharSet.ofText "\""
  pattern := code 0x22

/-- ABNF strings ignore case, so both cases of the letters are digits. -/
def hexdig : Production where
  name := "HEXDIG"
  abnf := "DIGIT / \"A\" / \"B\" / \"C\" / \"D\" / \"E\" / \"F\""
  description := "hexadecimal digit; ABNF strings are case-insensitive"
  chars := CharSet.unions [digit.chars, .ofText "ABCDEFabcdef"]
  pattern := charIn [span '0' '9', span 'A' 'F', span 'a' 'f']

def htab : Production where
  name := "HTAB"
  abnf := "%x09"
  description := "horizontal tab"
  chars := CharSet.ofText "\t"
  pattern := code 0x09

def sp : Production where
  name := "SP"
  abnf := "%x20"
  description := "space"
  chars := CharSet.ofText " "
  pattern := code 0x20

def wsp : Production where
  name := "WSP"
  abnf := "SP / HTAB"
  description := "white space"
  chars := CharSet.unions [sp.chars, htab.chars]
  pattern := charIn [.one (.code 0x20), .one (.code 0x09)]

def lwsp : Production where
  name := "LWSP"
  abnf := "*(WSP / CRLF WSP)"
  description := "linear white space (past newline)"
  chars := CharSet.unions [wsp.chars, crlf.chars]
  pattern := (anyOf [wsp.pattern, crlf.pattern ++ wsp.pattern]).many

def octet : Production where
  name := "OCTET"
  abnf := "%x00-FF"
  description := "8 bits of data"
  chars := CharSet.ofRange '\x00' '\u00FF'
  pattern := codes 0x00 0xFF

def vchar : Production where
  name := "VCHAR"
  abnf := "%x21-7E"
  description := "visible (printing) characters"
  chars := CharSet.ofRange '!' '~'
  pattern := codes 0x21 0x7E

def ows : Production where
  name := "OWS"
  abnf := "*( SP / HTAB )"
  description := "optional whitespace"
  chars := wsp.chars
  pattern := wsp.pattern.many

def rws : Production where
  name := "RWS"
  abnf := "1*( SP / HTAB )"
  description := "required whitespace"
  chars := wsp.chars
  pattern := wsp.pattern.atLeastOnce

def bws : Production where
  name := "BWS"
  abnf := "OWS"
  description := "\"bad\" whitespace"
  chars := ows.chars
  pattern := ows.pattern

/-- All core rules, in the order in which they are listed. -/
def productions : List Production :=
  [alpha, bit, char, cr, crlf, ctl, digit, dquote, hexdig, htab, lf, lwsp, octet, sp, vchar, wsp,
    ows, rws, bws]

end AbnfPatterns.CoreRules
