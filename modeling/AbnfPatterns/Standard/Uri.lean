import AbnfPatterns.Standard.Core

/-!
# URI rules

The generic syntax of uniform resource identifiers (RFC 3986, appendix A).
-/

namespace AbnfPatterns.UriRules

open CoreRules (alpha digit hexdig)
open Pattern (literal codes charIn itemsOf anyOf notAhead)

/-! ### Characters -/

def genDelims : Production where
  name := "GEN-DELIMS"
  abnf := "\":\" / \"/\" / \"?\" / \"#\" / \"[\" / \"]\" / \"@\""
  description := "generic component delimiters"
  chars := CharSet.ofText ":/?#[]@"
  pattern := charIn (itemsOf ":/?#[]@")

def subDelims : Production where
  name := "SUB-DELIMS"
  abnf := "\"!\" / \"$\" / \"&\" / \"'\" / \"(\" / \")\" / \"*\" / \"+\" / \",\" / \";\" / \"=\""
  description := "sub-component delimiters"
  chars := CharSet.ofText "!$&'()*+,;="
  pattern := charIn (itemsOf "!$&'()*+,;=")

def reserved : Production where
  name := "RESERVED"
  abnf := "gen-delims / sub-delims"
  description := "delimiters of the generic or scheme-specific syntax"
  chars := CharSet.unions [genDelims.chars, subDelims.chars]
  pattern := anyOf [genDelims.pattern, subDelims.pattern]

def unreserved : Production where
  name := "UNRESERVED"
  abnf := "ALPHA / DIGIT / \"-\" / \".\" / \"_\" / \"~\""
  description := "characters without a reserved purpose"
  chars := CharSet.unions [alpha.chars, digit.chars, .ofText "-._~"]
  pattern := anyOf [alpha.pattern, digit.pattern, charIn (itemsOf "-._~")]

def pctEncoded : Production where
  name := "PCT-ENCODED"
  abnf := "\"%\" HEXDIG HEXDIG"
  description := "percent-encoded octet"
  chars := CharSet.unions [hexdig.chars, .ofText "%"]
  pattern := literal "%" ++ hexdig.pattern.times 2

def pchar : Production where
  name := "PCHAR"
  abnf := "unreserved / pct-encoded / sub-delims / \":\" / \"@\""
  description := "path character"
  chars := CharSet.unions [unreserved.chars, pctEncoded.chars, subDelims.chars, .ofText ":@"]
  pattern := anyOf
    [unreserved.pattern, pctEncoded.pattern, subDelims.pattern, charIn (itemsOf ":@")]

/-! ### Segments and paths -/

def segment : Production where
  name := "SEGMENT"
  abnf := "*pchar"
  description := "zero or more pchar"
  chars := pchar.chars
  pattern := pchar.pattern.many

def segmentNz : Production where
  name := "SEGMENT-NZ"
  abnf := "1*pchar"
  description := "non-zero-length segment"
  chars := pchar.chars
  pattern := pchar.pattern.atLeastOnce

def segmentNzNc : Production where
  name := "SEGMENT-NZ-NC"
  abnf := "1*( unreserved / pct-encoded / sub-delims / \"@\" )"
  description := "non-zero-length segment without any colon"
  chars := CharSet.unions [unreserved.chars, pctEncoded.chars, subDelims.chars, .ofText "@"]
  pattern := (anyOf
    [unreserved.pattern, pctEncoded.pattern, subDelims.pattern, literal "@"]).atLeastOnce

/-- Any number of segments, each after a slash. -/
def slashedSegments : Pattern :=
  (literal "/" ++ segment.pattern).many

def pathAbempty : Production where
  name := "PATH-ABEMPTY"
  abnf := "*( \"/\" segment )"
  description := "begins with \"/\" or is empty"
  chars := CharSet.unions [segment.chars, .ofText "/"]
  pattern := slashedSegments

def pathAbsolute : Production where
  name := "PATH-ABSOLUTE"
  abnf := "\"/\" [ segment-nz *( \"/\" segment ) ]"
  description := "begins with \"/\" but not \"//\""
  chars := CharSet.unions [segmentNz.chars, segment.chars, .ofText "/"]
  pattern := literal "/" ++ (segmentNz.pattern ++ slashedSegments).optional

def pathNoscheme : Production where
  name := "PATH-NOSCHEME"
  abnf := "segment-nz-nc *( \"/\" segment )"
  description := "begins with a non-colon segment"
  chars := CharSet.unions [segmentNzNc.chars, segment.chars, .ofText "/"]
  pattern := segmentNzNc.pattern ++ slashedSegments

def pathRootless : Production where
  name := "PATH-ROOTLESS"
  abnf := "segment-nz *( \"/\" segment )"
  description := "begins with a segment"
  chars := CharSet.unions [segmentNz.chars, segment.chars, .ofText "/"]
  pattern := segmentNz.pattern ++ slashedSegments

/-- Takes no text, and holds only where no path character follows. -/
def pathEmpty : Production where
  name := "PATH-EMPTY"
  abnf := "0<pchar>"
  description := "zero characters"
  chars := ∅
  pattern := notAhead pchar.pattern

def path : Production where
  name := "PATH"
  abnf := "path-abempty / path-absolute / path-noscheme / path-rootless / path-empty"
  description := "any path form"
  chars := CharSet.unions [pathAbempty.chars, pathAbsolute.chars, pathNoscheme.chars,
    pathRootless.chars]
  pattern := anyOf
    [pathAbempty.pattern, pathAbsolute.pattern, pathNoscheme.pattern, pathRootless.pattern,
      pathEmpty.pattern]

/-! ### Addresses -/

/-- Longer alternatives come first, so that a search that takes the first match takes the whole
number. -/
def decOctet : Production where
  name := "DEC-OCTET"
  abnf := "DIGIT / %x31-39 DIGIT / \"1\" 2DIGIT / \"2\" %x30-34 DIGIT / \"25\" %x30-35"
  description := "0-9 / 10-99 / 100-199 / 200-249 / 250-255"
  chars := digit.chars
  pattern := anyOf
    [literal "25" ++ codes 0x30 0x35,
      literal "2" ++ codes 0x30 0x34 ++ digit.pattern,
      literal "1" ++ digit.pattern.times 2,
      codes 0x31 0x39 ++ digit.pattern,
      digit.pattern]

def ipv4address : Production where
  name := "IPV4ADDRESS"
  abnf := "dec-octet \".\" dec-octet \".\" dec-octet \".\" dec-octet"
  description := "dotted-decimal address"
  chars := CharSet.unions [decOctet.chars, .ofText "."]
  pattern := decOctet.pattern ++ literal "." ++ decOctet.pattern ++ literal "."
    ++ decOctet.pattern ++ literal "." ++ decOctet.pattern

def h16 : Production where
  name := "H16"
  abnf := "1*4HEXDIG"
  description := "16 bits of address in hexadecimal"
  chars := hexdig.chars
  pattern := hexdig.pattern.between 1 4

def ls32 : Production where
  name := "LS32"
  abnf := "( h16 \":\" h16 ) / IPv4address"
  description := "least-significant 32 bits of address"
  chars := CharSet.unions [h16.chars, ipv4address.chars, .ofText ":"]
  pattern := anyOf [h16.pattern ++ literal ":" ++ h16.pattern, ipv4address.pattern]

/-- Sixteen bits and the colon after them. -/
def h16Colon : Pattern :=
  h16.pattern ++ literal ":"

/-- At most `most + 1` pieces of sixteen bits with colons between them, or none at all. -/
def leadingPieces (most : UInt64) : Pattern :=
  (h16Colon.between 0 most ++ h16.pattern).optional

def ipv6address : Production where
  name := "IPV6ADDRESS"
  abnf := "6( h16 \":\" ) ls32 / \"::\" 5( h16 \":\" ) ls32 / [ h16 ] \"::\" 4( h16 \":\" ) ls32" ++
    " / [ *1( h16 \":\" ) h16 ] \"::\" 3( h16 \":\" ) ls32" ++
    " / [ *2( h16 \":\" ) h16 ] \"::\" 2( h16 \":\" ) ls32" ++
    " / [ *3( h16 \":\" ) h16 ] \"::\" h16 \":\" ls32" ++
    " / [ *4( h16 \":\" ) h16 ] \"::\" ls32" ++
    " / [ *5( h16 \":\" ) h16 ] \"::\" h16" ++
    " / [ *6( h16 \":\" ) h16 ] \"::\""
  description := "eight 16-bit hex pieces, optionally eliding zero runs or ending in IPv4"
  chars := CharSet.unions [ls32.chars, .ofText ":"]
  pattern := anyOf
    [h16Colon.times 6 ++ ls32.pattern,
      literal "::" ++ h16Colon.times 5 ++ ls32.pattern,
      h16.pattern.optional ++ literal "::" ++ h16Colon.times 4 ++ ls32.pattern,
      leadingPieces 1 ++ literal "::" ++ h16Colon.times 3 ++ ls32.pattern,
      leadingPieces 2 ++ literal "::" ++ h16Colon.times 2 ++ ls32.pattern,
      leadingPieces 3 ++ literal "::" ++ h16Colon ++ ls32.pattern,
      leadingPieces 4 ++ literal "::" ++ ls32.pattern,
      leadingPieces 5 ++ literal "::" ++ h16.pattern,
      leadingPieces 6 ++ literal "::"]

def ipvfuture : Production where
  name := "IPVFUTURE"
  abnf := "\"v\" 1*HEXDIG \".\" 1*( unreserved / sub-delims / \":\" )"
  description := "version-flagged address literal"
  chars := CharSet.unions [hexdig.chars, unreserved.chars, subDelims.chars, .ofText "vV.:"]
  pattern := charIn (itemsOf "vV") ++ hexdig.pattern.atLeastOnce ++ literal "."
    ++ (anyOf [unreserved.pattern, subDelims.pattern, literal ":"]).atLeastOnce

def ipLiteral : Production where
  name := "IP-LITERAL"
  abnf := "\"[\" ( IPv6address / IPvFuture  ) \"]\""
  description := "bracketed IPv6 or future-format address"
  chars := CharSet.unions [ipv6address.chars, ipvfuture.chars, .ofText "[]"]
  pattern := literal "[" ++ anyOf [ipv6address.pattern, ipvfuture.pattern] ++ literal "]"

/-! ### Authority -/

def regName : Production where
  name := "REG-NAME"
  abnf := "*( unreserved / pct-encoded / sub-delims )"
  description := "registered name"
  chars := CharSet.unions [unreserved.chars, pctEncoded.chars, subDelims.chars]
  pattern := (anyOf [unreserved.pattern, pctEncoded.pattern, subDelims.pattern]).many

def host : Production where
  name := "HOST"
  abnf := "IP-literal / IPv4address / reg-name"
  description := "IP literal, dotted IPv4 address or registered name"
  chars := CharSet.unions [ipLiteral.chars, ipv4address.chars, regName.chars]
  pattern := anyOf [ipLiteral.pattern, ipv4address.pattern, regName.pattern]

def portNumber : Production where
  name := "PORT"
  abnf := "*DIGIT"
  description := "decimal port number"
  chars := digit.chars
  pattern := digit.pattern.many

def userinfo : Production where
  name := "USERINFO"
  abnf := "*( unreserved / pct-encoded / sub-delims / \":\" )"
  description := "user name and optional scheme-specific authorization data"
  chars := CharSet.unions [unreserved.chars, pctEncoded.chars, subDelims.chars, .ofText ":"]
  pattern := (anyOf
    [unreserved.pattern, pctEncoded.pattern, subDelims.pattern, literal ":"]).many

def authority : Production where
  name := "AUTHORITY"
  abnf := "[ userinfo \"@\" ] host [ \":\" port ]"
  description := "registered name or server address with optional user information and port"
  chars := CharSet.unions [userinfo.chars, host.chars, portNumber.chars, .ofText "@:"]
  pattern := (userinfo.pattern ++ literal "@").optional ++ host.pattern
    ++ (literal ":" ++ portNumber.pattern).optional

/-! ### References -/

def scheme : Production where
  name := "SCHEME"
  abnf := "ALPHA *( ALPHA / DIGIT / \"+\" / \"-\" / \".\" )"
  description := "letter followed by letters, digits, plus, period or hyphen"
  chars := CharSet.unions [alpha.chars, digit.chars, .ofText "+-."]
  pattern := alpha.pattern ++ (anyOf [alpha.pattern, digit.pattern, charIn (itemsOf "+-.")]).many

def query : Production where
  name := "QUERY"
  abnf := "*( pchar / \"/\" / \"?\" )"
  description := "non-hierarchical data"
  chars := CharSet.unions [pchar.chars, .ofText "/?"]
  pattern := (anyOf [pchar.pattern, charIn (itemsOf "/?")]).many

def fragment : Production :=
  { query with
    name := "FRAGMENT"
    description := "secondary resource identifier" }

def optionalQuery : Pattern :=
  (literal "?" ++ query.pattern).optional

def optionalFragment : Pattern :=
  (literal "#" ++ fragment.pattern).optional

/-- An authority after two slashes, and the path behind it. -/
def authorityAndPath : Pattern :=
  literal "//" ++ authority.pattern ++ pathAbempty.pattern

def hierPart : Production where
  name := "HIER-PART"
  abnf := "\"//\" authority path-abempty / path-absolute / path-rootless / path-empty"
  description := "authority and path, or a bare path"
  chars := CharSet.unions [authority.chars, pathAbempty.chars, pathAbsolute.chars,
    pathRootless.chars, .ofText "/"]
  pattern := anyOf
    [authorityAndPath, pathAbsolute.pattern, pathRootless.pattern, pathEmpty.pattern]

def relativePart : Production where
  name := "RELATIVE-PART"
  abnf := "\"//\" authority path-abempty / path-absolute / path-noscheme / path-empty"
  description := "hierarchical part of a relative reference"
  chars := CharSet.unions [authority.chars, pathAbempty.chars, pathAbsolute.chars,
    pathNoscheme.chars, .ofText "/"]
  pattern := anyOf
    [authorityAndPath, pathAbsolute.pattern, pathNoscheme.pattern, pathEmpty.pattern]

def absoluteUri : Production where
  name := "ABSOLUTE-URI"
  abnf := "scheme \":\" hier-part [ \"?\" query ]"
  description := "URI without a fragment identifier"
  chars := CharSet.unions [scheme.chars, hierPart.chars, query.chars, .ofText ":?"]
  pattern := scheme.pattern ++ literal ":" ++ hierPart.pattern ++ optionalQuery

def uri : Production where
  name := "URI"
  abnf := "scheme \":\" hier-part [ \"?\" query ] [ \"#\" fragment ]"
  description := "absolute URI with optional fragment"
  chars := CharSet.unions [scheme.chars, hierPart.chars, query.chars, fragment.chars, .ofText ":?#"]
  pattern := scheme.pattern ++ literal ":" ++ hierPart.pattern ++ optionalQuery ++ optionalFragment

def relativeRef : Production where
  name := "RELATIVE-REF"
  abnf := "relative-part [ \"?\" query ] [ \"#\" fragment ]"
  description := "network-path, absolute-path or relative-path reference"
  chars := CharSet.unions [relativePart.chars, query.chars, fragment.chars, .ofText "?#"]
  pattern := relativePart.pattern ++ optionalQuery ++ optionalFragment

def uriReference : Production where
  name := "URI-REFERENCE"
  abnf := "URI / relative-ref"
  description := "a URI or a relative reference"
  chars := CharSet.unions [uri.chars, relativeRef.chars]
  pattern := anyOf [uri.pattern, relativeRef.pattern]

/-- All URI rules, in the order in which they are listed. -/
def productions : List Production :=
  [uri, hierPart, uriReference, absoluteUri, relativeRef, relativePart, scheme, authority, userinfo,
    host, portNumber, ipLiteral, ipvfuture, ipv6address, h16, ls32, ipv4address, decOctet, regName,
    path, pathAbempty, pathAbsolute, pathNoscheme, pathRootless, pathEmpty, segment, segmentNz,
    segmentNzNc, pchar, query, fragment, pctEncoded, unreserved, reserved, genDelims, subDelims]

end AbnfPatterns.UriRules
