import AbnfPatterns.Standard.Uri

/-!
# HTTP rules

The rules of HTTP semantics (RFC 9110).
-/

namespace AbnfPatterns.HttpRules

open CoreRules (alpha digit dquote htab ows sp vchar)
open UriRules (authority pathAbempty query relativePart host optionalQuery)
open Pattern (literal code codes charIn itemsOf span anyOf ignoringCase)

/-! ### Tokens and quoted text -/

def tchar : Production where
  name := "TCHAR"
  abnf := "\"!\" / \"#\" / \"$\" / \"%\" / \"&\" / \"'\" / \"*\" / \"+\" / \"-\" / \".\" / \"^\"" ++
    " / \"_\" / \"`\" / \"|\" / \"~\" / DIGIT / ALPHA"
  description := "any VCHAR, except delimiters"
  chars := CharSet.unions [digit.chars, alpha.chars, .ofText "!#$%&'*+-.^_`|~"]
  pattern := charIn (itemsOf "!#$%&'*+-.^_`|~" ++ [span '0' '9', span 'A' 'Z', span 'a' 'z'])

def token : Production where
  name := "TOKEN"
  abnf := "1*tchar"
  description := "one or more tchar"
  chars := tchar.chars
  pattern := tchar.pattern.atLeastOnce

def obsText : Production where
  name := "OBS-TEXT"
  abnf := "%x80-FF"
  description := "obsolete text"
  chars := CharSet.ofRange '\u0080' '\u00FF'
  pattern := codes 0x80 0xFF

def qdtext : Production where
  name := "QDTEXT"
  abnf := "HTAB / SP / %x21 / %x23-5B / %x5D-7E / obs-text"
  description := "quoted-string text: no DQUOTE or backslash"
  chars := CharSet.unions [htab.chars, sp.chars, .ofText "!", .ofRange '#' '[', .ofRange ']' '~',
    obsText.chars]
  pattern := anyOf
    [htab.pattern, sp.pattern, code 0x21, codes 0x23 0x5B, codes 0x5D 0x7E, obsText.pattern]

def quotedPair : Production where
  name := "QUOTED-PAIR"
  abnf := "\"\\\" ( HTAB / SP / VCHAR / obs-text )"
  description := "backslash-escaped octet"
  chars := CharSet.unions [htab.chars, sp.chars, vchar.chars, obsText.chars, .ofText "\\"]
  pattern := literal "\\" ++ anyOf [htab.pattern, sp.pattern, vchar.pattern, obsText.pattern]

def quotedString : Production where
  name := "QUOTED-STRING"
  abnf := "DQUOTE *( qdtext / quoted-pair ) DQUOTE"
  description := "double-quoted text with backslash escapes"
  chars := CharSet.unions [dquote.chars, qdtext.chars, quotedPair.chars]
  pattern := dquote.pattern ++ (anyOf [qdtext.pattern, quotedPair.pattern]).many ++ dquote.pattern

def ctext : Production where
  name := "CTEXT"
  abnf := "HTAB / SP / %x21-27 / %x2A-5B / %x5D-7E / obs-text"
  description := "comment text: no parentheses or backslash"
  chars := CharSet.unions [htab.chars, sp.chars, .ofRange '!' '\'', .ofRange '*' '[',
    .ofRange ']' '~', obsText.chars]
  pattern := anyOf
    [htab.pattern, sp.pattern, codes 0x21 0x27, codes 0x2A 0x5B, codes 0x5D 0x7E, obsText.pattern]

/-- A comment without comments inside it. -/
def flatComment : Pattern :=
  literal "(" ++ (anyOf [ctext.pattern, quotedPair.pattern]).many ++ literal ")"

def comment : Production where
  name := "COMMENT"
  abnf := "\"(\" *( ctext / quoted-pair / comment ) \")\""
  description := "parenthesised comment, nested at most one level"
  chars := CharSet.unions [ctext.chars, quotedPair.chars, .ofText "()"]
  pattern := literal "(" ++ (anyOf [ctext.pattern, quotedPair.pattern, flatComment]).many
    ++ literal ")"

/-! ### Dates and times -/

def dayNames : List String :=
  ["Mon", "Tue", "Wed", "Thu", "Fri", "Sat", "Sun"]

def fullDayNames : List String :=
  ["Monday", "Tuesday", "Wednesday", "Thursday", "Friday", "Saturday", "Sunday"]

def monthNames : List String :=
  ["Jan", "Feb", "Mar", "Apr", "May", "Jun", "Jul", "Aug", "Sep", "Oct", "Nov", "Dec"]

def oneOfTexts (texts : List String) : Pattern :=
  anyOf (texts.map literal)

def twoDigits : Pattern :=
  digit.pattern.times 2

def dayName : Production where
  name := "DAY-NAME"
  abnf := "%s\"Mon\" / %s\"Tue\" / %s\"Wed\" / %s\"Thu\" / %s\"Fri\" / %s\"Sat\" / %s\"Sun\""
  description := "case-sensitive day name abbreviation"
  chars := CharSet.ofText (String.join dayNames)
  pattern := oneOfTexts dayNames

def dayNameL : Production where
  name := "DAY-NAME-L"
  abnf := "%s\"Monday\" / %s\"Tuesday\" / %s\"Wednesday\" / %s\"Thursday\" / %s\"Friday\"" ++
    " / %s\"Saturday\" / %s\"Sunday\""
  description := "case-sensitive full day name"
  chars := CharSet.ofText (String.join fullDayNames)
  pattern := oneOfTexts fullDayNames

def day : Production where
  name := "DAY"
  abnf := "2DIGIT"
  description := "day of month"
  chars := digit.chars
  pattern := twoDigits

def month : Production where
  name := "MONTH"
  abnf := "%s\"Jan\" / %s\"Feb\" / %s\"Mar\" / %s\"Apr\" / %s\"May\" / %s\"Jun\" / %s\"Jul\"" ++
    " / %s\"Aug\" / %s\"Sep\" / %s\"Oct\" / %s\"Nov\" / %s\"Dec\""
  description := "case-sensitive month abbreviation"
  chars := CharSet.ofText (String.join monthNames)
  pattern := oneOfTexts monthNames

def year : Production where
  name := "YEAR"
  abnf := "4DIGIT"
  description := "four-digit year"
  chars := digit.chars
  pattern := digit.pattern.times 4

def hour : Production where
  name := "HOUR"
  abnf := "2DIGIT"
  description := "two-digit hour"
  chars := digit.chars
  pattern := twoDigits

def minute : Production where
  name := "MINUTE"
  abnf := "2DIGIT"
  description := "two-digit minute"
  chars := digit.chars
  pattern := twoDigits

def second : Production where
  name := "SECOND"
  abnf := "2DIGIT"
  description := "two-digit second"
  chars := digit.chars
  pattern := twoDigits

def timeOfDay : Production where
  name := "TIME-OF-DAY"
  abnf := "hour \":\" minute \":\" second"
  description := "00:00:00 - 23:59:60 (leap second)"
  chars := CharSet.unions [hour.chars, minute.chars, second.chars, .ofText ":"]
  pattern := hour.pattern ++ literal ":" ++ minute.pattern ++ literal ":" ++ second.pattern

def gmt : Production where
  name := "GMT"
  abnf := "%s\"GMT\""
  description := "case-sensitive time zone"
  chars := CharSet.ofText "GMT"
  pattern := literal "GMT"

def date1 : Production where
  name := "DATE1"
  abnf := "day SP month SP year"
  description := "e.g., 02 Jun 1982"
  chars := CharSet.unions [day.chars, month.chars, year.chars, sp.chars]
  pattern := day.pattern ++ sp.pattern ++ month.pattern ++ sp.pattern ++ year.pattern

def date2 : Production where
  name := "DATE2"
  abnf := "day \"-\" month \"-\" 2DIGIT"
  description := "e.g., 02-Jun-82"
  chars := CharSet.unions [day.chars, month.chars, digit.chars, .ofText "-"]
  pattern := day.pattern ++ literal "-" ++ month.pattern ++ literal "-" ++ twoDigits

def date3 : Production where
  name := "DATE3"
  abnf := "month SP ( 2DIGIT / ( SP DIGIT ))"
  description := "e.g., Jun  2"
  chars := CharSet.unions [month.chars, digit.chars, sp.chars]
  pattern := month.pattern ++ sp.pattern ++ anyOf [twoDigits, sp.pattern ++ digit.pattern]

def imfFixdate : Production where
  name := "IMF-FIXDATE"
  abnf := "day-name \",\" SP date1 SP time-of-day SP GMT"
  description := "fixed-length, GMT subset of the Internet Message Format date"
  chars := CharSet.unions [dayName.chars, date1.chars, timeOfDay.chars, gmt.chars, sp.chars,
    .ofText ","]
  pattern := dayName.pattern ++ literal "," ++ sp.pattern ++ date1.pattern ++ sp.pattern
    ++ timeOfDay.pattern ++ sp.pattern ++ gmt.pattern

def rfc850Date : Production where
  name := "RFC850-DATE"
  abnf := "day-name-l \",\" SP date2 SP time-of-day SP GMT"
  description := "e.g., Sunday, 06-Nov-94 08:49:37 GMT"
  chars := CharSet.unions [dayNameL.chars, date2.chars, timeOfDay.chars, gmt.chars, sp.chars,
    .ofText ","]
  pattern := dayNameL.pattern ++ literal "," ++ sp.pattern ++ date2.pattern ++ sp.pattern
    ++ timeOfDay.pattern ++ sp.pattern ++ gmt.pattern

def asctimeDate : Production where
  name := "ASCTIME-DATE"
  abnf := "day-name SP date3 SP time-of-day SP year"
  description := "ANSI C asctime() format"
  chars := CharSet.unions [dayName.chars, date3.chars, timeOfDay.chars, year.chars, sp.chars]
  pattern := dayName.pattern ++ sp.pattern ++ date3.pattern ++ sp.pattern ++ timeOfDay.pattern
    ++ sp.pattern ++ year.pattern

def obsDate : Production where
  name := "OBS-DATE"
  abnf := "rfc850-date / asctime-date"
  description := "obsolete date formats"
  chars := CharSet.unions [rfc850Date.chars, asctimeDate.chars]
  pattern := anyOf [rfc850Date.pattern, asctimeDate.pattern]

def httpDate : Production where
  name := "HTTP-DATE"
  abnf := "IMF-fixdate / obs-date"
  description := "preferred or obsolete HTTP date"
  chars := CharSet.unions [imfFixdate.chars, obsDate.chars]
  pattern := anyOf [imfFixdate.pattern, obsDate.pattern]

def date : Production :=
  { httpDate with
    name := "DATE"
    abnf := "HTTP-date"
    description := "Date header field value" }

/-! ### Entity tags -/

def weak : Production where
  name := "WEAK"
  abnf := "%s\"W/\""
  description := "weak validator indicator"
  chars := CharSet.ofText "W/"
  pattern := literal "W/"

def etagc : Production where
  name := "ETAGC"
  abnf := "%x21 / %x23-7E / obs-text"
  description := "VCHAR except double quotes, plus obs-text"
  chars := CharSet.unions [.ofText "!", .ofRange '#' '~', obsText.chars]
  pattern := anyOf [code 0x21, codes 0x23 0x7E, obsText.pattern]

def opaqueTag : Production where
  name := "OPAQUE-TAG"
  abnf := "DQUOTE *etagc DQUOTE"
  description := "double-quoted validator"
  chars := CharSet.unions [dquote.chars, etagc.chars]
  pattern := dquote.pattern ++ etagc.pattern.many ++ dquote.pattern

def entityTag : Production where
  name := "ENTITY-TAG"
  abnf := "[ weak ] opaque-tag"
  description := "optionally weak opaque validator"
  chars := CharSet.unions [weak.chars, opaqueTag.chars]
  pattern := weak.pattern.optional ++ opaqueTag.pattern

def etag : Production :=
  { entityTag with
    name := "ETAG"
    abnf := "entity-tag"
    description := "ETag header field value" }

/-! ### Fields and parameters -/

def fieldName : Production :=
  { token with
    name := "FIELD-NAME"
    abnf := "token"
    description := "field name" }

def fieldVchar : Production where
  name := "FIELD-VCHAR"
  abnf := "VCHAR / obs-text"
  description := "visible field character"
  chars := CharSet.unions [vchar.chars, obsText.chars]
  pattern := anyOf [vchar.pattern, obsText.pattern]

def fieldContent : Production where
  name := "FIELD-CONTENT"
  abnf := "field-vchar [ 1*( SP / HTAB / field-vchar ) field-vchar ]"
  description := "visible characters with interior whitespace"
  chars := CharSet.unions [fieldVchar.chars, sp.chars, htab.chars]
  pattern := fieldVchar.pattern
    ++ ((anyOf [sp.pattern, htab.pattern, fieldVchar.pattern]).atLeastOnce
      ++ fieldVchar.pattern).optional

def fieldValue : Production where
  name := "FIELD-VALUE"
  abnf := "*field-content"
  description := "field value"
  chars := fieldContent.chars
  pattern := fieldContent.pattern.many

def parameterName : Production :=
  { token with
    name := "PARAMETER-NAME"
    abnf := "token"
    description := "parameter name" }

def parameterValue : Production where
  name := "PARAMETER-VALUE"
  abnf := "( token / quoted-string )"
  description := "token or quoted string"
  chars := CharSet.unions [token.chars, quotedString.chars]
  pattern := anyOf [token.pattern, quotedString.pattern]

def parameter : Production where
  name := "PARAMETER"
  abnf := "parameter-name \"=\" parameter-value"
  description := "name=value pair"
  chars := CharSet.unions [parameterName.chars, parameterValue.chars, .ofText "="]
  pattern := parameterName.pattern ++ literal "=" ++ parameterValue.pattern

def parameters : Production where
  name := "PARAMETERS"
  abnf := "*( OWS \";\" OWS [ parameter ] )"
  description := "semicolon-delimited name=value pairs"
  chars := CharSet.unions [parameter.chars, ows.chars, .ofText ";"]
  pattern := (ows.pattern ++ literal ";" ++ ows.pattern ++ parameter.pattern.optional).many

/-! ### Identifiers -/

/-- The host rule of the URI standard, which the HTTP standard names by a prose value. -/
def uriHost : Production :=
  { host with
    name := "URI-HOST"
    abnf := "<host, see [URI], Section 3.2.2>" }

def absolutePath : Production where
  name := "ABSOLUTE-PATH"
  abnf := "1*( \"/\" segment )"
  description := "one or more slash-prefixed segments"
  chars := CharSet.unions [UriRules.segment.chars, .ofText "/"]
  pattern := (literal "/" ++ UriRules.segment.pattern).atLeastOnce

def partialUri : Production where
  name := "PARTIAL-URI"
  abnf := "relative-part [ \"?\" query ]"
  description := "relative reference without a fragment"
  chars := CharSet.unions [relativePart.chars, query.chars, .ofText "?"]
  pattern := relativePart.pattern ++ optionalQuery

/-- An identifier of an origin server under a scheme, whose letters match in either case. -/
def originUri (scheme : String) : Pattern :=
  ignoringCase (literal scheme) ++ literal "://" ++ authority.pattern ++ pathAbempty.pattern
    ++ optionalQuery

/-- The characters of such an identifier: the scheme has its letters in both cases. -/
def originChars (scheme : String) : CharSet :=
  CharSet.unions [.ofText scheme, .ofText (String.ofList (scheme.toList.map Char.toUpper)),
    authority.chars, pathAbempty.chars, query.chars, .ofText ":/?"]

def httpUri : Production where
  name := "HTTP-URI"
  abnf := "\"http\" \"://\" authority path-abempty [ \"?\" query ]"
  description := "identifier governed by an HTTP origin server"
  chars := originChars "http"
  pattern := originUri "http"

def httpsUri : Production where
  name := "HTTPS-URI"
  abnf := "\"https\" \"://\" authority path-abempty [ \"?\" query ]"
  description := "identifier governed by a TLS-secured HTTP origin server"
  chars := originChars "https"
  pattern := originUri "https"

/-- All HTTP rules, in the order in which they are listed. -/
def productions : List Production :=
  [tchar, token, obsText, quotedString, qdtext, quotedPair, comment, ctext, httpDate, date,
    imfFixdate, date1, dayName, day, month, year, timeOfDay, hour, minute, second, gmt, obsDate,
    rfc850Date, dayNameL, date2, asctimeDate, date3, etag, entityTag, weak, opaqueTag, etagc,
    fieldName, fieldValue, fieldContent, fieldVchar, parameters, parameter, parameterName,
    parameterValue, UriRules.uriReference, UriRules.absoluteUri, relativePart, authority, host, uriHost,
    UriRules.portNumber, pathAbempty, UriRules.segment, query, UriRules.pathAbsolute, absolutePath, partialUri,
    httpUri, httpsUri]

end AbnfPatterns.HttpRules
