/-
  LjrServer.Http.Http11Machine — the request grammar (http11_parser.rl).

  A definition that embeds actions takes the time stamp of its first one. `uriRelaxed` is
  the parser's `uri_relaxed`, which nothing initialises.

  The notation is Ragel's, not the RFC's. `-` is a difference of machines, so `(0 - 31)`
  is byte 0 (and `token` holds the other control characters) and `("1"-"9")` is "1"; a
  number before a bracket is the byte of that value, not a repetition.
-/

import LjrServer.Lib.Ragel

namespace LjrServer.Http.Http11

open LjrServer.Lib.Ragel
open LjrServer.Lib.Ragel.Machine

inductive Action where
  | mark
  | startField
  | writeField
  | startValue
  | writeValue
  | requestMethod
  | requestUri
  | fragment
  | startQuery
  | queryString
  | httpVersion
  | requestPath
  | done
  | xml
  | json
  deriving DecidableEq, Repr

abbrev M := Machine Action

def ch (c : Char) : M := .char c.toNat

def chars (cs : List Char) : M := .set { incl := cs.map fun c => (c.toNat, c.toNat) }

def str (cs : List Char) : M := lit (cs.map Char.toNat)

def alpha : M := .set { incl := [(65, 90), (97, 122)] }
def digit : M := .set { incl := [(48, 57)] }
def xdigit : M := .set { incl := [(48, 57), (65, 70), (97, 102)] }
def any : M := .set { incl := [(0, 255)] }
def space : M := .set { incl := [(9, 13), (32, 32)] }

def CRLF : M := alts [str ['\r', '\n'], ch '\n']

/-! ## URIs -/

section
variable (uriRelaxed : Bool)

def moreDelims : M := .set { incl := if uriRelaxed then [(123, 123), (125, 125), (94, 94)] else [] }

def subDelims : M :=
  .alt (chars ['!', '$', '&', '\'', '(', ')', '*', '+', ',', ';', '=']) (moreDelims uriRelaxed)

def unreserved : M := alts [alpha, digit, chars ['-', '.', '_', '~']]
def pctEncoded : M := cats [ch '%', xdigit, xdigit]
def pchar : M := alts [unreserved, pctEncoded, subDelims uriRelaxed, ch ':', ch '@']

def fragment (t : Nat) : M :=
  .leaving (t + 1) .fragment (.entering t .mark (.star (alts [pchar uriRelaxed, ch '/', ch '?'])))

def query (t : Nat) : M := .leaving t .queryString (.star (alts [pchar uriRelaxed, ch '/', ch '?']))

def segmentNzNc : M := plus (alts [unreserved, pctEncoded, subDelims uriRelaxed, ch '@'])
def segmentNz : M := plus (pchar uriRelaxed)
def segment : M := .star (pchar uriRelaxed)

def pathEmpty : M := .eps
def pathRootless : M := .cat (segmentNz uriRelaxed) (.star (.cat (ch '/') (segment uriRelaxed)))
def pathNoscheme : M := .cat (segmentNzNc uriRelaxed) (.star (.cat (ch '/') (segment uriRelaxed)))

def pathAbsolute : M :=
  .cat (ch '/') (opt (.cat (segmentNz uriRelaxed) (.star (.cat (ch '/') (segment uriRelaxed)))))

def pathAbempty : M := .star (.cat (ch '/') (segment uriRelaxed))

def regName : M := .star (alts [unreserved, pctEncoded, subDelims uriRelaxed])

def decOctet : M :=
  alts [digit, .cat (ch '1') digit, .cat (ch '1') (times digit 2), cats [ch '2', ch '0', digit],
    .cat (str ['2', '5']) (ch '0')]

def ipv4Address : M := cats [decOctet, ch '.', decOctet, ch '.', decOctet, ch '.', decOctet]

/-- `xdigit{1,4}` -/
def h16 : M := .cat xdigit (upTo xdigit 3)

def ls32 : M := .alt (cats [h16, ch ':', h16]) ipv4Address

/-- `h16 ":"` -/
def h16Colon : M := .cat h16 (ch ':')

/-- `( ( h16 ":" ){n,} h16 )?` -/
def leadingH16s (n : Nat) : M := opt (cats [times h16Colon n, .star h16Colon, h16])

def ipv6Address : M :=
  alts [
    cats [.char 6, h16Colon, ls32],
    cats [str [':', ':'], .char 5, h16Colon, ls32],
    cats [opt h16, str [':', ':'], .char 4, h16Colon, ls32],
    cats [leadingH16s 1, str [':', ':'], .char 3, h16Colon, ls32],
    cats [leadingH16s 2, str [':', ':'], .char 2, h16Colon, ls32],
    cats [leadingH16s 3, str [':', ':'], h16, ch ':', ls32],
    cats [leadingH16s 4, str [':', ':'], ls32],
    cats [leadingH16s 5, str [':', ':'], h16],
    cats [leadingH16s 6, str [':', ':']]]

def ipvFuture : M := cats [ch 'v', plus xdigit, ch '.', plus (alts [unreserved, subDelims uriRelaxed, ch ':'])]

def ipLiteral : M := cats [ch '[', .alt ipv6Address (ipvFuture uriRelaxed), ch ']']

def port : M := .star digit
def host : M := alts [ipLiteral uriRelaxed, ipv4Address, regName uriRelaxed]
def userinfo : M := .star (alts [unreserved, pctEncoded, subDelims uriRelaxed, ch ':'])

def authority : M :=
  cats [opt (.cat (userinfo uriRelaxed) (ch '@')), host uriRelaxed, opt (.cat (ch ':') port)]

def scheme : M := .cat alpha (.star (alts [alpha, digit, ch '+', ch '-', ch '.']))

def relativePart : M :=
  alts [cats [str ['/', '/'], authority uriRelaxed, pathAbempty uriRelaxed], pathAbsolute uriRelaxed,
    pathNoscheme uriRelaxed, pathEmpty]

def hierPart : M :=
  alts [cats [str ['/', '/'], authority uriRelaxed, pathAbempty uriRelaxed], pathAbsolute uriRelaxed,
    pathRootless uriRelaxed, pathEmpty]

/-- `(part %request_path ( "?" %start_query query )?) >mark %request_uri ( "#" fragment )?` -/
def reference (part : M) (t : Nat) : M :=
  .cat
    (.leaving (t + 4) .requestUri (.entering t .mark
      (.cat (.leaving (t + 1) .requestPath part)
        (opt (.cat (.leaving (t + 2) .startQuery (ch '?')) (query uriRelaxed (t + 3)))))))
    (opt (.cat (ch '#') (fragment uriRelaxed (t + 5))))

def relativeRef (t : Nat) : M := reference uriRelaxed (relativePart uriRelaxed) t

def uri (t : Nat) : M := cats [scheme, ch ':', reference uriRelaxed (hierPart uriRelaxed) t]

def uriReference (t : Nat) : M := .alt (uri uriRelaxed t) (relativeRef uriRelaxed (t + 7))

end

/-! ## Header lines -/

/-- `( upper | digit ){1,20}` -/
def method (t : Nat) : M :=
  .leaving (t + 1) .requestMethod (.entering t .mark
    (.cat (.set { incl := [(65, 90), (48, 57)] }) (upTo (.set { incl := [(65, 90), (48, 57)] }) 19)))

def httpNumber : M := .cat (str ['1', '.']) (chars ['0', '1'])

def httpVersion (t : Nat) : M :=
  .leaving (t + 1) .httpVersion (.entering t .mark (.cat (str ['H', 'T', 'T', 'P', '/']) httpNumber))

def HTTP_CTL : List (Nat × Nat) := [(0, 0), (127, 127)]

def HTTP_separator : List (Nat × Nat) :=
  ['(', ')', '<', '>', '@', ',', ';', ':', '\\', '"', '/', '[', ']', '?', '=', '{', '}', ' ', '\t'].map
    fun c => (c.toNat, c.toNat)

def lws : M := .cat (opt CRLF) (plus (chars [' ', '\t']))
def token : M := .set { incl := [(0, 127)], excl := HTTP_CTL ++ HTTP_separator }
def content : M := .alt (.set { incl := [(0, 255)], excl := HTTP_CTL }) lws

def fieldName (t : Nat) : M := .leaving (t + 1) .writeField (.entering t .startField (plus token))
def fieldValue (t : Nat) : M := .leaving (t + 1) .writeValue (.entering t .startValue (.star content))

def messageHeader (t : Nat) : M :=
  entryGuarded 1 (cats [fieldName t, ch ':', .star lws, fieldValue (t + 2)]) CRLF

/-- `( message_header )* ( CRLF )` -/
def headers (t : Nat) : M := .cat (.star (messageHeader t)) CRLF

/-- `HTTP_Version CRLF` and the headers. -/
def versionOn (t : Nat) : M := cats [httpVersion t, CRLF, headers (t + 2)]

/-- `URI_reference " "` and the rest. -/
def uriOn (uriRelaxed : Bool) (t : Nat) : M := cats [uriReference uriRelaxed t, ch ' ', versionOn (t + 14)]

/-- `Request_Line ( message_header )* ( CRLF )` -/
def request (uriRelaxed : Bool) (t : Nat) : M := cats [method t, ch ' ', uriOn uriRelaxed (t + 2)]

/-! ## Socket requests -/

def socketJSONStart (uriRelaxed : Bool) : M := .cat (ch '@') (relativePart uriRelaxed)

def socketJSONData : M := finishGuarded 2 (cats [ch '{', .star any, ch '}']) (.char 0)

def socketXMLData (t : Nat) : M :=
  finishGuarded 3
    (cats [.leaving (t + 1) .requestPath (.entering t .mark
        (.cat (ch '<') (plus (.set { incl := [(97, 122), (48, 57), (65, 90), (45, 46)] })))),
      alts [ch '/', space, ch '>'], .star any, ch '>']) (.char 0)

def socketJSON (uriRelaxed : Bool) (t : Nat) : M :=
  cats [.leaving (t + 1) .requestPath (.entering t .mark (socketJSONStart uriRelaxed)), ch ' ',
    .finishing (t + 3) .json (.entering (t + 2) .mark socketJSONData)]

def socketXML (t : Nat) : M := .finishing (t + 2) .xml (socketXMLData t)

def socketRequest (uriRelaxed : Bool) (t : Nat) : M := .alt (socketXML t) (socketJSON uriRelaxed (t + 3))

def main (uriRelaxed : Bool) : M :=
  .finishing 31 .done (.alt (request uriRelaxed 0) (socketRequest uriRelaxed 24))

end LjrServer.Http.Http11
