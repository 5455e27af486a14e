/-
  LjrServer.Uri.Machine — the URI grammar (uri.rl).

  A definition that embeds actions takes the time stamp of its first one. `2 [0-4] digit`
  begins with the byte of value 2.
-/

import LjrServer.Lib.Ragel

namespace LjrServer.UriParser

open LjrServer.Lib.Ragel
open LjrServer.Lib.Ragel.Machine

inductive Action where
  | marku
  | markh
  | saveScheme
  | savePort
  | saveUserinfo
  | saveHost
  | savePath
  | saveQuery
  | saveFragment
  deriving DecidableEq, Repr

abbrev M := Machine Action

abbrev ch (c : Char) : M := .char c.toNat

def chars (cs : List Char) : M := .set { incl := cs.map fun c => (c.toNat, c.toNat) }

def str (cs : List Char) : M := lit (cs.map Char.toNat)

/-- `[a-b]` -/
def range (a b : Char) : M := .set { incl := [(a.toNat, b.toNat)] }

def alpha : M := .set { incl := [(65, 90), (97, 122)] }
def digit : M := .set { incl := [(48, 57)] }
def xdigit : M := .set { incl := [(48, 57), (65, 70), (97, 102)] }

/-- `any -- ascii`, of signed characters. -/
def notAscii : M := .set { incl := [(128, 255)] }

def subDelims : M := chars ['!', '$', '&', '\'', '(', ')', '*', '+', ',', ';', '=']
def unreserved : M := alts [alpha, digit, chars ['-', '.', '_', '~']]
def pctEncoded : M := cats [ch '%', xdigit, xdigit]

def schemeName : M := .cat alpha (.star (alts [alpha, digit, ch '+', ch '-', ch '.']))

/-! ## Authorities -/

def userinfo : M := .star (alts [unreserved, pctEncoded, subDelims, ch ':'])

def decOctet : M :=
  alts [digit, .cat (range '1' '9') digit, .cat (ch '1') (times digit 2), cats [.char 2, range '0' '4', digit],
    .cat (str ['2', '5']) (range '0' '5')]

def ipv4Address : M := cats [decOctet, ch '.', decOctet, ch '.', decOctet, ch '.', decOctet]

/-- `xdigit{1,4}` -/
def h16 : M := .cat xdigit (upTo xdigit 3)

def ls32 : M := .alt (cats [h16, ch ':', h16]) ipv4Address

/-- `(h16 ":"){n}` -/
def h16s (n : Nat) : M := times (.cat h16 (ch ':')) n

def ipv6Address : M :=
  alts [
    cats [h16s 6, ls32],
    cats [str [':', ':'], h16s 5, ls32],
    cats [opt h16, str [':', ':'], h16s 4, ls32],
    cats [opt (.cat (h16s 1) h16), str [':', ':'], h16s 3, ls32],
    cats [opt (.cat (h16s 2) h16), str [':', ':'], h16s 2, ls32],
    cats [opt (.cat (h16s 3) h16), str [':', ':'], h16s 1, ls32],
    cats [opt (.cat (h16s 4) h16), str [':', ':'], ls32],
    cats [opt (.cat (h16s 5) h16), str [':', ':'], h16],
    cats [opt (.cat (h16s 6) h16), str [':', ':']]]

def ipvFuture : M := cats [ch 'v', plus xdigit, ch '.', plus (alts [unreserved, subDelims, ch ':'])]

def ipLiteral : M := cats [ch '[', .alt ipv6Address ipvFuture, ch ']']

def regName : M := .star (alts [unreserved, pctEncoded, subDelims])

def host : M := alts [ipLiteral, ipv4Address, regName]

def port : M := .star digit

def authority (t : Nat) : M :=
  .entering t .markh (cats [
    opt (.cat (.leaving (t + 1) .saveUserinfo userinfo) (ch '@')),
    .leaving (t + 3) .saveHost (.entering (t + 2) .markh host),
    opt (.cat (ch ':') (.leaving (t + 5) .savePort (.entering (t + 4) .markh port)))])

/-! ## Paths -/

def pchar : M := alts [notAscii, unreserved, pctEncoded, subDelims, ch ':', ch '@']

/-- `pchar - ":"` -/
def pcharNc : M := alts [notAscii, unreserved, pctEncoded, subDelims, ch '@']

def segment : M := .star pchar
def segmentNz : M := plus pchar
def segmentNzNc : M := plus pcharNc

def segments : M := .star (.cat (ch '/') segment)

def pathAbempty : M := .cat (opt (.cat (ch '/') segment)) segments
def pathAbsolute : M := .cat (ch '/') (opt (.cat segmentNz segments))
def pathNoscheme : M := .cat segmentNzNc segments
def pathRootless : M := .cat segmentNz segments
def pathEmpty : M := .eps

/-! ## The whole -/

def queryText : M := .star (alts [pchar, ch '/', ch '?'])

/-- `( "?" query )?` -/
def query (t : Nat) : M := opt (.cat (ch '?') (.leaving (t + 1) .saveQuery (.entering t .marku queryText)))

/-- `( "#" fragment )?` -/
def fragment (t : Nat) : M := opt (.cat (ch '#') (.leaving (t + 1) .saveFragment (.entering t .marku queryText)))

def hierPart (t : Nat) : M :=
  alts [cats [str ['/', '/'], authority t, .leaving (t + 7) .savePath (.entering (t + 6) .markh pathAbempty)],
    pathAbsolute, pathRootless, pathEmpty]

def relativePart (t : Nat) : M :=
  alts [cats [str ['/', '/'], authority t, pathAbempty], pathAbsolute, pathNoscheme, pathEmpty]

def relativeRef (t : Nat) : M := cats [relativePart t, query (t + 6), fragment (t + 8)]

def uri (t : Nat) : M :=
  cats [.leaving (t + 1) .saveScheme (.entering t .marku schemeName), ch ':', hierPart (t + 2), query (t + 10),
    fragment (t + 12)]

def uriReference : M := .alt (uri 0) (relativeRef 14)

end LjrServer.UriParser
