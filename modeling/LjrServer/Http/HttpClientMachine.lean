/-
  LjrServer.Http.HttpClientMachine — the response grammar (httpclient_parser.rl).

  As in the request grammar, a definition takes the time stamp of the first action it
  embeds. `--` is a strong difference: what holds no `CRLF` in one byte holds no LF.
-/

import LjrServer.Lib.Ragel

namespace LjrServer.Http.HttpClient

open LjrServer.Lib.Ragel
open LjrServer.Lib.Ragel.Machine

inductive Action where
  | mark
  | startField
  | writeField
  | startValue
  | writeContentLen
  | writeConnectionClose
  | writeValue
  | reasonPhrase
  | statusCode
  | httpVersion
  | chunkSize
  | transChunked
  | done
  deriving DecidableEq, Repr

abbrev M := Machine Action

def ch (c : Char) : M := .char c.toNat

/-- `"abc"` -/
def str (cs : List Char) : M := lit (cs.map Char.toNat)

/-- `/abc/i` -/
def strI (cs : List Char) : M := litI (cs.map Char.toNat)

def any : M := .set { incl := [(0, 255)] }
def digit : M := .set { incl := [(48, 57)] }
def xdigit : M := .set { incl := [(48, 57), (65, 70), (97, 102)] }
def space : M := .set { incl := [(9, 13), (32, 32)] }

def CRLF : M := .alt (str ['\r', '\n']) (ch '\n')

def CTL : List (Nat × Nat) := [(0, 31), (127, 127)]

def tspecials : List (Nat × Nat) :=
  ['(', ')', '<', '>', '@', ',', ';', ':', '\\', '"', '/', '[', ']', '?', '=', '{', '}', ' ', '\t'].map
    fun c => (c.toNat, c.toNat)

def token : M := .set { incl := [(0, 127)], excl := CTL ++ tspecials }

/-! ## The status line -/

def reasonPhrase (t : Nat) : M :=
  .leaving (t + 1) .reasonPhrase (.entering t .mark (plus (.set { incl := [(0, 255)], excl := [(10, 10)] })))

def statusCode (t : Nat) : M := .leaving (t + 1) .statusCode (.entering t .mark (plus digit))

def httpNumber : M := cats [plus digit, ch '.', plus digit]

def httpVersion (t : Nat) : M :=
  .leaving (t + 1) .httpVersion (.entering t .mark (.cat (str ['H', 'T', 'T', 'P', '/']) httpNumber))

def statusLine (t : Nat) : M :=
  entryGuarded 1 (cats [httpVersion t, ch ' ', statusCode (t + 2), ch ' ', reasonPhrase (t + 4)]) CRLF

/-! ## Header lines -/

/-- `m >start_field %write_field` -/
def named (t : Nat) (m : M) : M := .leaving (t + 1) .writeField (.entering t .startField m)

def fields (t : Nat) : M :=
  entryGuarded 2
    (cats [named t (plus token), ch ':', .star space,
      .leaving (t + 3) .writeValue (.entering (t + 2) .startValue (.star any))]) CRLF

def contentLength (t : Nat) : M :=
  cats [named t (strI ['C', 'o', 'n', 't', 'e', 'n', 't', '-', 'L', 'e', 'n', 'g', 't', 'h']), ch ':', .star space,
    .leaving (t + 4) .writeValue (.leaving (t + 3) .writeContentLen (.entering (t + 2) .startValue (plus digit))), CRLF]

def connClose (t : Nat) : M :=
  cats [strI ['C', 'o', 'n', 'n', 'e', 'c', 't', 'i', 'o', 'n'], ch ':', .star space,
    strI ['c', 'l', 'o', 's', 'e'], .leaving t .writeConnectionClose CRLF]

def transferEncodingChunked (t : Nat) : M :=
  cats [named t (strI ['T', 'r', 'a', 'n', 's', 'f', 'e', 'r', '-', 'E', 'n', 'c', 'o', 'd', 'i', 'n', 'g']), ch ':',
    .star space,
    .leaving (t + 3) .writeValue (.entering (t + 2) .startValue (strI ['c', 'h', 'u', 'n', 'k', 'e', 'd'])),
    .finishing (t + 4) .transChunked CRLF]

def messageHeader (t : Nat) : M :=
  alts [transferEncodingChunked t, connClose (t + 5), contentLength (t + 6), fields (t + 11)]

def response (t : Nat) : M := cats [statusLine t, .star (messageHeader (t + 6)), CRLF]

/-! ## Chunk headers -/

def chunkExtVal : M := plus token
def chunkExtName : M := plus token

def chunkExtension (t : Nat) : M :=
  .star (cats [ch ';',
    .leaving (t + 2) .startValue (.leaving (t + 1) .writeField (.entering t .startField chunkExtName)),
    .leaving (t + 4) .writeValue (opt (.cat (ch '=') (.entering (t + 3) .startValue chunkExtVal)))])

def chunkSize : M := plus xdigit

def chunkedHeader (t : Nat) : M :=
  entryGuarded 3 (.cat (.leaving (t + 1) .chunkSize (.entering t .mark chunkSize)) (chunkExtension (t + 2))) CRLF

def main : M := .finishing 28 .done (.alt (response 0) (chunkedHeader 21))

end LjrServer.Http.HttpClient
