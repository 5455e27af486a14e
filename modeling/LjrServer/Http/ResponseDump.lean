/-
  LjrServer.Http.ResponseDump — `HttpResponse::dump` and `HttpStatusToString` (http.cpp).

  Unlike a request's, the "connection" line is behind the lines of the header map, and every
  line has a blank behind the colon.

  Proved:
  - `reasonText_ok`: the status line of a response never lacks its reason.
-/

import LjrServer.Http.Dump

namespace LjrServer.Http

/-- `HTTP_STATUS_MAP`, with the spaces the preprocessor puts around a minus. -/
def statusMap : List (Nat × Bytes) :=
  [(100, bytes ['C', 'o', 'n', 't', 'i', 'n', 'u', 'e']),
   (101, bytes ['S', 'w', 'i', 't', 'c', 'h', 'i', 'n', 'g', ' ', 'P', 'r', 'o', 't', 'o', 'c', 'o', 'l', 's']),
   (102, bytes ['P', 'r', 'o', 'c', 'e', 's', 's', 'i', 'n', 'g']),
   (200, bytes ['O', 'K']),
   (201, bytes ['C', 'r', 'e', 'a', 't', 'e', 'd']),
   (202, bytes ['A', 'c', 'c', 'e', 'p', 't', 'e', 'd']),
   (203, bytes ['N', 'o', 'n', ' ', '-', ' ', 'A', 'u', 't', 'h', 'o', 'r', 'i', 't', 'a', 't', 'i', 'v', 'e',
      ' ', 'I', 'n', 'f', 'o', 'r', 'm', 'a', 't', 'i', 'o', 'n']),
   (204, bytes ['N', 'o', ' ', 'C', 'o', 'n', 't', 'e', 'n', 't']),
   (205, bytes ['R', 'e', 's', 'e', 't', ' ', 'C', 'o', 'n', 't', 'e', 'n', 't']),
   (206, bytes ['P', 'a', 'r', 't', 'i', 'a', 'l', ' ', 'C', 'o', 'n', 't', 'e', 'n', 't']),
   (207, bytes ['M', 'u', 'l', 't', 'i', ' ', '-', ' ', 'S', 't', 'a', 't', 'u', 's']),
   (208, bytes ['A', 'l', 'r', 'e', 'a', 'd', 'y', ' ', 'R', 'e', 'p', 'o', 'r', 't', 'e', 'd']),
   (226, bytes ['I', 'M', ' ', 'U', 's', 'e', 'd']),
   (300, bytes ['M', 'u', 'l', 't', 'i', 'p', 'l', 'e', ' ', 'C', 'h', 'o', 'i', 'c', 'e', 's']),
   (301, bytes ['M', 'o', 'v', 'e', 'd', ' ', 'P', 'e', 'r', 'm', 'a', 'n', 'e', 'n', 't', 'l', 'y']),
   (302, bytes ['F', 'o', 'u', 'n', 'd']),
   (303, bytes ['S', 'e', 'e', ' ', 'O', 't', 'h', 'e', 'r']),
   (304, bytes ['N', 'o', 't', ' ', 'M', 'o', 'd', 'i', 'f', 'i', 'e', 'd']),
   (305, bytes ['U', 's', 'e', ' ', 'P', 'r', 'o', 'x', 'y']),
   (307, bytes ['T', 'e', 'm', 'p', 'o', 'r', 'a', 'r', 'y', ' ', 'R', 'e', 'd', 'i', 'r', 'e', 'c', 't']),
   (308, bytes ['P', 'e', 'r', 'm', 'a', 'n', 'e', 'n', 't', ' ', 'R', 'e', 'd', 'i', 'r', 'e', 'c', 't']),
   (400, bytes ['B', 'a', 'd', ' ', 'R', 'e', 'q', 'u', 'e', 's', 't']),
   (401, bytes ['U', 'n', 'a', 'u', 't', 'h', 'o', 'r', 'i', 'z', 'e', 'd']),
   (402, bytes ['P', 'a', 'y', 'm', 'e', 'n', 't', ' ', 'R', 'e', 'q', 'u', 'i', 'r', 'e', 'd']),
   (403, bytes ['F', 'o', 'r', 'b', 'i', 'd', 'd', 'e', 'n']),
   (404, bytes ['N', 'o', 't', ' ', 'F', 'o', 'u', 'n', 'd']),
   (405, bytes ['M', 'e', 't', 'h', 'o', 'd', ' ', 'N', 'o', 't', ' ', 'A', 'l', 'l', 'o', 'w', 'e', 'd']),
   (406, bytes ['N', 'o', 't', ' ', 'A', 'c', 'c', 'e', 'p', 't', 'a', 'b', 'l', 'e']),
   (407, bytes ['P', 'r', 'o', 'x', 'y', ' ', 'A', 'u', 't', 'h', 'e', 'n', 't', 'i', 'c', 'a', 't', 'i', 'o',
      'n', ' ', 'R', 'e', 'q', 'u', 'i', 'r', 'e', 'd']),
   (408, bytes ['R', 'e', 'q', 'u', 'e', 's', 't', ' ', 'T', 'i', 'm', 'e', 'o', 'u', 't']),
   (409, bytes ['C', 'o', 'n', 'f', 'l', 'i', 'c', 't']),
   (410, bytes ['G', 'o', 'n', 'e']),
   (411, bytes ['L', 'e', 'n', 'g', 't', 'h', ' ', 'R', 'e', 'q', 'u', 'i', 'r', 'e', 'd']),
   (412, bytes ['P', 'r', 'e', 'c', 'o', 'n', 'd', 'i', 't', 'i', 'o', 'n', ' ', 'F', 'a', 'i', 'l', 'e', 'd']),
   (413, bytes ['P', 'a', 'y', 'l', 'o', 'a', 'd', ' ', 'T', 'o', 'o', ' ', 'L', 'a', 'r', 'g', 'e']),
   (414, bytes ['U', 'R', 'I', ' ', 'T', 'o', 'o', ' ', 'L', 'o', 'n', 'g']),
   (415, bytes ['U', 'n', 's', 'u', 'p', 'p', 'o', 'r', 't', 'e', 'd', ' ', 'M', 'e', 'd', 'i', 'a', ' ', 'T',
      'y', 'p', 'e']),
   (416, bytes ['R', 'a', 'n', 'g', 'e', ' ', 'N', 'o', 't', ' ', 'S', 'a', 't', 'i', 's', 'f', 'i', 'a', 'b',
      'l', 'e']),
   (417, bytes ['E', 'x', 'p', 'e', 'c', 't', 'a', 't', 'i', 'o', 'n', ' ', 'F', 'a', 'i', 'l', 'e', 'd']),
   (421, bytes ['M', 'i', 's', 'd', 'i', 'r', 'e', 'c', 't', 'e', 'd', ' ', 'R', 'e', 'q', 'u', 'e', 's', 't']),
   (422, bytes ['U', 'n', 'p', 'r', 'o', 'c', 'e', 's', 's', 'a', 'b', 'l', 'e', ' ', 'E', 'n', 't', 'i', 't',
      'y']),
   (423, bytes ['L', 'o', 'c', 'k', 'e', 'd']),
   (424, bytes ['F', 'a', 'i', 'l', 'e', 'd', ' ', 'D', 'e', 'p', 'e', 'n', 'd', 'e', 'n', 'c', 'y']),
   (426, bytes ['U', 'p', 'g', 'r', 'a', 'd', 'e', ' ', 'R', 'e', 'q', 'u', 'i', 'r', 'e', 'd']),
   (428, bytes ['P', 'r', 'e', 'c', 'o', 'n', 'd', 'i', 't', 'i', 'o', 'n', ' ', 'R', 'e', 'q', 'u', 'i', 'r',
      'e', 'd']),
   (429, bytes ['T', 'o', 'o', ' ', 'M', 'a', 'n', 'y', ' ', 'R', 'e', 'q', 'u', 'e', 's', 't', 's']),
   (431, bytes ['R', 'e', 'q', 'u', 'e', 's', 't', ' ', 'H', 'e', 'a', 'd', 'e', 'r', ' ', 'F', 'i', 'e', 'l',
      'd', 's', ' ', 'T', 'o', 'o', ' ', 'L', 'a', 'r', 'g', 'e']),
   (451, bytes ['U', 'n', 'a', 'v', 'a', 'i', 'l', 'a', 'b', 'l', 'e', ' ', 'F', 'o', 'r', ' ', 'L', 'e', 'g',
      'a', 'l', ' ', 'R', 'e', 'a', 's', 'o', 'n', 's']),
   (500, bytes ['I', 'n', 't', 'e', 'r', 'n', 'a', 'l', ' ', 'S', 'e', 'r', 'v', 'e', 'r', ' ', 'E', 'r', 'r',
      'o', 'r']),
   (501, bytes ['N', 'o', 't', ' ', 'I', 'm', 'p', 'l', 'e', 'm', 'e', 'n', 't', 'e', 'd']),
   (502, bytes ['B', 'a', 'd', ' ', 'G', 'a', 't', 'e', 'w', 'a', 'y']),
   (503, bytes ['S', 'e', 'r', 'v', 'i', 'c', 'e', ' ', 'U', 'n', 'a', 'v', 'a', 'i', 'l', 'a', 'b', 'l', 'e']),
   (504, bytes ['G', 'a', 't', 'e', 'w', 'a', 'y', ' ', 'T', 'i', 'm', 'e', 'o', 'u', 't']),
   (505, bytes ['H', 'T', 'T', 'P', ' ', 'V', 'e', 'r', 's', 'i', 'o', 'n', ' ', 'N', 'o', 't', ' ', 'S', 'u',
      'p', 'p', 'o', 'r', 't', 'e', 'd']),
   (506, bytes ['V', 'a', 'r', 'i', 'a', 'n', 't', ' ', 'A', 'l', 's', 'o', ' ', 'N', 'e', 'g', 'o', 't', 'i',
      'a', 't', 'e', 's']),
   (507, bytes ['I', 'n', 's', 'u', 'f', 'f', 'i', 'c', 'i', 'e', 'n', 't', ' ', 'S', 't', 'o', 'r', 'a', 'g',
      'e']),
   (508, bytes ['L', 'o', 'o', 'p', ' ', 'D', 'e', 't', 'e', 'c', 't', 'e', 'd']),
   (510, bytes ['N', 'o', 't', ' ', 'E', 'x', 't', 'e', 'n', 'd', 'e', 'd']),
   (511, bytes ['N', 'e', 't', 'w', 'o', 'r', 'k', ' ', 'A', 'u', 't', 'h', 'e', 'n', 't', 'i', 'c', 'a', 't',
      'i', 'o', 'n', ' ', 'R', 'e', 'q', 'u', 'i', 'r', 'e', 'd'])]

/-- `"<unknown>"` -/
def UNKNOWN : Bytes := bytes ['<', 'u', 'n', 'k', 'n', 'o', 'w', 'n', '>']

def httpStatusToString (s : Int) : Bytes := ((statusMap.find? fun x => (x.1 : Int) = s).map (·.2)).getD UNKNOWN

namespace HttpResponse

/-- `(uint32_t)m_status` -/
def statusCode (q : HttpResponse) : Nat := (q.status % 2 ^ 32).toNat

def reasonText (q : HttpResponse) : Bytes := if q.reason = [] then httpStatusToString q.status else q.reason

/-- `HTTP/1.1 200 OK` and the end of the line. -/
def statusText (q : HttpResponse) : Bytes :=
  HTTP_ ++ (decimal (q.version.toNat >>> 4) ++ 46 :: decimal (q.version &&& 0x0F).toNat) ++
    32 :: (decimal q.statusCode ++ 32 :: (q.reasonText ++ [13, 10]))

def fieldText (x : Bytes × Bytes) : Bytes := x.1 ++ 58 :: 32 :: (x.2 ++ [13, 10])

def connectionValue (q : HttpResponse) : Bytes := if q.close then CLOSE else KEEP_ALIVE

/-- The header lines that are not skipped. -/
def dumped (q : HttpResponse) : MapType := q.headers.filter fun x => !strcasecmpEq x.1 CONNECTION

/-- The lines `dump` adds. -/
def ownFields (q : HttpResponse) : MapType :=
  (CONNECTION, q.connectionValue) :: if q.body = [] then [] else [(CONTENT_LENGTH, decimal q.body.length)]

/-- The header block. -/
def dumpHeader (q : HttpResponse) : Bytes :=
  q.statusText ++ (q.dumped ++ q.ownFields).flatMap fieldText ++ [13, 10]

def dump (q : HttpResponse) : Bytes := q.dumpHeader ++ q.body

end HttpResponse

/-! ## Reasons -/

theorem statusMap_ok : ∀ x ∈ statusMap, x.2 ≠ [] ∧ x.2.all (fun b => b ≠ 13 ∧ b ≠ 10) = true := by
  decide +kernel

theorem httpStatusToString_mem (s : Int) : httpStatusToString s = UNKNOWN ∨ ∃ x ∈ statusMap, httpStatusToString s = x.2 := by
  unfold httpStatusToString
  cases h : statusMap.find? fun x => (x.1 : Int) = s with
  | none => exact .inl rfl
  | some x => exact .inr ⟨x, List.mem_of_find?_eq_some h, rfl⟩

/-- A reason of the response's own is in one line, as the built-in ones are. -/
theorem reasonText_ok {q : HttpResponse} (h : ∀ b ∈ q.reason, b ≠ 13 ∧ b ≠ 10) :
    q.reasonText ≠ [] ∧ ∀ b ∈ q.reasonText, b ≠ 13 ∧ b ≠ 10 := by
  unfold HttpResponse.reasonText
  by_cases hreason : q.reason = []
  · rw [if_pos hreason]
    rcases httpStatusToString_mem q.status with hunknown | ⟨x, hx, heq⟩
    · have hall : UNKNOWN.all (fun b => b ≠ 13 ∧ b ≠ 10) = true := by decide
      rw [hunknown]
      exact ⟨by decide, fun b hb => of_decide_eq_true (List.all_eq_true.mp hall b hb)⟩
    · obtain ⟨hne, hall⟩ := statusMap_ok x hx
      rw [heq]
      exact ⟨hne, fun b hb => of_decide_eq_true (List.all_eq_true.mp hall b hb)⟩
  · rw [if_neg hreason]
    exact ⟨hreason, h⟩

end LjrServer.Http
