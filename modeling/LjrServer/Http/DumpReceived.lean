/-
  LjrServer.Http.DumpReceived — a request that is dumped and received.

  `dump` writes a "connection" line of its own and skips the one in the header map. It also
  writes a "content-length" line when there is a body, but a "content-length" in the header
  map is not skipped: behind it an empty body is waited for.

  Proved:
  - `parses_dump`: what the parser makes of the header block that `dump` writes.
  - `dump_received_iff`: the request comes back as it was, unless its body is empty and its
    header map holds a "content-length" that is read as a positive number.
-/

import LjrServer.Http.KeepAlive
import LjrServer.Http.RequestLineReads

namespace LjrServer.Http

open LjrServer.Lib LjrServer.Lib.Scanner LjrServer.Lib.Ragel LjrServer.Http.Http11

/-- What a request has to be for its text to be one of the grammar. -/
structure HttpRequest.Sendable (uriRelaxed : Bool) (q : HttpRequest) : Prop where
  method_ok : ∃ text, httpMethodToString q.method = some text ∧ ∀ b ∈ text, IsUpper b
  version_ok : q.version = 0x11 ∨ q.version = 0x10
  path_rooted : q.path.head? = some 47
  path_ok : accepts (relativePart uriRelaxed) q.path = true
  query_ok : accepts (uriChars uriRelaxed) q.query = true
  fragment_ok : accepts (uriChars uriRelaxed) q.fragment = true
  headers_sorted : q.headers.Pairwise fun x y => caseInsensitiveLess x.1 y.1 = true
  headers_ok : ∀ x ∈ q.headers, IsToken x.1 ∧ IsFieldText x.2

/-- The same message, but for the "connection" and "content-length" headers. -/
structure HttpRequest.SameMessage (a b : HttpRequest) : Prop where
  method : a.method = b.method
  version : a.version = b.version
  path : a.path = b.path
  query : a.query = b.query
  fragment : a.fragment = b.fragment
  close : a.close = b.close
  body : a.body = b.body
  headers : ∀ key, strcasecmpEq key CONNECTION = false → strcasecmpEq key CONTENT_LENGTH = false →
    a.headers.get key = b.headers.get key

/-! ## The header block -/

namespace HttpRequest

/-- The content-length line `dump` adds. -/
def lengthField (q : HttpRequest) : MapType := if q.body = [] then [] else [(CONTENT_LENGTH, decimal q.body.length)]

/-- The request the header block describes. -/
def described (q : HttpRequest) : HttpRequest :=
  { method := q.method, version := q.version, path := q.path, query := q.query, fragment := q.fragment
    headers := q.lengthField.puts (q.dumped.puts (MapType.put CONNECTION q.connectionValue [])) }

end HttpRequest

theorem last_evaluated : (step lastReturn 10).1 ≠ [] ∧ (step lastReturn 10).2 = [.done] ∧
    isFinal (step lastReturn 10).1 = true := by
  decide +kernel

/-- A call that takes all lines accepts the block with the last line end. -/
theorem parses_of_takes {u : Uninit} {w : Bytes} {g : Regs Reg} {q : HttpRequest} (hlt : (w ++ [13, 10]).length < 2 ^ 31)
    (h : Takes (w ++ [13, 10]) [] w ⟨[main u.uriRelaxed], (HttpParser.init u.uriRelaxed u.queryStart).reset.regs, ({}, 0)⟩
      ⟨lineStart, g, (q, 0)⟩) : HttpSession.Parses u (w ++ [13, 10]) q := by
  obtain ⟨hne, hacts, hfinal⟩ := last_evaluated
  have hreturn : Takes (w ++ [13, 10]) w [13] ⟨lineStart, g, (q, 0)⟩ ⟨lastReturn, savedAt g .fieldStart w.length, (q, 0)⟩ :=
    takes_saved (x := []) line_marks.2.2.2.2.2.2.2 line_ne_nil.2.2.2.2.2.2.2 rfl rfl
  obtain ⟨es, hscan, hdata⟩ := h.append hreturn
  have hA : Http11.automaton lastReturn 10 = some ((step lastReturn 10).1, [.emit .done [.upto .mark], .stop]) := by
    have hstep : step lastReturn (10 : UInt8).toNat = ((step lastReturn 10).1, [.done]) := Prod.ext rfl hacts
    simp only [Ragel.automaton, hstep, if_neg hne]
    rfl
  have hsplit : w ++ [13, 10] = w ++ [13] ++ [10] := by rw [List.append_assoc]; rfl
  have hall : ∃ evs, scan Http11.automaton (w ++ [13, 10]) 0 [main u.uriRelaxed]
      (HttpParser.init u.uriRelaxed u.queryStart).reset.regs =
        ⟨(step lastReturn 10).1, savedAt g .fieldStart w.length, (w ++ [13, 10]).length, .stopped, evs⟩ ∧
      HttpRequestParser.callbacks (w ++ [13, 10]) evs ({}, 0) = some (q, 0) := by
    refine ⟨es ++ [⟨.done, (w ++ [13]).length, [(savedAt g .fieldStart w.length).slice (w ++ [13]).length (.upto .mark)]⟩],
      ?_, (callbacks_append hdata).trans rfl⟩
    have hscan : scan Http11.automaton (w ++ [13]) 0 [main u.uriRelaxed]
        (HttpParser.init u.uriRelaxed u.queryStart).reset.regs =
          ⟨lastReturn, savedAt g .fieldStart w.length, (w ++ [13]).length, .more, es⟩ := hscan
    have hlast : scan Http11.automaton [10] (w ++ [13]).length lastReturn (savedAt g .fieldStart w.length) =
        ⟨(step lastReturn 10).1, savedAt g .fieldStart w.length, (w ++ [13]).length + 1, .stopped,
          [⟨.done, (w ++ [13]).length, [(savedAt g .fieldStart w.length).slice (w ++ [13]).length (.upto .mark)]⟩]⟩ := by
      rw [scan, hA]
      rfl
    rw [hsplit, scan_append Http11.automaton [10] (w ++ [13]) 0 _ _ (by rw [hscan]), hscan]
    dsimp only
    rw [Nat.zero_add, hlast, @List.length_append _ _ [10]]
    rfl
  obtain ⟨evs, hscan, hdata⟩ := hall
  have hscan' : scan (requestScan u.uriRelaxed).automaton (w ++ [13, 10]) 0
      ((requestScan u.uriRelaxed).state (.new u.uriRelaxed u.queryStart))
      ((requestScan u.uriRelaxed).regs (.new u.uriRelaxed u.queryStart)) = _ := hscan
  obtain ⟨p, haccepts, hp⟩ := request_implements.accepts_of_scan (q := (q, 0))
    (request_ready_new u.uriRelaxed u.queryStart) (by simp) hlt (by rw [hscan']) (by rw [hscan'])
    (by rw [hscan']; exact hfinal)
    (by rw [hscan']; exact (request_callbacks u.uriRelaxed _ _ _).symm.trans hdata) rfl
  exact ⟨p, haccepts, (Prod.mk.inj hp).1⟩

/-! ## What is written -/

section
variable {uriRelaxed : Bool} {q : HttpRequest} (hq : q.Sendable uriRelaxed)
include hq

theorem versionText_eq : ∃ v, q.versionText = v ++ [13, 10] ∧
    ((v = HTTP_1_1 ∧ q.version = 0x11) ∨ (v = HTTP_1_0 ∧ q.version = 0x10)) := by
  rcases hq.version_ok with h | h
  · refine ⟨HTTP_1_1, ?_, .inl ⟨rfl, h⟩⟩
    rw [HttpRequest.versionText, h]
    decide
  · refine ⟨HTTP_1_0, ?_, .inr ⟨rfl, h⟩⟩
    rw [HttpRequest.versionText, h]
    decide

theorem dumped_ok : (∀ x ∈ q.dumped, IsToken x.1 ∧ IsFieldText x.2) ∧
    q.dumped.Pairwise fun x y => caseInsensitiveLess x.1 y.1 = true :=
  ⟨fun x hx => hq.headers_ok x (List.mem_filter.mp hx).1, hq.headers_sorted.filter _⟩

end

theorem connectionValue_ok (q : HttpRequest) : IsFieldText q.connectionValue ∧ q.connectionValue ≠ [] := by
  unfold HttpRequest.connectionValue
  split
  · exact ⟨⟨by decide +kernel, by decide, by decide⟩, by decide⟩
  · exact ⟨⟨by decide +kernel, by decide, by decide⟩, by decide⟩

theorem ownNames_ok : IsToken CONNECTION ∧ IsToken CONTENT_LENGTH :=
  ⟨⟨by decide, by decide +kernel⟩, ⟨by decide, by decide +kernel⟩⟩

theorem decimal_ok (n : Nat) : IsFieldText (decimal n) := by
  have hdigit : ∀ b ∈ decimal n, 48 ≤ b.toNat ∧ b.toNat ≤ 57 := fun b => decimal_printable
  have hblank : (32 : UInt8) ∉ decimal n := fun h => absurd (hdigit 32 h) (by decide)
  refine ⟨fun b hb => ?_, fun h => hblank (List.mem_of_mem_head? h), fun h => hblank (List.mem_of_mem_getLast? h)⟩
  have := hdigit b hb
  omega

section
variable {u : Uninit} {q : HttpRequest} (hq : q.Sendable u.uriRelaxed)
include hq

/-- The request line. -/
theorem takes_requestLine {header text r : Bytes} (htext : httpMethodToString q.method = some text)
    (hR : header = text ++ [32] ++ (q.uriText ++ [32]) ++ q.versionText ++ r) (h64 : header.length < 2 ^ 64) :
    ∃ g, Takes header [] (text ++ [32] ++ (q.uriText ++ [32]) ++ q.versionText)
      ⟨[main u.uriRelaxed], (HttpParser.init u.uriRelaxed u.queryStart).reset.regs, ({}, 0)⟩ ⟨lineStart, g,
        ({ method := q.method, version := q.version, path := q.path, query := q.query, fragment := q.fragment }, 0)⟩ := by
  obtain ⟨text', htext', hupper⟩ := hq.method_ok
  obtain rfl : text' = text := Option.some.inj (htext'.symm.trans htext)
  obtain ⟨p, hpath⟩ : ∃ p, q.path = 47 :: p := by
    have hhead := hq.path_rooted
    cases hpath : q.path with
    | nil =>
      rw [hpath] at hhead
      cases hhead
    | cons b p =>
      rw [hpath] at hhead
      exact ⟨p, by rw [Option.some.inj hhead]⟩
  obtain ⟨v, hversionText, hversion⟩ := versionText_eq hq
  have hprioFree : (relativePart u.uriRelaxed).prioFree = true ∧ (uriChars u.uriRelaxed).prioFree = true := by
    cases u.uriRelaxed <;> decide +kernel
  have hp := (accepts_iff hprioFree.1).mp hq.path_ok
  have hquery := (accepts_iff hprioFree.2).mp hq.query_ok
  have hfragment := (accepts_iff hprioFree.2).mp hq.fragment_ok
  have huri : q.uriText = 47 :: p ++ marked 63 q.query ++ marked 35 q.fragment := by
    rw [HttpRequest.uriText, hpath]
    simp
  rw [hpath] at hp
  rw [huri, hversionText] at hR ⊢
  rw [hpath]
  obtain ⟨g₁, h₁⟩ := takes_method u.uriRelaxed (R := header)
    (g := (HttpParser.init u.uriRelaxed u.queryStart).reset.regs) (d := ({}, 0)) htext hupper
    (r := 47 :: p ++ marked 63 q.query ++ marked 35 q.fragment ++ [32] ++ (v ++ [13, 10]) ++ r) (by rw [hR]; simp)
  obtain ⟨g₂, h₂⟩ := takes_target (w := text' ++ [32]) (g := g₁) (d := ({ method := q.method }, 0)) hp hquery hfragment
    (r := v ++ [13, 10] ++ r) (by rw [hR]; simp) h64 ⟨rfl, rfl⟩
  obtain ⟨g₃, h₃⟩ := takes_version (R := header) (g := g₂)
    (d := ({ method := q.method, path := 47 :: p, query := q.query, fragment := q.fragment }, 0)) hversion
    (w := text' ++ [32] ++ (47 :: p ++ marked 63 q.query ++ marked 35 q.fragment ++ [32])) (r := r) (by rw [hR]; simp)
  exact ⟨g₃, (h₁.append h₂).append h₃⟩

/-- The "connection" line, the lines of the map, and the "content-length" line if there is a body. -/
theorem takes_headerLines {header w r tail : Bytes} {g : Regs Reg} {d : HttpRequest × Nat} (hd : d.1.headers = [])
    (htail : tail = if q.body = [] then [] else HttpRequest.ownFieldText (CONTENT_LENGTH, decimal q.body.length))
    (hR : header = w ++ (HttpRequest.ownFieldText (CONNECTION, q.connectionValue) ++ q.dumped.flatMap HttpRequest.fieldText ++
      tail ++ r)) (h64 : header.length < 2 ^ 64) :
    ∃ g', Takes header w (HttpRequest.ownFieldText (CONNECTION, q.connectionValue) ++
        q.dumped.flatMap HttpRequest.fieldText ++ tail) ⟨lineStart, g, d⟩
      ⟨lineStart, g', ({ d.1 with headers := q.described.headers }, d.2)⟩ := by
  obtain ⟨hfields, _⟩ := dumped_ok hq
  obtain ⟨hvalue, hvalue'⟩ := connectionValue_ok q
  obtain ⟨own, hown⟩ : ∃ x, x = HttpRequest.ownFieldText (CONNECTION, q.connectionValue) := ⟨_, rfl⟩
  obtain ⟨fields, hfieldsText⟩ : ∃ x, x = q.dumped.flatMap HttpRequest.fieldText := ⟨_, rfl⟩
  rw [← hown, ← hfieldsText] at hR ⊢
  obtain ⟨g₁, h₁⟩ := takes_ownField (g := g) (d := d) ownNames_ok.1 hvalue hvalue' (R := header) (w := w)
    (r := fields ++ tail ++ r) (by rw [hR, hown]; simp) h64
  obtain ⟨g₂, h₂⟩ := takes_fields (g := g₁) (d := withField d CONNECTION q.connectionValue) hfields (R := header)
    (w := w ++ own) (r := tail ++ r) (by rw [hR, hfieldsText]; simp) h64
  rw [← hown] at h₁
  rw [← hfieldsText] at h₂
  have h₁₂ := h₁.append h₂
  have hfirst : MapType.put CONNECTION q.connectionValue [] = MapType.put CONNECTION q.connectionValue d.1.headers := by
    rw [hd]
  unfold HttpRequest.described HttpRequest.lengthField
  rw [hfirst]
  by_cases hbody : q.body = []
  · rw [if_pos hbody] at htail ⊢
    rw [htail, List.append_nil]
    exact ⟨g₂, h₁₂⟩
  · rw [if_neg hbody] at htail ⊢
    obtain ⟨g₃, h₃⟩ := takes_ownField (g := g₂)
      (d := ({ d.1 with headers := q.dumped.puts (MapType.put CONNECTION q.connectionValue d.1.headers) }, d.2))
      ownNames_ok.2 (decimal_ok q.body.length) (decimal_ne_nil q.body.length) (R := header) (w := w ++ (own ++ fields))
      (r := r) (by rw [hR, htail]; simp) h64
    rw [htail]
    exact ⟨g₃, h₁₂.append h₃⟩

/-- What the parser makes of the header block that `dump` writes. -/
theorem parses_dump {header : Bytes} (hheader : q.dumpHeader = some header) (hlt : header.length < 2 ^ 31) :
    HttpSession.Parses u header q.described := by
  obtain ⟨text, htext, -⟩ := hq.method_ok
  obtain ⟨tail, htail⟩ : ∃ x, x =
      if q.body = [] then [] else HttpRequest.ownFieldText (CONTENT_LENGTH, decimal q.body.length) :=
    ⟨_, rfl⟩
  have hR : header = text ++ [32] ++ (q.uriText ++ [32]) ++ q.versionText ++
      (HttpRequest.ownFieldText (CONNECTION, q.connectionValue) ++ q.dumped.flatMap HttpRequest.fieldText ++ tail ++
        [13, 10]) := by
    rw [HttpRequest.dumpHeader, htext, Option.map_some, ← htail] at hheader
    rw [← Option.some.inj hheader]
    simp
  have h64 : header.length < 2 ^ 64 := by omega
  obtain ⟨g₁, h₁⟩ := takes_requestLine hq htext hR h64
  obtain ⟨g₂, h₂⟩ := takes_headerLines hq (g := g₁) (d := ({ method := q.method, version := q.version, path := q.path
                                                             query := q.query, fragment := q.fragment }, 0))
    rfl htail hR h64
  have h := h₁.append h₂
  rw [← List.append_assoc] at hR
  rw [hR] at h hlt ⊢
  exact parses_of_takes hlt h

theorem described_get {key : Bytes} (hconn : strcasecmpEq CONNECTION key = false) :
    q.described.headers.get key = (q.lengthField.get key).or (q.headers.get key) := by
  obtain ⟨_, hsorted⟩ := dumped_ok hq
  have hlength : q.lengthField.Pairwise fun x y => caseInsensitiveLess x.1 y.1 = true := by
    unfold HttpRequest.lengthField
    split <;> simp
  rw [HttpRequest.described, MapType.get_puts hlength, MapType.get_puts hsorted, MapType.get_put, hconn,
    HttpRequest.dumped, MapType.get_filter hconn]
  exact congrArg _ (Option.or_none)

theorem described_connection : q.described.headers.get CONNECTION = some q.connectionValue := by
  obtain ⟨_, hsorted⟩ := dumped_ok hq
  have hlength : q.lengthField.Pairwise fun x y => caseInsensitiveLess x.1 y.1 = true := by
    unfold HttpRequest.lengthField
    split <;> simp
  have hnone : q.lengthField.get CONNECTION = none := by
    refine MapType.get_none fun x hx => ?_
    unfold HttpRequest.lengthField at hx
    split at hx
    · cases hx
    · rw [List.mem_singleton.mp hx]
      exact (by decide : strcasecmpEq CONTENT_LENGTH CONNECTION = false)
  have hdumped : q.dumped.get CONNECTION = none :=
    MapType.get_none fun x hx => by simpa using (List.mem_filter.mp hx).2
  rw [HttpRequest.described, MapType.get_puts hlength, MapType.get_puts hsorted, MapType.get_put, hnone, hdumped,
    if_pos (strcasecmpEq_refl CONNECTION)]
  rfl

theorem described_same {key : Bytes} (hconn : strcasecmpEq key CONNECTION = false)
    (hlength : strcasecmpEq key CONTENT_LENGTH = false) : q.described.headers.get key = q.headers.get key := by
  have hsymm : ∀ a b : Bytes, strcasecmpEq a b = false → strcasecmpEq b a = false := by
    intro a b h
    rw [Bool.eq_false_iff, ne_eq, strcasecmpEq_iff] at h ⊢
    exact fun he => h he.symm
  have hnone : q.lengthField.get key = none := by
    refine MapType.get_none fun x hx => ?_
    unfold HttpRequest.lengthField at hx
    split at hx
    · cases hx
    · rw [List.mem_singleton.mp hx]
      exact hsymm _ _ hlength
  rw [described_get hq (hsymm _ _ hconn), hnone]
  rfl

theorem described_length : q.described.headers.getAs CONTENT_LENGTH =
    if q.body = [] then q.headers.getAs CONTENT_LENGTH else ((lexicalCast (decimal q.body.length)).getD 0) := by
  rw [MapType.getAs, described_get hq (by decide), HttpRequest.lengthField]
  split
  · rfl
  · rw [MapType.get_cons, if_pos (strcasecmpEq_refl CONTENT_LENGTH)]
    rfl

/-- The parsed header block with the body, as `recvRequest` returns it. -/
theorem described_sameMessage : (HttpSession.withConnection { q.described with body := q.body }).SameMessage q := by
  have hconn : (q.described.headers.get CONNECTION).getD [] = q.connectionValue := by rw [described_connection hq]; rfl
  have hne := (connectionValue_ok q).2
  have hclose : (!strcasecmpEq q.connectionValue KEEP_ALIVE) = q.close := by
    unfold HttpRequest.connectionValue
    cases q.close
    · decide
    · decide
  unfold HttpSession.withConnection
  simp only [hconn, ne_eq, hne, not_false_eq_true, if_true, hclose]
  exact ⟨rfl, rfl, rfl, rfl, rfl, rfl, rfl, fun key h h' => described_same hq h h'⟩

end

/-! ## Receiving -/

/-- At the end of the stream a body that is still to come is not read. -/
theorem recvBody_end {data body : Bytes} {n : Nat} {sock : Socket} (hn : 0 < n) :
    recvBody (Socket.of []) data 0 n ≠ some (some body, sock) := by
  rcases Nat.lt_or_ge maxSize n with hlarge | hsize
  · rw [recvBody_thrown _ _ _ hlarge]
    exact fun h => by cases h
  · rw [recvBody_ended (by simp) hsize (by simpa using hn)]
    exact fun h => by cases h

variable {u : Uninit} {q : HttpRequest} {text : Bytes}

theorem recvRequest_dump (buffSize : BufferSize) (hq : q.Sendable u.uriRelaxed) (htext : q.dump = some text)
    (hfits : text.length ≤ buffSize.val) :
    if q.body ≠ [] ∨ (q.headers.getAs CONTENT_LENGTH : Int).bmod (2 ^ 64) ≤ 0 then
      ∃ sock, HttpSession.recvRequest buffSize u (Socket.of [text]) =
        some (some (HttpSession.withConnection { q.described with body := q.body }), sock)
    else ∀ a sock, HttpSession.recvRequest buffSize u (Socket.of [text]) ≠ some (some a, sock) := by
  obtain ⟨header, hheader, rfl⟩ := Option.map_eq_some_iff.mp htext
  have hbuff := buffSize.lt
  have hlen : (header ++ q.body).length = header.length + q.body.length := List.length_append
  have hparses := parses_dump hq hheader (by omega)
  obtain ⟨p, data, hrecv, hdata, hbody⟩ := HttpSession.recvHeader_block buffSize hparses q.body [] hfits
    (Socket.of [header ++ q.body]).rest.length
  have hlength : p.getContentLength = q.described.headers.getAs CONTENT_LENGTH := by
    rw [HttpRequestParser.getContentLength, hdata]
  rw [HttpSession.recvRequest_header hrecv, hlength, described_length hq, hdata]
  by_cases hnil : q.body = []
  · have hsame : { q.described with body := q.body } = q.described := by rw [hnil]; rfl
    rw [if_pos hnil, hsame, hnil]
    generalize (q.headers.getAs CONTENT_LENGTH : Int).bmod (2 ^ 64) = length
    rcases Int.lt_or_le 0 length with hpos | hle
    · have hnot : ¬ (([] : Bytes) ≠ [] ∨ length ≤ 0) := by
        simpa using hpos
      have hwait : 0 < length.toNat := by omega
      rw [if_neg hnot, if_pos hpos, List.length_nil]
      intro a sock ha
      obtain ⟨⟨body, sock'⟩, hread, ha⟩ := Option.bind_eq_some_iff.mp ha
      cases body with
      | none => cases ha
      | some body => exact recvBody_end hwait hread
    · rw [if_pos (.inr hle), if_neg (by omega)]
      exact ⟨_, rfl⟩
  · have hbodyPos : 0 < q.body.length := List.length_pos_iff.mpr hnil
    have hsize : q.body.length ≤ maxSize := by
      have hmax : 2 ^ 31 ≤ maxSize := by decide
      omega
    have hread : recvBody (Socket.of []) data q.body.length q.body.length = _ :=
      recvBody_pending (by simp) hbody hsize (Nat.le_refl _) (by simp) (.inl rfl)
    rw [if_pos (.inl hnil), if_neg hnil, lexicalCast_decimal (by omega), Option.getD_some,
      HttpSession.bmod_length (by omega), if_pos (by omega), Int.toNat_natCast, hread, Nat.sub_self, List.take_zero,
      List.append_nil]
    exact ⟨_, rfl⟩

/-- A request is received as it was dumped unless it has no body and a "content-length" header
    that is read as a positive number. -/
theorem dump_received_iff (buffSize : BufferSize) (hq : q.Sendable u.uriRelaxed) (htext : q.dump = some text)
    (hfits : text.length ≤ buffSize.val) :
    (∃ a sock, HttpSession.recvRequest buffSize u (Socket.of [text]) = some (some a, sock) ∧ a.SameMessage q) ↔
      q.body ≠ [] ∨ (q.headers.getAs CONTENT_LENGTH : Int).bmod (2 ^ 64) ≤ 0 := by
  have hrecv := recvRequest_dump buffSize hq htext hfits
  by_cases hcond : q.body ≠ [] ∨ (q.headers.getAs CONTENT_LENGTH : Int).bmod (2 ^ 64) ≤ 0
  · rw [if_pos hcond] at hrecv
    obtain ⟨sock, hrecv⟩ := hrecv
    exact iff_of_true ⟨_, sock, hrecv, described_sameMessage hq⟩ hcond
  · rw [if_neg hcond] at hrecv
    refine iff_of_false ?_ hcond
    rintro ⟨a, sock, ha, _⟩
    exact hrecv a sock ha

/-- `PUT /a?x=1#f HTTP/1.0` with a body and headers of the two names `dump` writes itself. -/
def putRequest : HttpRequest :=
  { method := .PUT, version := 0x10, close := false, path := bytes ['/', 'a'], query := bytes ['x', '=', '1']
    fragment := bytes ['f'], body := bytes ['h', 'i']
    headers := [(bytes ['C', 'o', 'n', 'n', 'e', 'c', 't', 'i', 'o', 'n'], CLOSE), (CONTENT_LENGTH, bytes ['7']),
      (bytes ['x'], [])] }

/-- `GET / HTTP/1.1` with the header of a body it does not have. -/
def getRequest : HttpRequest := { headers := [(CONTENT_LENGTH, bytes ['5'])] }

theorem putRequest_sendable : putRequest.Sendable false :=
  ⟨⟨_, rfl, by decide +kernel⟩, .inr rfl, rfl, by decide +kernel, by decide +kernel, by decide +kernel, by decide,
    by decide +kernel⟩

theorem getRequest_sendable : getRequest.Sendable false :=
  ⟨⟨_, rfl, by decide +kernel⟩, .inl rfl, rfl, by decide +kernel, by decide +kernel, by decide +kernel, by decide,
    by decide +kernel⟩

theorem dump_received_iff_put : ∃ text, putRequest.dump = some text ∧
    ∃ a sock, HttpSession.recvRequest ⟨4096, by decide, by decide⟩ ⟨false, 0, []⟩ (Socket.of [text]) = some (some a, sock) ∧
      a.SameMessage putRequest :=
  ⟨_, rfl, (dump_received_iff ⟨4096, by decide, by decide⟩ putRequest_sendable rfl (by decide)).mpr (.inl (by decide))⟩

/-- The end of the stream comes while the body is waited for. -/
theorem empty_body_not_received : getRequest.Sendable false ∧ ∃ text, getRequest.dump = some text ∧ text.length ≤ 4096 ∧
    ¬ ∃ a sock, HttpSession.recvRequest ⟨4096, by decide, by decide⟩ ⟨false, 0, []⟩ (Socket.of [text]) =
      some (some a, sock) ∧ a.SameMessage getRequest := by
  refine ⟨getRequest_sendable, _, rfl, by decide, ?_⟩
  rintro ⟨a, sock, ha, _⟩
  have hrecv := recvRequest_dump (u := ⟨false, 0, []⟩) ⟨4096, by decide, by decide⟩ getRequest_sendable rfl (by decide)
  rw [if_neg (by decide)] at hrecv
  exact hrecv a sock ha

end LjrServer.Http
