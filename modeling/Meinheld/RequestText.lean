import Meinheld.RequestMethods

/-! Requests as they are sent, and the calls `http_parser.c` makes for them, one request after the
other on a connection. -/
namespace Meinheld

/-! ### The request line -/

/-- The states in which a blank ends the URL. -/
def State.urlEnd : State → Bool
  | .sReqServer | .sReqServerWithAt | .sReqPath | .sReqQueryStringStart | .sReqQueryString
  | .sReqFragmentStart | .sReqFragment => true
  | _ => false

/-- Where a URL begins. -/
def urlStart (m : HttpMethod) : State :=
  if m = .CONNECT then .sReqServerStart else .sReqSpacesBeforeUrl

def pushVersion (n : ℕ) (c : Byte) : Option ℕ :=
  if isNum c ∧ n * 10 + (c.toNat - 48) ≤ 999 then some (n * 10 + (c.toNat - 48)) else none

def versionNumber : Bytes → Option ℕ
  | c :: s => if isNum c then s.foldlM pushVersion (c.toNat - 48) else none
  | [] => none

/-- A request line and header lines as they are sent. -/
structure RequestHead where
  method : HttpMethod
  word : Bytes
  target : Bytes
  majorText : Bytes
  minorText : Bytes
  major : ℕ
  minor : ℕ
  lines : List FieldLine
  word_spelled : spelledAs method word
  target_end : (target.foldl parseUrlChar (urlStart method)).urlEnd
  major_eq : versionNumber majorText = some major
  major_first : majorText.head? ≠ some '0'.toUInt8
  minor_eq : versionNumber minorText = some minor

def RequestHead.lineText (h : RequestHead) : Bytes :=
  h.word ++ [SP] ++ (h.target ++ [SP] ++ (ascii "HTTP/" ++ (h.majorText ++ ['.'.toUInt8] ++
    (h.minorText ++ CRLF))))

theorem foldl_parseUrlChar_dead (s : Bytes) : s.foldl parseUrlChar .sDead = .sDead := by
  induction s with
  | nil => rfl
  | cons c s ih =>
    have hdead : parseUrlChar .sDead c = .sDead := by
      unfold parseUrlChar
      split <;> rfl
    rw [List.foldl_cons,hdead,ih]

theorem parseUrlChar_line {s : State} {c : Byte} (h : parseUrlChar s c ≠ .sDead) :
    c ≠ SP ∧ c ≠ CR ∧ c ≠ LF := by
  refine ⟨?_,?_,?_⟩ <;> rintro rfl <;> exact h (if_pos (by decide))

theorem step_url {p : HttpParser} (hp : p.state.mark = some .url) (hn : p.nread < HTTP_MAX_HEADER_SIZE)
    {c : Byte} (hc : parseUrlChar p.state c ≠ .sDead) :
    step p c = .next [] { p with nread := p.nread + 1, state := parseUrlChar p.state c } := by
  obtain ⟨h1,h2,h3⟩ := parseUrlChar_line hc
  have hurl : urlByte [] { p with nread := p.nread + 1 } c =
      .next [] { p with nread := p.nread + 1, state := parseUrlChar p.state c } := if_neg hc
  have hparse : parsingHeader p.state := by
    generalize p.state = s at hp
    cases s <;> first | rfl | cases hp
  rw [step_parsing hparse hn]
  unfold stepState stepUrl
  cases hs : p.state <;> rw [hs] at hp <;> first | cases hp; done | skip
  all_goals simpa [hs,h1,h2,h3] using hurl

theorem trace_url {s : Bytes} {p : HttpParser} (hp : p.state.mark = some .url)
    (hs : s.foldl parseUrlChar p.state ≠ .sDead) (hn : p.nread + s.length ≤ HTTP_MAX_HEADER_SIZE)
    (buf : Bytes) : trace p (some (.url,buf)) s = some ⟨[],{ p with
      nread := p.nread + s.length
      state := s.foldl parseUrlChar p.state },some (.url,buf ++ s)⟩ := by
  induction s generalizing p buf with
  | nil => simp [trace]
  | cons c s ih =>
    rw [List.length_cons] at hn
    have hc : parseUrlChar p.state c ≠ .sDead := by
      intro h
      rw [List.foldl_cons,h,foldl_parseUrlChar_dead] at hs
      exact hs rfl
    have hmark := (parseUrlChar_mark p.state c).resolve_left hc
    have hrest := ih (p := { p with nread := p.nread + 1, state := parseUrlChar p.state c }) hmark hs
      (by simp only; omega) (buf ++ [c])
    rw [trace_quiet (step_url hp (by omega) hc),Marking.push,Option.map_some,hrest]
    simp [Nat.add_assoc,Nat.add_comm 1]

/-- A URL and the blank behind it. -/
theorem trace_target {t : Bytes} {p : HttpParser} (hp : p.state = .sReqSpacesBeforeUrl)
    (ht : (t.foldl parseUrlChar (urlStart p.method)).urlEnd)
    (hn : p.nread + (t.length + 1) ≤ HTTP_MAX_HEADER_SIZE) :
    trace p none (t ++ [SP]) = some ⟨[.url t],{ p with
      nread := p.nread + (t.length + 1), state := .sReqHttpStart },none⟩ := by
  cases t with
  | nil =>
    unfold urlStart at ht
    split at ht <;> cases ht
  | cons c s =>
    rw [List.length_cons] at hn ⊢
    rw [List.foldl_cons] at ht
    have hdead : s.foldl parseUrlChar (parseUrlChar (urlStart p.method) c) ≠ .sDead := by
      intro h
      rw [h] at ht
      cases ht
    have hc : parseUrlChar (urlStart p.method) c ≠ .sDead := by
      intro h
      rw [h,foldl_parseUrlChar_dead] at hdead
      exact hdead rfl
    have hfirst : step p c = .next [.mark .url] { p with
        nread := p.nread + 1, state := parseUrlChar (urlStart p.method) c } := by
      have hstart : (if p.method = .CONNECT then { p with nread := p.nread + 1, state := .sReqServerStart }
          else { p with nread := p.nread + 1 }) =
          ({ p with nread := p.nread + 1, state := urlStart p.method } : HttpParser) := by
        unfold urlStart
        split <;> simp [hp]
      rw [step_parsing (by rw [hp]; rfl) (by omega)]
      unfold stepState
      simp only [hp]
      rw [stepReqSpacesBeforeUrl,if_neg (parseUrlChar_line hc).1]
      simp only
      rw [hp] at hstart
      rw [hstart]
      exact if_neg hc
    have hmark := (parseUrlChar_mark (urlStart p.method) c).resolve_left hc
    have hrest := trace_url (p := { p with
      nread := p.nread + 1, state := parseUrlChar (urlStart p.method) c }) hmark hdead
      (by simp only; omega) [c]
    have hlast : ∀ q : HttpParser, q.state.urlEnd → q.nread < HTTP_MAX_HEADER_SIZE →
        trace q (some (.url,c :: s)) [SP] = some ⟨[.url (c :: s)],{ q with
          nread := q.nread + 1, state := .sReqHttpStart },none⟩ := by
      intro q hq hqn
      have hstep : step q SP = .next
          [callbackData .url { q with nread := q.nread + 1, state := .sReqHttpStart }]
          { q with nread := q.nread + 1, state := .sReqHttpStart } := by
        unfold step stepState stepUrl
        cases hs : q.state <;> rw [hs] at hq <;> first | cases hq; done | skip
        all_goals simp [parsingHeader,hqn]
      exact trace_one hstep _
    rw [show c :: s ++ [SP] = [c] ++ (s ++ [SP]) by simp,trace_append,trace_one hfirst]
    simp only [Option.bind_some]
    rw [show (actCalls c [.mark .url] none) = ([],some (.url,[])) from rfl,trace_append]
    simp only [Marking.push,Option.map_some,List.nil_append]
    rw [hrest]
    simp only [Option.bind_some]
    rw [show [c] ++ s = c :: s from rfl,hlast _ ht (by simp only; omega)]
    simp [Nat.add_assoc,Nat.add_comm 1]

/-- `HTTP/`. -/
theorem trace_http {p : HttpParser} (hp : p.state = .sReqHttpStart)
    (hn : p.nread + 5 ≤ HTTP_MAX_HEADER_SIZE) : trace p none (ascii "HTTP/") =
      some ⟨[],{ p with nread := p.nread + 5, state := .sReqFirstHttpMajor },none⟩ := by
  have hH : step p 'H'.toUInt8 = .next [] { p with nread := p.nread + 1, state := .sReqHttpH } := by
    rw [step_parsing (by rw [hp]; rfl) (by omega)]
    unfold stepState
    simp only [hp]
    rfl
  have hstrict : ∀ {k : ℕ} {s s' : State} {c : Byte}, k < HTTP_MAX_HEADER_SIZE →
      parsingHeader s → (∀ q : HttpParser, stepState { q with state := s } c =
        strictNext { q with state := s } c c s') →
      step { p with nread := k, state := s } c = .next [] { p with nread := k + 1, state := s' } := by
    intro k s s' c hk hs hstep
    rw [step_parsing hs hk]
    exact (hstep { p with nread := k + 1 }).trans (if_neg (not_not.mpr rfl))
  have h1 := hstrict (k := p.nread + 1) (s := .sReqHttpH) (c := 'T'.toUInt8) (by omega) rfl
    fun q => rfl
  have h2 := hstrict (k := p.nread + 2) (s := .sReqHttpHT) (c := 'T'.toUInt8) (by omega) rfl
    fun q => rfl
  have h3 := hstrict (k := p.nread + 3) (s := .sReqHttpHTT) (c := 'P'.toUInt8) (by omega) rfl
    fun q => rfl
  have h4 := hstrict (k := p.nread + 4) (s := .sReqHttpHTTP) (c := '/'.toUInt8) (by omega) rfl
    fun q => rfl
  rw [show ascii "HTTP/" = ['H'.toUInt8,'T'.toUInt8,'T'.toUInt8,'P'.toUInt8,'/'.toUInt8] from rfl,
    trace_quiet hH,trace_quiet h1,trace_quiet h2,trace_quiet h3,trace_quiet h4]
  rfl

theorem trace_digits {u : ℕ → ℕ → HttpParser}
    (hstep : ∀ {k n n' : ℕ} {c : Byte}, pushVersion n c = some n' → k < HTTP_MAX_HEADER_SIZE →
      step (u k n) c = .next [] (u (k + 1) n'))
    {s : Bytes} {k n n' : ℕ} (hs : s.foldlM pushVersion n = some n')
    (hk : k + s.length ≤ HTTP_MAX_HEADER_SIZE) :
    trace (u k n) none s = some ⟨[],u (k + s.length) n',none⟩ := by
  induction s generalizing k n with
  | nil =>
    cases hs
    rfl
  | cons c s ih =>
    rw [List.length_cons] at hk
    rw [List.foldlM_cons] at hs
    obtain ⟨n1,h1,hrest⟩ := Option.bind_eq_some_iff.mp hs
    rw [trace_quiet (hstep h1 (by omega)),Marking.push,Option.map_none,ih hrest (by omega)]
    simp [Nat.add_assoc,Nat.add_comm 1]

theorem pushVersion_eq {n n' : ℕ} {c : Byte} (h : pushVersion n c = some n') :
    isNum c ∧ n' = n * 10 + (c.toNat - 48) ∧ n' ≤ 999 := by
  unfold pushVersion at h
  split at h
  next hc =>
    cases h
    exact ⟨hc.1,rfl,hc.2⟩
  · cases h

theorem isNum_line {c : Byte} (h : isNum c) : c ≠ '.'.toUInt8 ∧ c ≠ CR ∧ c ≠ LF := by
  refine ⟨?_,?_,?_⟩ <;> (rintro rfl; exact absurd h (by decide))

theorem isNum_range {c : Byte} (h : isNum c) (h0 : c ≠ '0'.toUInt8) :
    ¬(c < '1'.toUInt8 ∨ c > '9'.toUInt8) := by
  simp only [isNum,Bool.and_eq_true,decide_eq_true_eq,UInt8.le_iff_toNat_le] at h
  rintro (hlt | hlt)
  · rw [UInt8.lt_iff_toNat_lt] at hlt
    have h1 : '1'.toUInt8.toNat = '0'.toUInt8.toNat + 1 := by decide
    exact h0 (UInt8.toNat_inj.mp (by omega))
  · rw [gt_iff_lt,UInt8.lt_iff_toNat_lt] at hlt
    omega

/-- The first number of a version and the point behind it. -/
theorem trace_major {s : Bytes} {n : ℕ} (hs : versionNumber s = some n)
    (hfirst : s.head? ≠ some '0'.toUInt8) {p : HttpParser} (hp : p.state = .sReqFirstHttpMajor)
    (hn : p.nread + (s.length + 1) ≤ HTTP_MAX_HEADER_SIZE) :
    trace p none (s ++ ['.'.toUInt8]) = some ⟨[],{ p with
      nread := p.nread + (s.length + 1)
      httpMajor := n
      state := .sReqFirstHttpMinor },none⟩ := by
  cases s with
  | nil => cases hs
  | cons c s =>
    rw [List.length_cons] at hn ⊢
    obtain ⟨hc,hs⟩ := Option.ite_none_right_eq_some.mp hs
    have hone : step p c = .next [] { p with
        nread := p.nread + 1, httpMajor := c.toNat - 48, state := .sReqHttpMajor } := by
      rw [step_parsing (by rw [hp]; rfl) (by omega)]
      unfold stepState
      simp only [hp]
      exact if_neg (isNum_range hc (by simpa using hfirst))
    have hdigits := trace_digits (u := fun k n => { p with
      nread := k, httpMajor := n, state := .sReqHttpMajor }) (by
        intro k n n' c hc hk
        obtain ⟨hnum,rfl,hle⟩ := pushVersion_eq hc
        rw [step_parsing rfl hk]
        show stepReqHttpMajor _ c = _
        rw [stepReqHttpMajor,if_neg (isNum_line hnum).1,if_neg (by simp [hnum])]
        exact if_neg (not_lt.mpr hle)) hs (k := p.nread + 1) (by omega)
    have hpoint : ∀ k n, k < HTTP_MAX_HEADER_SIZE →
        trace { p with nread := k, httpMajor := n, state := .sReqHttpMajor } none ['.'.toUInt8] =
          some ⟨[],{ p with nread := k + 1, httpMajor := n, state := .sReqFirstHttpMinor },none⟩ := by
      intro k n hk
      refine @trace_one _ _ _ [] ?_ none
      rw [step_parsing rfl hk]
      rfl
    rw [List.cons_append,trace_quiet hone,trace_append]
    simp only [Marking.push,Option.map_none,hdigits,Option.bind_some]
    rw [hpoint _ _ (by omega)]
    simp [Nat.add_assoc,Nat.add_comm 1]

/-- The second number of a version and the line end behind it. -/
theorem trace_minor {s : Bytes} {n : ℕ} (hs : versionNumber s = some n) {p : HttpParser}
    (hp : p.state = .sReqFirstHttpMinor) (hn : p.nread + (s.length + 2) ≤ HTTP_MAX_HEADER_SIZE) :
    trace p none (s ++ CRLF) = some ⟨[],{ p with
      nread := p.nread + (s.length + 2)
      httpMinor := n
      state := .sHeaderFieldStart },none⟩ := by
  cases s with
  | nil => cases hs
  | cons c s =>
    rw [List.length_cons] at hn ⊢
    obtain ⟨hc,hs⟩ := Option.ite_none_right_eq_some.mp hs
    have hone : step p c = .next [] { p with
        nread := p.nread + 1, httpMinor := c.toNat - 48, state := .sReqHttpMinor } := by
      rw [step_parsing (by rw [hp]; rfl) (by omega)]
      unfold stepState
      simp only [hp]
      exact if_neg (by simp [hc])
    have hdigits := trace_digits (u := fun k n => { p with
      nread := k, httpMinor := n, state := .sReqHttpMinor }) (by
        intro k n n' c hc hk
        obtain ⟨hnum,rfl,hle⟩ := pushVersion_eq hc
        rw [step_parsing rfl hk]
        show stepReqHttpMinor _ c = _
        rw [stepReqHttpMinor,if_neg (isNum_line hnum).2.1,if_neg (isNum_line hnum).2.2,
          if_neg (by simp [hnum])]
        exact if_neg (not_lt.mpr hle)) hs (k := p.nread + 1) (by omega)
    have hend : ∀ k n, k + 2 ≤ HTTP_MAX_HEADER_SIZE →
        trace { p with nread := k, httpMinor := n, state := .sReqHttpMinor } none CRLF =
          some ⟨[],{ p with nread := k + 2, httpMinor := n, state := .sHeaderFieldStart },none⟩ := by
      intro k n hk
      have hcr : step { p with nread := k, httpMinor := n, state := .sReqHttpMinor } CR =
          .next [] { p with nread := k + 1, httpMinor := n, state := .sReqLineAlmostDone } := by
        rw [step_parsing rfl (by simp only; omega)]
        rfl
      have hlf : step { p with nread := k + 1, httpMinor := n, state := .sReqLineAlmostDone } LF =
          .next [] { p with nread := k + 2, httpMinor := n, state := .sHeaderFieldStart } := by
        rw [step_parsing rfl (by simp only; omega)]
        rfl
      rw [CRLF,trace_quiet hcr,trace_quiet hlf]
      rfl
    rw [List.cons_append,trace_quiet hone,trace_append]
    simp only [Marking.push,Option.map_none,hdigits,Option.bind_some]
    rw [hend _ _ (by omega)]
    simp [Nat.add_assoc,Nat.add_comm 1]

def RequestHead.lined (h : RequestHead) (p : HttpParser) : HttpParser := { p with
  nread := p.nread + h.lineText.length
  flags := {}
  contentLength := ULLONG_MAX
  index := h.word.length + 1
  method := h.method
  httpMajor := h.major
  httpMinor := h.minor
  state := .sHeaderFieldStart }

theorem RequestHead.trace_lineText (h : RequestHead) {p : HttpParser} (hp : p.state = .sStartReq)
    (hn : p.nread + h.lineText.length ≤ HTTP_MAX_HEADER_SIZE) :
    trace p none h.lineText = some ⟨[.messageBegin,.url h.target],h.lined p,none⟩ := by
  have hlen : h.lineText.length = h.word.length + 1 + (h.target.length + 1 + (5 +
      (h.majorText.length + 1 + (h.minorText.length + 2)))) := by
    simp [RequestHead.lineText,CRLF,show (ascii "HTTP/").length = 5 from rfl]
    omega
  have h1 := trace_method hp (methodOf_eq_some.mpr h.word_spelled) (by omega)
  generalize hp1 : ({ p with
    nread := p.nread + (h.word.length + 1)
    flags := {}
    contentLength := ULLONG_MAX
    index := h.word.length + 1
    method := h.method
    state := .sReqSpacesBeforeUrl } : HttpParser) = p1 at h1
  have h2 := trace_target (t := h.target) (p := p1) (by rw [← hp1])
    (by rw [← hp1]; exact h.target_end) (by rw [← hp1]; simp only; omega)
  have h3 := trace_http (p := { p1 with nread := p1.nread + (h.target.length + 1), state := .sReqHttpStart })
    rfl (by rw [← hp1]; simp only; omega)
  have h4 := trace_major h.major_eq h.major_first (p := { p1 with
    nread := p1.nread + (h.target.length + 1) + 5, state := .sReqFirstHttpMajor }) rfl
    (by rw [← hp1]; simp only; omega)
  have h5 := trace_minor h.minor_eq (p := { p1 with
    nread := p1.nread + (h.target.length + 1) + 5 + (h.majorText.length + 1)
    httpMajor := h.major
    state := .sReqFirstHttpMinor }) rfl (by rw [← hp1]; simp only; omega)
  rw [RequestHead.lineText,trace_append,h1]
  simp only [Option.bind_some]
  rw [trace_append,h2]
  simp only [Option.bind_some]
  rw [trace_append,h3]
  simp only [Option.bind_some]
  rw [trace_append,h4]
  simp only [Option.bind_some,h5,Option.map_some,List.nil_append,List.append_nil]
  rw [← hp1]
  simp only [RequestHead.lined,hlen,Nat.add_assoc,List.singleton_append]

/-! ### The head -/

def RequestHead.text (h : RequestHead) : Bytes :=
  h.lineText ++ (h.lines.flatMap FieldLine.text ++ CRLF)

/-- `http_should_keep_alive` at the end of the message. -/
def RequestHead.keepAlive (h : RequestHead) (flags : Flags) : Bool :=
  if h.major > 0 ∧ h.minor > 0 then !flags.connectionClose else flags.connectionKeepAlive

/-- What the header lines say, on a connection that has seen `setContentLength`. -/
def RequestHead.framing (h : RequestHead) (setContentLength : ℕ) : Option Framing :=
  frames h.lines { setContentLength := setContentLength }

/-- The head is read to its end, and a body or the end of the message follows. -/
def RequestHead.Passes (h : RequestHead) (F : Framing) : Prop :=
  ¬(F.setContentLength = 1 ∧ F.flags.chunked) ∧ F.flags.upgrade = false ∧ h.method ≠ .CONNECT

instance (h : RequestHead) (F : Framing) : Decidable (h.Passes F) := by
  unfold RequestHead.Passes
  infer_instance

theorem step_headEnd {p : HttpParser} (hp : p.state.lineStart) (hn : p.nread + 2 ≤ HTTP_MAX_HEADER_SIZE) :
    step p CR = .next [] { p with nread := p.nread + 1, state := .sHeadersAlmostDone } ∧
      step { p with nread := p.nread + 1, state := .sHeadersAlmostDone } LF =
        stepHeadersAlmostDone { p with nread := p.nread + 2, state := .sHeadersAlmostDone } LF := by
  constructor
  · rcases hp with hp | hp
    · rw [step_parsing (by rw [hp]; rfl) (by omega)]
      unfold stepState
      simp only [hp]
      rfl
    · rw [step_parsing (by rw [hp]; rfl) (by omega)]
      unfold stepState
      simp only [hp]
      rfl
  · rw [step_parsing rfl (by simp only; omega)]
    rfl

/-- Where the parser stands behind a head that passes. -/
def RequestHead.bodyState (h : RequestHead) (F : Framing) : State :=
  if F.flags.chunked then .sChunkSizeStart
  else if F.contentLength = 0 ∨ F.contentLength = ULLONG_MAX then
    if h.keepAlive F.flags then .sStartReq else .sDead
  else .sBodyIdentity

/-- A message without a body ends with its head. -/
def Framing.endCalls (F : Framing) : List Callout :=
  if ¬F.flags.chunked ∧ (F.contentLength = 0 ∨ F.contentLength = ULLONG_MAX) then
    [.messageComplete false]
  else []

/-- The parser inside a message. -/
structure Stands (h : RequestHead) (F : Framing) (p : HttpParser) : Prop where
  method : p.method = h.method
  httpMajor : p.httpMajor = h.major
  httpMinor : p.httpMinor = h.minor
  upgrade : p.upgrade = false
  framing : p.framing = F

theorem Stands.newMessage {h : RequestHead} {F : Framing} {p : HttpParser} (hp : Stands h F p) :
    newMessage p = if h.keepAlive F.flags then .sStartReq else .sDead := by
  rw [← hp.framing]
  simp only [Meinheld.newMessage,httpShouldKeepAlive,hp.httpMajor,hp.httpMinor,RequestHead.keepAlive,
    HttpParser.framing]
  rfl

theorem Framing.read_trailing {F G : Framing} {k : HeaderState} {v : Bytes} (h : F.read k v = some G) :
    G.flags.trailing = F.flags.trailing := by
  unfold Framing.read Framing.readLength at h
  split at h
  · split at h
    · cases h
      rfl
    · split at h
      · obtain ⟨n,-,rfl⟩ := Option.map_eq_some_iff.mp h
        rfl
      · cases h
  all_goals
    cases h
    repeat' split
    all_goals rfl

theorem frames_trailing {ls : List FieldLine} {F G : Framing} (h : frames ls F = some G) :
    G.flags.trailing = F.flags.trailing := by
  induction ls generalizing F with
  | nil =>
    cases h
    rfl
  | cons l ls ih =>
    obtain ⟨F1,h1,h2⟩ := Option.bind_eq_some_iff.mp h
    rw [ih h2,Framing.read_trailing h1]

/-- The calls for a head that passes, and the parser after them. -/
structure HeadRead (h : RequestHead) (F : Framing) (calls : List Callout) (t : Traced) : Prop where
  calls : t.calls = calls ++ .headersComplete ⟨h.method,h.major,h.minor,F.flags,F.contentLength⟩ ::
    F.endCalls
  mark : t.mark = none
  state : t.parser.state = h.bodyState F
  nread : t.parser.nread = 0
  stands : Stands h F t.parser

/-- The last byte of a head. -/
theorem step_headersDone {h : RequestHead} {F : Framing} {p : HttpParser} (hm : p.method = h.method)
    (hmaj : p.httpMajor = h.major) (hmin : p.httpMinor = h.minor) (hF : p.framing = F)
    (htr : F.flags.trailing = false) {p0 : HttpParser} (hp : step p0 LF = stepHeadersAlmostDone p LF) :
    (h.Passes F → ∃ t, trace p0 none [LF] = some t ∧ HeadRead h F [] t) ∧
      (¬h.Passes F → trace p0 none [LF] = none) := by
  have hflags : p.flags = F.flags := by rw [← hF]; rfl
  have hlen : p.contentLength = F.contentLength := by rw [← hF]; rfl
  have hset : p.setContentLength = F.setContentLength := by rw [← hF]; rfl
  generalize hq : ({ p with
    state := .sHeadersDone
    upgrade := p.flags.upgrade || p.method == .CONNECT } : HttpParser) = q
  have hstep : step p0 LF = if F.setContentLength = 1 ∧ F.flags.chunked then .bail q
      else (stepHeadersDone q LF).after [.notify .headersComplete 0 q] := by
    rw [hp,stepHeadersAlmostDone,if_neg (not_not.mpr rfl),if_neg (by rw [hflags,htr]; decide)]
    simp only [hq]
    rw [← hset,← hflags,← hq]
  have hview : q.view = ⟨h.method,h.major,h.minor,F.flags,F.contentLength⟩ := by
    rw [← hq,HttpParser.view,hm,hmaj,hmin,hflags,hlen]
  constructor
  · rintro ⟨hbail,hup,hcon⟩
    have hqu : q.upgrade = false := by
      rw [← hq]
      simp [hflags,hup,hm,hcon]
    have hstands : ∀ s, Stands h F { q with nread := 0, state := s } := by
      intro s
      refine ⟨?_,?_,?_,hqu,?_⟩
      · rw [← hq]; exact hm
      · rw [← hq]; exact hmaj
      · rw [← hq]; exact hmin
      · rw [← hF,← hq]; rfl
    generalize hr : ({ q with nread := 0 } : HttpParser) = r at hstands
    have hrs : ∀ s, Stands h F { r with state := s } := by
      rw [← hr]
      exact hstands
    have hdone : stepHeadersDone q LF =
        if F.flags.chunked then .next [] { r with state := .sChunkSizeStart }
        else if F.contentLength = 0 then messageDone r
        else if F.contentLength ≠ ULLONG_MAX then .next [] { r with state := .sBodyIdentity }
        else messageDone r := by
      rw [stepHeadersDone,if_neg (not_not.mpr rfl)]
      simp only [hr]
      rw [← hr]
      simp only [hqu,Bool.false_eq_true,if_false]
      rw [← hq,← hflags,← hlen]
    have hnread : r.nread = 0 := by rw [← hr]
    have hmsg : messageDone r = .next [callbackNotify .messageComplete
        { r with state := if h.keepAlive F.flags then .sStartReq else .sDead }]
        { r with state := if h.keepAlive F.flags then .sStartReq else .sDead } := by
      have hstate : newMessage r = _ := (hrs r.state).newMessage
      rw [messageDone,hstate]
    rw [if_neg hbail,hdone] at hstep
    by_cases hch : F.flags.chunked
    · rw [if_pos hch] at hstep
      refine ⟨_,trace_one hstep none,?_,rfl,?_,hnread,hrs _⟩
      · simp [actCalls,Callout.ofNotify,hview,Framing.endCalls,hch]
      · simp [RequestHead.bodyState,hch]
    rw [if_neg hch] at hstep
    by_cases hcl : F.contentLength = 0 ∨ F.contentLength = ULLONG_MAX
    · have hlast : (if F.contentLength = 0 then messageDone r
          else if F.contentLength ≠ ULLONG_MAX then .next [] { r with state := .sBodyIdentity }
          else messageDone r) = messageDone r := by
        obtain h0 | h0 := hcl
        · rw [if_pos h0]
        · rw [if_neg (by rw [h0]; decide),if_neg (by simp [h0])]
      rw [hlast,hmsg] at hstep
      refine ⟨_,trace_one hstep none,?_,rfl,?_,hnread,hrs _⟩
      · have hru : r.upgrade = false := (hrs .sDead).upgrade
        simp [actCalls,Callout.ofNotify,hview,Framing.endCalls,hch,hcl,hru]
      · simp [RequestHead.bodyState,hch,hcl]
    · rw [not_or] at hcl
      rw [if_neg hcl.1,if_pos hcl.2] at hstep
      refine ⟨_,trace_one hstep none,?_,rfl,?_,hnread,hrs _⟩
      · simp [actCalls,Callout.ofNotify,hview,Framing.endCalls,hch,hcl]
      · simp [RequestHead.bodyState,hch,hcl]
  · intro hno
    by_cases hbail : F.setContentLength = 1 ∧ F.flags.chunked
    · rw [if_pos hbail] at hstep
      simp only [trace,hstep]
    · have hqu : q.upgrade = true := by
        rw [← hq]
        simp only [Bool.or_eq_true,beq_iff_eq,hflags,hm]
        by_contra hcon
        rw [not_or,Bool.not_eq_true] at hcon
        exact hno ⟨hbail,hcon⟩
      rw [if_neg hbail,stepHeadersDone,if_neg (not_not.mpr rfl)] at hstep
      simp only [hqu,if_true] at hstep
      simp only [trace,hstep,Step.after]

def RequestHead.fieldCalls (h : RequestHead) : List Callout :=
  .messageBegin :: .url h.target :: h.lines.flatMap FieldLine.calls

/-- The framing of a head that passes; `none` where the parser stops. -/
def RequestHead.passed (h : RequestHead) (setContentLength : ℕ) : Option Framing :=
  (h.framing setContentLength).bind fun F => if h.Passes F then some F else none

/-- A head is read to its end exactly when its lines and what they say pass, with the calls for what
was sent. -/
theorem RequestHead.trace_text (h : RequestHead) {p : HttpParser} (hp : p.state = .sStartReq)
    (hn : p.nread + h.text.length ≤ HTTP_MAX_HEADER_SIZE) :
    Option.Rel (fun t F => HeadRead h F h.fieldCalls t) (trace p none h.text)
      (h.passed p.setContentLength) := by
  have hlen : h.text.length =
      h.lineText.length + ((h.lines.flatMap FieldLine.text).length + 2) := by
    simp only [RequestHead.text,List.length_append,CRLF,List.length_cons,List.length_nil]
  have hline := h.trace_lineText hp (by omega)
  have hlined : (h.lined p).nread = p.nread + h.lineText.length := rfl
  have hlines := @trace_lines h.lines (h.lined p) (.inl rfl) (by omega)
  have hframing : (h.lined p).framing = { setContentLength := p.setContentLength } := rfl
  rw [hframing] at hlines
  refine optionRel_trace (R := fun t F => HeadRead h F (h.lines.flatMap FieldLine.calls) t) hline ?_ ?_
  · rw [RequestHead.passed]
    refine optionRel_append hlines fun t F hF ha => ?_
    obtain ⟨hcr,hlf⟩ := step_headEnd ha.state (by rw [ha.nread,hlined]; omega)
    have hhead := ha.head
    obtain ⟨hyes,hno⟩ := step_headersDone (h := h) (F := F)
      (p := { t.parser with nread := t.parser.nread + 2, state := .sHeadersAlmostDone })
      hhead.method hhead.httpMajor hhead.httpMinor ha.framing (frames_trailing hF) hlf
    rw [ha.mark,ha.calls,CRLF,trace_quiet hcr,Marking.push,Option.map_none]
    by_cases hpass : h.Passes F
    · obtain ⟨t',ht',hafter⟩ := hyes hpass
      rw [ht',if_pos hpass]
      exact .some ⟨by simp [hafter.calls],hafter.mark,hafter.state,hafter.nread,hafter.stands⟩
    · rw [hno hpass,if_neg hpass]
      exact .none
  · intro t F ha
    exact ⟨by rw [ha.calls]; rfl,ha.mark,ha.state,ha.nread,ha.stands⟩

/-! ### Bodies -/

theorem trace_mark {p q : HttpParser} {c : Byte} {k : Mark} {acts : List Act}
    (h : step p c = .next (.mark k :: acts) q) (s : Bytes) :
    trace p none (c :: s) = trace p (some (k,[])) (c :: s) := by
  rw [trace_cons h,trace_cons h]
  rfl

theorem step_body {p : HttpParser} (c : Byte) (hp : p.state = .sBodyIdentity) :
    step p c = stepBodyIdentity p := by
  unfold step stepState
  simp [hp,parsingHeader]

theorem step_chunkData {p : HttpParser} (c : Byte) (hp : p.state = .sChunkData) :
    step p c = stepChunkData p := by
  unfold step stepState
  simp [hp,parsingHeader]

/-- A body of a length that was announced, and the end of its message. -/
theorem trace_sized {d : Bytes} {p : HttpParser} (hp : p.state = .sBodyIdentity)
    (hlen : p.contentLength = d.length) (hne : d ≠ []) : trace p none d =
      some ⟨[.body p.flags d,.messageComplete p.upgrade],
        { p with contentLength := 0, state := newMessage p },none⟩ := by
  have hrun : ∀ (d : Bytes) {p : HttpParser}, p.state = .sBodyIdentity → p.contentLength = d.length →
      d ≠ [] → ∀ buf, trace p (some (.body,buf)) d =
        some ⟨[.body p.flags (buf ++ d),.messageComplete p.upgrade],
          { p with contentLength := 0, state := newMessage p },none⟩ := by
    intro d
    induction d with
    | nil => exact fun _ _ h => absurd rfl h
    | cons c s ih =>
      intro p hp hlen _ buf
      rw [List.length_cons] at hlen
      cases s with
      | nil =>
        have hstep : step p c = .next [.mark .body,
            .data .body true 0 { p with contentLength := 0, state := .sMessageDone },
            callbackNotify .messageComplete { p with contentLength := 0, state := newMessage p }]
            { p with contentLength := 0, state := newMessage p } := by
          have h0 : p.contentLength - 1 = 0 := by simp [hlen]
          rw [step_body c hp,stepBodyIdentity]
          simp only [h0,if_true]
          rfl
        rw [trace_one hstep]
        rfl
      | cons b s =>
        have hstep : step p c = .next [.mark .body] { p with contentLength := p.contentLength - 1 } := by
          have h0 : p.contentLength - 1 ≠ 0 := by simp [hlen]
          rw [step_body c hp,stepBodyIdentity]
          simp only [h0,if_false]
        have hrest := ih (p := { p with contentLength := p.contentLength - 1 }) hp
          (by simp only [hlen]; rfl) (by simp) (buf ++ [c])
        rw [trace_cons hstep]
        simp only [actCalls,Marking.push,Option.some_or,Option.map_some,hrest]
        simp [newMessage,httpShouldKeepAlive]
  cases d with
  | nil => exact absurd rfl hne
  | cons c s =>
    obtain ⟨acts,q,hstep⟩ : ∃ acts q, step p c = .next (.mark .body :: acts) q := by
      rw [step_body c hp,stepBodyIdentity]
      simp only
      split
      · exact ⟨_,_,rfl⟩
      · exact ⟨_,_,rfl⟩
    rw [trace_mark hstep,hrun _ hp hlen hne]
    rfl

/-- The data of a chunk and the line end behind it. -/
theorem trace_chunkData {d : Bytes} {p : HttpParser} (hp : p.state = .sChunkData)
    (hlen : p.contentLength = d.length) (hne : d ≠ []) : trace p none (d ++ CRLF) =
      some ⟨[.body p.flags d],{ p with nread := 0, contentLength := 0, state := .sChunkSizeStart },
        none⟩ := by
  have hend : ∀ (q : HttpParser) buf, q.state = .sChunkDataAlmostDone →
      trace q (some (.body,buf)) CRLF =
        some ⟨[.body q.flags buf],{ q with nread := 0, state := .sChunkSizeStart },none⟩ := by
    intro q buf hq
    have hcr : step q CR = .next [callbackData .body { q with state := .sChunkDataDone }]
        { q with state := .sChunkDataDone } := by
      unfold step stepState
      simp only [hq,parsingHeader]
      rfl
    rw [CRLF,trace_cons hcr]
    rfl
  have hrun : ∀ (d : Bytes) {p : HttpParser}, p.state = .sChunkData → p.contentLength = d.length →
      d ≠ [] → ∀ buf, trace p (some (.body,buf)) (d ++ CRLF) =
        some ⟨[.body p.flags (buf ++ d)],
          { p with nread := 0, contentLength := 0, state := .sChunkSizeStart },none⟩ := by
    intro d
    induction d with
    | nil => exact fun _ _ h => absurd rfl h
    | cons c s ih =>
      intro p hp hlen _ buf
      rw [List.length_cons] at hlen
      cases s with
      | nil =>
        have hstep : step p c = .next [.mark .body]
            { p with contentLength := 0, state := .sChunkDataAlmostDone } := by
          have h0 : p.contentLength - 1 = 0 := by simp [hlen]
          rw [step_chunkData c hp,stepChunkData]
          simp only [h0,if_true]
        rw [List.singleton_append,trace_cons hstep]
        simp only [actCalls,Marking.push,Option.some_or,Option.map_some]
        rw [hend _ _ rfl]
        rfl
      | cons b s =>
        have hstep : step p c = .next [.mark .body] { p with contentLength := p.contentLength - 1 } := by
          have h0 : p.contentLength - 1 ≠ 0 := by simp [hlen]
          rw [step_chunkData c hp,stepChunkData]
          simp only [h0,if_false]
        have hrest := ih (p := { p with contentLength := p.contentLength - 1 }) hp
          (by simp only [hlen]; rfl) (by simp) (buf ++ [c])
        rw [List.cons_append,trace_cons hstep]
        simp only [actCalls,Marking.push,Option.some_or,Option.map_some,hrest]
        simp
  cases d with
  | nil => exact absurd rfl hne
  | cons c s =>
    obtain ⟨q,hstep⟩ : ∃ q, step p c = .next [.mark .body] q := ⟨_,by rw [step_chunkData c hp]; rfl⟩
    rw [List.cons_append,trace_mark hstep,← List.cons_append,hrun _ hp hlen hne]
    rfl

def pushHex (n : ℕ) (c : Byte) : Option ℕ := (unhex c).bind (pushDigit 16 n)

def hexValue : Bytes → Option ℕ
  | c :: s => (unhex c).bind fun v => s.foldlM pushHex v
  | [] => none

/-- The line before the data of a chunk, with its parameters. -/
structure SizeLine (n : ℕ) where
  digits : Bytes
  parameters : Bytes
  digits_eq : hexValue digits = some n
  parameters_first : ∀ c ∈ parameters.head?, c = ';'.toUInt8 ∨ c = SP
  parameters_text : ∀ c ∈ parameters, c ≠ CR
  fits : digits.length + parameters.length + 2 ≤ HTTP_MAX_HEADER_SIZE

def SizeLine.text {n : ℕ} (l : SizeLine n) : Bytes := l.digits ++ (l.parameters ++ CRLF)

/-- The parser behind the size of a chunk; the last one is followed by the trailer. -/
def sized (p : HttpParser) (n : ℕ) : HttpParser :=
  if n = 0 then { p with
    nread := 0
    contentLength := 0
    flags := { p.flags with trailing := true }
    state := .sHeaderFieldStart }
  else { p with nread := 0, contentLength := n, state := .sChunkData }

theorem unhex_line {c : Byte} (h : unhex c ≠ none) : c ≠ CR := by
  rintro rfl
  exact h (by decide)

theorem trace_sizeDigits {s : Bytes} {p : HttpParser} {n : ℕ} (hp : p.state = .sChunkSize)
    (hs : s.foldlM pushHex p.contentLength = some n) (hn : p.nread + s.length ≤ HTTP_MAX_HEADER_SIZE) :
    trace p none s = some ⟨[],{ p with nread := p.nread + s.length, contentLength := n },none⟩ := by
  induction s generalizing p with
  | nil =>
    cases hs
    rfl
  | cons c s ih =>
    rw [List.length_cons] at hn
    rw [List.foldlM_cons] at hs
    obtain ⟨n1,h1,hrest⟩ := Option.bind_eq_some_iff.mp hs
    obtain ⟨v,hv,hpush⟩ := Option.bind_eq_some_iff.mp h1
    have hstep : step p c = .next [] { p with nread := p.nread + 1, contentLength := n1 } := by
      rw [step_parsing (by rw [hp]; rfl) (by omega)]
      unfold stepState
      simp only [hp]
      rw [stepChunkSize,if_neg (unhex_line (by simp [hv]))]
      simp only [hv,hpush]
    have hnext := ih (p := { p with nread := p.nread + 1, contentLength := n1 }) hp hrest
      (by simp only; omega)
    rw [trace_quiet hstep,Marking.push,Option.map_none,hnext]
    simp [Nat.add_assoc,Nat.add_comm 1]

theorem trace_parameters {s : Bytes} {p : HttpParser} (hp : p.state = .sChunkParameters)
    (hs : ∀ c ∈ s, c ≠ CR) (hn : p.nread + s.length ≤ HTTP_MAX_HEADER_SIZE) :
    trace p none s = some ⟨[],{ p with nread := p.nread + s.length },none⟩ := by
  induction s generalizing p with
  | nil => simp [trace]
  | cons c s ih =>
    obtain ⟨hc,hs⟩ := List.forall_mem_cons.mp hs
    rw [List.length_cons] at hn
    have hstep : step p c = .next [] { p with nread := p.nread + 1 } := by
      rw [step_parsing (by rw [hp]; rfl) (by omega)]
      unfold stepState
      simp only [hp]
      exact if_neg hc
    rw [trace_quiet hstep,Marking.push,Option.map_none,ih (by exact hp) hs (by simp only; omega)]
    simp [Nat.add_assoc,Nat.add_comm 1]

theorem trace_sizeEnd {p : HttpParser} (hp : p.state = .sChunkSize ∨ p.state = .sChunkParameters)
    (hn : p.nread + 2 ≤ HTTP_MAX_HEADER_SIZE) :
    trace p none CRLF = some ⟨[],sized p p.contentLength,none⟩ := by
  have hcr : step p CR = .next [] { p with nread := p.nread + 1, state := .sChunkSizeAlmostDone } := by
    rcases hp with hp | hp
    · rw [step_parsing (by rw [hp]; rfl) (by omega)]
      unfold stepState
      simp only [hp]
      rfl
    · rw [step_parsing (by rw [hp]; rfl) (by omega)]
      unfold stepState
      simp only [hp]
      rfl
  have hlf : step { p with nread := p.nread + 1, state := .sChunkSizeAlmostDone } LF =
      .next [] (sized p p.contentLength) := by
    rw [step_parsing rfl (by simp only; omega)]
    show stepChunkSizeAlmostDone _ LF = _
    rw [stepChunkSizeAlmostDone,if_neg (not_not.mpr rfl),sized]
    simp only
    split
    next h => simp only [h]
    · rfl
  rw [CRLF,trace_quiet hcr,Marking.push,Option.map_none,trace_one hlf]
  rfl

/-- The size of a chunk. -/
theorem SizeLine.trace_text {n : ℕ} (l : SizeLine n) {p : HttpParser} (hp : p.state = .sChunkSizeStart)
    (h0 : p.nread = 0) : trace p none l.text = some ⟨[],sized p n,none⟩ := by
  obtain ⟨digits,parameters,heq,hfirst,htext,hfits⟩ := l
  cases digits with
  | nil => cases heq
  | cons c s =>
    obtain ⟨v,hv,hs⟩ := Option.bind_eq_some_iff.mp heq
    rw [List.length_cons] at hfits
    have hstep : step p c = .next [] { p with
        nread := p.nread + 1, contentLength := v, state := .sChunkSize } := by
      rw [step_parsing (by rw [hp]; rfl) (by omega)]
      unfold stepState
      simp only [hp,stepChunkSizeStart,hv]
    have hdigits := trace_sizeDigits (p := { p with
      nread := p.nread + 1, contentLength := v, state := .sChunkSize }) rfl hs (by simp only; omega)
    have hsized : ∀ (q : HttpParser) k, q = { p with
        nread := k, contentLength := n, state := q.state } → sized q q.contentLength = sized p n := by
      intro q k hq
      rw [hq]
      unfold sized
      split <;> rfl
    have hend : trace { p with nread := p.nread + 1 + s.length, contentLength := n, state := .sChunkSize }
        none (parameters ++ CRLF) = some ⟨[],sized p n,none⟩ := by
      cases parameters with
      | nil =>
        rw [List.nil_append,trace_sizeEnd (.inl rfl) (by simp only; omega)]
        rw [hsized _ _ rfl]
      | cons d t =>
        rw [List.length_cons] at hfits
        have hd := hfirst d rfl
        have hstep : step { p with
            nread := p.nread + 1 + s.length, contentLength := n, state := .sChunkSize } d =
            .next [] { p with
              nread := p.nread + 1 + s.length + 1, contentLength := n, state := .sChunkParameters } := by
          have hhex : unhex d = none := by obtain rfl | rfl := hd <;> decide
          rw [step_parsing rfl (by simp only; omega)]
          show stepChunkSize _ d = _
          rw [stepChunkSize,if_neg (htext d (by simp))]
          simp only [hhex]
          exact if_pos hd
        have hparams := trace_parameters (p := { p with
          nread := p.nread + 1 + s.length + 1, contentLength := n, state := .sChunkParameters }) (s := t)
          rfl (fun x hx => htext x (by simp [hx])) (by simp only; omega)
        rw [List.cons_append,trace_quiet hstep,Marking.push,Option.map_none,trace_append,hparams]
        simp only [Option.bind_some]
        rw [trace_sizeEnd (.inr rfl) (by simp only; omega),hsized _ _ rfl]
        rfl
    rw [SizeLine.text,List.cons_append,trace_quiet hstep,Marking.push,Option.map_none,trace_append,hdigits]
    simp only [Option.bind_some]
    rw [hend]
    rfl

/-! ### Messages -/

/-- A chunk as it is sent. -/
structure Chunk where
  data : Bytes
  size : SizeLine data.length
  data_ne : data ≠ []

def Chunk.text (c : Chunk) : Bytes := c.size.text ++ (c.data ++ CRLF)

inductive MessageBody
  | none
  | sized (data : Bytes)
  | chunked (chunks : List Chunk) (last : SizeLine 0) (trailer : List FieldLine)

def MessageBody.text : MessageBody → Bytes
  | .none => []
  | .sized data => data
  | .chunked cs last trailer =>
    cs.flatMap Chunk.text ++ (last.text ++ (trailer.flatMap FieldLine.text ++ CRLF))

/-- The bytes that are left in `nread` at the end of the message: those of a trailer. -/
def MessageBody.rest : MessageBody → ℕ
  | .chunked _ _ trailer => (trailer.flatMap FieldLine.text).length + 2
  | _ => 0

/-- The body is of the kind and of the length the head says. -/
def MessageBody.Fits (F : Framing) : MessageBody → Prop
  | .none => ¬F.flags.chunked ∧ (F.contentLength = 0 ∨ F.contentLength = ULLONG_MAX)
  | .sized data => ¬F.flags.chunked ∧ F.contentLength = data.length ∧ data ≠ [] ∧
    data.length ≠ ULLONG_MAX
  | .chunked _ _ _ => F.flags.chunked

def MessageBody.calls (F : Framing) : MessageBody → List Callout
  | .none => [.messageComplete false]
  | .sized data => [.body F.flags data,.messageComplete false]
  | .chunked cs _ trailer =>
    cs.map (fun c => .body F.flags c.data) ++ (trailer.flatMap FieldLine.calls ++ [.messageComplete false])

/-- What the trailer adds to what the head says. -/
def MessageBody.finish (F : Framing) : MessageBody → Option Framing
  | .chunked _ _ trailer =>
    frames trailer { F with flags := { F.flags with trailing := true }, contentLength := 0 }
  | _ => some F

/-- A request as it is sent. -/
structure HttpMessage where
  head : RequestHead
  body : MessageBody
  body_fits : ∀ n F, head.passed n = some F → body.Fits F
  trailer_fits : body.rest ≤ HTTP_MAX_HEADER_SIZE

def HttpMessage.text (m : HttpMessage) : Bytes := m.head.text ++ m.body.text

/-- What is made of some messages: the calls, whether the connection is kept, and whether a
`Content-Length` has been seen on it. -/
structure Delivery where
  calls : List Callout
  keepAlive : Bool
  setContentLength : ℕ
  deriving DecidableEq, Repr

/-- What is made of a message; `none` where the parser stops inside it. -/
def HttpMessage.read (m : HttpMessage) (setContentLength : ℕ) : Option Delivery :=
  (m.head.passed setContentLength).bind fun F => (m.body.finish F).map fun G =>
    { calls := m.head.fieldCalls ++
        .headersComplete ⟨m.head.method,m.head.major,m.head.minor,F.flags,F.contentLength⟩ :: m.body.calls F
      keepAlive := m.head.keepAlive G.flags
      setContentLength := G.setContentLength }

/-- What is made of the messages of a connection. -/
def deliver : Bool → ℕ → List HttpMessage → Option Delivery
  | keepAlive,n,[] => some ⟨[],keepAlive,n⟩
  | keepAlive,n,m :: ms =>
    if keepAlive then
      (m.read n).bind fun d => (deliver d.keepAlive d.setContentLength ms).map fun e =>
        { e with calls := d.calls ++ e.calls }
    else none

/-- No head is longer than `HTTP_MAX_HEADER_SIZE`, the trailer before it included. -/
def Room : ℕ → List HttpMessage → Prop
  | _,[] => True
  | n,m :: ms => n + m.head.text.length ≤ HTTP_MAX_HEADER_SIZE ∧ Room m.body.rest ms

/-- The calls for some messages, and the parser after them. -/
structure AfterMessages (n : ℕ) (t : Traced) (d : Delivery) : Prop where
  calls : t.calls = d.calls
  mark : t.mark = none
  state : t.parser.state = if d.keepAlive then .sStartReq else .sDead
  nread : t.parser.nread = n
  setContentLength : t.parser.setContentLength = d.setContentLength
  upgrade : t.parser.upgrade = false

theorem Chunk.trace_text (c : Chunk) {p : HttpParser} (hp : p.state = .sChunkSizeStart)
    (h0 : p.nread = 0) : trace p none c.text =
      some ⟨[.body p.flags c.data],{ p with contentLength := 0 },none⟩ := by
  have hlen : c.data.length ≠ 0 := by simpa using c.data_ne
  have hdata := trace_chunkData (p := sized p c.data.length) (by simp [sized,hlen])
    (by simp [sized,hlen]) c.data_ne
  rw [Chunk.text,trace_append,c.size.trace_text hp h0]
  simp only [Option.bind_some,hdata,Option.map_some,List.nil_append]
  rw [sized,if_neg hlen,← hp,← h0]

theorem trace_chunks {cs : List Chunk} {p : HttpParser} (hp : p.state = .sChunkSizeStart)
    (h0 : p.nread = 0) : ∃ n, trace p none (cs.flatMap Chunk.text) =
      some ⟨cs.map fun c => .body p.flags c.data,{ p with contentLength := n },none⟩ := by
  induction cs generalizing p with
  | nil => exact ⟨p.contentLength,rfl⟩
  | cons c cs ih =>
    obtain ⟨n,hn⟩ := ih (p := { p with contentLength := 0 }) hp h0
    refine ⟨n,?_⟩
    rw [List.flatMap_cons,trace_append,c.trace_text hp h0]
    simp only [Option.bind_some,hn]
    rfl

/-- The end of a message, as the parser leaves it. -/
structure MessageEnd (h : RequestHead) (n : ℕ) (calls : List Callout) (t : Traced) (G : Framing) : Prop where
  calls : t.calls = calls
  mark : t.mark = none
  state : t.parser.state = if h.keepAlive G.flags then .sStartReq else .sDead
  nread : t.parser.nread = n
  setContentLength : t.parser.setContentLength = G.setContentLength
  upgrade : t.parser.upgrade = false

/-- The lines behind the last chunk, and the end of the message. -/
theorem trace_trailer {h : RequestHead} {ls : List FieldLine} {F : Framing} {p : HttpParser}
    (hp : Stands h F p) (hs : p.state = .sHeaderFieldStart) (htr : F.flags.trailing) (h0 : p.nread = 0)
    (hn : (ls.flatMap FieldLine.text).length + 2 ≤ HTTP_MAX_HEADER_SIZE) :
    Option.Rel (MessageEnd h ((ls.flatMap FieldLine.text).length + 2)
        (ls.flatMap FieldLine.calls ++ [.messageComplete false]))
      (trace p none (ls.flatMap FieldLine.text ++ CRLF)) (frames ls F) := by
  have hlines := @trace_lines ls p (.inl hs) (by omega)
  rw [hp.framing] at hlines
  suffices h : Option.Rel _ _ ((frames ls F).bind some) by rwa [Option.bind_fun_some] at h
  refine optionRel_append hlines fun t G hG ha => ?_
  obtain ⟨hcr,hlf⟩ := step_headEnd ha.state (by rw [ha.nread]; omega)
  generalize hq : ({ t.parser with
    nread := t.parser.nread + 2, state := .sHeadersAlmostDone } : HttpParser) = q at hlf
  have hstands : Stands h G q := by
    rw [← hq]
    exact ⟨ha.head.method.trans hp.method,ha.head.httpMajor.trans hp.httpMajor,
      ha.head.httpMinor.trans hp.httpMinor,ha.head.upgrade.trans hp.upgrade,ha.framing⟩
  have hqtr : q.flags.trailing := by
    have hG' : q.flags = G.flags := by rw [← hstands.framing]; rfl
    rw [hG',frames_trailing hG,htr]
  have hdone : stepHeadersAlmostDone q LF = messageDone q := by
    rw [stepHeadersAlmostDone,if_neg (not_not.mpr rfl),if_pos hqtr]
  rw [hdone,messageDone] at hlf
  rw [ha.mark,CRLF,trace_quiet hcr,Marking.push,Option.map_none,trace_one hlf]
  refine .some ⟨?_,rfl,hstands.newMessage,?_,?_,hstands.upgrade⟩
  · simp [ha.calls,actCalls,Callout.ofNotify,hstands.upgrade]
  · simp only
    rw [← hq,ha.nread,h0]
    simp
  · simp only
    rw [← hstands.framing]
    rfl

/-- The body of a message, and its end. -/
theorem trace_body {h : RequestHead} {b : MessageBody} (hb : b ≠ .none)
    (hrest : b.rest ≤ HTTP_MAX_HEADER_SIZE) {F : Framing} (hfits : b.Fits F) {p : HttpParser}
    (hp : Stands h F p) (hs : p.state = h.bodyState F) (h0 : p.nread = 0) :
    Option.Rel (MessageEnd h b.rest (b.calls F)) (trace p none b.text) (b.finish F) := by
  have hflags : p.flags = F.flags := by rw [← hp.framing]; rfl
  cases b with
  | none => exact absurd rfl hb
  | sized d =>
    obtain ⟨hch,hlen,hne,hmax⟩ := hfits
    have hstate : p.state = .sBodyIdentity := by
      have hcl : ¬(F.contentLength = 0 ∨ F.contentLength = ULLONG_MAX) := by
        rw [hlen]
        simp [hne,hmax]
      rw [hs,RequestHead.bodyState,if_neg hch,if_neg hcl]
    have hlen' : p.contentLength = d.length := by
      rw [← hlen,← hp.framing]
      rfl
    rw [MessageBody.text,trace_sized hstate hlen' hne]
    refine .some ⟨?_,rfl,hp.newMessage,h0,?_,hp.upgrade⟩
    · rw [hflags,hp.upgrade]
      rfl
    · simp only
      rw [← hp.framing]
      rfl
  | chunked cs last trailer =>
    have hstate : p.state = .sChunkSizeStart := by
      have hch : F.flags.chunked := hfits
      rw [hs,RequestHead.bodyState,if_pos hch]
    obtain ⟨n,hchunks⟩ := @trace_chunks cs _ hstate h0
    have hlast := last.trace_text (p := { p with contentLength := n }) hstate h0
    have hsized : Stands h { F with flags := { F.flags with trailing := true }, contentLength := 0 }
        (sized { p with contentLength := n } 0) := by
      refine ⟨hp.method,hp.httpMajor,hp.httpMinor,hp.upgrade,?_⟩
      rw [← hp.framing]
      rfl
    have htr := trace_trailer hsized rfl rfl rfl hrest
    rw [MessageBody.text]
    refine optionRel_trace hchunks (optionRel_trace (S := MessageEnd h ((trailer.flatMap FieldLine.text).length + 2)
      (trailer.flatMap FieldLine.calls ++ [.messageComplete false])) hlast htr ?_) ?_
    · intro t G ht
      exact ⟨ht.calls,ht.mark,ht.state,ht.nread,ht.setContentLength,ht.upgrade⟩
    · intro t G ht
      exact ⟨by simp only [hflags,ht.calls]; rfl,ht.mark,ht.state,ht.nread,ht.setContentLength,
        ht.upgrade⟩

theorem MessageBody.Fits.endCalls {F : Framing} {b : MessageBody} (h : b.Fits F) (hb : b ≠ .none) :
    F.endCalls = [] := by
  unfold Framing.endCalls
  refine if_neg ?_
  rintro ⟨hch,hcl⟩
  cases b with
  | none => exact hb rfl
  | sized d =>
    obtain ⟨-,hlen,hne,hmax⟩ := h
    rw [hlen] at hcl
    simp [hne,hmax] at hcl
  | chunked cs last trailer => exact hch h

/-- A message is read as it was sent. -/
theorem HttpMessage.trace_text (m : HttpMessage) {p : HttpParser} (hp : p.state = .sStartReq)
    (hn : p.nread + m.head.text.length ≤ HTTP_MAX_HEADER_SIZE) :
    Option.Rel (AfterMessages m.body.rest) (trace p none m.text) (m.read p.setContentLength) := by
  rw [HttpMessage.text,HttpMessage.read]
  refine optionRel_append (m.head.trace_text hp hn) fun t F hF ha => ?_
  have hfits := m.body_fits _ F hF
  have hset : t.parser.setContentLength = F.setContentLength := by
    rw [← ha.stands.framing]
    rfl
  rw [ha.mark,ha.calls]
  by_cases hb : m.body = .none
  · rw [hb] at hfits ⊢
    have hend : F.endCalls = [.messageComplete false] := if_pos hfits
    have hstate : m.head.bodyState F = if m.head.keepAlive F.flags then .sStartReq else .sDead :=
      (if_neg hfits.1).trans (if_pos hfits.2)
    rw [hend]
    exact .some ⟨by simp [MessageBody.calls],rfl,ha.state.trans hstate,ha.nread,hset,
      ha.stands.upgrade⟩
  · rw [hfits.endCalls hb]
    refine optionRel_map (fun t' G he => ?_)
      (trace_body hb m.trailer_fits hfits ha.stands ha.state ha.nread)
    exact ⟨by simp [he.calls],he.mark,he.state,he.nread,he.setContentLength,he.upgrade⟩

theorem RequestHead.text_cons (h : RequestHead) : ∃ c s, h.text = c :: s ∧ c ≠ CR ∧ c ≠ LF := by
  have hm := methodOf_eq_some.mpr h.word_spelled
  cases hw : h.word with
  | nil =>
    rw [hw] at hm
    cases hm
  | cons c s =>
    rw [hw] at hm
    obtain ⟨m,hfirst,-⟩ := Option.bind_eq_some_iff.mp hm
    refine ⟨c,_,by rw [RequestHead.text,RequestHead.lineText,hw]; rfl,?_,?_⟩
    · rintro rfl
      exact absurd hfirst (by rw [show methodFirst CR = none by decide]; simp)
    · rintro rfl
      exact absurd hfirst (by rw [show methodFirst LF = none by decide]; simp)

theorem HttpMessage.trace_dead (m : HttpMessage) {p : HttpParser} (hp : p.state = .sDead)
    (hn : p.nread + m.head.text.length ≤ HTTP_MAX_HEADER_SIZE) (s : Bytes) :
    trace p none (m.text ++ s) = none := by
  obtain ⟨c,w,hw,hcr,hlf⟩ := m.head.text_cons
  rw [hw,List.length_cons] at hn
  rw [HttpMessage.text,hw,List.cons_append,List.cons_append]
  refine trace_error (q := { p with nread := p.nread + 1, httpErrno := .CLOSED_CONNECTION }) ?_ _ _
  rw [step_parsing (by rw [hp]; rfl) (by omega)]
  unfold stepState
  simp only [hp]
  exact if_neg (not_or.mpr ⟨hcr,hlf⟩)

/-- The parser between two messages. -/
structure Between (t : Traced) (d : Delivery) : Prop where
  calls : t.calls = d.calls
  mark : t.mark = none
  state : t.parser.state = if d.keepAlive then .sStartReq else .sDead
  setContentLength : t.parser.setContentLength = d.setContentLength
  upgrade : t.parser.upgrade = false

/-- The messages of a connection are read one after the other, each as it was sent. -/
theorem trace_messages {ms : List HttpMessage} {p : HttpParser} {keepAlive : Bool}
    (hp : p.state = if keepAlive then .sStartReq else .sDead) (hu : p.upgrade = false)
    (hn : Room p.nread ms) : Option.Rel Between (trace p none (ms.flatMap HttpMessage.text))
      (deliver keepAlive p.setContentLength ms) := by
  induction ms generalizing p keepAlive with
  | nil => exact .some ⟨rfl,rfl,hp,rfl,hu⟩
  | cons m ms ih =>
    obtain ⟨hroom,hn⟩ := hn
    rw [List.flatMap_cons]
    cases keepAlive with
    | false =>
      rw [m.trace_dead hp hroom]
      exact .none
    | true =>
      rw [deliver,if_pos rfl]
      refine optionRel_append (m.trace_text hp hroom) fun t d _ h => ?_
      have hrest := ih (p := t.parser) h.state h.upgrade (h.nread ▸ hn)
      rw [h.setContentLength] at hrest
      rw [h.mark]
      refine optionRel_map (fun t' e h' => ?_) hrest
      exact ⟨by simp only [h.calls,h'.calls],h'.mark,h'.state,h'.setContentLength,h'.upgrade⟩

end Meinheld
