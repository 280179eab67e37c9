import Meinheld.CallTrace
import Meinheld.Payload

/-! What `http_parser.c` makes of a header line: the calls for its name and value, and what the line
says about the length of the body, the connection and an upgrade. -/
namespace Meinheld

/-! ### What a line says -/

/-- What the parser keeps of the header lines it has read. -/
structure Framing where
  flags : Flags := {}
  contentLength : ℕ := ULLONG_MAX
  setContentLength : ℕ := 0
  deriving DecidableEq, Repr

def HttpParser.framing (p : HttpParser) : Framing := ⟨p.flags,p.contentLength,p.setContentLength⟩

/-- A name by which `Transfer-Encoding` is known: of another case than this only in its first
letter. -/
def transferName : Bytes → Bool
  | c :: cs => token c == 't'.toUInt8 && cs == ascii "ransfer-Encoding"
  | [] => false

/-- What the parser takes a name for. -/
def fieldKind (name : Bytes) : HeaderState :=
  let s := name.map token
  if s = ascii "connection" ∨ s = ascii "proxy-connection" then .hConnection
  else if s = ascii "content-length" then .hContentLength
  else if s = ascii "upgrade" then .hUpgrade
  else if transferName name then .hTransferEncoding
  else .hGeneral

/-- The value goes on with `w`, and then there are blanks only. -/
def spells (f : Byte → Byte) : Bytes → Bytes → Bool
  | [],v => v.all (· == SP)
  | t :: ts,c :: cs => f c == t && spells f ts cs
  | _ :: _,[] => false

/-- Only the first letter may be of another case. -/
def chunkedValue : Bytes → Bool
  | c :: cs => lower c == 'c'.toUInt8 && spells id (ascii "hunked") cs
  | [] => false

def keepAliveValue (v : Bytes) : Bool := spells lower (ascii "keep-alive") v

def closeValue (v : Bytes) : Bool := spells lower (ascii "close") v

/-- A byte of a length after its first digit; blanks may stand anywhere between the digits. -/
def pushLength (n : ℕ) (c : Byte) : Option ℕ :=
  if c = SP then some n else if isNum c then pushDigit 10 n (c.toNat - 48) else none

/-- A line `Content-Length`: none is taken twice. -/
def Framing.readLength (F : Framing) : Bytes → Option Framing
  | [] => some F
  | c :: cs =>
    if isNum c ∧ F.setContentLength = 0 then
      (cs.foldlM pushLength (c.toNat - 48)).map fun n =>
        { F with contentLength := n, setContentLength := 1 }
    else none

/-- A line with a value, by the kind of its name; `none` is `HPE_INVALID_CONTENT_LENGTH`. -/
def Framing.read (F : Framing) (kind : HeaderState) (v : Bytes) : Option Framing :=
  match kind with
  | .hContentLength => F.readLength v
  | .hTransferEncoding =>
    some (if chunkedValue v then { F with flags := { F.flags with chunked := true } } else F)
  | .hConnection =>
    some (if keepAliveValue v then { F with flags := { F.flags with connectionKeepAlive := true } }
      else if closeValue v then { F with flags := { F.flags with connectionClose := true } } else F)
  | .hUpgrade =>
    some (if v = [] then F else { F with flags := { F.flags with upgrade := true } })
  | _ => some F

/-- A header line as it is sent: a name over token characters, blanks, and a value without line
ends that does not begin with a blank. -/
structure FieldLine where
  name : Bytes
  blanks : Bytes
  value : Bytes
  name_ne : name ≠ []
  name_token : ∀ c ∈ name, token c ≠ 0
  blanks_blank : ∀ c ∈ blanks, c = SP ∨ c = TAB
  value_text : ∀ c ∈ value, c ≠ CR ∧ c ≠ LF
  value_first : ∀ c ∈ value.head?, c ≠ SP ∧ c ≠ TAB

def FieldLine.text (l : FieldLine) : Bytes :=
  l.name ++ ':'.toUInt8 :: (l.blanks ++ (l.value ++ CRLF))

def FieldLine.calls (l : FieldLine) : List Callout := [.headerField l.name,.headerValue l.value]

def FieldLine.frame (l : FieldLine) (F : Framing) : Option Framing := F.read (fieldKind l.name) l.value

/-! ### Names -/

/-- What is left of the state of the matchers where a value begins. -/
def HeaderState.kind : HeaderState → HeaderState
  | .hConnection => .hConnection
  | .hContentLength => .hContentLength
  | .hTransferEncoding => .hTransferEncoding
  | .hUpgrade => .hUpgrade
  | _ => .hGeneral

theorem headerFieldToken_eq (p : HttpParser) (ch : Byte) : headerFieldToken p ch =
    { p with headerState := (headerFieldToken p ch).headerState
             index := (headerFieldToken p ch).index } := by
  unfold headerFieldToken matchNext
  simp only
  repeat' split
  all_goals rfl

theorem headerFieldToken_nread (p : HttpParser) (ch : Byte) (n : ℕ) :
    headerFieldToken { p with nread := n } ch = { headerFieldToken p ch with nread := n } := by
  unfold headerFieldToken matchNext
  simp only
  repeat' split
  all_goals rfl

theorem foldl_headerFieldToken_eq (p : HttpParser) (s : Bytes) : s.foldl headerFieldToken p =
    { p with headerState := (s.foldl headerFieldToken p).headerState
             index := (s.foldl headerFieldToken p).index } := by
  induction s generalizing p with
  | nil => rfl
  | cons ch s ih =>
    rw [List.foldl_cons,ih,headerFieldToken_eq]

theorem general_kind {p : HttpParser} (hp : p.headerState = .hGeneral) (s : Bytes) :
    (s.foldl headerFieldToken p).headerState.kind = .hGeneral := by
  induction s generalizing p with
  | nil => simp [hp,HeaderState.kind]
  | cons ch s ih => exact ih (by simp [headerFieldToken,hp])

/-- The matchers of whole names, from the place they have reached. -/
theorem matching_kind {w : Bytes} {M D : HeaderState} {f : Byte → Byte}
    (hM : M.kind = .hGeneral) (hD : D.kind = D)
    (hnext : ∀ p ch, p.headerState = M → headerFieldToken p ch = matchNext w D (f ch) p)
    (hdone : ∀ p ch, p.headerState = D → ch ≠ SP →
      headerFieldToken p ch = { p with headerState := .hGeneral })
    {s : Bytes} (hs : ∀ c ∈ s, c ≠ SP) {p : HttpParser} (hp : p.headerState = M)
    (hi : p.index + 1 < w.length) : (s.foldl headerFieldToken p).headerState.kind =
      if s.map f = w.drop (p.index + 1) then D else .hGeneral := by
  induction s generalizing p with
  | nil =>
    have hne : w.drop (p.index + 1) ≠ [] := by simpa using hi
    simp [hp,hM,hne.symm]
  | cons ch s ih =>
    obtain ⟨hch,hs⟩ := List.forall_mem_cons.mp hs
    obtain ⟨t,ts,hdrop,hget,hts⟩ : ∃ t ts, w.drop (p.index + 1) = t :: ts ∧
        w.getD (p.index + 1) 0 = t ∧ w.drop (p.index + 2) = ts :=
      ⟨_,_,List.drop_eq_getElem_cons hi,by simp [List.getD,hi],rfl⟩
    rw [List.foldl_cons,hnext p ch hp,List.map_cons,hdrop]
    by_cases hc : f ch = t
    · by_cases hlast : p.index + 1 = w.length - 1
      · -- the last byte of the name that is looked for
        have hnil : ts = [] := hts ▸ List.drop_eq_nil_of_le (by omega)
        have hst : (matchNext w D (f ch) p).headerState = D := by
          simp only [matchNext,hget]
          rw [if_neg (by simp [hc]; omega),if_pos hlast]
        cases s with
        | nil => rw [List.foldl_nil,hst,hD,hnil,hc,List.map_nil,if_pos rfl]
        | cons c s =>
          rw [List.foldl_cons,hdone _ c hst (hs c (by simp)),general_kind rfl]
          simp [hnil]
      · have hst : (matchNext w D (f ch) p).headerState = M := by
          simp only [matchNext,hget]
          rw [if_neg (by simp [hc]; omega),if_neg hlast,hp]
        rw [ih hs hst (by simp only [matchNext]; omega)]
        simp [matchNext,hc,hts]
    · have hst : (matchNext w D (f ch) p).headerState = .hGeneral := by
        simp only [matchNext,hget]
        rw [if_pos (.inr hc)]
      rw [general_kind hst,if_neg (by simp [hc])]

def fieldFirst (ch : Byte) : HeaderState :=
  if token ch = 'c'.toUInt8 then .hC
  else if token ch = 'p'.toUInt8 then .hMatchingProxyConnection
  else if token ch = 't'.toUInt8 then .hMatchingTransferEncoding
  else if token ch = 'u'.toUInt8 then .hMatchingUpgrade
  else .hGeneral

theorem token_ne_SP {c : Byte} (h : token c ≠ 0) : c ≠ SP := by
  rintro rfl
  exact h rfl

/-- What is left of a name that begins with `con`. -/
theorem con_kind {s : Bytes} (hs : ∀ c ∈ s, c ≠ SP) {p : HttpParser} (hp : p.headerState = .hCON)
    (hi : p.index = 2) : (s.foldl headerFieldToken p).headerState.kind =
      if s.map token = ascii "nection" then .hConnection
      else if s.map token = ascii "tent-length" then .hContentLength
      else .hGeneral := by
  have hn : ascii "nection" = 'n'.toUInt8 :: ascii "ection" := rfl
  have ht : ascii "tent-length" = 't'.toUInt8 :: ascii "ent-length" := rfl
  have hnt : 'n'.toUInt8 ≠ 't'.toUInt8 := by decide
  cases s with
  | nil => simp [hp,HeaderState.kind,hn,ht]
  | cons c s =>
    have hrest := (List.forall_mem_cons.mp hs).2
    rw [List.foldl_cons,List.map_cons,hn,ht]
    simp only [List.cons.injEq]
    by_cases h1 : token c = 'n'.toUInt8
    · have hst : (headerFieldToken p c).headerState = .hMatchingConnection := by
        simp [headerFieldToken,hp,h1]
      have hidx : (headerFieldToken p c).index = 3 := by simp [headerFieldToken,hp,hi]
      rw [matching_kind (f := token) (w := ascii "connection") (D := .hConnection) rfl rfl
        (fun p ch h => by simp [headerFieldToken,h]) (fun p ch h hc => by simp [headerFieldToken,h,hc])
        hrest hst (by rw [hidx]; decide),hidx]
      have hdrop : (ascii "connection").drop (3 + 1) = ascii "ection" := by decide
      simp [hdrop,h1,hnt]
    by_cases h2 : token c = 't'.toUInt8
    · have hst : (headerFieldToken p c).headerState = .hMatchingContentLength := by
        simp [headerFieldToken,hp,h2,hnt.symm]
      have hidx : (headerFieldToken p c).index = 3 := by simp [headerFieldToken,hp,hi]
      rw [matching_kind (f := token) (w := ascii "content-length") (D := .hContentLength) rfl rfl
        (fun p ch h => by simp [headerFieldToken,h]) (fun p ch h hc => by simp [headerFieldToken,h,hc])
        hrest hst (by rw [hidx]; decide),hidx]
      have hdrop : (ascii "content-length").drop (3 + 1) = ascii "ent-length" := by decide
      simp [hdrop,h2,hnt.symm]
    · have hst : (headerFieldToken p c).headerState = .hGeneral := by
        simp [headerFieldToken,hp,h1,h2]
      rw [general_kind hst]
      simp [h1,h2]

/-- What is left of a name that begins with `c`. -/
theorem c_kind {s : Bytes} (hs : ∀ c ∈ s, c ≠ SP) {p : HttpParser} (hp : p.headerState = .hC)
    (hi : p.index = 0) : (s.foldl headerFieldToken p).headerState.kind =
      if s.map token = ascii "onnection" then .hConnection
      else if s.map token = ascii "ontent-length" then .hContentLength
      else .hGeneral := by
  have h1 : ascii "onnection" = 'o'.toUInt8 :: 'n'.toUInt8 :: ascii "nection" := rfl
  have h2 : ascii "ontent-length" = 'o'.toUInt8 :: 'n'.toUInt8 :: ascii "tent-length" := rfl
  rw [h1,h2]
  cases s with
  | nil => simp [hp,HeaderState.kind]
  | cons c s =>
    rw [List.foldl_cons,List.map_cons]
    by_cases ho : token c = 'o'.toUInt8
    · have hst : (headerFieldToken p c).headerState = .hCO := by simp [headerFieldToken,hp,ho]
      have hidx : (headerFieldToken p c).index = 1 := by simp [headerFieldToken,hp,hi]
      cases s with
      | nil => simp [hst,HeaderState.kind]
      | cons d s =>
        rw [List.foldl_cons,List.map_cons]
        by_cases hn : token d = 'n'.toUInt8
        · have hst2 : (headerFieldToken (headerFieldToken p c) d).headerState = .hCON := by
            simp [headerFieldToken,hp,ho,hn]
          rw [con_kind (fun x hx => hs x (by simp [hx])) hst2 (by simp [headerFieldToken,hp,hi,ho])]
          simp [ho,hn]
        · rw [general_kind (by simp [headerFieldToken,hp,ho,hn])]
          simp [hn]
    · rw [general_kind (by simp [headerFieldToken,hp,ho])]
      simp [ho]

/-- The matchers recognise exactly the names of `fieldKind`. -/
theorem name_kind {ch : Byte} {s : Bytes} (hs : ∀ c ∈ s, token c ≠ 0) {p : HttpParser}
    (hp : p.headerState = fieldFirst ch) (hi : p.index = 0) :
    (s.foldl headerFieldToken p).headerState.kind = fieldKind (ch :: s) := by
  have hblank : ∀ c ∈ s, c ≠ SP := fun c hc => token_ne_SP (hs c hc)
  have hconn : ascii "connection" = 'c'.toUInt8 :: ascii "onnection" := rfl
  have hproxy : ascii "proxy-connection" = 'p'.toUInt8 :: ascii "roxy-connection" := rfl
  have hlen : ascii "content-length" = 'c'.toUInt8 :: ascii "ontent-length" := rfl
  have hup : ascii "upgrade" = 'u'.toUInt8 :: ascii "pgrade" := rfl
  obtain ⟨pc,tc,tp,uc,up,ut⟩ : 'p'.toUInt8 ≠ 'c'.toUInt8 ∧ 't'.toUInt8 ≠ 'c'.toUInt8 ∧
    't'.toUInt8 ≠ 'p'.toUInt8 ∧ 'u'.toUInt8 ≠ 'c'.toUInt8 ∧ 'u'.toUInt8 ≠ 'p'.toUInt8 ∧
    'u'.toUInt8 ≠ 't'.toUInt8 := by decide
  simp only [fieldKind,transferName,List.map_cons,hconn,hproxy,hlen,hup,List.cons.injEq]
  by_cases hc : token ch = 'c'.toUInt8
  · have hst : p.headerState = .hC := by rw [hp,fieldFirst,if_pos hc]
    rw [c_kind hblank hst hi]
    simp [hc,pc.symm,tc.symm,uc.symm]
  by_cases hpr : token ch = 'p'.toUInt8
  · have hst : p.headerState = .hMatchingProxyConnection := by
      rw [hp,fieldFirst,if_neg hc,if_pos hpr]
    rw [matching_kind (f := token) (w := ascii "proxy-connection") (D := .hConnection) rfl rfl
      (fun p ch h => by simp [headerFieldToken,h]) (fun p ch h hc => by simp [headerFieldToken,h,hc])
      hblank hst (by rw [hi]; decide),hi]
    have hdrop : (ascii "proxy-connection").drop (0 + 1) = ascii "roxy-connection" := by decide
    simp [hdrop,hpr,pc,up.symm,tp.symm]
  by_cases ht : token ch = 't'.toUInt8
  · have hst : p.headerState = .hMatchingTransferEncoding := by
      rw [hp,fieldFirst,if_neg hc,if_neg hpr,if_pos ht]
    rw [matching_kind (f := id) (w := ascii "Transfer-Encoding") (D := .hTransferEncoding) rfl rfl
      (fun p ch h => by simp [headerFieldToken,h]) (fun p ch h hc => by simp [headerFieldToken,h,hc])
      hblank hst (by rw [hi]; decide),hi]
    have hdrop : (ascii "Transfer-Encoding").drop (0 + 1) = ascii "ransfer-Encoding" := by decide
    simp [hdrop,ht,tc,tp,ut.symm]
  by_cases hu : token ch = 'u'.toUInt8
  · have hst : p.headerState = .hMatchingUpgrade := by
      rw [hp,fieldFirst,if_neg hc,if_neg hpr,if_neg ht,if_pos hu]
    rw [matching_kind (f := token) (w := ascii "upgrade") (D := .hUpgrade) rfl rfl
      (fun p ch h => by simp [headerFieldToken,h]) (fun p ch h hc => by simp [headerFieldToken,h,hc])
      hblank hst (by rw [hi]; decide),hi]
    have hdrop : (ascii "upgrade").drop (0 + 1) = ascii "pgrade" := by decide
    simp [hdrop,hu,uc,up,ut]
  · rw [general_kind (by rw [hp,fieldFirst,if_neg hc,if_neg hpr,if_neg ht,if_neg hu])]
    simp [hc,hpr,ht,hu]

/-! ### Values -/

/-- The flags `s_header_almost_done` sets. -/
def HeaderState.finish (h : HeaderState) (flags : Flags) : Flags :=
  match h with
  | .hConnectionKeepAlive => { flags with connectionKeepAlive := true }
  | .hConnectionClose => { flags with connectionClose := true }
  | .hTransferEncodingChunked => { flags with chunked := true }
  | _ => flags

/-- What a header line leaves as it is. -/
structure SameHead (p q : HttpParser) : Prop where
  method : q.method = p.method
  httpMajor : q.httpMajor = p.httpMajor
  httpMinor : q.httpMinor = p.httpMinor
  upgrade : q.upgrade = p.upgrade
  httpErrno : q.httpErrno = p.httpErrno

theorem SameHead.refl (p : HttpParser) : SameHead p p := ⟨rfl,rfl,rfl,rfl,rfl⟩

theorem SameHead.trans {p q r : HttpParser} (h : SameHead p q) (h' : SameHead q r) : SameHead p r :=
  ⟨h'.method.trans h.method,h'.httpMajor.trans h.httpMajor,h'.httpMinor.trans h.httpMinor,
    h'.upgrade.trans h.upgrade,h'.httpErrno.trans h.httpErrno⟩

theorem headerValueNext_nread (p : HttpParser) (ch : Byte) (n : ℕ) :
    headerValueNext { p with nread := n } ch =
      (headerValueNext p ch).map fun q => { q with nread := n } := by
  unfold headerValueNext matchNext
  simp only
  repeat' split
  all_goals first | rfl | simp only [Option.map_map]; rfl

theorem general_value {p : HttpParser} (hp : p.headerState = .hGeneral) (s : Bytes) :
    s.foldlM headerValueNext p = some p := by
  induction s with
  | nil => rfl
  | cons ch s ih =>
    have hnext : headerValueNext p ch = some p := by
      simp only [headerValueNext,hp]
      rw [← hp]
    rw [List.foldlM_cons,hnext]
    exact ih

theorem done_value {D : HeaderState}
    (hdone : ∀ p ch, p.headerState = D → headerValueNext p ch =
      if ch ≠ SP then some { p with headerState := .hGeneral } else some p)
    {p : HttpParser} (hp : p.headerState = D) (s : Bytes) : s.foldlM headerValueNext p =
      some { p with headerState := if s.all (· == SP) then D else .hGeneral } := by
  induction s with
  | nil => simp [← hp]
  | cons ch s ih =>
    rw [List.foldlM_cons,hdone p ch hp]
    by_cases hch : ch = SP
    · rw [if_neg (by simp [hch])]
      simpa [hch] using ih
    · rw [if_pos hch]
      simpa [hch] using general_value rfl s

/-- The matchers of values, from the place they have reached. -/
theorem matching_value {w : Bytes} {M D : HeaderState} {f : Byte → Byte}
    (hM : ∀ flags, M.finish flags = flags)
    (hnext : ∀ p ch, p.headerState = M → headerValueNext p ch = some (matchNext w D (f ch) p))
    (hdone : ∀ p ch, p.headerState = D → headerValueNext p ch =
      if ch ≠ SP then some { p with headerState := .hGeneral } else some p)
    (s : Bytes) {p : HttpParser} (hp : p.headerState = M) (hi : p.index + 1 < w.length) :
    ∃ h i, s.foldlM headerValueNext p = some { p with headerState := h, index := i } ∧
      ∀ flags, h.finish flags =
        if spells f (w.drop (p.index + 1)) s then D.finish flags else flags := by
  induction s generalizing p with
  | nil =>
    obtain ⟨t,ts,hdrop⟩ : ∃ t ts, w.drop (p.index + 1) = t :: ts :=
      ⟨_,_,List.drop_eq_getElem_cons hi⟩
    exact ⟨M,p.index,by rw [← hp]; rfl,by simp [hM,hdrop,spells]⟩
  | cons ch s ih =>
    obtain ⟨t,ts,hdrop,hget,hts⟩ : ∃ t ts, w.drop (p.index + 1) = t :: ts ∧
        w.getD (p.index + 1) 0 = t ∧ w.drop (p.index + 2) = ts :=
      ⟨_,_,List.drop_eq_getElem_cons hi,by simp [List.getD,hi],rfl⟩
    rw [List.foldlM_cons,hnext p ch hp,hdrop]
    simp only [Option.bind_eq_bind,Option.bind_some,spells]
    by_cases hc : f ch = t
    · by_cases hlast : p.index + 1 = w.length - 1
      · have hnil : ts = [] := hts ▸ List.drop_eq_nil_of_le (by omega)
        have hst : matchNext w D (f ch) p = { p with headerState := D, index := p.index + 1 } := by
          simp only [matchNext,hget]
          rw [if_neg (by simp [hc]; omega),if_pos hlast]
        rw [hst,done_value hdone rfl s]
        refine ⟨_,_,rfl,fun flags => ?_⟩
        cases hall : s.all (· == SP) <;> simp [hnil,hc,spells,hall,HeaderState.finish]
      · have hst : matchNext w D (f ch) p = { p with headerState := M, index := p.index + 1 } := by
          simp only [matchNext,hget]
          rw [if_neg (by simp [hc]; omega),if_neg hlast,hp]
        rw [hst]
        obtain ⟨h,i,hrun,hfin⟩ := ih (p := { p with headerState := M, index := p.index + 1 }) rfl
          (by simp only; omega)
        refine ⟨h,i,hrun,fun flags => ?_⟩
        rw [hfin flags]
        simp [hts,hc]
    · have hst : matchNext w D (f ch) p =
          { p with headerState := .hGeneral, index := p.index + 1 } := by
        simp only [matchNext,hget]
        rw [if_pos (.inr hc)]
      rw [hst,general_value rfl s]
      exact ⟨_,_,rfl,fun flags => by simp [hc,HeaderState.finish]⟩

theorem length_value {p : HttpParser} (hp : p.headerState = .hContentLength) (s : Bytes) :
    s.foldlM headerValueNext p =
      (s.foldlM pushLength p.contentLength).map fun n => { p with contentLength := n } := by
  induction s generalizing p with
  | nil => rfl
  | cons ch s ih =>
    have hnext : headerValueNext p ch =
        (pushLength p.contentLength ch).map fun n => { p with contentLength := n } := by
      simp only [headerValueNext,hp,pushLength]
      by_cases hs : ch = SP
      · simp [hs,← hp]
      · cases isNum ch <;> simp [hs,← hp]
    rw [List.foldlM_cons,List.foldlM_cons,hnext]
    cases pushLength p.contentLength ch with
    | none => rfl
    | some n => exact ih (p := { p with contentLength := n }) hp

/-- What a parser behind a value has taken from it. -/
structure Took (p q : HttpParser) (F : Framing) : Prop where
  state : q.state = p.state
  nread : q.nread = p.nread
  head : SameHead p q
  framing : (⟨q.headerState.finish q.flags,q.contentLength,q.setContentLength⟩ : Framing) = F

theorem took_general {p : HttpParser} (fl : Flags) (s : Bytes) :
    Option.Rel (Took p) (s.foldlM headerValueNext { p with flags := fl, headerState := .hGeneral })
      (some ⟨fl,p.contentLength,p.setContentLength⟩) := by
  rw [general_value rfl s]
  exact .some ⟨rfl,rfl,⟨rfl,rfl,rfl,rfl,rfl⟩,rfl⟩

/-- A value with a first byte says to the parser what `Framing.read` says. -/
theorem value_frame {p : HttpParser} (hi : p.index = 0) (c : Byte) (s : Bytes) :
    Option.Rel (Took p) ((headerValueFirst p c).bind (s.foldlM headerValueNext))
      (p.framing.read p.headerState.kind (c :: s)) := by
  have hlow : ∀ {M D : HeaderState} {f : Byte → Byte} {w : Bytes}, 1 < w.length →
      (∀ flags, M.finish flags = flags) →
      (∀ p ch, p.headerState = M → headerValueNext p ch = some (matchNext w D (f ch) p)) →
      (∀ p ch, p.headerState = D → headerValueNext p ch =
        if ch ≠ SP then some { p with headerState := .hGeneral } else some p) →
      Option.Rel (Took p) (s.foldlM headerValueNext { p with headerState := M })
        (some (if spells f (w.drop 1) s then { p.framing with flags := D.finish p.flags }
          else p.framing)) := by
    intro M D f w ht hM hnext hdone
    obtain ⟨h,i,hrun,hfin⟩ := matching_value (p := { p with headerState := M }) hM hnext hdone s rfl
      (by simpa [hi] using ht)
    rw [hrun]
    refine .some ⟨rfl,rfl,⟨rfl,rfl,rfl,rfl,rfl⟩,?_⟩
    simp only [hfin,hi]
    split <;> rfl
  unfold headerValueFirst Framing.read
  cases h : p.headerState <;> simp only [HeaderState.kind,Option.bind_some]
  case hUpgrade =>
    simpa [HttpParser.framing] using took_general { p.flags with upgrade := true } s
  case hTransferEncoding =>
    by_cases hc : lower c = 'c'.toUInt8
    · simp only [hc,if_true,chunkedValue,beq_self_eq_true,Bool.true_and]
      exact hlow (f := id) (w := ascii "chunked") (D := .hTransferEncodingChunked) (by decide)
        (fun _ => rfl) (fun p ch h => by simp [headerValueNext,h])
        (fun p ch h => by simp [headerValueNext,h])
    · simpa [hc,chunkedValue,HttpParser.framing] using took_general p.flags s
  case hContentLength =>
    cases hd : isNum c with
    | false => simp [Framing.readLength,hd]
    | true =>
      rcases Nat.eq_zero_or_pos p.setContentLength with h0 | h0
      · simp only [Bool.not_true,Bool.false_eq_true,if_false,h0,gt_iff_lt,lt_irrefl,Option.bind_some,
          Framing.readLength,hd,HttpParser.framing,and_self,if_true]
        rw [length_value rfl]
        cases s.foldlM pushLength (c.toNat - 48) with
        | none => exact .none
        | some n => exact .some ⟨rfl,rfl,⟨rfl,rfl,rfl,rfl,rfl⟩,rfl⟩
      · have hne : p.setContentLength ≠ 0 := by omega
        simp [Framing.readLength,hd,HttpParser.framing,hne,h0]
  case hConnection =>
    have hka : ascii "keep-alive" = 'k'.toUInt8 :: ascii "eep-alive" := rfl
    have hcl : ascii "close" = 'c'.toUInt8 :: ascii "lose" := rfl
    have hne : 'k'.toUInt8 ≠ 'c'.toUInt8 := by decide
    simp only [keepAliveValue,closeValue,hka,hcl,spells]
    by_cases hk : lower c = 'k'.toUInt8
    · simp only [hk,if_true,beq_self_eq_true,Bool.true_and,beq_false_of_ne hne,Bool.false_and,
        Bool.false_eq_true,if_false]
      exact hlow (f := lower) (w := ascii "keep-alive") (D := .hConnectionKeepAlive) (by decide)
        (fun _ => rfl) (fun p ch h => by simp [headerValueNext,h])
        (fun p ch h => by simp [headerValueNext,h])
    by_cases hc : lower c = 'c'.toUInt8
    · simp only [hc,if_true,beq_self_eq_true,Bool.true_and,beq_false_of_ne hne.symm,Bool.false_and,
        Bool.false_eq_true,if_false,hne.symm]
      exact hlow (f := lower) (w := ascii "close") (D := .hConnectionClose) (by decide)
        (fun _ => rfl) (fun p ch h => by simp [headerValueNext,h])
        (fun p ch h => by simp [headerValueNext,h])
    · simpa [hk,hc,HttpParser.framing] using took_general p.flags s
  all_goals exact took_general p.flags s

/-! ### A line -/

/-- The states in which a header line can begin. -/
def State.lineStart (s : State) : Prop := s = .sHeaderFieldStart ∨ s = .sHeaderValueLws

/-- The calls for some lines, and the parser after them. -/
structure AfterLines (p : HttpParser) (text : Bytes) (calls : List Callout) (t : Traced) (F : Framing) :
    Prop where
  calls : t.calls = calls
  mark : t.mark = none
  state : t.parser.state.lineStart
  nread : t.parser.nread = p.nread + text.length
  head : SameHead p t.parser
  framing : t.parser.framing = F

theorem foldl_headerFieldToken_same (s : Bytes) (p : HttpParser) :
    (s.foldl headerFieldToken p).state = p.state ∧ SameHead p (s.foldl headerFieldToken p) ∧
      (s.foldl headerFieldToken p).framing = p.framing := by
  rw [foldl_headerFieldToken_eq]
  exact ⟨rfl,⟨rfl,rfl,rfl,rfl,rfl⟩,rfl⟩

theorem trace_cons {p q : HttpParser} {ch : Byte} {acts : List Act} (h : step p ch = .next acts q)
    (mk : Marking) (s : Bytes) : trace p mk (ch :: s) =
      (trace q (Marking.push (actCalls ch acts mk).2 ch) s).map fun t =>
        { t with calls := (actCalls ch acts mk).1 ++ t.calls } := by
  simp only [trace,h]

theorem trace_quiet {p q : HttpParser} {ch : Byte} (h : step p ch = .next [] q) (mk : Marking)
    (s : Bytes) : trace p mk (ch :: s) = trace q (mk.push ch) s := by
  rw [trace_cons h]
  simp [actCalls]

theorem trace_one {p q : HttpParser} {ch : Byte} {acts : List Act} (h : step p ch = .next acts q)
    (mk : Marking) : trace p mk [ch] =
      some ⟨(actCalls ch acts mk).1,q,Marking.push (actCalls ch acts mk).2 ch⟩ := by
  rw [trace_cons h]
  simp [trace]

theorem trace_error {p q : HttpParser} {ch : Byte} (h : step p ch = .error q) (mk : Marking)
    (s : Bytes) : trace p mk (ch :: s) = none := by
  simp only [trace,h]

theorem token_line {c : Byte} (h : token c ≠ 0) : c ≠ CR ∧ c ≠ LF ∧ c ≠ SP ∧ c ≠ TAB := by
  refine ⟨?_,?_,?_,?_⟩ <;> (rintro rfl; exact h (by decide))

theorem step_nameFirst {p : HttpParser} {c : Byte} (hp : p.state.lineStart)
    (hn : p.nread < HTTP_MAX_HEADER_SIZE) (hc : token c ≠ 0) :
    step p c = .next [.mark .headerField] { p with
      nread := p.nread + 1
      index := 0
      state := .sHeaderField
      headerState := fieldFirst c } := by
  obtain ⟨h1,h2,h3,h4⟩ := token_line hc
  rcases hp with hp | hp
  · rw [step_parsing (by rw [hp]; rfl) hn]
    simp [stepState,hp,stepHeaderFieldStart,h1,h2,hc,fieldFirst]
  · rw [step_parsing (by rw [hp]; rfl) hn]
    simp [stepState,hp,stepHeaderValueLws,stepHeaderFieldStart,h1,h2,h3,h4,hc,fieldFirst]

theorem stepState_headerField {p : HttpParser} (hp : p.state = .sHeaderField) (ch : Byte) :
    stepState p ch = stepHeaderField p ch := by
  unfold stepState
  simp only [hp]

theorem stepState_headerValueStart {p : HttpParser} (hp : p.state = .sHeaderValueStart) (ch : Byte) :
    stepState p ch = stepHeaderValueStart p ch := by
  unfold stepState
  simp only [hp]

theorem stepState_headerValue {p : HttpParser} (hp : p.state = .sHeaderValue) (ch : Byte) :
    stepState p ch = stepHeaderValue p ch := by
  unfold stepState
  simp only [hp]

theorem foldl_headerFieldToken_nread (s : Bytes) (p : HttpParser) (n : ℕ) :
    s.foldl headerFieldToken { p with nread := n } =
      { s.foldl headerFieldToken p with nread := n } := by
  induction s generalizing p with
  | nil => rfl
  | cons c s ih => rw [List.foldl_cons,List.foldl_cons,headerFieldToken_nread,ih]

theorem foldlM_headerValueNext_nread (s : Bytes) (p : HttpParser) (n : ℕ) :
    s.foldlM headerValueNext { p with nread := n } =
      (s.foldlM headerValueNext p).map fun q => { q with nread := n } := by
  induction s generalizing p with
  | nil => rfl
  | cons c s ih =>
    rw [List.foldlM_cons,List.foldlM_cons,headerValueNext_nread]
    cases headerValueNext p c with
    | none => rfl
    | some q => exact ih q

theorem trace_name {s : Bytes} {p : HttpParser} (hp : p.state = .sHeaderField)
    (hs : ∀ c ∈ s, token c ≠ 0) (hn : p.nread + s.length ≤ HTTP_MAX_HEADER_SIZE) (buf : Bytes) :
    trace p (some (.headerField,buf)) s = some ⟨[],
      { s.foldl headerFieldToken p with nread := p.nread + s.length },
      some (.headerField,buf ++ s)⟩ := by
  induction s generalizing p buf with
  | nil => simp [trace]
  | cons c s ih =>
    obtain ⟨hc,hs⟩ := List.forall_mem_cons.mp hs
    rw [List.length_cons] at hn
    have hstep : step p c = .next [] { headerFieldToken p c with nread := p.nread + 1 } := by
      rw [step_parsing (by rw [hp]; rfl) (by omega),stepState_headerField (by exact hp),stepHeaderField,
        if_pos hc,headerFieldToken_nread]
    have hstate : (headerFieldToken p c).state = .sHeaderField := by rw [headerFieldToken_state,hp]
    rw [trace_quiet hstep,Marking.push,Option.map_some,ih (by exact hstate) hs (by simp only; omega),
      foldl_headerFieldToken_nread]
    simp [Nat.add_assoc,Nat.add_comm 1]

/-- The bytes of a value after its first. -/
theorem trace_value {s : Bytes} {p : HttpParser} (hp : p.state = .sHeaderValue)
    (hs : ∀ c ∈ s, c ≠ CR ∧ c ≠ LF) (hn : p.nread + s.length ≤ HTTP_MAX_HEADER_SIZE) (buf : Bytes) :
    trace p (some (.headerValue,buf)) s = (s.foldlM headerValueNext p).map fun q =>
      ⟨[],{ q with nread := p.nread + s.length },some (.headerValue,buf ++ s)⟩ := by
  induction s generalizing p buf with
  | nil => simp [trace]
  | cons c s ih =>
    obtain ⟨hc,hs⟩ := List.forall_mem_cons.mp hs
    rw [List.length_cons] at hn
    have hstate : step p c = stepHeaderValue { p with nread := p.nread + 1 } c := by
      rw [step_parsing (by rw [hp]; rfl) (by omega),stepState_headerValue (by exact hp)]
    rw [stepHeaderValue,if_neg hc.1,if_neg hc.2,headerValueNext_nread] at hstate
    rw [List.foldlM_cons]
    cases hq : headerValueNext p c with
    | none =>
      rw [hq] at hstate
      exact trace_error hstate _ _
    | some q =>
      rw [hq] at hstate
      have hqs : q.state = .sHeaderValue := by rw [headerValueNext_state hq,hp]
      rw [trace_quiet hstate,Marking.push,Option.map_some,ih (by exact hqs) hs (by simp only; omega),
        foldlM_headerValueNext_nread,Option.map_map]
      simp only [Option.bind_eq_bind,Option.bind_some,Function.comp_def,List.append_assoc,
        List.singleton_append,List.length_cons]
      simp only [Nat.add_assoc,Nat.add_comm 1]

theorem trace_blanks {s : Bytes} {p : HttpParser} (hp : p.state = .sHeaderValueStart)
    (hs : ∀ c ∈ s, c = SP ∨ c = TAB) (hn : p.nread + s.length ≤ HTTP_MAX_HEADER_SIZE) :
    trace p none s = some ⟨[],{ p with nread := p.nread + s.length },none⟩ := by
  induction s generalizing p with
  | nil => simp [trace]
  | cons c s ih =>
    obtain ⟨hc,hs⟩ := List.forall_mem_cons.mp hs
    rw [List.length_cons] at hn
    have hstep : step p c = .next [] { p with nread := p.nread + 1 } := by
      rw [step_parsing (by rw [hp]; rfl) (by omega),stepState_headerValueStart (by exact hp),
        stepHeaderValueStart,if_pos hc]
    rw [trace_quiet hstep,Marking.push,Option.map_none,ih (by exact hp) hs (by simp only; omega)]
    simp [Nat.add_assoc,Nat.add_comm 1]

/-- A name with its colon. -/
theorem trace_field {c : Byte} {s : Bytes} {p : HttpParser} (hp : p.state.lineStart)
    (hs : ∀ x ∈ c :: s, token x ≠ 0) (hn : p.nread + (s.length + 2) ≤ HTTP_MAX_HEADER_SIZE) :
    ∃ q, trace p none (c :: s ++ [':'.toUInt8]) = some ⟨[.headerField (c :: s)],q,none⟩ ∧
      q.state = .sHeaderValueStart ∧ q.nread = p.nread + (s.length + 2) ∧ SameHead p q ∧
      q.framing = p.framing ∧ q.headerState.kind = fieldKind (c :: s) := by
  obtain ⟨hc,hs⟩ := List.forall_mem_cons.mp hs
  generalize hp0 : ({ p with
    nread := p.nread + 1
    index := 0
    state := .sHeaderField
    headerState := fieldFirst c } : HttpParser) = p0
  have hfirst : trace p none [c] = some ⟨[],p0,some (.headerField,[c])⟩ := by
    rw [trace_cons (step_nameFirst hp (by omega) hc),hp0]
    rfl
  have hname := trace_name (p := p0) (by rw [← hp0]) hs (by rw [← hp0]; simp only; omega) [c]
  generalize hr : ({ s.foldl headerFieldToken p0 with nread := p0.nread + s.length } : HttpParser) = r
    at hname
  obtain ⟨hstate,hhead,hframing⟩ := foldl_headerFieldToken_same s p0
  have hrs : r.state = .sHeaderField := by rw [← hr,hstate,← hp0]
  have hrn : r.nread = p.nread + (s.length + 1) := by
    rw [← hr,← hp0]
    simp only
    omega
  have hcolon : step r ':'.toUInt8 = .next
      [callbackData .headerField { r with nread := r.nread + 1, state := .sHeaderValueStart }]
      { r with nread := r.nread + 1, state := .sHeaderValueStart } := by
    rw [step_parsing (by rw [hrs]; rfl) (by omega),stepState_headerField (by exact hrs),stepHeaderField,
      if_neg (by decide),if_pos rfl]
  have hlast : trace r (some (.headerField,c :: s)) [':'.toUInt8] =
      some ⟨[.headerField (c :: s)],{ r with nread := r.nread + 1, state := .sHeaderValueStart },none⟩ := by
    rw [trace_cons hcolon]
    rfl
  refine ⟨{ r with nread := r.nread + 1, state := .sHeaderValueStart },?_,rfl,by simp only; omega,
    ?_,?_,?_⟩
  · rw [show c :: s ++ [':'.toUInt8] = [c] ++ (s ++ [':'.toUInt8]) by simp,trace_append,hfirst]
    simp only [Option.bind_some]
    rw [trace_append,hname]
    simp only [Option.bind_some,List.singleton_append,hlast,Option.map_some,List.nil_append]
  · have hp1 : SameHead p p0 := by rw [← hp0]; exact ⟨rfl,rfl,rfl,rfl,rfl⟩
    have hpr : SameHead p r := hp1.trans
      (by rw [← hr]; exact ⟨hhead.method,hhead.httpMajor,hhead.httpMinor,hhead.upgrade,hhead.httpErrno⟩)
    exact ⟨hpr.method,hpr.httpMajor,hpr.httpMinor,hpr.upgrade,hpr.httpErrno⟩
  · have hpr : r.framing = p.framing := by
      rw [← hr]
      exact hframing.trans (by rw [← hp0]; rfl)
    exact hpr
  · rw [← hr]
    exact name_kind hs (by rw [← hp0]) (by rw [← hp0])

theorem headerValueFirst_nread {p q : HttpParser} {ch : Byte} (h : headerValueFirst p ch = some q) :
    q.nread = p.nread := by
  unfold headerValueFirst at h
  simp only at h
  repeat' split at h
  all_goals first | cases h; rfl | cases h

theorem trace_almostDone {p : HttpParser} (hp : p.state = .sHeaderAlmostDone)
    (hn : p.nread < HTTP_MAX_HEADER_SIZE) : trace p none [LF] = some ⟨[],{ p with
      nread := p.nread + 1
      state := .sHeaderValueLws
      flags := p.headerState.finish p.flags },none⟩ := by
  have hstep : step p LF = .next [] { p with
      nread := p.nread + 1
      state := .sHeaderValueLws
      flags := p.headerState.finish p.flags } := by
    rw [step_parsing (by rw [hp]; rfl) hn]
    unfold stepState
    simp only [hp]
    rfl
  exact trace_one hstep none

theorem trace_valueEnd {p : HttpParser} (hp : p.state = .sHeaderValue)
    (hn : p.nread + 2 ≤ HTTP_MAX_HEADER_SIZE) (buf : Bytes) :
    trace p (some (.headerValue,buf)) CRLF = some ⟨[.headerValue buf],{ p with
      nread := p.nread + 2
      state := .sHeaderValueLws
      flags := p.headerState.finish p.flags },none⟩ := by
  have hcr : step p CR = .next
      [callbackData .headerValue { p with nread := p.nread + 1, state := .sHeaderAlmostDone }]
      { p with nread := p.nread + 1, state := .sHeaderAlmostDone } := by
    rw [step_parsing (by rw [hp]; rfl) (by omega),stepState_headerValue (by exact hp),stepHeaderValue,
      if_pos rfl]
  have hlf := trace_almostDone (p := { p with nread := p.nread + 1, state := .sHeaderAlmostDone }) rfl
    (by simp only; omega)
  rw [trace_cons hcr]
  exact congrArg (Option.map fun t : Traced => { t with calls := .headerValue buf :: t.calls }) hlf

theorem optionRel_none {α β : Type*} {R : α → β → Prop} {b : Option β} (h : Option.Rel R none b) :
    b = none := by
  cases h
  rfl

/-- A value with its line end. -/
theorem trace_valueLine {v : Bytes} {p : HttpParser} (hp : p.state = .sHeaderValueStart)
    (hv : ∀ c ∈ v, c ≠ CR ∧ c ≠ LF) (hfirst : ∀ c ∈ v.head?, c ≠ SP ∧ c ≠ TAB)
    (hn : p.nread + (v.length + 2) ≤ HTTP_MAX_HEADER_SIZE) :
    Option.Rel (AfterLines p (v ++ CRLF) [.headerValue v]) (trace p none (v ++ CRLF))
      (p.framing.read p.headerState.kind v) := by
  cases v with
  | nil =>
    rw [List.length_nil] at hn
    generalize hq : ({ p with
      nread := p.nread + 1
      index := 0
      headerState := .hGeneral
      state := .sHeaderAlmostDone } : HttpParser) = q
    have hcr : step p CR = .next [.mark .headerValue,callbackData .headerValue q] q := by
      rw [step_parsing (by rw [hp]; rfl) (by omega),stepState_headerValueStart (by exact hp),
        stepHeaderValueStart,if_neg (by decide),← hq]
      rfl
    have hread : p.framing.read p.headerState.kind [] = some p.framing := by
      cases p.headerState <;> rfl
    have hlf := trace_almostDone (p := q) (by rw [← hq]) (by rw [← hq]; simp only; omega)
    rw [hread,show [] ++ CRLF = [CR] ++ [LF] from rfl,trace_append,trace_one hcr]
    simp only [Option.bind_some,actCalls,Marking.push,Option.map_none,hlf,Option.map_some,Option.none_or]
    rw [← hq]
    exact .some ⟨rfl,rfl,.inr rfl,rfl,⟨rfl,rfl,rfl,rfl,rfl⟩,rfl⟩
  | cons c v =>
    obtain ⟨hc,hv⟩ := List.forall_mem_cons.mp hv
    rw [List.length_cons] at hn
    have hblank : ¬(c = SP ∨ c = TAB) := not_or.mpr (hfirst c rfl)
    have hstep := step_parsing (p := p) (by rw [hp]; rfl) (by omega) c
    rw [stepState_headerValueStart (by exact hp),stepHeaderValueStart,if_neg hblank] at hstep
    simp only [if_neg hc.1,if_neg hc.2] at hstep
    generalize hp0 : ({ p with nread := p.nread + 1, state := .sHeaderValue, index := 0 } : HttpParser) =
      p0 at hstep
    have hframe := value_frame (p := p0) (by rw [← hp0]) c v
    have hread : p0.framing.read p0.headerState.kind (c :: v) =
      p.framing.read p.headerState.kind (c :: v) := by rw [← hp0]; rfl
    rw [hread] at hframe
    cases hq : headerValueFirst p0 c with
    | none =>
      rw [hq] at hstep hframe
      simp only at hstep
      rw [List.cons_append,trace_error hstep,optionRel_none hframe]
      exact .none
    | some p1 =>
      rw [hq] at hstep hframe
      simp only [Option.bind_some] at hstep hframe
      have hs1 : p1.state = .sHeaderValue := by rw [headerValueFirst_state hq,← hp0]
      have hn1 : p1.nread = p.nread + 1 := by rw [headerValueFirst_nread hq,← hp0]
      have hval := trace_value (s := v) hs1 hv (by omega) [c]
      rw [show c :: v ++ CRLF = [c] ++ (v ++ CRLF) by simp,trace_append,trace_one hstep]
      simp only [Option.bind_some,actCalls,Marking.push,Option.none_or,Option.map_some,List.nil_append]
      rw [trace_append,hval]
      cases hrun : v.foldlM headerValueNext p1 with
      | none =>
        rw [hrun] at hframe
        rw [optionRel_none hframe]
        exact .none
      | some q =>
        rw [hrun] at hframe
        cases hF : p.framing.read p.headerState.kind (c :: v) with
        | none =>
          rw [hF] at hframe
          cases hframe
        | some F =>
          rw [hF] at hframe
          cases hframe with
          | some ht =>
            have hend := trace_valueEnd (p := { q with nread := p1.nread + v.length })
              (by simp only [ht.state,← hp0]) (by simp only; omega) ([c] ++ v)
            simp only [Option.map_some,Option.bind_some,hend]
            have hhead : SameHead p q := by
              have h := ht.head
              rw [← hp0] at h
              exact ⟨h.method,h.httpMajor,h.httpMinor,h.upgrade,h.httpErrno⟩
            refine .some ⟨rfl,rfl,.inr rfl,?_,?_,ht.framing⟩
            · simp
              omega
            · exact ⟨hhead.method,hhead.httpMajor,hhead.httpMinor,hhead.upgrade,hhead.httpErrno⟩

theorem optionRel_map {α β γ : Type*} {R : α → β → Prop} {S : α → γ → Prop} {f : β → γ}
    (h : ∀ a b, R a b → S a (f b)) {a : Option α} {b : Option β} (hab : Option.Rel R a b) :
    Option.Rel S a (b.map f) := by
  cases hab with
  | some hr => exact .some (h _ _ hr)
  | none => exact .none

theorem optionRel_imp {α β : Type*} {R S : α → β → Prop} (h : ∀ a b, R a b → S a b) {a : Option α}
    {b : Option β} (hab : Option.Rel R a b) : Option.Rel S a b := by
  simpa using optionRel_map (f := id) h hab

/-- Reading goes on behind a part that corresponds to `o`, as long as both go on. -/
theorem optionRel_append {β γ : Type*} {p : HttpParser} {mk : Marking} {a b : Bytes}
    {R : Traced → β → Prop} {S : Traced → γ → Prop} {o : Option β} {f : β → Option γ}
    (h : Option.Rel R (trace p mk a) o) (hf : ∀ t x, o = some x → R t x →
      Option.Rel (fun t' y => S { t' with calls := t.calls ++ t'.calls } y) (trace t.parser t.mark b) (f x)) :
    Option.Rel S (trace p mk (a ++ b)) (o.bind f) := by
  rw [trace_append]
  generalize trace p mk a = r at h
  cases h with
  | none => exact .none
  | @some t x hr =>
    have hnext := hf t x rfl hr
    simp only [Option.bind_some]
    generalize trace t.parser t.mark b = r' at hnext
    generalize f x = o' at hnext
    cases hnext with
    | none => exact .none
    | some hs => exact .some hs

/-- A trace goes on with another. -/
theorem optionRel_trace {β : Type*} {p : HttpParser} {mk : Marking} {a b : Bytes} {t : Traced}
    {R S : Traced → β → Prop} {o : Option β} (ht : trace p mk a = some t)
    (h : Option.Rel R (trace t.parser t.mark b) o)
    (hR : ∀ t' x, R t' x → S { t' with calls := t.calls ++ t'.calls } x) :
    Option.Rel S (trace p mk (a ++ b)) o := by
  rw [trace_append,ht]
  simp only [Option.bind_some]
  generalize trace t.parser t.mark b = r at h
  cases h with
  | some hr => exact .some (hR _ _ hr)
  | none => exact .none

/-- A header line is read as it was sent: one name, one value, and what they say about the
message. -/
theorem FieldLine.trace_text (l : FieldLine) {p : HttpParser} (hp : p.state.lineStart)
    (hn : p.nread + l.text.length ≤ HTTP_MAX_HEADER_SIZE) :
    Option.Rel (AfterLines p l.text l.calls) (trace p none l.text) (l.frame p.framing) := by
  obtain ⟨name,blanks,value,hne,htok,hblank,htext,hfirst⟩ := l
  cases name with
  | nil => exact absurd rfl hne
  | cons c s =>
    simp only [FieldLine.text,List.length_append,List.length_cons,CRLF,List.length_nil] at hn
    obtain ⟨q,hq,hqs,hqn,hqh,hqf,hqk⟩ := trace_field hp htok (by omega)
    have hb := trace_blanks hqs hblank (by omega)
    have hv := trace_valueLine (p := { q with nread := q.nread + blanks.length }) hqs htext hfirst
      (by simp only; omega)
    have hread : ({ q with nread := q.nread + blanks.length } : HttpParser).framing.read
        q.headerState.kind value = p.framing.read (fieldKind (c :: s)) value := by
      rw [hqk,← hqf]
      rfl
    have htxt : FieldLine.text ⟨c :: s,blanks,value,hne,htok,hblank,htext,hfirst⟩ =
        (c :: s ++ [':'.toUInt8]) ++ (blanks ++ (value ++ CRLF)) := by
      simp [FieldLine.text]
    rw [htxt]
    refine optionRel_trace hq (optionRel_trace (S := AfterLines q (blanks ++ (value ++ CRLF))
      [.headerValue value]) hb (hread ▸ hv) ?_) ?_
    · intro t F h
      refine ⟨h.calls,h.mark,h.state,?_,?_,h.framing⟩
      · rw [h.nread]
        simp only [List.length_append]
        omega
      · exact ⟨h.head.method,h.head.httpMajor,h.head.httpMinor,h.head.upgrade,h.head.httpErrno⟩
    · intro t F h
      refine ⟨by rw [h.calls]; rfl,h.mark,h.state,?_,hqh.trans h.head,h.framing⟩
      rw [h.nread,hqn]
      simp only [List.length_append,List.length_cons,List.length_nil]
      omega

/-- What some lines say, one after the other. -/
def frames (ls : List FieldLine) (F : Framing) : Option Framing := ls.foldlM (fun F l => l.frame F) F

/-- All the header lines of a message. -/
theorem trace_lines {ls : List FieldLine} {p : HttpParser} (hp : p.state.lineStart)
    (hn : p.nread + (ls.flatMap FieldLine.text).length ≤ HTTP_MAX_HEADER_SIZE) :
    Option.Rel (AfterLines p (ls.flatMap FieldLine.text) (ls.flatMap FieldLine.calls))
      (trace p none (ls.flatMap FieldLine.text)) (frames ls p.framing) := by
  induction ls generalizing p with
  | nil => exact .some ⟨rfl,rfl,hp,rfl,.refl p,rfl⟩
  | cons l ls ih =>
    rw [List.flatMap_cons,List.length_append] at hn
    rw [List.flatMap_cons,List.flatMap_cons]
    refine optionRel_append (l.trace_text hp (by omega)) fun t F _ h => ?_
    have hrest := ih (p := t.parser) h.state (by rw [h.nread]; omega)
    rw [h.framing] at hrest
    rw [h.mark]
    refine optionRel_imp (fun t' F' h' => ?_) hrest
    refine ⟨by simp only [h.calls,h'.calls],h'.mark,h'.state,?_,h.head.trans h'.head,h'.framing⟩
    simp only [h'.nread,h.nread,List.length_append]
    omega

end Meinheld
