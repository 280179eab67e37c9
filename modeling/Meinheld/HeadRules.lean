import Meinheld.RequestText

/-! Which request heads are read to their end, and what they say about the body. -/
namespace Meinheld

/-! ### Lengths -/

/-- The number some digits stand for, behind a number already read. -/
def digitsValue (n : ℕ) (s : Bytes) : ℕ := s.foldl (fun n c => n * 10 + (c.toNat - 48)) n

/-- The digits of a length without the blanks between them. -/
def lengthDigits (v : Bytes) : Bytes := v.filter (· ≠ SP)

/-- A length is read up to multiples of 2 ^ 64. -/
theorem foldlM_pushLength_mod {s : Bytes} {n k m : ℕ} (h : s.foldlM pushLength n = some k)
    (hn : n % 2 ^ 64 = m % 2 ^ 64) :
    (∀ c ∈ lengthDigits s, isNum c) ∧ k % 2 ^ 64 = digitsValue m (lengthDigits s) % 2 ^ 64 := by
  induction s generalizing n m with
  | nil =>
    cases h
    exact ⟨by simp [lengthDigits],hn⟩
  | cons c s ih =>
    rw [List.foldlM_cons] at h
    obtain ⟨n1,h1,hrest⟩ := Option.bind_eq_some_iff.mp h
    unfold pushLength at h1
    split at h1
    next hc =>
      cases h1
      simpa [lengthDigits,hc] using ih hrest hn
    next hc =>
      split at h1
      next hnum =>
        have hpush : n1 = (n * 10 + (c.toNat - 48)) % 2 ^ 64 := by
          unfold pushDigit at h1
          simp only at h1
          split at h1
          · cases h1
          · exact (Option.some.inj h1).symm
        obtain ⟨hall,hk⟩ := ih (m := m * 10 + (c.toNat - 48)) hrest (by omega)
        refine ⟨?_,?_⟩
        · simpa [lengthDigits,hc,hnum] using hall
        · simpa [lengthDigits,hc,digitsValue] using hk
      · cases h1

theorem foldlM_pushLength_lt {s : Bytes} {n k : ℕ} (h : s.foldlM pushLength n = some k) (hn : n < 2 ^ 64) :
    k < 2 ^ 64 := by
  induction s generalizing n with
  | nil =>
    cases h
    exact hn
  | cons c s ih =>
    rw [List.foldlM_cons] at h
    obtain ⟨n1,h1,hrest⟩ := Option.bind_eq_some_iff.mp h
    refine ih hrest ?_
    unfold pushLength pushDigit at h1
    simp only at h1
    split at h1
    · cases h1
      exact hn
    · split at h1
      · split at h1
        · cases h1
        · cases h1
          omega
      · cases h1

/-! ### Lines -/

/-- The values of the lines `Content-Length` that have one. -/
def lengthValues (ls : List FieldLine) : List Bytes :=
  (ls.filter fun l => fieldKind l.name = .hContentLength ∧ l.value ≠ []).map (·.value)

/-- A flag is set by a line of a kind with a value. -/
def asks (ls : List FieldLine) (kind : HeaderState) (f : Bytes → Bool) : Prop :=
  ∃ l ∈ ls, fieldKind l.name = kind ∧ f l.value

@[simp] theorem asks_nil (kind : HeaderState) (f : Bytes → Bool) : ¬asks [] kind f := by
  simp [asks]

theorem asks_cons {l : FieldLine} {ls : List FieldLine} {kind : HeaderState} {f : Bytes → Bool} :
    asks (l :: ls) kind f ↔ (fieldKind l.name = kind ∧ f l.value) ∨ asks ls kind f := by
  simp [asks]

/-- What lines say about the length of the body. -/
def LengthSaid (ls : List FieldLine) (F G : Framing) : Prop :=
  lengthValues ls = [] ∧ G.contentLength = F.contentLength ∧ G.setContentLength = F.setContentLength ∨
    ∃ c s n, lengthValues ls = [c :: s] ∧ isNum c ∧ F.setContentLength = 0 ∧
      s.foldlM pushLength (c.toNat - 48) = some n ∧ G.contentLength = n ∧ G.setContentLength = 1

/-- What lines say about the message, whatever their order. -/
structure Said (ls : List FieldLine) (F G : Framing) : Prop where
  chunked : G.flags.chunked ↔ F.flags.chunked ∨ asks ls .hTransferEncoding chunkedValue
  keepAlive : G.flags.connectionKeepAlive ↔
    F.flags.connectionKeepAlive ∨ asks ls .hConnection keepAliveValue
  close : G.flags.connectionClose ↔ F.flags.connectionClose ∨ asks ls .hConnection closeValue
  upgrade : G.flags.upgrade ↔ F.flags.upgrade ∨ asks ls .hUpgrade (· ≠ [])
  trailing : G.flags.trailing = F.flags.trailing
  length : LengthSaid ls F G

theorem closeValue_of_keepAlive {v : Bytes} (h : keepAliveValue v) : closeValue v = false := by
  cases v with
  | nil => cases h
  | cons c v =>
    have hk : ascii "keep-alive" = 'k'.toUInt8 :: ascii "eep-alive" := rfl
    have hc : ascii "close" = 'c'.toUInt8 :: ascii "lose" := rfl
    have hne : 'k'.toUInt8 ≠ 'c'.toUInt8 := by decide
    rw [keepAliveValue,hk] at h
    rw [closeValue,hc]
    simp only [spells,Bool.and_eq_true,beq_iff_eq] at h
    simp [spells,h.1,hne]

theorem said_nil {F G : Framing} : some F = some G ↔ Said [] F G := by
  constructor
  · intro h
    cases h
    exact ⟨by simp,by simp,by simp,by simp,rfl,.inl ⟨rfl,rfl,rfl⟩⟩
  · rintro ⟨h1,h2,h3,h4,h5,h6⟩
    simp only [asks_nil,or_false,← Bool.eq_iff_iff] at h1 h2 h3 h4
    obtain ⟨-,h6,h7⟩ | ⟨c,s,n,h,-⟩ := h6
    · obtain ⟨⟨a,b,c,d,e⟩,f,g⟩ := F
      obtain ⟨⟨a',b',c',d',e'⟩,f',g'⟩ := G
      simp_all
    · cases h

/-- What one line sets. -/
structure Sets (l : FieldLine) (F F1 : Framing) : Prop where
  chunked : F1.flags.chunked ↔
    F.flags.chunked ∨ (fieldKind l.name = .hTransferEncoding ∧ chunkedValue l.value)
  keepAlive : F1.flags.connectionKeepAlive ↔
    F.flags.connectionKeepAlive ∨ (fieldKind l.name = .hConnection ∧ keepAliveValue l.value)
  close : F1.flags.connectionClose ↔
    F.flags.connectionClose ∨ (fieldKind l.name = .hConnection ∧ closeValue l.value)
  upgrade : F1.flags.upgrade ↔ F.flags.upgrade ∨ (fieldKind l.name = .hUpgrade ∧ l.value ≠ [])
  trailing : F1.flags.trailing = F.flags.trailing

theorem Sets.said_iff {l : FieldLine} {ls : List FieldLine} {F F1 G : Framing} (h : Sets l F F1)
    (hlen : LengthSaid ls F1 G ↔ LengthSaid (l :: ls) F G) : Said ls F1 G ↔ Said (l :: ls) F G := by
  constructor
  · rintro ⟨h1,h2,h3,h4,h5,h6⟩
    refine ⟨?_,?_,?_,?_,h5.trans h.trailing,hlen.mp h6⟩
    · rw [h1,h.chunked,asks_cons,or_assoc]
    · rw [h2,h.keepAlive,asks_cons,or_assoc]
    · rw [h3,h.close,asks_cons,or_assoc]
    · rw [h4,h.upgrade,asks_cons,or_assoc]
      simp
  · rintro ⟨h1,h2,h3,h4,h5,h6⟩
    refine ⟨?_,?_,?_,?_,h5.trans h.trailing.symm,hlen.mpr h6⟩
    · rw [h1,h.chunked,asks_cons,or_assoc]
    · rw [h2,h.keepAlive,asks_cons,or_assoc]
    · rw [h3,h.close,asks_cons,or_assoc]
    · rw [h4,h.upgrade,asks_cons,or_assoc]
      simp

theorem FieldLine.frame_other {l : FieldLine} (h : fieldKind l.name ≠ .hContentLength) (F : Framing) :
    ∃ F1, l.frame F = some F1 ∧ Sets l F F1 ∧ F1.contentLength = F.contentLength ∧
      F1.setContentLength = F.setContentLength := by
  unfold FieldLine.frame Framing.read
  cases hk : fieldKind l.name
  case hContentLength => exact absurd hk h
  case hTransferEncoding =>
    refine ⟨_,rfl,⟨?_,?_,?_,?_,?_⟩,?_,?_⟩ <;> split <;> simp_all
  case hConnection =>
    simp only
    by_cases h1 : keepAliveValue l.value
    · have h2 := closeValue_of_keepAlive h1
      rw [if_pos h1]
      refine ⟨_,rfl,⟨?_,?_,?_,?_,?_⟩,rfl,rfl⟩ <;> simp_all
    · rw [if_neg h1]
      refine ⟨_,rfl,⟨?_,?_,?_,?_,?_⟩,?_,?_⟩ <;> split <;> simp_all
  case hUpgrade =>
    refine ⟨_,rfl,⟨?_,?_,?_,?_,?_⟩,?_,?_⟩ <;> split <;> simp_all
  all_goals exact ⟨F,rfl,⟨by simp [hk],by simp [hk],by simp [hk],by simp [hk],rfl⟩,rfl,rfl⟩

theorem lengthValues_cons (l : FieldLine) (ls : List FieldLine) : lengthValues (l :: ls) =
    if fieldKind l.name = .hContentLength ∧ l.value ≠ [] then l.value :: lengthValues ls
    else lengthValues ls := by
  unfold lengthValues
  rw [List.filter_cons]
  split <;> simp_all

/-- What the parser keeps of header lines is what they say, in any order. -/
theorem frames_eq_some {ls : List FieldLine} {F G : Framing} : frames ls F = some G ↔ Said ls F G := by
  induction ls generalizing F with
  | nil => exact said_nil
  | cons l ls ih =>
    rw [frames,List.foldlM_cons,Option.bind_eq_bind,Option.bind_eq_some_iff]
    by_cases hk : fieldKind l.name = .hContentLength
    · have hother : ∀ F1 : Framing, F1.flags = F.flags → Sets l F F1 := by
        intro F1 h
        exact ⟨by simp [h,hk],by simp [h,hk],by simp [h,hk],by simp [h,hk],by rw [h]⟩
      cases hv : l.value with
      | nil =>
        have hframe : l.frame F = some F := by rw [FieldLine.frame,hk,hv]; rfl
        have hvalues : lengthValues (l :: ls) = lengthValues ls := by
          rw [lengthValues_cons,if_neg fun h => h.2 hv]
        have hsaid : LengthSaid ls F G ↔ LengthSaid (l :: ls) F G := by
          rw [LengthSaid,LengthSaid,hvalues]
        rw [← (hother F rfl).said_iff hsaid,hframe]
        simp [← ih,frames]
      | cons c s =>
        have hframe : l.frame F = if isNum c ∧ F.setContentLength = 0 then
            (s.foldlM pushLength (c.toNat - 48)).map fun n =>
              { F with contentLength := n, setContentLength := 1 }
            else none := by
          rw [FieldLine.frame,hk,hv]
          rfl
        have hvalues : lengthValues (l :: ls) = (c :: s) :: lengthValues ls := by
          rw [lengthValues_cons,if_pos ⟨hk,by simp [hv]⟩,hv]
        -- no second length is read behind this one
        have hsaid : ∀ n, isNum c → F.setContentLength = 0 →
            s.foldlM pushLength (c.toNat - 48) = some n →
            (LengthSaid ls { F with contentLength := n, setContentLength := 1 } G ↔
              LengthSaid (l :: ls) F G) := by
          intro n hc h0 hn
          rw [LengthSaid,LengthSaid,hvalues]
          constructor
          · rintro (⟨hnil,hcl,hset⟩ | ⟨_,_,_,_,_,h,_⟩)
            · exact .inr ⟨c,s,n,by rw [hnil],hc,h0,hn,hcl,hset⟩
            · cases h
          · rintro (⟨h,-⟩ | ⟨c',s',n',h,-,-,hn',hcl,hset⟩)
            · cases h
            · obtain ⟨hcons,hnil⟩ := List.cons.inj h
              obtain ⟨rfl,rfl⟩ := List.cons.inj hcons
              obtain rfl := Option.some.inj (hn.symm.trans hn')
              exact .inl ⟨hnil,hcl,hset⟩
        rw [hframe]
        constructor
        · rintro ⟨F1,h1,hrest⟩
          obtain ⟨⟨hc,h0⟩,h1⟩ := Option.ite_none_right_eq_some.mp h1
          obtain ⟨n,hn,rfl⟩ := Option.map_eq_some_iff.mp h1
          exact ((hother { F with contentLength := n, setContentLength := 1 } rfl).said_iff
            (hsaid n hc h0 hn)).mp (ih.mp hrest)
        · intro h
          obtain ⟨hnil,-⟩ | ⟨c',s',n,hone,hc,h0,hn,-⟩ := h.length
          · rw [hvalues] at hnil
            cases hnil
          · rw [hvalues] at hone
            obtain ⟨rfl,rfl⟩ := List.cons.inj (List.cons.inj hone).1
            refine ⟨_,by rw [if_pos ⟨hc,h0⟩,hn,Option.map_some],ih.mpr ?_⟩
            exact ((hother { F with contentLength := n, setContentLength := 1 } rfl).said_iff
              (hsaid n hc h0 hn)).mpr h
    · obtain ⟨F1,hF1,hsets,hlen,hset⟩ := l.frame_other hk F
      have hvalues : lengthValues (l :: ls) = lengthValues ls := by
        rw [lengthValues_cons,if_neg fun h => hk h.1]
      have hsaid : LengthSaid ls F1 G ↔ LengthSaid (l :: ls) F G := by
        rw [LengthSaid,LengthSaid,hvalues,hlen,hset]
      rw [← hsets.said_iff hsaid,hF1]
      simp [← ih,frames]

/-! ### Heads -/

theorem httpParserExecute_start {σ : Type} (cb : Settings σ) {p : HttpParser} (hp : p.state = .sStartReq)
    (he : p.httpErrno = .OK) (d : σ) {s : Bytes} (hs : s ≠ []) :
    httpParserExecute cb p d s = executeLoop cb p ⟨d,none⟩ 0 s := by
  unfold httpParserExecute
  rw [if_neg (by simpa using he),if_neg hs,hp]
  rfl

/-- A run of the parser that reads all it is given. -/
def ReadsAll (r : HttpParser × List Callout × ℤ) : Prop :=
  r.1.httpErrno = .OK ∧ r.2.2 ≠ -1 ∧ r.1.upgrade = false

/-- What `http_parser_execute` makes of bytes whose trace is known. -/
theorem executed_of_trace {β : Type*} {R : Traced → β → Prop} {s : Bytes} {p : HttpParser} {o : Option β}
    (h : Option.Rel R (trace p none s) o) (hR : ∀ t x, R t x → t.mark = none ∧ t.parser.upgrade = false)
    (hp : p.state = .sStartReq) (he : p.httpErrno = .OK) (hs : s ≠ []) {r : HttpParser × List Callout × ℤ}
    (hr : httpParserExecute recorder p [] s = r) : (ReadsAll r ↔ o.isSome) ∧
      ∀ x, o = some x → ∃ t, R t x ∧ r = (t.parser,t.calls,(s.length : ℤ)) := by
  rw [httpParserExecute_start recorder hp he [] hs] at hr
  cases ht : trace p none s with
  | none =>
    rw [ht] at h
    cases h
    have hbad := executeLoop_no_trace ht [] 0 []
    rw [List.append_nil,hr] at hbad
    refine ⟨iff_of_false ?_ (by simp),fun x hx => by cases hx⟩
    rintro ⟨h1,h2,h3⟩
    obtain hb | hb | hb := hbad
    · exact hb h1
    · exact h2 hb
    · rw [h3] at hb
      cases hb
  | some t =>
    rw [ht] at h
    cases h with
    | @some _ x hx =>
      obtain ⟨hmark,hup⟩ := hR t x hx
      have hrun := executeLoop_recorder ht hmark [] 0
      rw [hr,Nat.zero_add] at hrun
      subst hrun
      refine ⟨iff_of_true ⟨(trace_errno ht).trans he,by simp only; omega,hup⟩ rfl,fun y hy => ?_⟩
      obtain rfl := Option.some.inj hy
      exact ⟨t,hx,rfl⟩

theorem passed_eq_some {h : RequestHead} {n : ℕ} {F : Framing} :
    h.passed n = some F ↔ Said h.lines { setContentLength := n } F ∧ h.Passes F := by
  rw [RequestHead.passed,RequestHead.framing,Option.bind_eq_some_iff]
  constructor
  · rintro ⟨F1,h1,h2⟩
    obtain ⟨hpass,rfl⟩ : h.Passes F1 ∧ F1 = F := by simpa using h2
    exact ⟨frames_eq_some.mp h1,hpass⟩
  · rintro ⟨h1,h2⟩
    exact ⟨F,frames_eq_some.mpr h1,if_pos h2⟩

/-- A head is read to its end exactly when what its lines say passes, and then it is read as it was
sent. -/
theorem head_executed (h : RequestHead) {p : HttpParser} (hp : p.state = .sStartReq)
    (he : p.httpErrno = .OK) (hn : p.nread + h.text.length ≤ HTTP_MAX_HEADER_SIZE)
    {r : HttpParser × List Callout × ℤ} (hr : httpParserExecute recorder p [] h.text = r) :
    (ReadsAll r ↔ ∃ F, Said h.lines { setContentLength := p.setContentLength } F ∧ h.Passes F) ∧
    ∀ F, Said h.lines { setContentLength := p.setContentLength } F → h.Passes F →
      r.1.state = h.bodyState F ∧
      r.2 = (h.fieldCalls ++
        .headersComplete ⟨h.method,h.major,h.minor,F.flags,F.contentLength⟩ :: F.endCalls,
        (h.text.length : ℤ)) := by
  obtain ⟨c,s,hc,-⟩ := h.text_cons
  obtain ⟨hall,hrun⟩ := executed_of_trace (h.trace_text hp hn) (fun t F ht => ⟨ht.mark,ht.stands.upgrade⟩)
    hp he (by simp [hc]) hr
  refine ⟨hall.trans ?_,fun F h1 h2 => ?_⟩
  · rw [Option.isSome_iff_exists]
    exact exists_congr fun F => passed_eq_some
  · obtain ⟨t,ht,rfl⟩ := hrun F (passed_eq_some.mpr ⟨h1,h2⟩)
    exact ⟨ht.state,by rw [ht.calls]⟩

def plainText : Bytes := ascii "GET / HTTP/1.1\r\nConnection: close\r\ncontent-length:1 2\r\n\r\n"

/-- A length with a blank in it, on a connection that is then closed. -/
theorem head_executed_plain : ∃ h : RequestHead, h.text = plainText ∧
    (httpParserExecute recorder {} [] plainText).1.state = .sBodyIdentity := by
  let h : RequestHead := {
    method := .GET
    word := ascii "GET"
    target := ascii "/"
    majorText := ascii "1"
    minorText := ascii "1"
    major := 1
    minor := 1
    lines := [
      ⟨ascii "Connection",ascii " ",ascii "close",by decide,by decide +kernel,by decide +kernel,
        by decide +kernel,by decide +kernel⟩,
      ⟨ascii "content-length",[],ascii "1 2",by decide,by decide +kernel,by decide +kernel,
        by decide +kernel,by decide +kernel⟩]
    word_spelled := by decide +kernel
    target_end := by decide +kernel
    major_eq := by decide +kernel
    major_first := by decide +kernel
    minor_eq := by decide +kernel }
  have htext : h.text = plainText := by decide +kernel
  have hF : h.passed 0 = some ⟨{ connectionClose := true },12,1⟩ := by decide +kernel
  obtain ⟨h1,h2⟩ := passed_eq_some.mp hF
  exact ⟨h,htext,((head_executed h (p := {}) rfl rfl (by decide +kernel) (by rw [htext])).2 _ h1 h2).1⟩

/-- The length that is kept is the number in the one line that says it, modulo 2 ^ 64. -/
theorem length_executed (h : RequestHead) {p : HttpParser} (hp : p.state = .sStartReq)
    (he : p.httpErrno = .OK) (hn : p.nread + h.text.length ≤ HTTP_MAX_HEADER_SIZE)
    {r : HttpParser × List Callout × ℤ} (hr : httpParserExecute recorder p [] h.text = r)
    (hall : ReadsAll r) {v : Bytes} (hv : v ∈ lengthValues h.lines) :
    lengthValues h.lines = [v] ∧ p.setContentLength = 0 ∧ (∀ c ∈ lengthDigits v, isNum c) ∧
      r.1.contentLength = digitsValue 0 (lengthDigits v) % 2 ^ 64 := by
  obtain ⟨c,s,hc,-⟩ := h.text_cons
  obtain ⟨hiff,hrun⟩ := executed_of_trace (h.trace_text hp hn)
    (fun t F ht => ⟨ht.mark,ht.stands.upgrade⟩) hp he (by simp [hc]) hr
  obtain ⟨F,hF⟩ := Option.isSome_iff_exists.mp (hiff.mp hall)
  obtain ⟨t,ht,rfl⟩ := hrun F hF
  have hlength : t.parser.contentLength = F.contentLength := congrArg Framing.contentLength ht.stands.framing
  obtain ⟨hnone,-⟩ | ⟨d,ds,k,hone,hd,hset,hk,hcl,-⟩ := (passed_eq_some.mp hF).1.length
  · rw [hnone] at hv
    cases hv
  · rw [hone,List.mem_singleton] at hv
    subst hv
    have hsp : d ≠ SP := by
      rintro rfl
      exact absurd hd (by decide)
    have hdigits : lengthDigits (d :: ds) = d :: lengthDigits ds := by simp [lengthDigits,hsp]
    have hd10 : d.toNat - 48 < 2 ^ 64 := lt_of_le_of_lt (Nat.sub_le _ _) (lt_trans d.toNat_lt (by decide))
    obtain ⟨hnums,hmod⟩ := foldlM_pushLength_mod (m := d.toNat - 48) hk rfl
    refine ⟨hone,hset,?_,?_⟩
    · rw [hdigits]
      exact List.forall_mem_cons.mpr ⟨hd,hnums⟩
    · rw [hlength,hcl,← Nat.mod_eq_of_lt (foldlM_pushLength_lt hk hd10),hmod,hdigits]
      simp [digitsValue]

def wrapText : Bytes :=
  ascii "POST / HTTP/1.1\r\nContent-Length: 34587645138205409280\r\n\r\n"

/-- A length above 2 ^ 64 that is not refused. -/
theorem length_executed_wrap : ∃ h : RequestHead, h.text = wrapText ∧
    (httpParserExecute recorder {} [] wrapText).1.contentLength = 16140901064495857664 := by
  let h : RequestHead := {
    method := .POST
    word := ascii "POST"
    target := ascii "/"
    majorText := ascii "1"
    minorText := ascii "1"
    major := 1
    minor := 1
    lines := [⟨ascii "Content-Length",ascii " ",ascii "34587645138205409280",by decide,
      by decide +kernel,by decide +kernel,by decide +kernel,by decide +kernel⟩]
    word_spelled := by decide +kernel
    target_end := by decide +kernel
    major_eq := by decide +kernel
    major_first := by decide +kernel
    minor_eq := by decide +kernel }
  have htext : h.text = wrapText := by decide +kernel
  have hv : ascii "34587645138205409280" ∈ lengthValues h.lines := by decide +kernel
  obtain ⟨-,-,-,hlen⟩ := length_executed h (p := {}) rfl rfl (by decide +kernel) (by rw [htext])
    (by unfold ReadsAll; decide +kernel) hv
  exact ⟨h,htext,hlen.trans (by decide +kernel)⟩

/-! ### Connections -/

/-- The requests of a connection are read one after the other, each as it was sent, as long as each
passes and keeps the connection. -/
theorem messages_executed {ms : List HttpMessage} (hne : ms ≠ []) {p : HttpParser} (hp : p.state = .sStartReq)
    (he : p.httpErrno = .OK) (hu : p.upgrade = false) (hn : Room p.nread ms)
    {r : HttpParser × List Callout × ℤ}
    (hr : httpParserExecute recorder p [] (ms.flatMap HttpMessage.text) = r) :
    (ReadsAll r ↔ (deliver true p.setContentLength ms).isSome) ∧
    ∀ d, deliver true p.setContentLength ms = some d →
      r.1.state = (if d.keepAlive then .sStartReq else .sDead) ∧
      r.2 = (d.calls,((ms.flatMap HttpMessage.text).length : ℤ)) := by
  have htext : ms.flatMap HttpMessage.text ≠ [] := by
    cases ms with
    | nil => exact absurd rfl hne
    | cons m ms =>
      obtain ⟨c,s,hc,-⟩ := m.head.text_cons
      simp [HttpMessage.text,hc]
  obtain ⟨hall,hrun⟩ := executed_of_trace (@trace_messages ms p true hp hu hn)
    (fun t d ht => ⟨ht.mark,ht.upgrade⟩) hp he htext hr
  refine ⟨hall,fun d hd => ?_⟩
  obtain ⟨t,ht,rfl⟩ := hrun d hd
  exact ⟨ht.state,by rw [ht.calls]⟩

/-- A request that says nothing about a body has none. -/
theorem fits_none {h : RequestHead} (hlen : lengthValues h.lines = [])
    (hch : ¬asks h.lines .hTransferEncoding chunkedValue) (n : ℕ) (F : Framing)
    (hF : h.passed n = some F) : MessageBody.none.Fits F := by
  obtain ⟨hsaid,-⟩ := passed_eq_some.mp hF
  refine ⟨fun h => ?_,.inr ?_⟩
  · obtain h | h := hsaid.chunked.mp h
    · cases h
    · exact hch h
  · obtain ⟨-,h,-⟩ | ⟨c,s,k,h,-⟩ := hsaid.length
    · exact h
    · rw [hlen] at h
      cases h

/-- A request that says it is chunked is. -/
theorem fits_chunked {h : RequestHead} (hch : asks h.lines .hTransferEncoding chunkedValue)
    (cs : List Chunk) (last : SizeLine 0) (trailer : List FieldLine) (n : ℕ) (F : Framing)
    (hF : h.passed n = some F) : (MessageBody.chunked cs last trailer).Fits F :=
  (passed_eq_some.mp hF).1.chunked.mpr (.inr hch)

def chunkedText : Bytes :=
  ascii "POST /a HTTP/1.1\r\nTransfer-Encoding: Chunked\r\n\r\n2;x\r\nhi\r\n0\r\nA: b\r\n\r\n" ++
    ascii "GEX /c HTTP/1.0\r\n\r\n"

/-- Two requests, the first one with a chunk and a trailer. -/
theorem messages_executed_chunked : ∃ ms : List HttpMessage, ms.flatMap HttpMessage.text = chunkedText ∧
    (httpParserExecute recorder {} [] chunkedText).2.1 =
      [.messageBegin,.url (ascii "/a"),.headerField (ascii "Transfer-Encoding"),
        .headerValue (ascii "Chunked"),.headersComplete ⟨.POST,1,1,{ chunked := true },ULLONG_MAX⟩,
        .body { chunked := true } (ascii "hi"),.headerField (ascii "A"),.headerValue (ascii "b"),
        .messageComplete false,
        .messageBegin,.url (ascii "/c"),.headersComplete ⟨.GET,1,0,{},ULLONG_MAX⟩,
        .messageComplete false] := by
  let coding : FieldLine := ⟨ascii "Transfer-Encoding",ascii " ",ascii "Chunked",by decide,
    by decide +kernel,by decide +kernel,by decide +kernel,by decide +kernel⟩
  let trailer : FieldLine := ⟨ascii "A",ascii " ",ascii "b",by decide,
    by decide +kernel,by decide +kernel,by decide +kernel,by decide +kernel⟩
  let h1 : RequestHead := {
    method := .POST
    word := ascii "POST"
    target := ascii "/a"
    majorText := ascii "1"
    minorText := ascii "1"
    major := 1
    minor := 1
    lines := [coding]
    word_spelled := by decide +kernel
    target_end := by decide +kernel
    major_eq := by decide +kernel
    major_first := by decide +kernel
    minor_eq := by decide +kernel }
  let h2 : RequestHead := {
    method := .GET
    word := ascii "GEX"
    target := ascii "/c"
    majorText := ascii "1"
    minorText := ascii "0"
    major := 1
    minor := 0
    lines := []
    word_spelled := by decide +kernel
    target_end := by decide +kernel
    major_eq := by decide +kernel
    major_first := by decide +kernel
    minor_eq := by decide +kernel }
  let chunk : Chunk := ⟨ascii "hi",⟨ascii "2",ascii ";x",by decide +kernel,by decide +kernel,
    by decide +kernel,by decide +kernel⟩,by decide⟩
  let last : SizeLine 0 := ⟨ascii "0",[],by decide +kernel,by decide +kernel,by decide +kernel,
    by decide +kernel⟩
  let m1 : HttpMessage := ⟨h1,.chunked [chunk] last [trailer],
    fits_chunked ⟨coding,by simp [h1],by decide +kernel⟩ _ _ _,by decide +kernel⟩
  let m2 : HttpMessage := ⟨h2,.none,fits_none (by decide +kernel) (by simp [h2]),by decide +kernel⟩
  have htext : [m1,m2].flatMap HttpMessage.text = chunkedText := by decide +kernel
  have hroom : Room 0 [m1,m2] := ⟨by decide +kernel,by decide +kernel,trivial⟩
  obtain ⟨-,hrun⟩ := @messages_executed [m1,m2] (by simp) {} rfl rfl rfl hroom _
    (congrArg (httpParserExecute recorder {} []) htext)
  have hd : ((deliver true 0 [m1,m2]).map (·.calls)) = some
      [.messageBegin,.url (ascii "/a"),.headerField (ascii "Transfer-Encoding"),
        .headerValue (ascii "Chunked"),.headersComplete ⟨.POST,1,1,{ chunked := true },ULLONG_MAX⟩,
        .body { chunked := true } (ascii "hi"),.headerField (ascii "A"),.headerValue (ascii "b"),
        .messageComplete false,
        .messageBegin,.url (ascii "/c"),.headersComplete ⟨.GET,1,0,{},ULLONG_MAX⟩,
        .messageComplete false] := by
    decide +kernel
  obtain ⟨d,hd,hcalls⟩ := Option.map_eq_some_iff.mp hd
  exact ⟨[m1,m2],htext,by rw [(hrun d hd).2,← hcalls]⟩

end Meinheld
