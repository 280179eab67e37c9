import Meinheld.ChunkedCoding
import Meinheld.HttpRequestParser
import Meinheld.Marks

/-! The bytes of a message that belong to its body, and what a byte asks for in and around them. -/
namespace Meinheld

/-! ### Where a byte is -/

/-- The states between the head and the trailer. -/
def State.coded : State → Bool
  | .sChunkSizeStart | .sChunkSize | .sChunkParameters | .sChunkSizeAlmostDone | .sChunkData
  | .sChunkDataAlmostDone | .sChunkDataDone | .sBodyIdentity => true
  | _ => false

/-- The states whose byte is one of the body. -/
def State.data : State → Bool
  | .sBodyIdentity | .sChunkData => true
  | _ => false

/-- The states in which a byte can leave the parser. -/
def State.rests : State → Bool
  | .sHeadersDone | .sMessageDone => false
  | _ => true

/-- Marks and data callbacks of the request line and of header lines. -/
def Act.isField : Act → Bool
  | .mark k | .data k _ _ _ => k ≠ .body
  | .notify _ _ _ => false

/-- A length is there only when a header line has set it. -/
structure HttpParser.Sized (p : HttpParser) : Prop where
  length : p.contentLength ≠ ULLONG_MAX → p.setContentLength = 1
  digits : p.state = .sHeaderValue → p.headerState = .hContentLength → p.setContentLength = 1

/-- What one byte asks for. -/
inductive BodyTurn (p : HttpParser) : List Act → HttpParser → Prop
  | begins {q} : p.state = .sStartReq → q.state = .sReqMethod → q.flags.trailing = false →
      q.Sized → BodyTurn p [callbackNotify .messageBegin q] q
  | field {acts q} : p.state.coded = false → q.state.coded = false → q.state.rests → (∀ a ∈ acts, a.isField) →
      q.flags.trailing = p.flags.trailing → q.upgrade = p.upgrade →
      (q.state = .sStartReq ↔ p.state = .sStartReq) → (p.Sized → q.Sized) → BodyTurn p acts q
  | headDone {r q} : p.state.coded = false → p.flags.trailing = false → p.state ≠ .sStartReq →
      q.state.coded → q.upgrade = false →
      (p.Sized → if q.state = .sBodyIdentity then
        headersContentLength r = q.contentLength ∧ 0 < q.contentLength
      else q.flags.chunked ∧ headersContentLength r = 0) →
      BodyTurn p [.notify .headersComplete 0 r] q
  | byte {q} : p.state.data → q.state.coded → q.flags = p.flags → q.upgrade = p.upgrade →
      (q.state = .sBodyIdentity ↔ p.state = .sBodyIdentity) →
      (0 < p.contentLength → p.state = .sBodyIdentity →
        q.contentLength + 1 = p.contentLength ∧ 0 < q.contentLength) → BodyTurn p [.mark .body] q
  | coding {acts q} : p.state.coded → p.state.data = false →
      (acts = [] ∧ p.state ≠ .sChunkDataAlmostDone ∨
        p.state = .sChunkDataAlmostDone ∧ acts = [callbackData .body q]) →
      q.flags.chunked = p.flags.chunked → q.upgrade = p.upgrade →
      (q.state.coded ∧ q.state ≠ .sBodyIdentity ∨ q.state = .sHeaderFieldStart ∧ q.flags.trailing) →
      BodyTurn p acts q
  | noBody {r q} : p.state.coded = false → p.flags.trailing = false → p.state ≠ .sStartReq →
      q.httpErrno = p.httpErrno → BodyTurn p [.notify .headersComplete 0 r,callbackNotify .messageComplete q] q
  | lastByte {r q} : p.state = .sBodyIdentity → r.flags = p.flags → q.upgrade = p.upgrade →
      p.contentLength ≤ 1 →
      BodyTurn p [.mark .body,.data .body true 0 r,callbackNotify .messageComplete q] q
  | trailerDone {q} : p.state.coded = false → p.flags.trailing → p.state ≠ .sStartReq →
      q.upgrade = p.upgrade → q.httpErrno = p.httpErrno →
      BodyTurn p [callbackNotify .messageComplete q] q

def Step.Turns (p : HttpParser) : Step → Prop
  | .next acts q | .stop acts q => BodyTurn p acts q
  | _ => True

theorem Step.Turns.ite {p : HttpParser} {c : Prop} [Decidable c] {a b : Step} (ha : a.Turns p)
    (hb : b.Turns p) : (if c then a else b).Turns p := by
  split <;> assumption

/-- What a byte of the request line or of a header line leaves as it is. -/
structure Calm (p q : HttpParser) : Prop where
  coded : q.state.coded = false
  rests : q.state.rests
  trailing : q.flags.trailing = p.flags.trailing
  upgrade : q.upgrade = p.upgrade
  start : q.state ≠ .sStartReq
  sized : p.Sized → q.Sized

theorem turns_next {p q : HttpParser} (hp : p.state.coded = false) (hs : p.state ≠ .sStartReq)
    {acts : List Act} (h : Calm p q) (ha : ∀ a ∈ acts, a.isField) : (Step.next acts q).Turns p :=
  .field hp h.coded h.rests ha h.trailing h.upgrade (iff_of_false h.start hs) h.sized

theorem HttpParser.Sized.of_eq {p q : HttpParser} (h : p.Sized)
    (hc : q.contentLength = p.contentLength) (hs : q.setContentLength = p.setContentLength)
    (hq : q.state ≠ .sHeaderValue) : q.Sized where
  length := by
    rw [hc,hs]
    exact h.length
  digits hv := absurd hv hq

theorem stepStartReq_turns {p p0 : HttpParser} (hp : p.state = .sStartReq) (hp0 : p0.state = .sStartReq)
    (hf : p.flags = p0.flags) (hu : p.upgrade = p0.upgrade) (hz : p0.Sized → p.Sized) (ch : Byte) :
    (stepStartReq p ch).Turns p0 := by
  unfold stepStartReq setErrno
  refine .ite ?_ ?_
  · exact .field (by rw [hp0]; rfl) (by rw [hp]; rfl) (by rw [hp]; rfl) (by simp) (by rw [hf]) hu
      (by rw [hp,hp0]) hz
  · iterate 13 refine .ite (.begins hp0 rfl rfl ⟨by simp,by simp⟩) ?_
    trivial

theorem stepHeadersDone_turns {p p0 : HttpParser} (hp0 : p0.state.coded = false)
    (hs0 : p0.state ≠ .sStartReq) (ht : p0.flags.trailing = false)
    (he : p.httpErrno = p0.httpErrno) {r : HttpParser} (hr : r.contentLength = p.contentLength)
    (hz : p0.Sized → p.flags.chunked → p.contentLength = ULLONG_MAX) (ch : Byte) :
    ((stepHeadersDone p ch).after [.notify .headersComplete 0 r]).Turns p0 := by
  unfold stepHeadersDone setErrno messageDone
  simp only
  repeat' split
  · trivial
  next => exact .noBody hp0 ht hs0 he
  next hu hc =>
    refine .headDone hp0 ht hs0 rfl (by simpa using hu) fun hsized => ?_
    simp only [reduceCtorEq,if_false]
    exact ⟨hc,by simp [headersContentLength,hr,hz hsized hc]⟩
  next => exact .noBody hp0 ht hs0 he
  next hu _ h0 hm =>
    refine .headDone hp0 ht hs0 rfl (by simpa using hu) fun _ => ?_
    simp only [if_true,headersContentLength,hr,if_pos hm,true_and]
    exact Nat.pos_of_ne_zero h0
  next => exact .noBody hp0 ht hs0 he

theorem stepHeadersAlmostDone_turns {p p0 : HttpParser} (hp0 : p0.state.coded = false)
    (hs0 : p0.state ≠ .sStartReq) (hf : p.flags = p0.flags) (hu : p.upgrade = p0.upgrade)
    (he : p.httpErrno = p0.httpErrno) (hz : p0.Sized → p.Sized) (ch : Byte) :
    (stepHeadersAlmostDone p ch).Turns p0 := by
  unfold stepHeadersAlmostDone setErrno messageDone
  simp only
  repeat' split
  · trivial
  next ht => exact .trailerDone hp0 (by rw [← hf]; exact ht) hs0 hu he
  · trivial
  next ht hbail =>
    refine stepHeadersDone_turns hp0 hs0 (by rw [← hf]; simpa using ht) (by exact he) rfl ?_ ch
    intro hsized hchunked
    by_contra hne
    exact hbail ⟨(hz hsized).length hne,hchunked⟩

theorem stepHeaderFieldStart_turns {p p0 : HttpParser} (hp0 : p0.state.coded = false)
    (hs0 : p0.state ≠ .sStartReq) (hf : p.flags = p0.flags) (hu : p.upgrade = p0.upgrade)
    (he : p.httpErrno = p0.httpErrno) (hz : p0.Sized → p.Sized) (ch : Byte) :
    (stepHeaderFieldStart p ch).Turns p0 := by
  unfold stepHeaderFieldStart setErrno
  refine .ite ?_ (.ite ?_ ?_)
  · refine turns_next hp0 hs0 ⟨rfl,rfl,by rw [hf],hu,by simp,fun h => ?_⟩ (by simp)
    exact (hz h).of_eq rfl rfl (by simp)
  · refine stepHeadersAlmostDone_turns hp0 hs0 (by exact hf) (by exact hu) (by exact he) (fun h => ?_) ch
    exact (hz h).of_eq rfl rfl (by simp)
  · simp only
    refine .ite trivial (turns_next hp0 hs0 ⟨rfl,rfl,by rw [hf],hu,by simp,fun h => ?_⟩ ?_)
    · exact (hz h).of_eq rfl rfl (by simp)
    · simp [Act.isField]

theorem urlByte_turns {p p0 : HttpParser} (hp0 : p0.state.coded = false) (hs0 : p0.state ≠ .sStartReq)
    (hf : p.flags = p0.flags) (hu : p.upgrade = p0.upgrade) (hz : p0.Sized → p.Sized) {as : List Act}
    (has : ∀ a ∈ as, a.isField) (ch : Byte) : (urlByte as p ch).Turns p0 := by
  unfold urlByte setErrno
  simp only
  split
  · trivial
  next hd =>
    have hm := (parseUrlChar_mark p.state ch).resolve_left hd
    have hne : ∀ {s : State}, s.mark ≠ some .url → parseUrlChar p.state ch ≠ s :=
      fun hs h => hs (h ▸ hm)
    refine turns_next hp0 hs0 ⟨?_,?_,by rw [hf],hu,hne (by simp [State.mark]),fun h => ?_⟩ has
    · generalize parseUrlChar p.state ch = s at hm
      cases s <;> first | rfl | cases hm
    · generalize parseUrlChar p.state ch = s at hm
      cases s <;> first | rfl | cases hm
    · exact (hz h).of_eq rfl rfl (hne (by simp [State.mark]))

/-- What the matchers of names and values leave as it is. -/
structure Matched (p q : HttpParser) : Prop where
  state : q.state = p.state
  trailing : q.flags.trailing = p.flags.trailing
  upgrade : q.upgrade = p.upgrade

theorem Matched.calm {p q : HttpParser} (h : Matched p q) (hp : p.state.coded = false)
    (hr : p.state.rests) (hs : p.state ≠ .sStartReq) (hz : p.Sized → q.Sized) : Calm p q :=
  ⟨by rw [h.state]; exact hp,by rw [h.state]; exact hr,h.trailing,h.upgrade,
    by rw [h.state]; exact hs,hz⟩

theorem headerFieldToken_matched (p : HttpParser) (ch : Byte) : Matched p (headerFieldToken p ch) := by
  unfold headerFieldToken matchNext
  simp only
  repeat' split
  all_goals exact ⟨rfl,rfl,rfl⟩

theorem headerFieldToken_sized {p : HttpParser} (ch : Byte) (hp : p.state = .sHeaderField)
    (h : p.Sized) : (headerFieldToken p ch).Sized := by
  have hs : (headerFieldToken p ch).state ≠ .sHeaderValue := by
    rw [headerFieldToken_state,hp]
    simp
  refine h.of_eq ?_ ?_ hs
  all_goals
    unfold headerFieldToken matchNext
    simp only
    repeat' split
    all_goals rfl

theorem headerValueFirst_matched {p q : HttpParser} {ch : Byte} (h : headerValueFirst p ch = some q) :
    Matched p q := by
  unfold headerValueFirst at h
  simp only at h
  repeat' split at h
  all_goals first | cases h; exact ⟨rfl,rfl,rfl⟩ | cases h

theorem headerValueFirst_sized {p q : HttpParser} {ch : Byte} (h : headerValueFirst p ch = some q)
    (hz : p.contentLength ≠ ULLONG_MAX → p.setContentLength = 1) : q.Sized := by
  unfold headerValueFirst at h
  simp only at h
  split at h
  case h_1 =>
    cases h
    exact ⟨hz,by simp⟩
  case h_2 =>
    cases h
    refine ⟨hz,?_⟩
    simp only
    split <;> simp
  case h_3 =>
    repeat' split at h
    all_goals first | cases h; exact ⟨by simp,by simp⟩ | cases h
  case h_4 =>
    cases h
    refine ⟨hz,?_⟩
    simp only
    repeat' split
    all_goals simp
  case h_5 =>
    cases h
    exact ⟨hz,by simp⟩

theorem headerValueNext_matched {p q : HttpParser} {ch : Byte} (h : headerValueNext p ch = some q) :
    Matched p q := by
  unfold headerValueNext matchNext at h
  simp only at h
  repeat' split at h
  all_goals first | cases h; exact ⟨rfl,rfl,rfl⟩ | cases h | skip
  obtain ⟨t,-,rfl⟩ := Option.map_eq_some_iff.mp h
  exact ⟨rfl,rfl,rfl⟩

theorem matchNext_headerState {target : Bytes} {done : HeaderState} {c : Byte} {p : HttpParser}
    (hd : done ≠ .hContentLength) (hp : p.headerState ≠ .hContentLength) :
    (matchNext target done c p).headerState ≠ .hContentLength := by
  unfold matchNext
  simp only
  repeat' split
  · simp
  · exact hd
  · exact hp

theorem headerValueNext_sized {p q : HttpParser} {ch : Byte} (h : headerValueNext p ch = some q)
    (hp : p.state = .sHeaderValue) (hz : p.Sized) : q.Sized := by
  have hstate := (headerValueNext_matched h).state
  unfold headerValueNext at h
  simp only at h
  split at h
  case h_1 hst =>
    have hset : q.setContentLength = p.setContentLength := by
      repeat' split at h
      · cases h
        rfl
      · cases h
      · obtain ⟨t,-,rfl⟩ := Option.map_eq_some_iff.mp h
        rfl
    have h1 := hz.digits hp hst
    exact ⟨fun _ => hset.trans h1,fun _ _ => hset.trans h1⟩
  all_goals
    have hq : q.contentLength = p.contentLength ∧ q.setContentLength = p.setContentLength ∧
        q.headerState ≠ .hContentLength := by
      repeat' split at h
      all_goals
        cases h
        refine ⟨rfl,rfl,?_⟩
        first
          | exact matchNext_headerState (by simp) (by simp [*])
          | simp [*]
    refine ⟨?_,fun _ hd => absurd hd hq.2.2⟩
    rw [hq.1,hq.2.1]
    exact hz.length

theorem stepHeaderAlmostDone_turns {p p0 : HttpParser} (hp0 : p0.state.coded = false)
    (hs0 : p0.state ≠ .sStartReq) (hf : p.flags = p0.flags) (hu : p.upgrade = p0.upgrade)
    (hz : p0.Sized → p.Sized) {as : List Act} (has : ∀ a ∈ as, a.isField) (ch : Byte) :
    ((stepHeaderAlmostDone p ch).after as).Turns p0 := by
  unfold stepHeaderAlmostDone setErrno
  split
  · trivial
  · refine turns_next hp0 hs0 ⟨rfl,rfl,?_,hu,by simp,fun h => ?_⟩ (by simpa using has)
    · simp only
      split <;> simp [hf]
    · exact (hz h).of_eq rfl rfl (by simp)

/-- A byte of the request line or of a header line. -/
theorem stepState_line {p : HttpParser} (hp : p.state.coded = false) (hr : p.state.rests)
    (hs : p.state ≠ .sStartReq) (ch : Byte) : (stepState p ch).Turns p := by
  have hcalm : ∀ {q : HttpParser} {acts : List Act}, q.state.coded = false → q.state.rests →
      q.flags.trailing = p.flags.trailing → q.upgrade = p.upgrade → q.state ≠ .sStartReq →
      q.contentLength = p.contentLength → q.setContentLength = p.setContentLength →
      q.state ≠ .sHeaderValue → (∀ a ∈ acts, a.isField) → (Step.next acts q).Turns p :=
    fun h1 h2 h3 h4 h5 h6 h7 h8 ha => turns_next hp hs ⟨h1,h2,h3,h4,h5,fun h => h.of_eq h6 h7 h8⟩ ha
  unfold stepState
  cases hstate : p.state <;> simp only [hstate] at hr ⊢
  all_goals first
    | exact absurd hr (by decide)
    | exact absurd hstate hs
    | (rw [hstate] at hp; exact absurd hp (by decide))
    | exact stepHeadersAlmostDone_turns hp hs rfl rfl rfl id ch
    | exact stepHeaderFieldStart_turns hp hs rfl rfl rfl id ch
    | skip
  case sHeaderField =>
    unfold stepHeaderField setErrno
    have hm := headerFieldToken_matched p ch
    refine .ite ?_ (.ite ?_ (.ite ?_ (.ite ?_ trivial)))
    · exact turns_next hp hs (hm.calm hp (by rw [hstate]; rfl) hs (headerFieldToken_sized ch hstate))
        (by simp)
    all_goals
      exact hcalm (by rfl) (by rfl) (by rfl) (by rfl) (by simp) (by rfl) (by rfl) (by simp)
        (by simp [Act.isField])
  case sHeaderValueStart =>
    unfold stepHeaderValueStart setErrno
    refine .ite ?_ ?_
    · exact hcalm hp (by rw [hstate]; rfl) rfl rfl hs rfl rfl (by simp [hstate]) (by simp)
    simp only
    refine .ite ?_ (.ite ?_ ?_)
    · exact hcalm (by rfl) (by rfl) (by rfl) (by rfl) (by simp) (by rfl) (by rfl) (by simp)
        (by simp [Act.isField])
    · exact hcalm (by rfl) (by rfl) (by rfl) (by rfl) (by simp) (by rfl) (by rfl) (by simp)
        (by simp [Act.isField])
    · split
      next q hq =>
        have hm := headerValueFirst_matched hq
        refine turns_next hp hs ⟨by rw [hm.state]; rfl,by rw [hm.state]; rfl,hm.trailing,hm.upgrade,
          by rw [hm.state]; simp,fun h => ?_⟩ (by simp [Act.isField])
        exact headerValueFirst_sized hq h.length
      next => trivial
  case sHeaderValue =>
    unfold stepHeaderValue setErrno
    refine .ite ?_ (.ite ?_ ?_)
    · exact hcalm (by rfl) (by rfl) (by rfl) (by rfl) (by simp) (by rfl) (by rfl) (by simp)
        (by simp [Act.isField])
    · exact stepHeaderAlmostDone_turns (p := { p with state := .sHeaderAlmostDone }) hp hs rfl rfl
        (fun h => h.of_eq rfl rfl (by simp)) (by simp [Act.isField]) ch
    · split
      next q hq =>
        exact turns_next hp hs ((headerValueNext_matched hq).calm hp (by rw [hstate]; rfl) hs
          (headerValueNext_sized hq hstate)) (by simp)
      next => trivial
  case sHeaderAlmostDone =>
    have h := stepHeaderAlmostDone_turns hp hs rfl rfl id (List.forall_mem_nil _) ch
    generalize stepHeaderAlmostDone p ch = s at h ⊢
    cases s <;> exact h
  case sHeaderValueLws =>
    unfold stepHeaderValueLws
    refine .ite ?_ (stepHeaderFieldStart_turns (p := { p with state := .sHeaderFieldStart }) hp hs
      rfl rfl rfl (fun h => h.of_eq rfl rfl (by simp)) ch)
    exact hcalm (by rfl) (by rfl) (by rfl) (by rfl) (by simp) (by rfl) (by rfl) (by simp) (by simp)
  all_goals
    simp only [stepReqMethod,stepReqSpacesBeforeUrl,stepUrl,stepReqHttpStart,strictNext,
      stepReqFirstHttpMajor,stepReqHttpMajor,stepReqFirstHttpMinor,stepReqHttpMinor,setErrno]
    repeat' split
    all_goals first
      | trivial
      | exact urlByte_turns hp hs rfl rfl id (by simp [Act.isField]) ch
      | exact urlByte_turns (p := { p with state := .sReqServerStart }) hp hs rfl rfl
          (fun h => h.of_eq rfl rfl (by simp)) (by simp [Act.isField]) ch
      | exact hcalm (by rfl) (by rfl) (by rfl) (by rfl) (by simp) (by rfl) (by rfl) (by simp)
          (by simp [Act.isField])
      | exact hcalm hp (by rw [hstate]; rfl) rfl rfl hs rfl rfl (by simp [hstate]) (by simp)

/-- A byte of the body or of its coding. -/
theorem stepState_coded {p : HttpParser} (hp : p.state.coded) (ch : Byte) :
    (stepState p ch).Turns p := by
  unfold stepState
  cases hstate : p.state <;> simp only
  all_goals first
    | (rw [hstate] at hp; exact absurd hp (by decide))
    | skip
  case sBodyIdentity =>
    unfold stepBodyIdentity messageDone
    simp only
    split
    next h0 => exact .lastByte hstate rfl rfl (by omega)
    next h0 =>
      refine .byte (by rw [hstate]; rfl) (by simp [hstate,State.coded]) rfl rfl Iff.rfl fun hpos _ => ?_
      simp only
      omega
  case sChunkData =>
    unfold stepChunkData
    simp only
    split
    · exact .byte (by rw [hstate]; rfl) rfl rfl rfl (by simp [hstate]) (by simp [hstate])
    · exact .byte (by rw [hstate]; rfl) (by simp [hstate,State.coded]) rfl rfl Iff.rfl (by simp [hstate])
  case sChunkDataAlmostDone =>
    unfold stepChunkDataAlmostDone setErrno
    refine .ite trivial ?_
    exact .coding hp (by rw [hstate]; rfl) (.inr ⟨hstate,rfl⟩) rfl rfl (.inl ⟨rfl,by simp⟩)
  all_goals
    have hd : p.state.data = false := by rw [hstate]; rfl
    have hne : p.state ≠ .sChunkDataAlmostDone := by rw [hstate]; simp
    simp only [stepChunkSizeStart,stepChunkSize,stepChunkParameters,stepChunkSizeAlmostDone,
      stepChunkDataDone,setErrno]
    repeat' split
    all_goals first
      | trivial
      | exact .coding hp hd (.inl ⟨rfl,hne⟩) rfl rfl (.inl ⟨rfl,by simp⟩)
      | exact .coding hp hd (.inl ⟨rfl,hne⟩) rfl rfl (.inl ⟨hp,by simp [hstate]⟩)
      | exact .coding hp hd (.inl ⟨rfl,hne⟩) rfl rfl (.inr ⟨rfl,rfl⟩)

theorem BodyTurn.of_eq {p p0 q : HttpParser} {acts : List Act} (h : BodyTurn p0 acts q)
    (hs : p0.state = p.state) (hf : p0.flags = p.flags) (hu : p0.upgrade = p.upgrade)
    (hl : p0.contentLength = p.contentLength) (he : p0.httpErrno = p.httpErrno)
    (hz : p.Sized → p0.Sized) : BodyTurn p acts q := by
  cases h with
  | begins h1 h2 h3 h4 => exact .begins (hs ▸ h1) h2 h3 h4
  | field h1 h2 h3 h4 h5 h6 h7 h8 =>
    exact .field (hs ▸ h1) h2 h3 h4 (hf ▸ h5) (hu ▸ h6) (hs ▸ h7) (h8 ∘ hz)
  | headDone h1 h2 h3 h4 h5 h6 => exact .headDone (hs ▸ h1) (hf ▸ h2) (hs ▸ h3) h4 h5 (h6 ∘ hz)
  | byte h1 h2 h3 h4 h5 h6 => exact .byte (hs ▸ h1) h2 (hf ▸ h3) (hu ▸ h4) (hs ▸ h5) (hl ▸ hs ▸ h6)
  | coding h1 h2 h3 h4 h5 h6 => exact .coding (hs ▸ h1) (hs ▸ h2) (hs ▸ h3) (hf ▸ h4) (hu ▸ h5) h6
  | noBody h1 h2 h3 h4 => exact .noBody (hs ▸ h1) (hf ▸ h2) (hs ▸ h3) (he ▸ h4)
  | lastByte h1 h2 h3 h4 => exact .lastByte (hs ▸ h1) (hf ▸ h2) (hu ▸ h3) (hl ▸ h4)
  | trailerDone h1 h2 h3 h4 h5 =>
    exact .trailerDone (hs ▸ h1) (hf ▸ h2) (hs ▸ h3) (hu ▸ h4) (he ▸ h5)

theorem Step.Turns.of_eq {s : Step} {p p0 : HttpParser} (h : s.Turns p0) (hs : p0.state = p.state)
    (hf : p0.flags = p.flags) (hu : p0.upgrade = p.upgrade)
    (hl : p0.contentLength = p.contentLength) (he : p0.httpErrno = p.httpErrno)
    (hz : p.Sized → p0.Sized) : s.Turns p := by
  cases s with
  | next acts q => exact BodyTurn.of_eq h hs hf hu hl he hz
  | stop acts q => exact BodyTurn.of_eq h hs hf hu hl he hz
  | bail q => trivial
  | error q => trivial

theorem stepState_turns {p : HttpParser} (hr : p.state.rests) (ch : Byte) :
    (stepState p ch).Turns p := by
  cases hp : p.state.coded with
  | true => exact stepState_coded hp ch
  | false =>
    by_cases hs : p.state = .sStartReq
    · unfold stepState
      simp only [hs]
      exact stepStartReq_turns hs hs rfl rfl id ch
    · exact stepState_line hp hr hs ch

/-- What a byte asks for, in every state in which the parser can be. -/
theorem step_turns {p : HttpParser} (hr : p.state.rests) (ch : Byte) : (step p ch).Turns p := by
  unfold step setErrno
  simp only
  repeat' split
  · trivial
  · exact (stepState_turns (p := { p with nread := p.nread + 1 }) hr ch).of_eq rfl rfl rfl rfl rfl
      fun h => ⟨h.length,h.digits⟩
  · exact stepState_turns hr ch

/-! ### One message -/

/-- The byte is taken, and completes no message. -/
def Step.goesOn : Step → Bool
  | .next acts _ => !acts.any Act.completes
  | _ => false

/-- The parser finds no error in the bytes, and the last of them completes a message, and none before
it does. -/
def wholeMessage : HttpParser → Bytes → Bool
  | _, [] => false
  | p, [ch] => (step p ch).completes
  | p, ch :: rest => (step p ch).goesOn && wholeMessage (step p ch).parser rest

theorem wholeMessage_cons {p : HttpParser} {ch : Byte} {rest : Bytes} (h : wholeMessage p (ch :: rest)) :
    (step p ch).completes ∧ rest = [] ∨ ∃ acts q, step p ch = .next acts q ∧
      acts.any Act.completes = false ∧ wholeMessage q rest := by
  cases rest with
  | nil => exact .inl ⟨h,rfl⟩
  | cons b rest =>
    simp only [wholeMessage,Bool.and_eq_true] at h
    obtain ⟨hgo,hrest⟩ := h
    cases hs : step p ch with
    | next acts q =>
      rw [hs] at hgo hrest
      exact .inr ⟨acts,q,rfl,by simpa [Step.goesOn] using hgo,hrest⟩
    | stop acts q => simp [hs,Step.goesOn] at hgo
    | bail q => simp [hs,Step.goesOn] at hgo
    | error q => simp [hs,Step.goesOn] at hgo

/-- The bytes of the body. -/
def payload : HttpParser → Bytes → Bytes
  | _, [] => []
  | p, ch :: rest => (if p.state.data then [ch] else []) ++ payload (step p ch).parser rest

/-- What the parser hands to `on_headers_complete`. -/
def Act.headParser : Act → Option HttpParser
  | .notify .headersComplete _ r => some r
  | _ => none

def Step.headParser : Step → Option HttpParser
  | .next acts _ | .stop acts _ => acts.findSome? Act.headParser
  | _ => none

/-- The length that the head declares, 0 when it declares none. -/
def declaredLength : HttpParser → Bytes → ℕ
  | _, [] => 0
  | p, ch :: rest =>
    match (step p ch).headParser with
    | some r => headersContentLength r
    | none => declaredLength (step p ch).parser rest

/-- The body after a head with a length. -/
theorem payload_identity {p : HttpParser} {s : Bytes} (hp : p.state = .sBodyIdentity)
    (h0 : 0 < p.contentLength) (hs : s.length ≤ p.contentLength) : payload p s = s := by
  induction s generalizing p with
  | nil => rfl
  | cons ch rest ih =>
    have hstep : step p ch = stepBodyIdentity p := by
      unfold step stepState
      simp [hp,parsingHeader]
    simp only [payload,hp,State.data,if_true,List.cons_append,List.nil_append,List.cons.injEq,true_and]
    rw [hstep]
    cases rest with
    | nil => rfl
    | cons b rest =>
      simp only [List.length_cons] at hs
      have hne : p.contentLength - 1 ≠ 0 := by omega
      refine ih ?_ ?_ ?_
      · simp [stepBodyIdentity,hne,Step.parser,hp]
      · simp [stepBodyIdentity,hne,Step.parser]
        omega
      · simp [stepBodyIdentity,hne,Step.parser]
        omega

def parserAfter (p : HttpParser) (s : Bytes) : HttpParser := s.foldl (fun p ch => (step p ch).parser) p

theorem payload_append (p : HttpParser) (a b : Bytes) :
    payload p (a ++ b) = payload p a ++ payload (parserAfter p a) b := by
  induction a generalizing p with
  | nil => rfl
  | cons ch rest ih => simp [payload,parserAfter,ih]

theorem parserAfter_append (p : HttpParser) (a b : Bytes) :
    parserAfter p (a ++ b) = parserAfter (parserAfter p a) b := List.foldl_append

theorem unhex_digitChar {d : ℕ} (h : d < 16) : unhex (Nat.digitChar d).toUInt8 = some d := by
  interval_cases d <;> decide

theorem length_hexSize {k n : ℕ} (h : n < 16 ^ (k + 1)) : (ChunkedCoding.hexSize n).length ≤ k + 1 := by
  induction k generalizing n with
  | zero => simp [ChunkedCoding.hexSize_of_lt (by simpa using h)]
  | succ k ih =>
    rcases Nat.lt_or_ge n 16 with hn | hn
    · simp [ChunkedCoding.hexSize_of_lt hn]
    · have hdiv : n / 16 < 16 ^ (k + 1) := by
        rw [Nat.div_lt_iff_lt_mul (by decide),← Nat.pow_succ]
        exact h
      have := ih hdiv
      rw [ChunkedCoding.hexSize_of_le hn,List.length_append,List.length_singleton]
      omega

theorem step_parsing {p : HttpParser} (hp : parsingHeader p.state)
    (hn : p.nread < HTTP_MAX_HEADER_SIZE) (ch : Byte) :
    step p ch = stepState { p with nread := p.nread + 1 } ch := by
  unfold step
  rw [if_pos hp]
  exact if_neg (not_lt.mpr hn)

/-- A size is read digit by digit. -/
theorem parserAfter_hexSize {p : HttpParser} {n : ℕ} (hp : p.state = .sChunkSizeStart)
    (hn : n < ULLONG_MAX)
    (hread : p.nread + (ChunkedCoding.hexSize n).length ≤ HTTP_MAX_HEADER_SIZE) :
    payload p (ChunkedCoding.hexSize n) = [] ∧ parserAfter p (ChunkedCoding.hexSize n) = { p with
      nread := p.nread + (ChunkedCoding.hexSize n).length
      contentLength := n
      state := .sChunkSize } := by
  induction n using Nat.strong_induction_on with
  | _ n ih =>
    rcases Nat.lt_or_ge n 16 with h | h
    · rw [ChunkedCoding.hexSize_of_lt h] at hread ⊢
      have hover : p.nread < HTTP_MAX_HEADER_SIZE := by simpa using hread
      simp [payload,parserAfter,State.data,step_parsing (by rw [hp]; rfl) hover,hp,stepState,
        stepChunkSizeStart,unhex_digitChar h,Step.parser]
    · rw [ChunkedCoding.hexSize_of_le h] at hread ⊢
      simp only [List.length_append,List.length_singleton] at hread ⊢
      obtain ⟨h1,h2⟩ := ih (n / 16) (by omega) (by omega) (by omega)
      have hmod : n % 16 < 16 := Nat.mod_lt n (by decide)
      have hover : p.nread + (ChunkedCoding.hexSize (n / 16)).length < HTTP_MAX_HEADER_SIZE := by
        omega
      have hdigit : pushDigit 16 (n / 16) (n % 16) = some n := by
        have hmax : ULLONG_MAX = 2 ^ 64 - 1 := rfl
        unfold pushDigit
        rw [Nat.div_add_mod',Nat.mod_eq_of_lt (by omega)]
        simp only
        rw [if_neg (by omega)]
      have hcr : (Nat.digitChar (n % 16)).toUInt8 ≠ CR := by
        generalize n % 16 = d at hmod
        interval_cases d <;> decide
      rw [payload_append,parserAfter_append,h1,h2]
      generalize hq : ({ p with
        nread := p.nread + (ChunkedCoding.hexSize (n / 16)).length
        contentLength := n / 16
        state := .sChunkSize } : HttpParser) = q
      have hstep : step q (Nat.digitChar (n % 16)).toUInt8 =
          .next [] { q with nread := q.nread + 1, contentLength := n } := by
        rw [step_parsing (by rw [← hq]; rfl) (by rw [← hq]; exact hover)]
        simp [stepState,← hq,stepChunkSize,unhex_digitChar hmod,hdigit,hcr]
      simp only [payload,parserAfter,List.foldl_cons,List.foldl_nil,hstep,Step.parser]
      subst hq
      simp [State.data,Nat.add_assoc]

theorem payload_chunkData {p : HttpParser} {data : Bytes} (hp : p.state = .sChunkData)
    (hne : data ≠ []) (hlen : p.contentLength = data.length) : payload p data = data ∧
      (parserAfter p data).state = .sChunkDataAlmostDone := by
  induction data generalizing p with
  | nil => exact absurd rfl hne
  | cons ch rest ih =>
    have hstep : step p ch = stepChunkData p := by
      unfold step stepState
      simp [hp,parsingHeader]
    simp only [payload,parserAfter,List.foldl_cons,hp,State.data,if_true,List.cons_append,
      List.nil_append,List.cons.injEq,true_and]
    rw [hstep]
    cases rest with
    | nil =>
      have h0 : p.contentLength - 1 = 0 := by simp [hlen]
      simp only [payload,stepChunkData,h0,if_true,Step.parser,List.foldl_nil,and_self]
    | cons b rest =>
      have h0 : p.contentLength - 1 ≠ 0 := by simp [hlen]
      refine ih ?_ (by simp) ?_
      · simp [stepChunkData,h0,Step.parser,hp]
      · simp [stepChunkData,Step.parser,hlen]

/-- The bytes of a chunk, read from the state between chunks. -/
theorem payload_chunk {p : HttpParser} {data : Bytes} (hp : p.state = .sChunkSizeStart)
    (h0 : p.nread = 0) (hne : data ≠ []) (hlen : data.length < ULLONG_MAX) :
    payload p (ChunkedCoding.chunk data) = data ∧
      (parserAfter p (ChunkedCoding.chunk data)).state = .sChunkSizeStart ∧
      (parserAfter p (ChunkedCoding.chunk data)).nread = 0 := by
  have hpos : data.length ≠ 0 := by simpa using hne
  have hsize : (ChunkedCoding.hexSize data.length).length ≤ 16 :=
    length_hexSize (hlen.trans (by decide))
  have hmax : 18 < HTTP_MAX_HEADER_SIZE := by decide
  obtain ⟨h1,h2⟩ := parserAfter_hexSize hp hlen (by omega)
  generalize hq : ({ p with
    nread := p.nread + (ChunkedCoding.hexSize data.length).length
    contentLength := data.length
    state := .sChunkSize } : HttpParser) = q at h2
  have hread : q.nread ≤ 16 := by
    rw [← hq]
    simp only
    omega
  have hcr : step q CR = .next [] { q with nread := q.nread + 1, state := .sChunkSizeAlmostDone } := by
    rw [step_parsing (by rw [← hq]; rfl) (by omega)]
    simp [stepState,← hq,stepChunkSize]
  have hlf : step { q with nread := q.nread + 1, state := .sChunkSizeAlmostDone } LF =
      .next [] { q with nread := 0, state := .sChunkData } := by
    rw [step_parsing rfl (by simp only; omega)]
    simp [stepState,stepChunkSizeAlmostDone,← hq,hpos]
  obtain ⟨h3,h4⟩ := payload_chunkData (p := { q with nread := 0, state := .sChunkData })
    rfl hne (by rw [← hq])
  have hsplit : ChunkedCoding.chunk data = ChunkedCoding.hexSize data.length ++
      (CR :: LF :: (data ++ [CR,LF])) := by
    simp [ChunkedCoding.chunk,ChunkedCoding.crlf,CR,LF]
  have hend : ∀ r : HttpParser, r.state = .sChunkDataAlmostDone → payload r [CR,LF] = [] ∧
      (parserAfter r [CR,LF]).state = .sChunkSizeStart ∧ (parserAfter r [CR,LF]).nread = 0 := by
    intro r hr
    have h5 : step r CR = stepChunkDataAlmostDone r CR := by
      unfold step stepState
      simp [hr,parsingHeader]
    have h6 : step { r with state := .sChunkDataDone } LF =
        .next [] { r with nread := 0, state := .sChunkSizeStart } := rfl
    simp [payload,parserAfter,h5,stepChunkDataAlmostDone,Step.parser,h6,hr,State.data]
  have hmid : ∀ s, payload q (CR :: LF :: s) = payload { q with nread := 0, state := .sChunkData } s ∧
      parserAfter q (CR :: LF :: s) = parserAfter { q with nread := 0, state := .sChunkData } s := by
    intro s
    have hqs : q.state.data = false := by
      rw [← hq]
      rfl
    simp only [payload,parserAfter,List.foldl_cons,hcr,hlf,Step.parser,hqs]
    simp [State.data]
  obtain ⟨h5,h6,h7⟩ := hend _ h4
  rw [hsplit,payload_append,parserAfter_append,h1,h2,(hmid _).1,(hmid _).2,payload_append,
    parserAfter_append,h3,h5]
  exact ⟨by simp,h6,h7⟩

/-- A body sent in chunks, one after the other. -/
theorem payload_chunks {p : HttpParser} {ds : List Bytes} (hp : p.state = .sChunkSizeStart)
    (h0 : p.nread = 0) (hds : ∀ d ∈ ds, d ≠ [] ∧ d.length < ULLONG_MAX) :
    payload p (ds.flatMap ChunkedCoding.chunk) = ds.flatten ∧
      (parserAfter p (ds.flatMap ChunkedCoding.chunk)).state = .sChunkSizeStart ∧
      (parserAfter p (ds.flatMap ChunkedCoding.chunk)).nread = 0 := by
  induction ds generalizing p with
  | nil => exact ⟨rfl,hp,h0⟩
  | cons d ds ih =>
    obtain ⟨hd,hrest⟩ := List.forall_mem_cons.mp hds
    obtain ⟨h1,h2,h3⟩ := payload_chunk hp h0 hd.1 hd.2
    obtain ⟨h4,h5,h6⟩ := ih h2 h3 hrest
    rw [List.flatMap_cons,payload_append,parserAfter_append,h1,h4]
    exact ⟨by simp,h5,h6⟩

end Meinheld
