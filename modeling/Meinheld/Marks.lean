import Meinheld.HttpParser

/-! What one byte does to the marks of `http_parser_execute`, and to `http_errno`. -/
namespace Meinheld

/-- The data callback whose bytes a state is in the middle of. -/
def State.mark : State → Option Mark
  | .sHeaderField => some .headerField
  | .sHeaderValue => some .headerValue
  | .sReqPath | .sReqSchema | .sReqSchemaSlash | .sReqSchemaSlashSlash | .sReqServerStart
  | .sReqServer | .sReqServerWithAt | .sReqQueryStringStart | .sReqQueryString
  | .sReqFragmentStart | .sReqFragment => some .url
  | .sBodyIdentity | .sChunkData | .sChunkDataAlmostDone => some .body
  | _ => none

def Act.isNotify : Act → Prop
  | .notify _ _ _ => True
  | _ => False

def Act.completes : Act → Bool
  | .notify .messageComplete _ _ => true
  | _ => false

/-- The byte calls `on_message_complete`. -/
def Step.completes : Step → Bool
  | .next acts _ | .stop acts _ => acts.any Act.completes
  | _ => false

/-- The parser a byte leaves. -/
def Step.parser : Step → HttpParser
  | .next _ q | .stop _ q | .bail q | .error q => q

/-- The last of the bytes completes a message, and none before it does. -/
def oneMessage : HttpParser → Bytes → Bool
  | _, [] => false
  | p, [ch] => (step p ch).completes
  | p, ch :: rest => !(step p ch).completes && oneMessage (step p ch).parser rest

/-- What one byte does to the marks. -/
inductive Turn (p : HttpParser) : List Act → HttpParser → Prop
  | quiet {acts q} : p.state.mark = none → (∀ a ∈ acts, a.isNotify) →
      q.state.mark = none ∨ q.state.mark = some .body → Turn p acts q
  | inside {k q} : p.state.mark = some k → k ≠ .body → q.state.mark = some k → Turn p [] q
  | start {k q} : p.state.mark = none → q.state.mark = some k → Turn p [.mark k] q
  | empty {k adv r q} : p.state.mark = none → q.state.mark = none →
      Turn p [.mark k,.data k false adv r] q
  | finish {k adv r q} : p.state.mark = some k → q.state.mark = none →
      (k = .body → r.flags = p.flags) → Turn p [.data k false adv r] q
  | bodyByte {q} : p.state.mark = some .body → q.state.mark = some .body → q.flags = p.flags →
      Turn p [.mark .body] q
  | bodyLast {n r q} : p.state.mark = some .body → q.state.mark = none → r.flags = p.flags →
      Turn p [.mark .body,.data .body true 0 r,callbackNotify n q] q

theorem newMessage_mark (p : HttpParser) : (newMessage p).mark = none := by
  unfold newMessage
  split <;> rfl

theorem parseUrlChar_mark (s : State) (ch : Byte) :
    parseUrlChar s ch = .sDead ∨ (parseUrlChar s ch).mark = some .url := by
  unfold parseUrlChar
  split
  · exact .inl rfl
  · cases s <;> simp only <;> (repeat' split) <;> simp [State.mark]

theorem urlByte_next {as acts : List Act} {p q : HttpParser} {ch : Byte}
    (h : urlByte as p ch = .next acts q) : acts = as ∧ q.state.mark = some .url := by
  unfold urlByte at h
  simp only at h
  split at h
  · cases h
  next hd =>
    obtain ⟨rfl,rfl⟩ : as = acts ∧ _ = q := by simpa using h
    exact ⟨rfl,(parseUrlChar_mark _ _).resolve_left hd⟩

/-- A byte that calls no data callback and sets no mark. -/
def Step.Quiet : Step → Prop
  | .next acts q => (∀ a ∈ acts, a.isNotify) ∧ (q.state.mark = none ∨ q.state.mark = some .body)
  | .stop acts _ => (∀ a ∈ acts, a.isNotify) ∧ acts.any Act.completes
  | .bail _ | .error _ => True

theorem quiet_next {p : HttpParser} (h : p.state.mark = none) : (Step.next [] p).Quiet :=
  ⟨by simp,.inl h⟩

theorem Step.Quiet.ite {c : Prop} [Decidable c] {a b : Step} (ha : a.Quiet) (hb : b.Quiet) :
    (if c then a else b).Quiet := by
  split <;> assumption

@[simp] theorem setErrno_quiet (p : HttpParser) (e : HttpErrno) : (setErrno p e).Quiet := trivial

theorem messageDone_quiet (p : HttpParser) : (messageDone p).Quiet :=
  ⟨by simp [Act.isNotify],.inl (newMessage_mark p)⟩

theorem stepHeadersDone_quiet (p : HttpParser) (ch : Byte) : (stepHeadersDone p ch).Quiet := by
  unfold stepHeadersDone
  simp only
  repeat' split
  all_goals first | exact setErrno_quiet _ _ | exact messageDone_quiet _ |
    simp [Step.Quiet,Act.isNotify,Act.completes,State.mark]

theorem Step.Quiet.after {s : Step} (h : s.Quiet) {as : List Act} (has : ∀ a ∈ as, a.isNotify) :
    (s.after as).Quiet := by
  cases s with
  | next bs q => exact ⟨fun a ha => (List.mem_append.mp ha).elim (has a) (h.1 a),h.2⟩
  | stop bs q =>
    exact ⟨fun a ha => (List.mem_append.mp ha).elim (has a) (h.1 a),by simp [List.any_append,h.2]⟩
  | bail q => trivial
  | error q => trivial

theorem stepHeadersAlmostDone_quiet (p : HttpParser) (ch : Byte) :
    (stepHeadersAlmostDone p ch).Quiet := by
  unfold stepHeadersAlmostDone
  simp only
  repeat' split
  · exact setErrno_quiet _ _
  · exact messageDone_quiet p
  · trivial
  · exact (stepHeadersDone_quiet _ _).after (by simp [Act.isNotify])

theorem stepStartReq_quiet (p : HttpParser) (h : p.state = .sStartReq) (ch : Byte) :
    (stepStartReq p ch).Quiet := by
  have hbegin : ∀ q : HttpParser, q.state = .sReqMethod →
      (Step.next [callbackNotify .messageBegin q] q).Quiet :=
    fun q hq => ⟨by simp [Act.isNotify],.inl (by rw [hq]; rfl)⟩
  unfold stepStartReq
  refine .ite (quiet_next (by rw [h]; rfl)) ?_
  iterate 13 refine .ite (hbegin _ rfl) ?_
  exact setErrno_quiet _ _

/-- The states in which a byte calls no data callback and sets no mark. -/
def State.quiet : State → Bool
  | .sReqSpacesBeforeUrl | .sHeaderFieldStart | .sHeaderValueStart | .sHeaderValueLws => false
  | s => s.mark.isNone

theorem State.mark_of_quiet {s : State} (h : s.quiet) : s.mark = none := by
  cases s <;> first | rfl | exact absurd h (by decide)

theorem stepState_quiet {p : HttpParser} (h : p.state.quiet) (ch : Byte) :
    (stepState p ch).Quiet := by
  unfold stepState
  cases hs : p.state <;> simp only [hs] at h ⊢
  all_goals first
    | exact absurd h (by decide)
    | exact stepHeadersDone_quiet p ch
    | exact stepHeadersAlmostDone_quiet p ch
    | exact stepStartReq_quiet p hs ch
    | exact messageDone_quiet p
    | skip
  all_goals
    try simp only [stepReqMethod,stepReqHttpStart,strictNext,stepReqFirstHttpMajor,stepReqHttpMajor,
      stepReqFirstHttpMinor,stepReqHttpMinor,stepHeaderAlmostDone,stepChunkSizeStart,stepChunkSize,
      stepChunkParameters,stepChunkSizeAlmostDone,stepChunkDataDone]
    repeat' split
    all_goals first | exact setErrno_quiet _ _ | simp [Step.Quiet,State.mark,hs]

theorem headerValueFirst_state {p q : HttpParser} {ch : Byte} (h : headerValueFirst p ch = some q) :
    q.state = p.state := by
  unfold headerValueFirst at h
  simp only at h
  repeat' split at h
  all_goals first | cases h; rfl | cases h

theorem headerValueNext_state {p q : HttpParser} {ch : Byte} (h : headerValueNext p ch = some q) :
    q.state = p.state := by
  unfold headerValueNext matchNext at h
  simp only at h
  repeat' split at h
  all_goals first | cases h; rfl | cases h | skip
  obtain ⟨t,-,rfl⟩ := Option.map_eq_some_iff.mp h
  rfl

theorem headerFieldToken_state (p : HttpParser) (ch : Byte) :
    (headerFieldToken p ch).state = p.state := by
  unfold headerFieldToken matchNext
  simp only
  repeat' split
  all_goals rfl

/-- A byte met outside the bytes of a callback: a quiet one, or the first of a callback's bytes. -/
theorem Step.Quiet.turn {s : Step} {p q : HttpParser} {acts : List Act} (h : s.Quiet)
    (hp : p.state.mark = none) (hs : s = .next acts q) : Turn p acts q := by
  subst hs
  exact .quiet hp h.1 h.2

theorem stepHeaderFieldStart_turn {p p0 q : HttpParser} {ch : Byte} {acts : List Act}
    (hp : p0.state.mark = none) (h : stepHeaderFieldStart p ch = .next acts q) :
    Turn p0 acts q := by
  unfold stepHeaderFieldStart at h
  split at h
  · obtain ⟨rfl,rfl⟩ := Step.next.inj h
    exact .quiet hp (by simp) (.inl rfl)
  · split at h
    · exact (stepHeadersAlmostDone_quiet _ _).turn hp h
    · simp only at h
      split at h
      · cases h
      · obtain ⟨rfl,rfl⟩ := Step.next.inj h
        exact .start hp rfl

theorem stepHeaderValueStart_turn {p q : HttpParser} {ch : Byte} {acts : List Act}
    (hp : p.state = .sHeaderValueStart) (h : stepHeaderValueStart p ch = .next acts q) :
    Turn p acts q := by
  have hm : p.state.mark = none := by rw [hp]; rfl
  unfold stepHeaderValueStart at h
  split at h
  · obtain ⟨rfl,rfl⟩ := Step.next.inj h
    exact .quiet hm (by simp) (.inl hm)
  · simp only at h
    split at h
    · obtain ⟨rfl,rfl⟩ := Step.next.inj h
      exact .empty hm rfl
    · split at h
      · obtain ⟨rfl,rfl⟩ := Step.next.inj h
        exact .empty hm rfl
      · split at h
        next r hr =>
          obtain ⟨rfl,rfl⟩ := Step.next.inj h
          refine .start (k := .headerValue) hm ?_
          rw [headerValueFirst_state hr]
          rfl
        · cases h

theorem stepHeaderField_turn {p q : HttpParser} {ch : Byte} {acts : List Act}
    (hp : p.state = .sHeaderField) (h : stepHeaderField p ch = .next acts q) : Turn p acts q := by
  have hm : p.state.mark = some .headerField := by rw [hp]; rfl
  unfold stepHeaderField at h
  simp only at h
  repeat' split at h
  · obtain ⟨rfl,rfl⟩ := Step.next.inj h
    exact .inside hm (by simp) (by rw [headerFieldToken_state,hm])
  all_goals first
    | obtain ⟨rfl,rfl⟩ := Step.next.inj h
      exact .finish hm rfl (by simp)
    | cases h

theorem stepHeaderValue_turn {p q : HttpParser} {ch : Byte} {acts : List Act}
    (hp : p.state = .sHeaderValue) (h : stepHeaderValue p ch = .next acts q) : Turn p acts q := by
  have hm : p.state.mark = some .headerValue := by rw [hp]; rfl
  unfold stepHeaderValue stepHeaderAlmostDone at h
  simp only at h
  repeat' split at h
  any_goals
    obtain ⟨rfl,rfl⟩ := Step.next.inj h
    exact .finish hm rfl (by simp)
  · contradiction
  · obtain ⟨rfl,rfl⟩ := Step.next.inj h
    rename_i hr
    exact .inside hm (by simp) (by rw [headerValueNext_state hr,hm])
  · cases h

theorem stepUrl_turn {p q : HttpParser} {ch : Byte} {acts : List Act}
    (hm : p.state.mark = some .url) (h : stepUrl p ch = .next acts q) : Turn p acts q := by
  unfold stepUrl at h
  simp only at h
  split at h
  · obtain ⟨rfl,rfl⟩ := Step.next.inj h
    exact .finish hm rfl (by simp)
  · split at h
    · obtain ⟨rfl,rfl⟩ := Step.next.inj h
      exact .finish hm (by simp only; split <;> rfl) (by simp)
    · obtain ⟨rfl,hq⟩ := urlByte_next h
      exact .inside hm (by simp) hq

theorem stepBodyIdentity_turn {p q : HttpParser} {acts : List Act}
    (hm : p.state.mark = some .body) (h : stepBodyIdentity p = .next acts q) : Turn p acts q := by
  unfold stepBodyIdentity at h
  simp only at h
  split at h
  · obtain ⟨rfl,rfl⟩ := Step.next.inj h
    exact .bodyLast hm (newMessage_mark _) rfl
  · obtain ⟨rfl,rfl⟩ := Step.next.inj h
    exact .bodyByte hm hm rfl

theorem stepChunkData_turn {p q : HttpParser} {acts : List Act}
    (hp : p.state = .sChunkData) (h : stepChunkData p = .next acts q) : Turn p acts q := by
  have hm : p.state.mark = some .body := by rw [hp]; rfl
  unfold stepChunkData at h
  obtain ⟨rfl,rfl⟩ := Step.next.inj h
  refine .bodyByte hm ?_ ?_ <;> split <;> first | rfl | exact hm

theorem stepChunkDataAlmostDone_turn {p q : HttpParser} {ch : Byte} {acts : List Act}
    (hp : p.state = .sChunkDataAlmostDone) (h : stepChunkDataAlmostDone p ch = .next acts q) :
    Turn p acts q := by
  unfold stepChunkDataAlmostDone at h
  split at h
  · cases h
  · obtain ⟨rfl,rfl⟩ := Step.next.inj h
    exact .finish (k := .body) (by rw [hp]; rfl) rfl fun _ => rfl

theorem stepReqSpacesBeforeUrl_turn {p q : HttpParser} {ch : Byte} {acts : List Act}
    (hp : p.state = .sReqSpacesBeforeUrl) (h : stepReqSpacesBeforeUrl p ch = .next acts q) :
    Turn p acts q := by
  have hm : p.state.mark = none := by rw [hp]; rfl
  unfold stepReqSpacesBeforeUrl at h
  split at h
  · obtain ⟨rfl,rfl⟩ := Step.next.inj h
    exact .quiet hm (by simp) (.inl hm)
  · obtain ⟨rfl,hq⟩ := urlByte_next h
    exact .start hm hq

theorem stepHeaderValueLws_turn {p q : HttpParser} {ch : Byte} {acts : List Act}
    (hp : p.state = .sHeaderValueLws) (h : stepHeaderValueLws p ch = .next acts q) :
    Turn p acts q := by
  have hm : p.state.mark = none := by rw [hp]; rfl
  unfold stepHeaderValueLws at h
  split at h
  · obtain ⟨rfl,rfl⟩ := Step.next.inj h
    exact .quiet hm (by simp) (.inl rfl)
  · exact stepHeaderFieldStart_turn hm h

theorem stepState_turn {p q : HttpParser} {ch : Byte} {acts : List Act}
    (h : stepState p ch = .next acts q) : Turn p acts q := by
  by_cases hq : p.state.quiet
  · exact (stepState_quiet hq ch).turn (State.mark_of_quiet hq) h
  · unfold stepState at h
    cases hs : p.state <;> rw [hs] at hq h <;> simp only at h
    all_goals first
      | exact absurd rfl hq
      | exact stepUrl_turn (by rw [hs]; rfl) h
      | exact stepHeaderField_turn hs h
      | exact stepHeaderValueStart_turn hs h
      | exact stepHeaderValue_turn hs h
      | exact stepHeaderFieldStart_turn (by rw [hs]; rfl) h
      | exact stepBodyIdentity_turn (by rw [hs]; rfl) h
      | exact stepChunkData_turn hs h
      | exact stepChunkDataAlmostDone_turn hs h
      | skip
    case sReqSpacesBeforeUrl => exact stepReqSpacesBeforeUrl_turn hs h
    case sHeaderValueLws => exact stepHeaderValueLws_turn hs h
    all_goals
      split at h
      · cases h
      · obtain ⟨rfl,hq⟩ := urlByte_next h
        exact .inside (k := .url) (by rw [hs]; rfl) (by simp) hq

theorem Turn.of_eq {p p' q : HttpParser} {acts : List Act} (h : Turn p' acts q)
    (hs : p'.state = p.state) (hf : p'.flags = p.flags) : Turn p acts q := by
  cases h with
  | quiet h1 h2 h3 => exact .quiet (hs ▸ h1) h2 h3
  | inside h1 h2 h3 => exact .inside (hs ▸ h1) h2 h3
  | start h1 h2 => exact .start (hs ▸ h1) h2
  | empty h1 h2 => exact .empty (hs ▸ h1) h2
  | finish h1 h2 h3 => exact .finish (hs ▸ h1) h2 (hf ▸ h3)
  | bodyByte h1 h2 h3 => exact .bodyByte (hs ▸ h1) h2 (hf ▸ h3)
  | bodyLast h1 h2 h3 => exact .bodyLast (hs ▸ h1) h2 (hf ▸ h3)

theorem step_turn {p q : HttpParser} {ch : Byte} {acts : List Act}
    (h : step p ch = .next acts q) : Turn p acts q := by
  unfold step at h
  simp only at h
  repeat' split at h
  · cases h
  · exact (stepState_turn h).of_eq rfl rfl
  · exact stepState_turn h

theorem stepHeaderFieldStart_stop {p q : HttpParser} {ch : Byte} {acts : List Act}
    (h : stepHeaderFieldStart p ch = .stop acts q) :
    (∀ a ∈ acts, a.isNotify) ∧ acts.any Act.completes := by
  unfold stepHeaderFieldStart at h
  simp only at h
  repeat' split at h
  · cases h
  · have := stepHeadersAlmostDone_quiet { p with state := .sHeadersAlmostDone } ch
    rwa [h] at this
  all_goals cases h

theorem stepState_stop {p q : HttpParser} {ch : Byte} {acts : List Act}
    (h : stepState p ch = .stop acts q) :
    p.state.mark = none ∧ (∀ a ∈ acts, a.isNotify) ∧ acts.any Act.completes := by
  by_cases hq : p.state.quiet
  · have := stepState_quiet hq ch
    rw [h] at this
    exact ⟨State.mark_of_quiet hq,this⟩
  · unfold stepState at h
    cases hs : p.state <;> rw [hs] at hq h <;> simp only at h
    all_goals first
      | exact absurd rfl hq
      | exact ⟨rfl,stepHeaderFieldStart_stop h⟩
      | skip
    case sHeaderValueLws =>
      unfold stepHeaderValueLws at h
      split at h
      · cases h
      · exact ⟨rfl,stepHeaderFieldStart_stop h⟩
    all_goals
      exfalso
      simp only [stepReqSpacesBeforeUrl,stepUrl,urlByte,stepHeaderField,stepHeaderValueStart,
        stepHeaderValue,stepHeaderAlmostDone,stepBodyIdentity,messageDone,stepChunkData,
        stepChunkDataAlmostDone] at h
      repeat' split at h
      all_goals cases h

theorem step_stop {p q : HttpParser} {ch : Byte} {acts : List Act}
    (h : step p ch = .stop acts q) :
    p.state.mark = none ∧ (∀ a ∈ acts, a.isNotify) ∧ acts.any Act.completes := by
  unfold step at h
  simp only at h
  repeat' split at h
  · cases h
  · exact ⟨(stepState_stop h).1,(stepState_stop h).2⟩
  · exact stepState_stop h

/-- A byte that is read without an error leaves `http_errno`. -/
def Step.Keeps (e : HttpErrno) : Step → Prop
  | .next _ q => q.httpErrno = e
  | _ => True

theorem Step.Keeps.ite {e : HttpErrno} {c : Prop} [Decidable c] {a b : Step} (ha : a.Keeps e)
    (hb : b.Keeps e) : (if c then a else b).Keeps e := by
  split <;> assumption

theorem stepStartReq_keeps (p : HttpParser) (ch : Byte) : (stepStartReq p ch).Keeps p.httpErrno := by
  unfold stepStartReq
  iterate 14 refine .ite rfl ?_
  trivial

theorem messageDone_keeps (p : HttpParser) : (messageDone p).Keeps p.httpErrno := rfl

theorem stepHeadersDone_keeps (p : HttpParser) (ch : Byte) :
    (stepHeadersDone p ch).Keeps p.httpErrno := by
  unfold stepHeadersDone
  simp only
  repeat' split
  all_goals trivial

theorem Step.Keeps.after {e : HttpErrno} {s : Step} (h : s.Keeps e) (as : List Act) :
    (s.after as).Keeps e := by
  cases s <;> exact h

theorem stepHeadersAlmostDone_keeps (p : HttpParser) (ch : Byte) :
    (stepHeadersAlmostDone p ch).Keeps p.httpErrno :=
  .ite trivial (.ite (messageDone_keeps p) (.ite trivial ((stepHeadersDone_keeps _ ch).after _)))

theorem stepHeaderFieldStart_keeps (p : HttpParser) (ch : Byte) :
    (stepHeaderFieldStart p ch).Keeps p.httpErrno :=
  .ite rfl (.ite (stepHeadersAlmostDone_keeps _ ch) (.ite trivial rfl))

theorem headerFieldToken_errno (p : HttpParser) (ch : Byte) :
    (headerFieldToken p ch).httpErrno = p.httpErrno := by
  unfold headerFieldToken matchNext
  simp only
  repeat' split
  all_goals rfl

theorem headerValueFirst_errno {p q : HttpParser} {ch : Byte} (h : headerValueFirst p ch = some q) :
    q.httpErrno = p.httpErrno := by
  unfold headerValueFirst at h
  simp only at h
  repeat' split at h
  all_goals first | cases h; rfl | cases h

theorem headerValueNext_errno {p q : HttpParser} {ch : Byte} (h : headerValueNext p ch = some q) :
    q.httpErrno = p.httpErrno := by
  unfold headerValueNext matchNext at h
  simp only at h
  repeat' split at h
  all_goals first | cases h; rfl | cases h | skip
  obtain ⟨t,-,rfl⟩ := Option.map_eq_some_iff.mp h
  rfl

theorem stepHeaderValueStart_keeps (p : HttpParser) (ch : Byte) :
    (stepHeaderValueStart p ch).Keeps p.httpErrno := by
  refine .ite rfl (.ite rfl (.ite rfl ?_))
  split
  next q hq =>
    have h := headerValueFirst_errno hq
    exact h
  · trivial

theorem stepHeaderValue_keeps (p : HttpParser) (ch : Byte) :
    (stepHeaderValue p ch).Keeps p.httpErrno := by
  refine .ite rfl (.ite ?_ ?_)
  · refine Step.Keeps.after ?_ _
    exact .ite (by trivial) rfl
  · split
    next q hq => exact headerValueNext_errno hq
    · trivial

theorem stepState_keeps (p : HttpParser) (ch : Byte) : (stepState p ch).Keeps p.httpErrno := by
  unfold stepState
  split
  case h_2 => exact stepStartReq_keeps p ch
  all_goals first
    | exact stepHeadersAlmostDone_keeps p ch
    | exact stepHeadersDone_keeps p ch
    | exact stepHeaderFieldStart_keeps p ch
    | exact stepHeaderValueStart_keeps p ch
    | exact stepHeaderValue_keeps p ch
    | exact messageDone_keeps p
    | exact .ite rfl (stepHeaderFieldStart_keeps _ ch)
    | skip
  all_goals
    try simp only [stepReqMethod,stepReqSpacesBeforeUrl,stepUrl,urlByte,stepReqHttpStart,
      strictNext,stepReqFirstHttpMajor,stepReqHttpMajor,stepReqFirstHttpMinor,stepReqHttpMinor,
      stepHeaderField,stepHeaderAlmostDone,stepBodyIdentity,stepChunkSizeStart,stepChunkSize,
      stepChunkParameters,stepChunkSizeAlmostDone,stepChunkData,stepChunkDataAlmostDone,
      stepChunkDataDone]
    repeat' split
    all_goals first | trivial | exact headerFieldToken_errno p ch

theorem step_errno {p q : HttpParser} {ch : Byte} {acts : List Act}
    (h : step p ch = .next acts q) : q.httpErrno = p.httpErrno := by
  unfold step at h
  simp only at h
  repeat' split at h
  · cases h
  · have hk := stepState_keeps { p with nread := p.nread + 1 } ch
    rwa [h] at hk
  · have hk := stepState_keeps p ch
    rwa [h] at hk

end Meinheld
