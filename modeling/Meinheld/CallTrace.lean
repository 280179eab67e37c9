import Meinheld.SplitBuffers
import Meinheld.HttpRequestParser

/-! The callbacks `http_parser_execute` runs for some bytes, apart from what they do. -/
namespace Meinheld

/-- What `headers_complete_cb` reads of the parser. -/
structure HeadView where
  method : HttpMethod
  httpMajor : ℕ
  httpMinor : ℕ
  flags : Flags
  contentLength : ℕ
  deriving DecidableEq, Repr

def HttpParser.view (p : HttpParser) : HeadView :=
  ⟨p.method,p.httpMajor,p.httpMinor,p.flags,p.contentLength⟩

/-- A parser as the callback sees it. -/
def HeadView.parser (v : HeadView) : HttpParser where
  method := v.method
  httpMajor := v.httpMajor
  httpMinor := v.httpMinor
  flags := v.flags
  contentLength := v.contentLength

/-- A call of a callback, with what it reads. -/
inductive Callout
  | messageBegin
  | url (buf : Bytes)
  | headerField (buf : Bytes)
  | headerValue (buf : Bytes)
  | headersComplete (v : HeadView)
  | body (flags : Flags) (buf : Bytes)
  | messageComplete (upgrade : Bool)
  deriving DecidableEq, Repr

def Callout.ofNotify : Notify → HttpParser → Callout
  | .messageBegin,_ => .messageBegin
  | .headersComplete,p => .headersComplete p.view
  | .messageComplete,p => .messageComplete p.upgrade

def Callout.ofData : Mark → HttpParser → Bytes → Callout
  | .url,_,buf => .url buf
  | .headerField,_,buf => .headerField buf
  | .headerValue,_,buf => .headerValue buf
  | .body,p,buf => .body p.flags buf

/-- The marked bytes before the next byte. -/
abbrev Marking := Option (Mark × Bytes)

def Marking.push (mk : Marking) (ch : Byte) : Marking := mk.map fun kb => (kb.1,kb.2 ++ [ch])

/-- The calls of one byte, and the mark they leave. -/
def actCalls (ch : Byte) : List Act → Marking → List Callout × Marking
  | [],mk => ([],mk)
  | .mark k :: as,mk => actCalls ch as (mk.or (some (k,[])))
  | .data _ _ _ _ :: as,none => actCalls ch as none
  | .data k incl _ p :: as,some (_,buf) =>
    let r := actCalls ch as none
    (.ofData k p (if incl then buf ++ [ch] else buf) :: r.1,r.2)
  | .notify n _ p :: as,mk =>
    let r := actCalls ch as mk
    (.ofNotify n p :: r.1,r.2)

/-- The calls for some bytes, with the parser and the mark after them. -/
structure Traced where
  calls : List Callout
  parser : HttpParser
  mark : Marking := none
  deriving DecidableEq, Repr

/-- The calls of `http_parser_execute` for the bytes of a buffer, when no byte is an error and no
upgrade stops it. -/
def trace : HttpParser → Marking → Bytes → Option Traced
  | p,mk,[] => some ⟨[],p,mk⟩
  | p,mk,ch :: rest =>
    match step p ch with
    | .next acts q =>
      let r := actCalls ch acts mk
      (trace q (Marking.push r.2 ch) rest).map fun t => { t with calls := r.1 ++ t.calls }
    | _ => none

theorem trace_append (p : HttpParser) (mk : Marking) (a b : Bytes) :
    trace p mk (a ++ b) = (trace p mk a).bind fun t =>
      (trace t.parser t.mark b).map fun t' => { t' with calls := t.calls ++ t'.calls } := by
  induction a generalizing p mk with
  | nil => simp [trace]
  | cons ch rest ih =>
    simp only [List.cons_append,trace]
    split
    next acts q _ =>
      rw [ih]
      cases trace q (Marking.push (actCalls ch acts mk).2 ch) rest with
      | none => rfl
      | some t => simp [Option.map_map,Function.comp_def,List.append_assoc]
    · rfl

/-- Bytes that are read set no error. -/
theorem trace_errno {s : Bytes} {p : HttpParser} {mk : Marking} {t : Traced}
    (h : trace p mk s = some t) : t.parser.httpErrno = p.httpErrno := by
  induction s generalizing p mk t with
  | nil =>
    cases h
    rfl
  | cons ch s ih =>
    simp only [trace] at h
    split at h
    next acts q hs =>
      obtain ⟨t',ht',rfl⟩ := Option.map_eq_some_iff.mp h
      exact (ih ht').trans (step_errno hs)
    · cases h

/-! ### Bytes without a trace -/

def Step.Flagged : Step → Prop
  | .error q => q.httpErrno ≠ .OK
  | .stop _ q => q.upgrade
  | _ => True

theorem Step.Flagged.ite {c : Prop} [Decidable c] {a b : Step} (ha : a.Flagged) (hb : b.Flagged) :
    (if c then a else b).Flagged := by
  split <;> assumption

theorem Step.Flagged.after {s : Step} (h : s.Flagged) (as : List Act) : (s.after as).Flagged := by
  cases s <;> exact h

theorem setErrno_flagged {p : HttpParser} {e : HttpErrno} (h : e ≠ .OK) : (setErrno p e).Flagged := h

theorem stepStartReq_flagged (p : HttpParser) (ch : Byte) : (stepStartReq p ch).Flagged := by
  unfold stepStartReq
  refine .ite trivial ?_
  iterate 13 refine .ite trivial ?_
  exact setErrno_flagged (by simp)

theorem stepHeadersDone_flagged (p : HttpParser) (ch : Byte) : (stepHeadersDone p ch).Flagged := by
  unfold stepHeadersDone
  refine .ite (setErrno_flagged (by simp)) ?_
  simp only
  split
  next h => exact h
  · exact .ite trivial (.ite trivial (.ite trivial trivial))

theorem stepHeadersAlmostDone_flagged (p : HttpParser) (ch : Byte) :
    (stepHeadersAlmostDone p ch).Flagged := by
  unfold stepHeadersAlmostDone
  exact .ite (setErrno_flagged (by simp)) (.ite trivial (.ite trivial
    (.after (stepHeadersDone_flagged _ _) _)))

theorem urlByte_flagged (as : List Act) (p : HttpParser) (ch : Byte) : (urlByte as p ch).Flagged :=
  .ite (setErrno_flagged (by simp)) trivial

theorem strictNext_flagged (p : HttpParser) (ch expected : Byte) (s : State) :
    (strictNext p ch expected s).Flagged :=
  .ite (setErrno_flagged (by simp)) trivial

theorem stepHeaderFieldStart_flagged (p : HttpParser) (ch : Byte) :
    (stepHeaderFieldStart p ch).Flagged := by
  unfold stepHeaderFieldStart
  exact .ite trivial (.ite (stepHeadersAlmostDone_flagged _ _) (.ite (setErrno_flagged (by simp)) trivial))

theorem stepHeaderAlmostDone_flagged (p : HttpParser) (ch : Byte) :
    (stepHeaderAlmostDone p ch).Flagged :=
  .ite (setErrno_flagged (by simp)) trivial

theorem stepHeader_flagged (p : HttpParser) (ch : Byte) :
    (stepHeaderField p ch).Flagged ∧ (stepHeaderValueStart p ch).Flagged ∧
      (stepHeaderValue p ch).Flagged := by
  refine ⟨?_,?_,?_⟩
  · exact .ite trivial (.ite trivial (.ite trivial (.ite trivial (setErrno_flagged (by simp)))))
  · refine .ite trivial (.ite trivial (.ite trivial ?_))
    split
    · trivial
    · exact setErrno_flagged (by simp)
  · refine .ite trivial (.ite (.after (stepHeaderAlmostDone_flagged _ _) _) ?_)
    split
    · trivial
    · exact setErrno_flagged (by simp)

theorem stepVersion_flagged (p : HttpParser) (ch : Byte) :
    (stepReqFirstHttpMajor p ch).Flagged ∧ (stepReqHttpMajor p ch).Flagged ∧
      (stepReqFirstHttpMinor p ch).Flagged ∧ (stepReqHttpMinor p ch).Flagged := by
  have herr : ∀ (q : HttpParser) (e : HttpErrno), e ≠ .OK → (setErrno q e).Flagged :=
    fun _ _ => setErrno_flagged
  refine ⟨.ite (herr _ _ (by simp)) trivial,.ite trivial (.ite (herr _ _ (by simp)) ?_),
    .ite (herr _ _ (by simp)) trivial,.ite trivial (.ite trivial (.ite (herr _ _ (by simp)) ?_))⟩
  · exact .ite (herr _ _ (by simp)) trivial
  · exact .ite (herr _ _ (by simp)) trivial

theorem stepChunk_flagged (p : HttpParser) (ch : Byte) :
    (stepChunkSizeStart p ch).Flagged ∧ (stepChunkSize p ch).Flagged ∧
      (stepChunkSizeAlmostDone p ch).Flagged := by
  refine ⟨?_,.ite trivial ?_,.ite (setErrno_flagged (by simp)) ?_⟩
  · unfold stepChunkSizeStart
    split
    · exact setErrno_flagged (by simp)
    · trivial
  · split
    · exact .ite trivial (setErrno_flagged (by simp))
    · split
      · exact setErrno_flagged (by simp)
      · trivial
  · exact .ite trivial trivial

theorem stepReqMethod_flagged (p : HttpParser) (ch : Byte) : (stepReqMethod p ch).Flagged := by
  refine .ite (setErrno_flagged (by simp)) (.ite trivial (.ite trivial ?_))
  split
  · trivial
  · exact setErrno_flagged (by simp)

theorem stepUrl_flagged (p : HttpParser) (ch : Byte) : (stepUrl p ch).Flagged :=
  .ite trivial (.ite trivial (urlByte_flagged _ _ _))

theorem stepState_flagged (p : HttpParser) (ch : Byte) : (stepState p ch).Flagged := by
  have herr : ∀ (q : HttpParser) (e : HttpErrno), e ≠ .OK → (setErrno q e).Flagged :=
    fun _ _ => setErrno_flagged
  unfold stepState
  split
  all_goals first
    | with_reducible first
      | exact stepStartReq_flagged _ _
      | exact stepReqMethod_flagged _ _
      | exact stepUrl_flagged _ _
      | exact strictNext_flagged _ _ _ _
      | exact stepHeaderFieldStart_flagged _ _
      | exact (stepHeader_flagged p ch).1
      | exact (stepHeader_flagged p ch).2.1
      | exact (stepHeader_flagged p ch).2.2
      | exact stepHeaderAlmostDone_flagged _ _
      | exact stepHeadersAlmostDone_flagged _ _
      | exact stepHeadersDone_flagged _ _
      | exact (stepVersion_flagged p ch).1
      | exact (stepVersion_flagged p ch).2.1
      | exact (stepVersion_flagged p ch).2.2.1
      | exact (stepVersion_flagged p ch).2.2.2
      | exact (stepChunk_flagged p ch).1
      | exact (stepChunk_flagged p ch).2.1
      | exact (stepChunk_flagged p ch).2.2
    | trivial
    | exact .ite (herr _ _ (by simp)) (urlByte_flagged _ _ _)
    | exact .ite trivial (urlByte_flagged _ _ _)
    | exact .ite trivial (herr _ _ (by simp))
    | exact .ite (herr _ _ (by simp)) trivial
    | exact .ite trivial (.ite trivial (herr _ _ (by simp)))
    | exact .ite trivial (stepHeaderFieldStart_flagged _ _)
    | exact .ite trivial trivial

theorem step_flagged (p : HttpParser) (ch : Byte) : (step p ch).Flagged :=
  .ite (.ite (setErrno_flagged (by simp)) (stepState_flagged _ _)) (stepState_flagged _ _)

/-! ### Callbacks that do something -/

section Replay
variable {σ : Type} {cb : Settings σ}

/-- A call, made. -/
def Callout.run (cb : Settings σ) : Callout → σ → Bool × σ
  | .messageBegin,d => cb.onNotify .messageBegin {} d
  | .url buf,d => cb.onData .url {} buf d
  | .headerField buf,d => cb.onData .headerField {} buf d
  | .headerValue buf,d => cb.onData .headerValue {} buf d
  | .headersComplete v,d => cb.onNotify .headersComplete v.parser d
  | .body flags buf,d => cb.onData .body { flags := flags } buf d
  | .messageComplete upgrade,d => cb.onNotify .messageComplete { upgrade := upgrade } d

/-- The calls one after the other, as long as they return 0. -/
def replay (cb : Settings σ) : List Callout → σ → Option σ
  | [],d => some d
  | c :: cs,d =>
    match c.run cb d with
    | (true,e) => replay cb cs e
    | (false,_) => none

/-- The callbacks read no more of the parser than a `Callout` keeps. -/
structure Settings.Views (cb : Settings σ) : Prop where
  notify n p d : cb.onNotify n p d = (Callout.ofNotify n p).run cb d
  data k p buf d : cb.onData k p buf d = (Callout.ofData k p buf).run cb d

theorem replay_append (cs cs' : List Callout) (d : σ) :
    replay cb (cs ++ cs') d = (replay cb cs d).bind (replay cb cs') := by
  induction cs generalizing d with
  | nil => rfl
  | cons c cs ih =>
    simp only [List.cons_append,replay]
    split
    · exact ih _
    · rfl

theorem runActs_replay (hv : cb.Views) (ch : Byte) (as : List Act) (d : σ) (mk : Marking) :
    (runActs cb ch as ⟨d,mk⟩).toOption =
      (replay cb (actCalls ch as mk).1 d).map fun e => ⟨e,(actCalls ch as mk).2⟩ := by
  induction as generalizing d mk with
  | nil => rfl
  | cons a as ih =>
    cases a with
    | mark k => exact ih d _
    | data k incl adv p =>
      cases mk with
      | none => exact ih d none
      | some kb =>
        simp only [runActs,actCalls,replay,hv.data k p]
        cases Callout.run cb (.ofData k p (if incl then kb.2 ++ [ch] else kb.2)) d with
        | mk go e =>
          cases go with
          | true => exact ih e none
          | false => rfl
    | notify n adv p =>
      simp only [runActs,actCalls,replay,hv.notify n p]
      cases Callout.run cb (.ofNotify n p) d with
      | mk go e =>
        cases go with
        | true => exact ih e mk
        | false => rfl

/-- The loop of `http_parser_execute` makes the calls of a trace, and goes on after it. -/
theorem executeLoop_trace (hv : cb.Views) {s : Bytes} {p : HttpParser} {mk : Marking} {t : Traced}
    (h : trace p mk s = some t) {d e : σ} (hd : replay cb t.calls d = some e) (pos : ℕ) (rest : Bytes) :
    executeLoop cb p ⟨d,mk⟩ pos (s ++ rest) = executeLoop cb t.parser ⟨e,t.mark⟩ (pos + s.length) rest := by
  induction s generalizing p mk t d pos with
  | nil =>
    cases h
    cases hd
    rfl
  | cons ch s ih =>
    simp only [trace] at h
    split at h
    next acts q hs =>
      obtain ⟨t',ht',rfl⟩ := Option.map_eq_some_iff.mp h
      rw [replay_append] at hd
      obtain ⟨d1,hd1,hd2⟩ := Option.bind_eq_some_iff.mp hd
      have hr := runActs_replay hv ch acts d mk
      rw [hd1] at hr
      cases hrun : runActs cb ch acts ⟨d,mk⟩ with
      | error e => simp [hrun,Except.toOption] at hr
      | ok m =>
        obtain rfl : m = ⟨d1,(actCalls ch acts mk).2⟩ := by
          simpa [hrun,Except.toOption] using hr
        have hrest := ih ht' hd2 (pos + 1)
        simp only [List.cons_append,executeLoop,hs,hrun,List.length_cons]
        rw [show pos + (s.length + 1) = pos + 1 + s.length by omega]
        exact hrest
    · cases h

end Replay

/-! ### Callbacks that note their calls -/

def recorder : Settings (List Callout) where
  onNotify n p d := (true,d ++ [.ofNotify n p])
  onData k p buf d := (true,d ++ [.ofData k p buf])

theorem recorder_views : recorder.Views where
  notify n p d := by cases n <;> rfl
  data k p buf d := by cases k <;> rfl

theorem replay_recorder (cs d : List Callout) : replay recorder cs d = some (d ++ cs) := by
  induction cs generalizing d with
  | nil => simp [replay]
  | cons c cs ih =>
    have hc : c.run recorder d = (true,d ++ [c]) := by cases c <;> rfl
    simp only [replay,hc,ih,List.append_assoc,List.singleton_append]

/-- What the parser and the calls are behind bytes that are read. -/
theorem executeLoop_recorder {s : Bytes} {p : HttpParser} {mk : Marking} {t : Traced}
    (h : trace p mk s = some t) (ht : t.mark = none) (d : List Callout) (pos : ℕ) :
    executeLoop recorder p ⟨d,mk⟩ pos s = (t.parser,d ++ t.calls,((pos + s.length : ℕ) : ℤ)) := by
  have hrun := executeLoop_trace recorder_views h (replay_recorder t.calls d) pos []
  rw [List.append_nil] at hrun
  rw [hrun,executeLoop,ht]
  rfl

/-- How bytes that are not read leave the loop. -/
theorem executeLoop_no_trace {s : Bytes} {p : HttpParser} {mk : Marking} (h : trace p mk s = none)
    (d : List Callout) (pos : ℕ) (rest : Bytes) :
    (executeLoop recorder p ⟨d,mk⟩ pos (s ++ rest)).1.httpErrno ≠ .OK ∨
      (executeLoop recorder p ⟨d,mk⟩ pos (s ++ rest)).2.2 = -1 ∨
      (executeLoop recorder p ⟨d,mk⟩ pos (s ++ rest)).1.upgrade := by
  have hrun : ∀ ch acts d mk, runActs recorder ch acts ⟨d,mk⟩ =
      .ok ⟨d ++ (actCalls ch acts mk).1,(actCalls ch acts mk).2⟩ := by
    intro ch acts d mk
    have hr := runActs_replay recorder_views ch acts d mk
    rw [replay_recorder] at hr
    cases hrun : runActs recorder ch acts ⟨d,mk⟩ with
    | error e => simp [hrun,Except.toOption] at hr
    | ok m => simpa [hrun,Except.toOption] using hr
  induction s generalizing p mk d pos with
  | nil => cases h
  | cons ch s ih =>
    have hflag := step_flagged p ch
    simp only [trace] at h
    simp only [List.cons_append,executeLoop]
    cases hs : step p ch with
    | next acts q =>
      rw [hs] at h
      simp only [hrun]
      exact ih (Option.map_eq_none_iff.mp h) _ _
    | stop acts q =>
      rw [hs] at hflag
      simp only [hrun]
      exact .inr (.inr hflag)
    | bail q => exact .inr (.inl rfl)
    | error q =>
      rw [hs] at hflag
      exact .inl hflag

/-- The callbacks of the server read no more. -/
theorem settings_views (g : Globals) : (settings g).Views where
  notify n p d := by cases n <;> rfl
  data k p buf d := by cases k <;> rfl

end Meinheld
